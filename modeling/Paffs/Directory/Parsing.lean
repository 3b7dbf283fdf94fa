import Paffs.Directory.Entries

/-! The parsers of a directory on any bytes. -/
namespace Paffs.Directory.Parsing
open Bytes (Byte toBytes ofBytes)

/-- How a call ends: `outside` when it touches memory it did not allocate, `running` when the fuel does not do. A null pointer
is `failed`, with `lasterr`. -/
inductive Outcome where
  | done
  | failed (r : Result)
  | outside
  | running
  deriving DecidableEq

def ofResult (r : Result) : Outcome := if r = .ok then .done else .failed r

/-- A directory inode with its bytes. -/
structure Folder where
  bytes : List Byte
  reservedPages : Nat
  size_lt : bytes.length < 2 ^ 32

namespace Folder

def size (folder : Folder) : Nat := folder.bytes.length

end Folder

/-- What the calls to others answer. Where `readInodeData` is `ok` and reads `size` bytes, they are the bytes of the folder. -/
structure Others where
  readInodeData : Result × Nat
  getInode : InodeNo → Bool
  deleteInodeData : Result
  writeInodeData : Result
  commit : Result
  checkpoint : Result
  flushAllCaches : Result

/-- Positions and sizes of files have 32 bits. -/
def wrap (p : Nat) : Nat := p % 2 ^ 32

def byte (data : List Byte) (p : Nat) : Nat := (data.getD p 0).toNat

def inodeNo (data : List Byte) (p : Nat) : InodeNo := UInt32.ofNat (ofBytes ((data.drop p).take 4))

/-- The first two bytes. -/
def count (data : List Byte) : Nat := ofBytes (data.take 2)

/-- `direntryl - sizeof(DirEntryLength) - sizeof(InodeNo)`, in 16 bits. -/
def nameLength (direntryl : Nat) : Nat := (direntryl + 2 ^ 16 - 5) % 2 ^ 16

/-! ### `getInodeNoInDir` -/

/-- `name` is a string without a zero; its length is kept in eight bits. -/
def findName (data : List Byte) (name : Name) : Nat → Nat → Outcome
  | 0, _ => .running
  | fuel + 1, p =>
    if data.length ≤ p then .failed .notFound
    else
      let direntryl := byte data p
      if direntryl < 6 then .failed .bug
      else if data.length < direntryl then .failed .bug
      else
        let dirnamel := direntryl - 5
        let p := wrap (p + 5)
        if dirnamel = name.length % 2 ^ 8 then
          if data.length < p + dirnamel then .outside
          else if name.take dirnamel = (data.drop p).take dirnamel then if p < 4 then .outside else .done
          else findName data name fuel (wrap (p + dirnamel))
        else findName data name fuel (wrap (p + dirnamel))

def getInodeNoInDir (folder : Folder) (others : Others) (name : Name) (fuel : Nat) : Outcome :=
  if folder.size ≤ 2 then .failed .notFound
  else
    let (r, bytesRead) := others.readInodeData
    if r ≠ .ok ∨ bytesRead ≠ folder.size then .failed (if r = .ok then .bug else r)
    else findName folder.bytes name fuel 2

/-! ### `checkFolderSanity` -/

/-- The characters of a name from `i` on, `k` of them; `none` if all of them are printable. -/
def scanChars (data : List Byte) (p : Nat) : Nat → Nat → Option Outcome
  | 0, _ => none
  | k + 1, i =>
    if data.length ≤ wrap (p + i) then some .outside
    else if byte data (wrap (p + i)) < 32 ∨ byte data (wrap (p + i)) > 126 then some (.failed .bug)
    else scanChars data p k (i + 1)

/-- The index has eight bits, so that it never reaches a longer name's end. -/
def checkName (data : List Byte) (p dirnamel : Nat) : Option Outcome :=
  if dirnamel < 2 ^ 8 then scanChars data p dirnamel 0
  else (scanChars data p (2 ^ 8) 0).getD .running

def checkEntries (data : List Byte) (getInode : InodeNo → Bool) : Nat → Nat → Nat → Outcome
  | 0, _, _ => .running
  | fuel + 1, p, currentEntry =>
    if data.length ≤ p then if currentEntry ≠ count data then .failed .bug else .done
    else
      let direntryl := byte data p
      if direntryl > data.length - p then .failed .bug
      else
        let dirnamel := nameLength direntryl
        let p := wrap (p + 1)
        if data.length < p + 4 then .outside
        else if !getInode (inodeNo data p) then .failed .bug
        else
          let p := wrap (p + 4)
          (checkName data p dirnamel).getD
            (checkEntries data getInode fuel (wrap (p + dirnamel)) ((currentEntry + 1) % 2 ^ 16))

/-- The inode of the folder is at hand. -/
def checkFolderSanity (folder : Folder) (others : Others) (fuel : Nat) : Outcome :=
  if folder.reservedPages = 0 then .done
  else
    let (r, bytes) := others.readInodeData
    if r ≠ .ok ∨ bytes ≠ folder.size then ofResult r
    else if folder.size < 2 then .outside
    else checkEntries folder.bytes others.getInode fuel 2 0

/-! ### `removeInodeFromDir` -/

/-- The entry that was found is cut out. -/
def removeEntry (size : Nat) (others : Others) (pointer entryl : Nat) : Outcome :=
  let newSize := wrap (size + 2 ^ 32 - entryl)
  let restByte := wrap (newSize + 2 ^ 32 - pointer)
  let newSize := if newSize = 2 then 0 else newSize
  if newSize = 0 then
    if others.deleteInodeData ≠ .ok then .failed others.deleteInodeData else ofResult others.commit
  else
    let source := wrap (pointer + entryl)
    if 0 < restByte ∧ (size < source + restByte ∨ size < pointer + restByte) then .outside
    else if size < newSize then .outside
    else if others.writeInodeData ≠ .ok then .failed others.writeInodeData
    else if others.deleteInodeData ≠ .ok then .failed others.deleteInodeData
    else if others.commit ≠ .ok then .failed others.commit
    else if others.checkpoint = .lowMem then ofResult others.flushAllCaches
    else .done

def findInode (data : List Byte) (others : Others) (elem : InodeNo) : Nat → Nat → Outcome
  | 0, _ => .running
  | fuel + 1, pointer =>
    if data.length ≤ pointer then .failed .notFound
    else if data.length < pointer + 5 then .outside
    else
      let entryl := byte data pointer
      if (data.drop (pointer + 1)).take 4 = toBytes 4 elem.toNat then removeEntry data.length others pointer entryl
      else findInode data others elem fuel (wrap (pointer + entryl))

def removeInodeFromDir (folder : Folder) (others : Others) (elem : InodeNo) (fuel : Nat) : Outcome :=
  if folder.reservedPages = 0 then .failed .notFound
  else
    let (r, bytes) := others.readInodeData
    if r ≠ .ok ∨ bytes ≠ folder.size then ofResult r
    else if folder.size < 2 then .outside
    else findInode folder.bytes others elem fuel 2

/-! ### `openDir` -/

/-- `entries` is the length of the array `childs`. -/
def readChilds (data : List Byte) (entries : Nat) : Nat → Nat → Nat → Outcome
  | 0, _, _ => .running
  | fuel + 1, p, entry =>
    if data.length ≤ p then if entry ≠ entries then .failed .bug else .done
    else
      let dirnamel := nameLength (byte data p)
      if dirnamel > data.length - p then .failed .bug
      else
        let p := wrap (p + 1)
        if entries ≤ entry ∨ data.length < p + 4 then .outside
        else
          let p := wrap (p + 4)
          if data.length < p + dirnamel then .outside
          else readChilds data entries fuel (wrap (p + dirnamel)) ((entry + 1) % 2 ^ 16)

/-- The inode of the folder is at hand. -/
def openDir (folder : Folder) (others : Others) (fuel : Nat) : Outcome :=
  let (r, br) := others.readInodeData
  if folder.reservedPages > 0 ∧ (r ≠ .ok ∨ br ≠ folder.size) then .failed r
  else
    let dirData := if folder.reservedPages > 0 then folder.bytes else List.replicate folder.size 0
    if folder.size = 0 then readChilds dirData 0 fuel 2 0
    else if folder.size < 2 then .outside
    else readChilds dirData (count dirData) fuel 2 0

/-! ### Directories that are well formed -/

/-- From position `p` on there are `k` entries up to the end of the data, none of them shorter than its header. -/
def Walk (data : List Byte) : Nat → Nat → Prop
  | 0, p => p = data.length
  | k + 1, p => p < data.length ∧ 5 ≤ byte data p ∧ p + byte data p ≤ data.length ∧ Walk data k (p + byte data p)

instance decidableWalk (data : List Byte) : (k p : Nat) → Decidable (Walk data k p)
  | 0, p => inferInstanceAs (Decidable (p = data.length))
  | k + 1, p =>
    have := decidableWalk data k (p + byte data p)
    inferInstanceAs (Decidable (_ ∧ _ ∧ _ ∧ Walk data k (p + byte data p)))

/-- An empty file, or as many entries as its first two bytes say. -/
def WellFormed (data : List Byte) : Prop := data = [] ∨ 2 ≤ data.length ∧ Walk data (count data) 2

instance (data : List Byte) : Decidable (WellFormed data) := inferInstanceAs (Decidable (_ ∨ _ ∧ _))

/-- A call ends within its memory, and without success where the directory is not well formed. -/
def Safe (folder : Folder) (call : Nat → Outcome) : Prop :=
  ∃ fuel, (call fuel = .done ∧ WellFormed folder.bytes) ∨ ∃ r, call fuel = .failed r

/-- All parsers are safe on a directory, whatever is looked for and the others answer. -/
structure ParsersSafe (folder : Folder) (readInodeData : Result × Nat) : Prop where
  getInodeNoInDir : ∀ others : Others, others.readInodeData = readInodeData → ∀ name,
    Safe folder (getInodeNoInDir folder others name)
  checkFolderSanity : ∀ others : Others, others.readInodeData = readInodeData → Safe folder (checkFolderSanity folder others)
  removeInodeFromDir : ∀ others : Others, others.readInodeData = readInodeData → ∀ elem,
    Safe folder (removeInodeFromDir folder others elem)
  openDir : ∀ others : Others, others.readInodeData = readInodeData → Safe folder (openDir folder others)

/-- When that is so: the directory is well formed, the data cannot be read at all, or there is room for the count only. An inode
without pages must not claim more bytes than the length of its first entry lets pass, and one with pages has its count. -/
def Sane (folder : Folder) (readInodeData : Result × Nat) : Prop :=
  if folder.reservedPages = 0 then WellFormed folder.bytes ∧ folder.size < 65533
  else if readInodeData.1 ≠ .ok then True
  else if readInodeData.2 ≠ folder.size then WellFormed folder.bytes
  else 2 ≤ folder.size ∧ (WellFormed folder.bytes ∨ folder.size = 2)

end Paffs.Directory.Parsing
