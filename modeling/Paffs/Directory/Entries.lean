import Paffs.DataIO.File

/-! A directory: records of variable length in the data of an inode. -/
namespace Paffs.Directory
open Bytes (Byte Memory toBytes ofBytes)
open DataIO (State Env)

/-- The bytes of a string, without the zero behind them. -/
abbrev Name := List Byte

def maxDirEntryLength : Nat := 255

/-- The length, which counts itself and has eight bits, the inode number and the name. -/
def record (name : Name) (no : InodeNo) : List Byte := BitVec.ofNat 8 (5 + name.length) :: (toBytes 4 no.toNat ++ name)

/-- The length of a name has 16 bits. `none` for the character before an empty string. -/
def elemName (name : Name) : Option Name :=
  let elemNameL := name.length % 2 ^ 16
  if elemNameL = 0 then none
  else if name.getD (elemNameL - 1) 0 = 47 then some (name.take (elemNameL - 1))
  else some (name.take elemNameL)

/-- The count of the entries is in the first two bytes. -/
def setCount (dirData : List Byte) (f : Nat → Nat) : List Byte := toBytes 2 (f (ofBytes (dirData.take 2))) ++ dirData.drop 2

/-- The loop of `getInodeNoInDir`. `none` when it reads behind the buffer. -/
def findName (data : List Byte) (name : Name) : Nat → Nat → Option (Except Result InodeNo)
  | 0, _ => none
  | fuel + 1, p =>
    if data.length ≤ p then some (.error .notFound)
    else
      let direntryl := (data.getD p 0).toNat
      if direntryl < 6 then some (.error .bug)
      else if data.length < direntryl then some (.error .bug)
      else
        let dirnamel := direntryl - 5
        -- the length of the name that is looked for has eight bits
        if dirnamel = name.length % 2 ^ 8 then
          if data.length < p + direntryl then none
          else if name.take dirnamel = (data.drop (p + 5)).take dirnamel then
            some (.ok (UInt32.ofNat (ofBytes ((data.drop (p + 1)).take 4))))
          else findName data name fuel (p + direntryl)
        else findName data name fuel (p + direntryl)

/-- The loop of `removeInodeFromDir`: where the entry is, and how long. `none` when it reads behind the buffer or does not end. -/
def findInode (data : List Byte) (elem : InodeNo) : Nat → Nat → Option (Option (Nat × Nat))
  | 0, _ => none
  | fuel + 1, pointer =>
    if data.length ≤ pointer then some none
    else if data.length < pointer + 5 then none
    else
      let entryl := (data.getD pointer 0).toNat
      if (data.drop (pointer + 1)).take 4 = toBytes 4 elem.toNat then some (some (pointer, entryl))
      else findInode data elem fuel (pointer + entryl)

structure Entry where
  name : Name
  no : InodeNo
  deriving DecidableEq

/-- The loop of `openDir`. -/
def readEntries (data : List Byte) : Nat → Nat → Option (List Entry)
  | 0, _ => none
  | fuel + 1, p =>
    if data.length ≤ p then some []
    else
      let direntryl := (data.getD p 0).toNat
      let dirnamel := (direntryl + 2 ^ 16 - 5) % 2 ^ 16
      if dirnamel > data.length - p then none
      else
        (readEntries data fuel (p + 5 + dirnamel)).map
          (⟨(data.drop (p + 5)).take dirnamel, UInt32.ofNat (ofBytes ((data.drop (p + 1)).take 4))⟩ :: ·)

variable (c : DataIO.Config) (env : Env) (contDir : State)

def getInodeNoInDir (name : Name) : Option (Except Result InodeNo) :=
  if contDir.size ≤ 2 then some (.error .notFound)
  else
    match contDir.readInodeData c env 0 contDir.size with
    | none => none
    | some (.ok, data) => if data.length ≠ contDir.size then some (.error .bug) else findName data name (data.length + 1) 2
    | some (r, _) => some (.error r)

/-- The entries `openDir` finds. -/
def entriesOf : Option (List Entry) :=
  if contDir.reservedPages > 0 then
    match contDir.readInodeData c env 0 contDir.size with
    | some (.ok, data) => if data.length ≠ contDir.size then none else readEntries data (data.length + 1) 2
    | _ => none
  else readEntries (List.replicate contDir.size 0) (contDir.size + 1) 2

/-- The commit of the address cache, and the flush when the log is nearly full. -/
def commit : Result × State :=
  match env.outcome contDir.clock with
  | .ok => (env.outcome (contDir.clock + 1), contDir.tick.tick)
  | r => (r, contDir.tick)

/-- The data an entry is appended to. -/
def dirData : Option (Result × List Byte) :=
  if contDir.reservedPages > 0 then contDir.readInodeData c env 0 contDir.size
  else some (.ok, List.replicate contDir.size 0)

/-- Writes the whole directory. -/
def writeDir (data : List Byte) : Result × State :=
  match contDir.writeInodeData c env 0 data.length fun i => data.getD i 0 with
  | ((r, _), contDir) => (r, contDir)

/-- `none` when the access to memory is not allowed, as for a record that is longer than its 8-bit length. -/
def insertInodeInDir (name : Name) (no : InodeNo) : Option (Result × State) :=
  match elemName name with
  | none => none
  | some elem =>
    if elem.length > maxDirEntryLength then some (.objNameTooLong, contDir)
    else if 5 + elem.length ≥ 2 ^ 8 then none
    else
      let contDir := { contDir with size := if contDir.size = 0 then 2 else contDir.size }
      match dirData c env contDir with
      | none => none
      | some (.ok, data) =>
        if data.length ≠ contDir.size then some (.ok, contDir)
        else
          match writeDir c env contDir (setCount (data ++ record elem no) (· + 1)) with
          | (.ok, contDir) => some (commit env contDir)
          | r => some r
      | some (r, _) => some (r, contDir)

def removeInodeFromDir (elem : InodeNo) : Option (Result × State) :=
  if contDir.reservedPages = 0 then some (.notFound, contDir)
  else
    match contDir.readInodeData c env 0 contDir.size with
    | none => none
    | some (.ok, data) =>
      if data.length ≠ contDir.size then some (.ok, contDir)
      else
        match findInode data elem (data.length + 1) 2 with
        | none => none
        | some none => some (.notFound, contDir)
        | some (some (pointer, entryl)) =>
          if data.length = 2 + entryl then
            -- this was the last entry
            match contDir.deleteInodeData c env 0 with
            | (.ok, contDir) => some (commit env contDir)
            | r => some r
          else if data.length < pointer + entryl then none
          else
            let data := setCount data (· + (2 ^ 16 - 1))
            match writeDir c env contDir (data.take pointer ++ data.drop (pointer + entryl)) with
            | (.ok, contDir) =>
              match contDir.deleteInodeData c env (data.length - entryl) with
              | (.ok, contDir) => some (commit env contDir)
              | r => some r
            | r => some r
    | some (r, _) => some (r, contDir)

end Paffs.Directory
