import Paffs.Directory.Entries

/-! The objects of a device by their paths: creating and removing them. -/
namespace Paffs.Namespace
open Bytes (Byte)
open DataIO (State)
open Directory (Name getInodeNoInDir insertInodeInDir removeInodeFromDir maxDirEntryLength)

/-- The bytes of a path, without the zero behind them. -/
abbrev Path := List Byte

def slash : Byte := 47

/-! ### Paths -/

/-- What `strtok` makes of a path, `cur` being the token it is in. -/
def tokens : Name → Path → List Name
  | cur, [] => if cur = [] then [] else [cur]
  | cur, b :: rest =>
    if b = slash then if cur = [] then tokens [] rest else cur :: tokens [] rest
    else tokens (cur ++ [b]) rest

/-- The loop of `getParentDir`: a slash at the end of a path does not count. -/
def lastSlash : Nat → Nat → Path → Nat
  | _, last, [] => last
  | p, last, b :: rest => lastSlash (p + 1) (if b = slash ∧ rest ≠ [] then p + 1 else last) rest

/-! ### Devices -/

structure Inode where
  type : InodeType
  perm : Nat
  size : Nat
  reservedPages : Nat
  page : PageNo → Addr

/-- `noRoom` stands for the check of the used areas, `opened` for the references to an inode others hold. -/
structure Env extends DataIO.Env where
  noRoom : Nat → Bool
  opened : Nat → InodeNo → Bool

/-- A mounted device that may be written. The tree is a list of the inodes by their numbers. -/
structure Device where
  tree : List (InodeNo × Inode)
  flash : Addr → Bytes.Memory
  used : Addr → Bool
  replaced : List (Addr × Addr)
  clock : Nat

def permW : Nat := 2
def permR : Nat := 1
def permMask : Nat := 7

variable (c : DataIO.Config) (env : Env)

namespace Device
variable (d : Device)

def lookup (no : InodeNo) : Option Inode := (d.tree.find? fun x => x.1 = no).map Prod.snd

/-- The data of one inode. -/
def view (inode : Inode) : State :=
  ⟨inode.size, inode.reservedPages, inode.page, d.flash, d.used, d.replaced, d.clock⟩

/-- What an operation on the data of an inode leaves. -/
def put (no : InodeNo) (s : State) : Device where
  tree := d.tree.map fun x => if x.1 = no then (no, ⟨x.2.type, x.2.perm, s.size, s.reservedPages, s.page⟩) else x
  flash := s.flash
  used := s.used
  replaced := s.replaced
  clock := s.clock

def tick : Device := { d with clock := d.clock + 1 }

/-! ### Looking for an object -/

/-- The loop of `getInodeOfElem`. -/
def walk : List Name → InodeNo → Option (Except Result InodeNo)
  | [], curr => some (.ok curr)
  | fnP :: rest, curr =>
    match d.lookup curr with
    | none => some (.error .notFound)
    | some inode =>
      if inode.type ≠ .dir then some (.error .invalidInput)
      else
        match getInodeNoInDir c env.toEnv (d.view inode) fnP with
        | none => none
        | some (.error r) => some (.error r)
        | some (.ok next) => if (d.lookup next).isNone then some (.error .notFound) else walk rest next

/-- The length of a path has 16 bits. -/
def getInodeOfElem (fullPath : Path) : Option (Except Result InodeNo) :=
  if (d.lookup 0).isNone then some (.error .fail) else walk c env d (tokens [] (fullPath.take (fullPath.length % 2 ^ 16))) 0

/-- The parent and where the name begins. `none` for a path the 16-bit counter does not get to the end of. -/
def getParentDir (fullPath : Path) : Option (Except Result (InodeNo × Nat)) :=
  if fullPath = [] then some (.error .invalidInput)
  else if fullPath.length ≥ 2 ^ 16 then none
  else
    let last := lastSlash 0 0 fullPath
    (getInodeOfElem c env d (fullPath.take last)).map (·.map (·, last))

/-! ### Creating an object -/

/-- The number behind the largest one, which wraps around. -/
def findFirstFreeNo : InodeNo := (d.tree.map Prod.fst).max?.elim 0 (· + 1)

def createInode (type : InodeType) (mask : Nat) : Inode :=
  let perm := mask &&& permMask
  ⟨type, if mask &&& permW ≠ 0 then perm ||| permR else perm, 0, 0, fun _ => 0⟩

def insertInode (no : InodeNo) (inode : Inode) : Result × Device :=
  match env.outcome d.clock with
  | .ok => if (d.lookup no).isSome then (.exists, d.tick) else (.ok, { d with tree := d.tree ++ [(no, inode)] }.tick)
  | r => (r, d.tick)

/-- What `createFile` and `mkDir` share. -/
def createObject (fullPath : Path) (type : InodeType) (mask : Nat) : Option (Result × Device) :=
  if env.noRoom d.clock then some (.noSpace, d)
  else
    match getParentDir c env d fullPath with
    | none => none
    | some (.error r) => some (r, d)
    | some (.ok (parDir, last)) =>
      if (fullPath.drop last).length > maxDirEntryLength then some (.objNameTooLong, d)
      else
        let no := d.findFirstFreeNo
        match insertInode env d no (createInode type mask) with
        | (.ok, d) =>
          match d.lookup parDir with
          | none => some (.bug, d)
          | some dir =>
            (insertInodeInDir c env.toEnv (d.view dir) (fullPath.drop last) no).map fun r => (r.1, d.put parDir r.2)
        | r => some r

def createFile (fullPath : Path) : Option (Result × Device) := createObject c env d fullPath .file (permR ||| permW)

/-- The checkpoint that follows finds the log nearly full, or not. -/
def mkDir (fullPath : Path) (mask : Nat) : Option (Result × Device) :=
  match createObject c env d fullPath .dir mask with
  | some (.ok, d) => some (env.outcome d.clock, d.tick)
  | r => r

/-- `open` with `FC`, as far as names are concerned, and `touch`. -/
def openFile (fullPath : Path) : Option (Result × Device) :=
  match getInodeOfElem c env d fullPath with
  | none => none
  | some (.error .notFound) => createFile c env d fullPath
  | some (.error r) => some (r, d)
  | some (.ok no) =>
    match d.lookup no with
    | none => some (.bug, d)
    | some inode => some (if inode.type = .file then .ok else .invalidInput, d)

/-! ### Removing an object -/

/-- With the new length zero, for `remove`. -/
def truncate (fullPath : Path) : Option (Result × Device) :=
  match getInodeOfElem c env d fullPath with
  | none => none
  | some (.error r) => some (r, d)
  | some (.ok no) =>
    match d.lookup no with
    | none => some (.bug, d)
    | some inode =>
      if inode.perm &&& permW = 0 then some (.noPerm, d)
      else if inode.type = .dir ∧ inode.size > 2 then some (.dirNotEmpty, d)
      else
        match (d.view inode).deleteInodeData c env.toEnv 0 with
        -- the result of the commit of the address cache is only printed
        | (.ok, s) => some (.ok, (d.put no s).tick)
        | (r, s) => some (r, d.put no s)

def deleteInode (no : InodeNo) : Result × Device :=
  match env.outcome d.clock with
  | .ok => (.ok, { d with tree := d.tree.filter fun x => x.1 ≠ no }.tick)
  | r => (r, d.tick)

def remove (path : Path) : Option (Result × Device) :=
  match getInodeOfElem c env d path with
  | none => none
  | some (.error r) => some (r, d)
  | some (.ok object) =>
    if env.opened d.clock object then some (.invalidInput, d)
    else
      match getParentDir c env d path with
      | none => none
      | some (.error r) => some (r, d)
      | some (.ok (parentDir, _)) =>
        match truncate c env d path with
        | some (.ok, d) =>
          match d.lookup parentDir with
          | none => some (.bug, d)
          | some dir =>
            match removeInodeFromDir c env.toEnv (d.view dir) object with
            | none => none
            | some (.ok, s) =>
              match deleteInode env (d.put parentDir s) object with
              | (.ok, d) => some (env.outcome d.clock, d.tick)
              | r => some r
            | some (r, s) => some (r, d.put parentDir s)
        | r => r

end Device
end Paffs.Namespace
