import Paffs.Device.Namespace

/-! Open files and directories: the calls a user makes of a mounted device. -/
namespace Paffs.Namespace
open Bytes (Byte Memory toBytes ofBytes)
open DataIO (State)
open Directory (Name entriesOf)

/-! ### What is open -/

/-- `FW`: the file is opened for writing. -/
def openW : Nat := 2
/-- `FA`: at its end. -/
def openA : Nat := 8
/-- `FC`: it is created if it is not found. -/
def openC : Nat := 32

inductive Seekmode where
  | set
  | end_
  | cur

/-- Where it leads to, from a file of this size and this position. -/
def Seekmode.target (size fp : Nat) (offs : Int) : Seekmode → Int
  | set => offs
  | end_ => size + offs
  | cur => fp + offs

/-- An open file. Its inode stays in the pool. -/
structure Obj where
  no : InodeNo
  fp : Nat
  rdnly : Bool

/-- An entry of an open directory, `loaded` as soon as `readDir` has taken its inode to the pool. -/
structure Dirent where
  no : InodeNo
  name : Name
  loaded : Bool

structure Dir where
  self : InodeNo
  childs : List Dirent
  pos : Nat

/-- `nearlyFull` is what the checkpoint behind an operation finds of the log. -/
structure FileEnv extends toNamespace : Env where
  nearlyFull : Nat → Bool

/-- What is open, with the slots for files. Directories are opened without a limit. -/
structure Session where
  readOnly : Bool
  filesPool : List (Option Obj)
  dirs : List (Option Dir)

structure Mounted extends Session where
  device : Device

/-- What a call gives to its caller. -/
inductive Answer where
  | ok
  | error (r : Result)
  | opened (i : Nat)
  | bytes (data : List Byte)
  | written (bytesWritten : Nat)
  | info (isDir : Bool) (perm size : Nat)
  | entry (no : InodeNo) (name : Name)
  | noEntry
  deriving DecidableEq

def Answer.of (r : Result) : Answer := if r = .ok then .ok else .error r

namespace Device
variable (c : DataIO.Config) (env : Env) (d : Device)

/-- Any new length. -/
def truncateTo (path : Path) (newLength : Nat) : Option (Result × Device) :=
  match getInodeOfElem c env d path with
  | none => none
  | some (.error r) => some (r, d)
  | some (.ok no) =>
    match d.lookup no with
    | none => some (.bug, d)
    | some inode =>
      if inode.perm &&& permW = 0 then some (.noPerm, d)
      else if inode.type = .dir ∧ inode.size > 2 then some (.dirNotEmpty, d)
      else
        match (d.view inode).deleteInodeData c env.toEnv newLength with
        -- the result of the commit of the address cache is only printed
        | (.ok, s) => some (.ok, (d.put no s).tick)
        | (r, s) => some (r, d.put no s)

def setPerm (no : InodeNo) (perm : Nat) : Device :=
  { d with
    tree := d.tree.map fun x => if x.1 = no then (no, ⟨x.2.type, perm, x.2.size, x.2.reservedPages, x.2.page⟩) else x }

/-- A failed update is taken to leave the inode as it was. -/
def updatePerm (no : InodeNo) (perm : Nat) : Result × Device :=
  match env.outcome d.clock with
  | .ok => (.ok, (d.setPerm no perm).tick)
  | r => (r, d.tick)

/-- What `openDir` reads: the entries, and the count in front of them, which must be right. `none` when its parser fails. -/
def listing (inode : Inode) : Option (Except Result (List Directory.Entry)) :=
  match entriesOf c env.toEnv (d.view inode) with
  | none => none
  | some entries =>
    let count := if inode.reservedPages > 0 then
        ((d.view inode).readInodeData c env.toEnv 0 inode.size).map fun r => ofBytes (r.2.take 2)
      else some 0
    some (if count = some entries.length then .ok entries else .error .bug)

end Device

namespace Session
variable (s : Session)

/-- Whether an inode has a reference besides the one of the call that asks. -/
def isOpen (no : InodeNo) : Bool :=
  (s.filesPool.any fun slot => slot.any fun obj => obj.no = no) ||
    s.dirs.any fun slot => slot.any fun dir => dir.self = no || dir.childs.any fun child => child.loaded && child.no = no

def obj (i : Nat) : Option Obj := s.filesPool[i]?.join

def dir (i : Nat) : Option Dir := s.dirs[i]?.join

def setObj (i : Nat) (obj : Option Obj) : Session := { s with filesPool := s.filesPool.set i obj }

def setDir (i : Nat) (dir : Option Dir) : Session := { s with dirs := s.dirs.set i dir }

/-- The first free slot, if there is one. -/
def getNewObject (obj : Obj) : Option (Nat × Session) :=
  (s.filesPool.findIdx? Option.isNone).map fun i => (i, s.setObj i (some obj))

def newDir (dir : Dir) : Session := { s with dirs := s.dirs ++ [some dir] }

end Session

variable (c : DataIO.Config) (env : FileEnv)

namespace Mounted
variable (m : Mounted)

def on (d : Device) : Mounted := { m with device := d }

def setObj (i : Nat) (obj : Option Obj) : Mounted := { m with toSession := m.toSession.setObj i obj }

def setDir (i : Nat) (dir : Option Dir) : Mounted := { m with toSession := m.toSession.setDir i dir }

/-- When the log is nearly full, all caches are flushed. -/
def checkpoint : Result × Mounted :=
  if env.nearlyFull m.device.clock then (env.outcome m.device.clock, m.on m.device.tick) else (.ok, m)

/-! ### Files -/

/-- What `open` does once it has the inode. -/
def openInode (mask : Nat) (no : InodeNo) : Answer × Mounted :=
  match m.device.lookup no with
  | none => (.error .bug, m)
  | some file =>
    if file.type = .lnk then (.error .nimpl, m)
    else if file.type = .dir then (.error .invalidInput, m)
    else if file.perm ||| (mask &&& permMask) ≠ file.perm &&& permMask then (.error .noPerm, m)
    else
      match m.getNewObject ⟨no, if mask &&& openA ≠ 0 then file.size else 0, mask &&& openW = 0⟩ with
      | none => (.error .noSpace, m)
      | some (i, session) => (.opened i, { m with toSession := session })

/-- `open`. -/
def openObj (path : Path) (mask : Nat) : Option (Answer × Mounted) :=
  if m.readOnly ∧ mask &&& openW ≠ 0 then some (.error .readOnly, m)
  else
    match Device.getInodeOfElem c env.toNamespace m.device path with
    | none => none
    | some (.error .notFound) =>
      if mask &&& openC = 0 then some (.error .notFound, m)
      else if m.readOnly then some (.error .readOnly, m)
      else
        match Device.createFile c env.toNamespace m.device path with
        | none => none
        | some (.ok, d) => some ((m.on d).openInode mask m.device.findFirstFreeNo)
        | some (r, d) => some (.error r, m.on d)
    | some (.error r) => some (.error r, m)
    | some (.ok no) => some (m.openInode mask no)

def read (i bytesToRead : Nat) : Option (Answer × Mounted) :=
  match m.obj i with
  | none => none
  | some obj =>
    match m.device.lookup obj.no with
    | none => none
    | some node =>
      if node.type = .dir then some (.error .invalidInput, m)
      else if node.type = .lnk then some (.error .nimpl, m)
      else if node.perm &&& permR = 0 then some (.error .noPerm, m)
      else if node.size = 0 then some (.bytes [], m)
      else
        match (m.device.view node).readInodeData c env.toEnv obj.fp bytesToRead with
        | none => none
        | some (.ok, data) => some (.bytes data, m.setObj i (some { obj with fp := (obj.fp + data.length) % 2 ^ 32 }))
        | some (r, _) => some (.error r, m)

def write (i bytesToWrite : Nat) (buf : Memory) : Option (Answer × Mounted) :=
  if m.readOnly then some (.error .readOnly, m)
  else if env.noRoom m.device.clock then some (.error .noSpace, m)
  else
    match m.obj i with
    | none => none
    | some obj =>
      match m.device.lookup obj.no with
      | none => none
      | some node =>
        if node.type = .dir then some (.error .invalidInput, m)
        else if node.type = .lnk then some (.error .nimpl, m)
        else if node.perm &&& permW = 0 then some (.error .noPerm, m)
        else
          match (m.device.view node).writeInodeData c env.toEnv obj.fp bytesToWrite buf with
          | ((.ok, bytesWritten), s) =>
            let m := m.on (m.device.put obj.no s)
            if bytesWritten ≠ bytesToWrite then some (.error .fail, m)
            else if env.nearlyFull s.clock then
              -- the file pointer stays where it is
              some (if env.outcome s.clock = .ok then .written bytesWritten else .error (env.outcome s.clock), m.on m.device.tick)
            else some (.written bytesWritten, m.setObj i (some { obj with fp := (obj.fp + bytesWritten) % 2 ^ 32 }))
          | ((r, _), s) => some (.error r, m.on (m.device.put obj.no s))

/-- The offset is signed, the file pointer has 32 bits. -/
def seek (i : Nat) (offs : Int) (mode : Seekmode) : Option (Answer × Mounted) :=
  match m.obj i with
  | none => none
  | some obj =>
    match m.device.lookup obj.no with
    | none => none
    | some node =>
      let fp := mode.target node.size obj.fp offs
      if fp < 0 then some (.error .invalidInput, m)
      else some (.ok, m.setObj i (some { obj with fp := fp.toNat % 2 ^ 32 }))

/-- The address cache changes to the inode and is committed. -/
def flushObj : Result × Mounted :=
  if m.readOnly then (.ok, m)
  else
    match env.outcome m.device.clock with
    | .ok =>
      match env.outcome (m.device.clock + 1) with
      | .ok => (m.on m.device.tick.tick).checkpoint env
      | r => (r, m.on m.device.tick.tick)
    | r => (r, m.on m.device.tick)

def flush (i : Nat) : Option (Answer × Mounted) :=
  match m.obj i with
  | none => none
  | some _ => some (.of (m.flushObj env).1, (m.flushObj env).2)

/-- The slot is given back also when the flush fails. -/
def close (i : Nat) : Option (Answer × Mounted) :=
  match m.obj i with
  | none => none
  | some _ => some (.of (m.flushObj env).1, (m.flushObj env).2.setObj i none)

def truncate (path : Path) (newLength : Nat) : Option (Answer × Mounted) :=
  if m.readOnly then some (.error .readOnly, m)
  else
    match m.device.truncateTo c env.toNamespace path newLength with
    | none => none
    | some (.ok, d) => some (.of ((m.on d).checkpoint env).1, ((m.on d).checkpoint env).2)
    | some (r, d) => some (.error r, m.on d)

/-- Not refused on a read-only mount. -/
def chmod (path : Path) (perm : Nat) : Option (Answer × Mounted) :=
  match Device.getInodeOfElem c env.toNamespace m.device path with
  | none => none
  | some (.error r) => some (.error r, m)
  | some (.ok no) =>
    match m.device.updatePerm env.toNamespace no perm with
    | (r, d) => some (.of r, m.on d)

def getObjInfo (path : Path) : Option (Answer × Mounted) :=
  match Device.getInodeOfElem c env.toNamespace m.device path with
  | none => none
  | some (.error r) => some (.error r, m)
  | some (.ok no) =>
    match m.device.lookup no with
    | none => some (.error .bug, m)
    | some object => some (.info (object.type = .dir) object.perm object.size, m)

/-- The time of a file that exists is updated in the tree. -/
def touch (path : Path) : Option (Answer × Mounted) :=
  if m.readOnly then some (.error .readOnly, m)
  else if env.noRoom m.device.clock then some (.error .noSpace, m)
  else
    match Device.getInodeOfElem c env.toNamespace m.device path with
    | none => none
    | some (.error .notFound) => (Device.createFile c env.toNamespace m.device path).map fun r => (.of r.1, m.on r.2)
    | some (.error r) => some (.error r, m)
    | some (.ok _) => some (.of (env.outcome m.device.clock), m.on m.device.tick)

def mkDir (path : Path) (mask : Nat) : Option (Answer × Mounted) :=
  if m.readOnly then some (.error .readOnly, m)
  else (Device.mkDir c env.toNamespace m.device path mask).map fun r => (.of r.1, m.on r.2)

/-- Objects that are open elsewhere are not removed. On a read-only mount it is the truncation that is refused. -/
def remove (path : Path) : Option (Answer × Mounted) :=
  let env : Env := { env.toNamespace with opened := fun _ no => m.isOpen no }
  if m.readOnly then
    match Device.getInodeOfElem c env m.device path with
    | none => none
    | some (.error r) => some (.error r, m)
    | some (.ok object) =>
      if m.isOpen object then some (.error .invalidInput, m)
      else
        match Device.getParentDir c env m.device path with
        | none => none
        | some (.error r) => some (.error r, m)
        | some (.ok _) => some (.error .readOnly, m)
  else (Device.remove c env m.device path).map fun r => (.of r.1, m.on r.2)

/-! ### Directories -/

def openDir (path : Path) : Option (Answer × Mounted) :=
  if path = [] then some (.error .invalidInput, m)
  else
    match Device.getInodeOfElem c env.toNamespace m.device path with
    | none => none
    | some (.error r) => some (.error r, m)
    | some (.ok no) =>
      match m.device.lookup no with
      | none => some (.error .bug, m)
      | some dirPinode =>
        match m.device.listing c env.toNamespace dirPinode with
        | none => none
        | some (.error r) => some (.error r, m)
        | some (.ok entries) =>
          some (.opened m.dirs.length, { m with toSession := m.newDir ⟨no, entries.map fun e => ⟨e.no, e.name, false⟩, 0⟩ })

/-- The entries are those of when the directory was opened. The name of a directory gets a slash. -/
def readDir (i : Nat) : Option (Answer × Mounted) :=
  match m.dir i with
  | none => none
  | some dir =>
    match dir.childs[dir.pos]? with
    | none => some (.noEntry, m)
    | some child =>
      if child.loaded then some (.entry child.no child.name, m.setDir i (some { dir with pos := dir.pos + 1 }))
      else
        match m.device.lookup child.no with
        | none => some (.error .notFound, m)
        | some node =>
          if node.perm &&& permR = 0 then
            some (.error .noPerm,
              m.setDir i (some { dir with childs := dir.childs.set dir.pos { child with loaded := true }, pos := dir.pos + 1 }))
          else
            let name := if node.type = .dir then child.name ++ [slash] else child.name
            some (.entry child.no name,
              m.setDir i (some { dir with childs := dir.childs.set dir.pos ⟨child.no, name, true⟩, pos := dir.pos + 1 }))

def rewindDir (i : Nat) : Option (Answer × Mounted) :=
  match m.dir i with
  | none => none
  | some dir => some (.ok, m.setDir i (some { dir with pos := 0 }))

def closeDir (i : Nat) : Option (Answer × Mounted) :=
  match m.dir i with
  | none => none
  | some _ => some (.ok, m.setDir i none)

end Mounted

/-! ### Calls -/

inductive Call where
  | openObj (path : Path) (mask : Nat)
  | read (i bytesToRead : Nat)
  | write (i bytesToWrite : Nat) (buf : Memory)
  | seek (i : Nat) (offs : Int) (mode : Seekmode)
  | flush (i : Nat)
  | close (i : Nat)
  | truncate (path : Path) (newLength : Nat)
  | chmod (path : Path) (perm : Nat)
  | getObjInfo (path : Path)
  | touch (path : Path)
  | mkDir (path : Path) (mask : Nat)
  | remove (path : Path)
  | openDir (path : Path)
  | readDir (i : Nat)
  | rewindDir (i : Nat)
  | closeDir (i : Nat)

namespace Mounted

/-- `none` when the call does not return, or when it is given what is not open. -/
def call (m : Mounted) : Call → Option (Answer × Mounted)
  | .openObj path mask => m.openObj c env path mask
  | .read i bytesToRead => m.read c env i bytesToRead
  | .write i bytesToWrite buf => m.write c env i bytesToWrite buf
  | .seek i offs mode => m.seek i offs mode
  | .flush i => m.flush env i
  | .close i => m.close env i
  | .truncate path newLength => m.truncate c env path newLength
  | .chmod path perm => m.chmod c env path perm
  | .getObjInfo path => m.getObjInfo c env path
  | .touch path => m.touch c env path
  | .mkDir path mask => m.mkDir c env path mask
  | .remove path => m.remove c env path
  | .openDir path => m.openDir c env path
  | .readDir i => m.readDir i
  | .rewindDir i => m.rewindDir i
  | .closeDir i => m.closeDir i

/-- The answers of all calls, and what is left. -/
def run : List Call → Mounted → Option (List Answer × Mounted)
  | [], m => some ([], m)
  | call :: calls, m =>
    match m.call c env call with
    | none => none
    | some (answer, m) => (run calls m).map fun r => (answer :: r.1, r.2)

end Mounted
end Paffs.Namespace
