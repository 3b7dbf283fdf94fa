import Paffs.DataIO.Run
import Paffs.Directory.Records
import Paffs.Device.Files

/-! What a device is for: a tree of directories, and of files that are arrays of bytes. -/
namespace Paffs.Namespace
open Bytes (Memory)
open Directory (Name Entry elemName maxDirEntryLength)

inductive Content where
  | dir (entries : List Entry)
  | file (bytes : DataIO.ByteArray)

namespace Content

/-- The size of a directory is that of its records. -/
def size : Content → Nat
  | dir entries => if entries = [] then 0 else (Directory.encode entries).length
  | file bytes => bytes.size

def entries : Content → List Entry
  | dir entries => entries
  | file _ => []

def isDir : Content → Bool
  | dir _ => true
  | file _ => false

/-- An object without content. -/
def blank : InodeType → Content
  | .dir => dir []
  | _ => file .empty

end Content

structure Node where
  perm : Nat
  content : Content

/-- What the surroundings decide: whether there is room, whether the log was nearly full, and the number of a new object. -/
structure Chance where
  noRoom : Bool
  nearlyFull : Bool
  newNo : InodeNo

structure FileTree extends Session where
  nodes : InodeNo → Option Node

/-- Who may write may read. -/
def newPerm (mask : Nat) : Nat := if mask &&& permW ≠ 0 then mask &&& permMask ||| permR else mask &&& permMask

/-- The name behind the last slash, but for one at the end. -/
def lastName (path : Path) : Name := (elemName (path.drop (lastSlash 0 0 path))).getD []

namespace FileTree
variable (t : FileTree)

/-! ### Paths -/

def walk (t : FileTree) : List Name → InodeNo → Except Result InodeNo
  | [], curr => .ok curr
  | name :: rest, curr =>
    match t.nodes curr with
    | none => .error .notFound
    | some ⟨_, .file _⟩ => .error .invalidInput
    | some ⟨_, .dir entries⟩ =>
      match entries.find? fun e => e.name = name with
      | none => .error .notFound
      | some e => walk t rest e.no

def find (path : Path) : Except Result InodeNo := t.walk (tokens [] path) 0

def parent (path : Path) : Except Result InodeNo :=
  if path = [] then .error .invalidInput else t.find (path.take (lastSlash 0 0 path))

/-! ### Objects -/

def set (no : InodeNo) (node : Option Node) : FileTree := { t with nodes := Function.update t.nodes no node }

def setObj (i : Nat) (obj : Option Obj) : FileTree := { t with toSession := t.toSession.setObj i obj }

def setDir (i : Nat) (dir : Option Dir) : FileTree := { t with toSession := t.toSession.setDir i dir }

/-- A new object in a directory. -/
def create (chance : Chance) (path : Path) (type : InodeType) (mask : Nat) : Result × FileTree :=
  if chance.noRoom then (.noSpace, t)
  else
    match t.parent path with
    | .error r => (r, t)
    | .ok p =>
      if (path.drop (lastSlash 0 0 path)).length > maxDirEntryLength then (.objNameTooLong, t)
      else if (t.nodes chance.newNo).isSome then (.exists, t)
      else
        match t.nodes p with
        | some ⟨perm, .dir entries⟩ =>
          (.ok, (t.set chance.newNo (some ⟨newPerm mask, .blank type⟩)).set p
            (some ⟨perm, .dir (entries ++ [⟨lastName path, chance.newNo⟩])⟩))
        | _ => (.invalidInput, t)

/-- Directories are truncated when they are empty. -/
def truncateNode (no : InodeNo) (newLength : Nat) : Result × FileTree :=
  match t.nodes no with
  | none => (.bug, t)
  | some ⟨perm, content⟩ =>
    if perm &&& permW = 0 then (.noPerm, t)
    else
      match content with
      | .dir entries => (if entries ≠ [] then .dirNotEmpty else if newLength = 0 then .ok else .invalidInput, t)
      | .file bytes =>
        if bytes.size < newLength then (.invalidInput, t) else (.ok, t.set no (some ⟨perm, .file ⟨newLength, bytes.content⟩⟩))

/-- The object and its entry go, if the directory has one for it. -/
def unlink (p no : InodeNo) : Result × FileTree :=
  match t.nodes p with
  | some ⟨perm, .dir entries⟩ =>
    if ∃ e ∈ entries, e.no = no then (.ok, (t.set p (some ⟨perm, .dir (entries.eraseP fun e => e.no = no)⟩)).set no none)
    else (.notFound, t)
  | _ => (.notFound, t)

def removeNode (p no : InodeNo) : Result × FileTree :=
  match t.truncateNode no 0 with
  | (.ok, t) => t.unlink p no
  | r => r

def openNode (mask : Nat) (no : InodeNo) : Answer × FileTree :=
  match t.nodes no with
  | none => (.error .bug, t)
  | some ⟨_, .dir _⟩ => (.error .invalidInput, t)
  | some ⟨perm, .file bytes⟩ =>
    if perm ||| (mask &&& permMask) ≠ perm &&& permMask then (.error .noPerm, t)
    else
      match t.getNewObject ⟨no, if mask &&& openA ≠ 0 then bytes.size else 0, mask &&& openW = 0⟩ with
      | none => (.error .noSpace, t)
      | some (i, session) => (.opened i, { t with toSession := session })

/-! ### Calls -/

/-- On the object at a path. -/
def withPath (path : Path) (f : InodeNo → Answer × FileTree) : Answer × FileTree :=
  match t.find path with
  | .error r => (.error r, t)
  | .ok no => f no

def openObj (chance : Chance) (path : Path) (mask : Nat) : Answer × FileTree :=
  if t.readOnly ∧ mask &&& openW ≠ 0 then (.error .readOnly, t)
  else
    match t.find path with
    | .error .notFound =>
      if mask &&& openC = 0 then (.error .notFound, t)
      else if t.readOnly then (.error .readOnly, t)
      else
        match t.create chance path .file (permR ||| permW) with
        | (.ok, t) => t.openNode mask chance.newNo
        | (r, t) => (.error r, t)
    | .error r => (.error r, t)
    | .ok no => t.openNode mask no

/-- From the position of the object, as much as the file has. -/
def read (i bytesToRead : Nat) : Option (Answer × FileTree) :=
  (t.obj i).bind fun obj => (t.nodes obj.no).map fun node =>
    match node.content with
    | .dir _ => (.error .invalidInput, t)
    | .file bytes =>
      if node.perm &&& permR = 0 then (.error .noPerm, t)
      else
        let data := bytes.content.read obj.fp (min bytesToRead (bytes.size - obj.fp))
        (.bytes data, t.setObj i (some { obj with fp := obj.fp + data.length }))

/-- The position stays where it is when the log was nearly full. -/
def write (chance : Chance) (i bytesToWrite : Nat) (buf : Memory) : Option (Answer × FileTree) :=
  if t.readOnly then some (.error .readOnly, t)
  else if chance.noRoom then some (.error .noSpace, t)
  else
    (t.obj i).bind fun obj => (t.nodes obj.no).map fun node =>
      match node.content with
      | .dir _ => (.error .invalidInput, t)
      | .file bytes =>
        if node.perm &&& permW = 0 then (.error .noPerm, t)
        else
          let t := t.set obj.no (some ⟨node.perm, .file (bytes.write ⟨obj.fp, bytesToWrite, buf⟩)⟩)
          (.written bytesToWrite,
            if chance.nearlyFull then t else t.setObj i (some { obj with fp := obj.fp + bytesToWrite }))

def seek (i : Nat) (offs : Int) (mode : Seekmode) : Option (Answer × FileTree) :=
  (t.obj i).bind fun obj => (t.nodes obj.no).map fun node =>
    let fp := mode.target node.content.size obj.fp offs
    if fp < 0 then (.error .invalidInput, t) else (.ok, t.setObj i (some { obj with fp := fp.toNat % 2 ^ 32 }))

/-- What is written can be read already. -/
def flush (i : Nat) : Option (Answer × FileTree) := (t.obj i).map fun _ => (.ok, t)

def close (i : Nat) : Option (Answer × FileTree) := (t.obj i).map fun _ => (.ok, t.setObj i none)

def truncate (path : Path) (newLength : Nat) : Answer × FileTree :=
  if t.readOnly then (.error .readOnly, t)
  else t.withPath path fun no => (.of (t.truncateNode no newLength).1, (t.truncateNode no newLength).2)

def chmod (path : Path) (perm : Nat) : Answer × FileTree :=
  t.withPath path fun no => (.ok, t.set no ((t.nodes no).map fun node => ⟨perm, node.content⟩))

def getObjInfo (path : Path) : Answer × FileTree :=
  t.withPath path fun no =>
    match t.nodes no with
    | none => (.error .bug, t)
    | some ⟨perm, content⟩ => (.info content.isDir perm content.size, t)

def touch (chance : Chance) (path : Path) : Answer × FileTree :=
  if t.readOnly then (.error .readOnly, t)
  else if chance.noRoom then (.error .noSpace, t)
  else
    match t.find path with
    | .error .notFound =>
      (.of (t.create chance path .file (permR ||| permW)).1, (t.create chance path .file (permR ||| permW)).2)
    | .error r => (.error r, t)
    | .ok _ => (.ok, t)

def mkDir (chance : Chance) (path : Path) (mask : Nat) : Answer × FileTree :=
  if t.readOnly then (.error .readOnly, t)
  else (.of (t.create chance path .dir mask).1, (t.create chance path .dir mask).2)

def remove (path : Path) : Answer × FileTree :=
  t.withPath path fun no =>
    if t.isOpen no then (.error .invalidInput, t)
    else
      match t.parent path with
      | .error r => (.error r, t)
      | .ok p => if t.readOnly then (.error .readOnly, t) else (.of (t.removeNode p no).1, (t.removeNode p no).2)

def openDir (path : Path) : Answer × FileTree :=
  if path = [] then (.error .invalidInput, t)
  else
    t.withPath path fun no =>
      match t.nodes no with
      | some ⟨_, .dir entries⟩ =>
        (.opened t.dirs.length, { t with toSession := t.newDir ⟨no, entries.map fun e => ⟨e.no, e.name, false⟩, 0⟩ })
      | _ => (.error .bug, t)

/-- Entries whose object may not be read are passed over, and those whose object is gone are not. -/
def readDir (i : Nat) : Option (Answer × FileTree) :=
  (t.dir i).map fun dir =>
    match dir.childs[dir.pos]? with
    | none => (.noEntry, t)
    | some child =>
      if child.loaded then (.entry child.no child.name, t.setDir i (some { dir with pos := dir.pos + 1 }))
      else
        match t.nodes child.no with
        | none => (.error .notFound, t)
        | some node =>
          if node.perm &&& permR = 0 then
            (.error .noPerm,
              t.setDir i (some { dir with childs := dir.childs.set dir.pos { child with loaded := true }, pos := dir.pos + 1 }))
          else
            let name := if node.content.isDir then child.name ++ [slash] else child.name
            (.entry child.no name,
              t.setDir i (some { dir with childs := dir.childs.set dir.pos ⟨child.no, name, true⟩, pos := dir.pos + 1 }))

def rewindDir (i : Nat) : Option (Answer × FileTree) := (t.dir i).map fun dir => (.ok, t.setDir i (some { dir with pos := 0 }))

def closeDir (i : Nat) : Option (Answer × FileTree) := (t.dir i).map fun _ => (.ok, t.setDir i none)

/-- `none` when the call is given what is not open. -/
def call (t : FileTree) (chance : Chance) : Call → Option (Answer × FileTree)
  | .openObj path mask => some (t.openObj chance path mask)
  | .read i bytesToRead => t.read i bytesToRead
  | .write i bytesToWrite buf => t.write chance i bytesToWrite buf
  | .seek i offs mode => t.seek i offs mode
  | .flush i => t.flush i
  | .close i => t.close i
  | .truncate path newLength => some (t.truncate path newLength)
  | .chmod path perm => some (t.chmod path perm)
  | .getObjInfo path => some (t.getObjInfo path)
  | .touch path => some (t.touch chance path)
  | .mkDir path mask => some (t.mkDir chance path mask)
  | .remove path => some (t.remove path)
  | .openDir path => some (t.openDir path)
  | .readDir i => t.readDir i
  | .rewindDir i => t.rewindDir i
  | .closeDir i => t.closeDir i

/-- Each call with what its surroundings decided. -/
def run : List (Call × Chance) → FileTree → Option (List Answer × FileTree)
  | [], t => some ([], t)
  | (call, chance) :: calls, t =>
    match t.call chance call with
    | none => none
    | some (answer, t) => (run calls t).map fun r => (answer :: r.1, r.2)

end FileTree
end Paffs.Namespace
