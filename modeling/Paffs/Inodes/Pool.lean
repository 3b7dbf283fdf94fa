import Paffs.Common.Types

/-! The pool the open inodes lie in, and the pointers that count their references. -/
namespace Paffs.Inodes

/-- `InodePool<size>`: the slots of its object pool, and of each inode number its slot and reference count. -/
structure InodePool where
  activeObjects : Nat → Bool
  objects : Nat → Inode
  map : InodeNo → Option (Nat × UInt8)

namespace InodePool
variable (size : Nat)

def empty : InodePool := ⟨fun _ => false, fun _ => .empty 0, fun _ => none⟩

def findFirstFree (pool : InodePool) : Option Nat := (List.range size).find? fun slot => !pool.activeObjects slot

/-- A freed object is overwritten with zeros. -/
def freeObject (pool : InodePool) (slot : Nat) : Result × InodePool :=
  if slot ≥ size then (.invalidInput, pool)
  else if !pool.activeObjects slot then (.bug, pool)
  else (.ok, { pool with
    activeObjects := Function.update pool.activeObjects slot false
    objects := Function.update pool.objects slot (.empty 0) })

def removeInodeReference (pool : InodePool) (no : InodeNo) : Result × InodePool :=
  match pool.map no with
  | none => (.bug, pool)
  | some (slot, refs) =>
    if refs = 0 then (.bug, pool)
    else if refs - 1 = 0 then
      -- what goes wrong with the object is only printed
      let pool := (pool.freeObject size slot).2
      (.ok, { pool with map := Function.update pool.map no none })
    else (.ok, { pool with map := Function.update pool.map no (some (slot, refs - 1)) })

end InodePool

/-- The pool and the pointers to it in the order they were made; a destroyed one is `none`, and `some none` is empty. -/
structure State where
  pool : InodePool
  ptrs : List (Option (Option Nat))

namespace State
variable (size : Nat)

def init : State := ⟨.empty, []⟩

def ptr (s : State) (p : Nat) : Option (Option Nat) := s.ptrs.getD p none

/-- `SmartInodePtr::setInode` -/
def setInode (s : State) (p slot : Nat) : State :=
  let pool := match s.ptr p with
    | some (some old) => (s.pool.removeInodeReference size (s.pool.objects old).no).2
    | _ => s.pool
  ⟨pool, s.ptrs.set p (some (some slot))⟩

def getExistingInode (s : State) (no : InodeNo) (target : Nat) : Result × State :=
  match s.pool.map no with
  | none => (.notFound, s)
  | some (slot, refs) =>
    let pool := { s.pool with map := Function.update s.pool.map no (some (slot, refs + 1)) }
    (.ok, setInode size { s with pool := pool } target slot)

def requireNewInode (s : State) (no : InodeNo) (target : Nat) : Result × State :=
  if (s.pool.map no).isSome then (.bug, s)
  else
    match s.pool.findFirstFree size with
    | none => (.noSpace, s)
    | some slot =>
      let pool := { s.pool with
        activeObjects := Function.update s.pool.activeObjects slot true
        objects := Function.update s.pool.objects slot (.empty no) }
      let s := setInode size { s with pool := pool } target slot
      (.ok, { s with pool := { s.pool with map := Function.update s.pool.map no (some (slot, 1)) } })

/-- `operator=`. From an empty pointer nothing is taken over, and the target keeps what it has. -/
def assign (s : State) (p other : Nat) : State :=
  match s.ptr other with
  | some (some slot) => (s.getExistingInode size (s.pool.objects slot).no p).2
  | _ => s

/-- A new pointer. -/
def construct (s : State) : State := { s with ptrs := s.ptrs ++ [some none] }

def copy (s : State) (other : Nat) : State := s.construct.assign size s.ptrs.length other

def destroy (s : State) (p : Nat) : State :=
  let pool := match s.ptr p with
    | some (some slot) => (s.pool.removeInodeReference size (s.pool.objects slot).no).2
    | _ => s.pool
  ⟨pool, s.ptrs.set p none⟩

/-- What others do with an inode through a pointer; its number stays. -/
def write (s : State) (p : Nat) (inode : Inode) : State :=
  match s.ptr p with
  | some (some slot) =>
    let inode := { inode with no := (s.pool.objects slot).no }
    { s with pool := { s.pool with objects := Function.update s.pool.objects slot inode } }
  | _ => s

inductive Op where
  | getExistingInode (no : InodeNo) (target : Nat)
  | requireNewInode (no : InodeNo) (target : Nat)
  | construct
  | copy (other : Nat)
  | assign (p other : Nat)
  | destroy (p : Nat)
  | write (p : Nat) (inode : Inode)

/-- The pointers an operation works on; they have to be alive. -/
def Op.operands : Op → List Nat
  | .getExistingInode _ target => [target]
  | .requireNewInode _ target => [target]
  | .construct => []
  | .copy other => [other]
  | .assign p other => [p, other]
  | .destroy p => [p]
  | .write p _ => [p]

def Alive (s : State) (op : Op) : Prop := ∀ p ∈ op.operands, s.ptr p ≠ none

instance (s : State) (op : Op) : Decidable (s.Alive op) := inferInstanceAs (Decidable (∀ p ∈ op.operands, _))

/-- Nothing is done through a pointer that is not alive. -/
def step (s : State) (op : Op) : State :=
  if s.Alive op then
    match op with
    | .getExistingInode no target => (s.getExistingInode size no target).2
    | .requireNewInode no target => (s.requireNewInode size no target).2
    | .construct => s.construct
    | .copy other => s.copy size other
    | .assign p other => s.assign size p other
    | .destroy p => s.destroy size p
    | .write p inode => s.write p inode
  else s

def run (s : State) (ops : List Op) : State := ops.foldl (step size) s

/-- How many pointers refer to what lies in a slot. -/
def refs (s : State) (slot : Nat) : Nat := s.ptrs.count (some (some slot))

end State
end Paffs.Inodes
