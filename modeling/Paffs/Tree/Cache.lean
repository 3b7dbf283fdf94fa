import Paffs.Tree.Node
import Paffs.Persistence.Entry

/-! The cache of tree nodes. A node of the cache is named by its slot; what lies on flash is named by its address.
Where a function follows a null pointer it has no result here, as where it would go on for ever. -/
namespace Paffs.Tree
open Persistence (AreaStatus SummaryEntry)

/-- `union As`; a branch has one pointer more than it has keys, those behind are never read. -/
inductive As where
  | leaf (leaf : Leaf)
  | branch (keys : List Nat) (pointers : Nat → Addr)

structure TreeNode where
  as : As
  self : Addr

namespace TreeNode

def isLeaf (n : TreeNode) : Bool :=
  match n.as with
  | .leaf _ => true
  | .branch _ _ => false

def keys (n : TreeNode) : Nat :=
  match n.as with
  | .leaf l => l.entries.length
  | .branch keys _ => keys.length

def pointer (n : TreeNode) (i : Nat) : Addr :=
  match n.as with
  | .leaf _ => 0
  | .branch _ pointers => pointers i

def setPointer (n : TreeNode) (i : Nat) (addr : Addr) : TreeNode :=
  match n.as with
  | .leaf _ => n
  | .branch keys pointers => { n with as := .branch keys (Function.update pointers i addr) }

end TreeNode

/-- Either in the cache or not: `pointers` holds the children that are. A root is its own parent. -/
structure TreeCacheNode (size : Nat) where
  raw : TreeNode
  parent : Option (Fin size)
  pointers : Nat → Option (Fin size)
  dirty : Bool
  locked : Bool
  inheritedLock : Bool

/-- The nodes that can be read. -/
abbrev Flash := Addr → Option TreeNode

/-- A node that does not state the address it is read from is refused. -/
def readTreeNode (flash : Flash) (addr : Addr) : Option TreeNode := (flash addr).filter (·.self = addr)

/-- The cache with the address of the root node that the superblock knows, the page list of the state machine as pairs of
a new and an old address, and two counters that the code does not have: `clock` counts the writes, `added` the calls to
`addNewCacheNode`. -/
structure TreeCache (size : Nat) where
  cacheRoot : Fin size
  cache : Fin size → TreeCacheNode size
  cacheUsage : Fin size → Bool
  rootnodeAddr : Addr
  flash : Flash
  pageList : List (Addr × Addr)
  clock : Nat
  added : Nat

namespace TreeCache
variable {size : Nat}

def update (t : TreeCache size) (tcn : Fin size) (f : TreeCacheNode size → TreeCacheNode size) : TreeCache size :=
  { t with cache := Function.update t.cache tcn (f (t.cache tcn)) }

def setIndexFree (t : TreeCache size) (index : Fin size) : TreeCache size :=
  { t with cacheUsage := Function.update t.cacheUsage index false }

def countSetBits (t : TreeCache size) : Nat := (Finset.univ.filter fun i => t.cacheUsage i = true).card

/-! ### Dirty paths -/

/-- The loop over the children; `resolve` is the call for one of them. -/
def resolveChilds (resolve : Fin size → TreeCache size → Option (Bool × TreeCache size)) (tcn : Fin size) :
    List Nat → Bool → TreeCache size → Option (Bool × TreeCache size)
  | [], anyDirt, t => some (anyDirt, t)
  | i :: rest, anyDirt, t =>
    match (t.cache tcn).pointers i with
    | none => resolveChilds resolve tcn rest anyDirt t
    | some child =>
      if t.cacheUsage child then do
        let (dirt, t) ← resolve child t
        if dirt then resolveChilds resolve tcn rest true (t.update tcn ({ · with dirty := true }))
        else resolveChilds resolve tcn rest anyDirt t
      else resolveChilds resolve tcn rest anyDirt t

/-- Nodes that are more than `fuel` levels deep end it without a result. -/
def resolveDirtyPaths : Nat → Fin size → TreeCache size → Option (Bool × TreeCache size)
  | 0, _, _ => none
  | fuel + 1, tcn, t =>
    if (t.cache tcn).raw.isLeaf then some ((t.cache tcn).dirty, t)
    else do
      let (anyDirt, t) ← resolveChilds (resolveDirtyPaths fuel) tcn (List.range ((t.cache tcn).raw.keys + 1)) false t
      some (anyDirt || (t.cache tcn).dirty, t)

/-! ### Giving up nodes -/

/-- The first place that a node has below another. -/
def findChild (t : TreeCache size) (parent tcn : Fin size) : Option Nat :=
  (List.range ((t.cache parent).raw.keys + 1)).find? fun i => (t.cache parent).pointers i = some tcn

def deleteFromParent (t : TreeCache size) (tcn : Fin size) : TreeCache size :=
  match (t.cache tcn).parent with
  | none => t
  | some parent =>
    if parent = tcn then t
    else if !t.cacheUsage parent then t
    else
      match t.findChild parent tcn with
      | some i => t.update parent fun n => { n with pointers := Function.update n.pointers i none }
      | none => t

def hasNoChilds (t : TreeCache size) (tcn : Fin size) : Bool :=
  (t.cache tcn).raw.isLeaf ||
    (List.range ((t.cache tcn).raw.keys + 1)).all fun i => (t.cache tcn).pointers i = none

/-- The two calls by which a node leaves the cache. -/
def evict (t : TreeCache size) (tcn : Fin size) : TreeCache size := (t.deleteFromParent tcn).setIndexFree tcn

/-- Neither dirty nor locked, be it for its own sake or for that of a node below. -/
def isEvictable (t : TreeCache size) (tcn : Fin size) : Bool :=
  !(t.cache tcn).dirty && !(t.cache tcn).locked && !(t.cache tcn).inheritedLock

def deletePathToRoot : Nat → Fin size → TreeCache size → Option (Nat × TreeCache size)
  | 0, _, _ => none
  | fuel + 1, tcn, t =>
    if !t.isEvictable tcn then some (0, t)
    else
      let t := t.evict tcn
      match (t.cache tcn).parent with
      | none => none
      | some parent =>
        if parent ≠ tcn ∧ t.hasNoChilds parent then do
          let (deleted, t) ← deletePathToRoot fuel parent t
          some (1 + deleted, t)
        else some (1, t)

/-- `neededCleanNodes--`, on 16 bits. -/
def decrement (neededCleanNodes : Nat) : Nat := if neededCleanNodes = 0 then 65535 else neededCleanNodes - 1

def cleanFreeLeafLoop : List (Fin size) → Nat → TreeCache size → Nat × TreeCache size
  | [], neededCleanNodes, t => (neededCleanNodes, t)
  | i :: rest, neededCleanNodes, t =>
    if t.cacheUsage i && t.isEvictable i && (t.cache i).raw.isLeaf then
      if decrement neededCleanNodes = 0 then (0, t.evict i)
      else cleanFreeLeafLoop rest (decrement neededCleanNodes) (t.evict i)
    else cleanFreeLeafLoop rest neededCleanNodes t

/-- The nodes that are still needed, and the cache; it always returns `ok`. -/
def cleanFreeLeafNodes (t : TreeCache size) (neededCleanNodes : Nat) : Option (Nat × TreeCache size) := do
  let (_, t) ← resolveDirtyPaths size t.cacheRoot t
  some (cleanFreeLeafLoop (List.finRange size) neededCleanNodes t)

def cleanFreeLoop : List (Fin size) → Nat → TreeCache size → Option (Nat × TreeCache size)
  | [], neededCleanNodes, t => some (neededCleanNodes, t)
  | i :: rest, neededCleanNodes, t =>
    if t.cacheUsage i && t.isEvictable i && t.hasNoChilds i then do
      let (cleaned, t) ← deletePathToRoot size i t
      let t := t.setIndexFree i
      if cleaned > neededCleanNodes then some (0, t)
      else if neededCleanNodes - cleaned = 0 then some (0, t)
      else cleanFreeLoop rest (neededCleanNodes - cleaned) t
    else cleanFreeLoop rest neededCleanNodes t

def cleanFreeNodes (t : TreeCache size) (neededCleanNodes : Nat) : Option (Nat × TreeCache size) := do
  let (_, t) ← resolveDirtyPaths size t.cacheRoot t
  cleanFreeLoop (List.finRange size) neededCleanNodes t

end TreeCache
end Paffs.Tree
