import Paffs.Tree.Cache

/-! Writing the tree to flash, and giving up nodes of the cache with and without it. -/
namespace Paffs.Tree
open Persistence (AreaStatus SummaryEntry)

/-- `combineAddress` -/
def combineAddress (logicalArea page : Nat) : Addr := logicalArea * 65536 + page

/-- What the rest of the device answers. `findWritableArea` may collect garbage: it comes with the status of the active
index area, the area itself and the flash it leaves. A call to `writePage` says whether it went well, and how it left
the flash. -/
structure Surroundings (size : Nat) where
  readOnly : Bool
  journalEnabled : Bool
  journalIsRecovering : Bool
  findWritableArea : TreeCache size → Result × AreaStatus × Nat × Flash
  getPageStatus : TreeCache size → Addr → SummaryEntry
  findFirstFreePage : TreeCache size → Nat → Result × Nat
  writePage : TreeCache size → Addr → TreeNode → Result × Flash

namespace TreeCache
variable {size : Nat} (o : Surroundings size)

/-! ### Commit -/

/-- Puts the address of a node where it is looked up: into its parent, or into the superblock. -/
def updateFlashAddressInParent (t : TreeCache size) (node : Fin size) : Option (Result × TreeCache size) :=
  match (t.cache node).parent with
  | none => none
  | some parent =>
    if parent = node then some (.ok, { t with rootnodeAddr := (t.cache node).raw.self })
    else
      match t.findChild parent node with
      | some i =>
        some (.ok, t.update parent fun n => { n with raw := n.raw.setPointer i (t.cache node).raw.self, dirty := true })
      | none => some (.notFound, t)

/-- `replacePage`: a full list takes no more, and then the page is not marked either. -/
def replacePage (t : TreeCache size) (neu old : Addr) : TreeCache size :=
  if t.pageList.length = size then t else { t with pageList := t.pageList ++ [(neu, old)] }

/-- From the choice of a page on. A search that fails otherwise than for lack of space leaves page 0. -/
def writeTreeNodeTo (t : TreeCache size) (node : Fin size) (activeArea : Nat) : Option (Result × TreeCache size) :=
  let found := o.findFirstFreePage t activeArea
  if found.1 = .noSpace then some (.bug, t)
  else
    let firstFreePage := if found.1 = .ok then found.2 else 0
    let newAddr := combineAddress activeArea firstFreePage
    let oldSelf := (t.cache node).raw.self
    let t := t.update node fun n => { n with raw := { n.raw with self := newAddr } }
    let t := t.replacePage newAddr oldSelf
    let written := o.writePage t newAddr (t.cache node).raw
    let t := { t with flash := written.2 }
    if written.1 ≠ .ok then some (written.1, t) else t.updateFlashAddressInParent node

def writeTreeNode (t : TreeCache size) (node : Fin size) : Option (Result × TreeCache size) :=
  if o.readOnly then some (.bug, t)
  else
    let (r, activeStatus, activeArea, flash) := o.findWritableArea t
    let t := { t with flash := flash, clock := t.clock + 1 }
    let self := (t.cache node).raw.self
    if r ≠ .ok then some (r, t)
    else if activeStatus ≠ .active then some (.bug, t)
    else if activeArea = 0 then some (.bug, t)
    else if self ≠ 0 ∧ (o.getPageStatus t self = .free ∨ o.getPageStatus t self = .dirty ∧ !o.journalIsRecovering) then
      some (.bug, t)
    else t.writeTreeNodeTo o node activeArea

/-- A node that is written is clean. -/
def writeClean (t : TreeCache size) (node : Fin size) : Option (Result × TreeCache size) := do
  let (r, t) ← t.writeTreeNode o node
  if r ≠ .ok then some (r, t) else some (.ok, t.update node ({ · with dirty := false }))

/-- The loop over the children; `commit` is the call for one of them. -/
def commitChilds (commit : Fin size → TreeCache size → Option (Result × TreeCache size)) (node : Fin size) :
    List Nat → TreeCache size → Option (Result × TreeCache size)
  | [], t => some (.ok, t)
  | i :: rest, t =>
    match (t.cache node).pointers i with
    | none => commitChilds commit node rest t
    | some child => do
      let (r, t) ← commit child t
      if r ≠ .ok then some (r, t) else commitChilds commit node rest t

def commitNodesRecursively : Nat → Fin size → TreeCache size → Option (Result × TreeCache size)
  | 0, _, _ => none
  | fuel + 1, node, t =>
    if !(t.cache node).dirty then some (.ok, t)
    else if (t.cache node).raw.isLeaf then t.writeClean o node
    else do
      let (r, t) ← commitChilds (commitNodesRecursively fuel) node (List.range ((t.cache node).raw.keys + 1)) t
      if r ≠ .ok then some (r, t) else t.writeClean o node

/-- There always is a root slot, used or not. The old pages become dirty with the list of the state machine. -/
def commitCache (t : TreeCache size) : Option (Result × TreeCache size) :=
  if !o.journalEnabled then some (.bug, t)
  else do
    let (_, t) ← resolveDirtyPaths size t.cacheRoot t
    let (r, t) ← commitNodesRecursively o size t.cacheRoot t
    if r ≠ .ok then some (r, t)
    else if (List.finRange size).any fun node => t.cacheUsage node && (t.cache node).dirty then some (.bug, t)
    else some (.ok, { t with pageList := [] })

/-! ### Room for new nodes -/

def freeNodes (t : TreeCache size) (neededCleanNodes : Nat) : Option (Result × TreeCache size) :=
  if neededCleanNodes > size then some (.bug, t)
  else do
    let (neededCleanNodes, t) ← t.cleanFreeLeafNodes neededCleanNodes
    if neededCleanNodes = 0 then some (.ok, t)
    else do
      let (neededCleanNodes, t) ← t.cleanFreeNodes neededCleanNodes
      if neededCleanNodes = 0 then some (.ok, t)
      else do
        let (r, t) ← t.commitCache o
        if r ≠ .ok then some (r, t)
        else do
          let (neededCleanNodes, t) ← t.cleanFreeLeafNodes neededCleanNodes
          if neededCleanNodes = 0 then some (.ok, t)
          else do
            let (neededCleanNodes, t) ← t.cleanFreeNodes neededCleanNodes
            if neededCleanNodes = 0 then some (.ok, t) else some (.lowMem, t)

def reserveNodes (t : TreeCache size) (neededNodes : Nat) : Option (Result × TreeCache size) :=
  if size - t.countSetBits ≥ neededNodes then some (.ok, t)
  else t.freeNodes o (neededNodes - (size - t.countSetBits))

/-! ### Locks -/

/-- The loop up to the root. -/
def inheritLock : Nat → Fin size → TreeCache size → Option (TreeCache size)
  | 0, _, _ => none
  | fuel + 1, curr, t =>
    let t := t.update curr ({ · with inheritedLock := true })
    match (t.cache curr).parent with
    | none => none
    | some parent => if parent = curr then some t else inheritLock fuel parent t

/-- It always returns `ok`. -/
def lockTreeCacheNode (t : TreeCache size) (tcn : Fin size) : Option (TreeCache size) :=
  let t := t.update tcn ({ · with locked := true })
  match (t.cache tcn).parent with
  | none => some t
  | some parent => inheritLock size parent t

def hasLockedChilds (t : TreeCache size) (tcn : Fin size) : Bool :=
  !(t.cache tcn).raw.isLeaf &&
    (List.range ((t.cache tcn).raw.keys + 1)).any fun i =>
      match (t.cache tcn).pointers i with
      | none => false
      | some child => (t.cache child).inheritedLock || (t.cache child).locked

/-- The loop up to the first node that has to stay. -/
def disinheritLock : Nat → Fin size → TreeCache size → Option (TreeCache size)
  | 0, _, _ => none
  | fuel + 1, curr, t =>
    if t.hasLockedChilds curr then some t
    else
      let t := t.update curr ({ · with inheritedLock := false })
      if (t.cache curr).locked then some t
      else
        match (t.cache curr).parent with
        | none => none
        | some parent => if parent = curr then some t else disinheritLock fuel parent t

def unlockTreeCacheNode (t : TreeCache size) (tcn : Fin size) : Option (Result × TreeCache size) :=
  let t := t.update tcn ({ · with locked := false })
  match (t.cache tcn).parent with
  | none => some (.fail, t)
  | some parent => do
    let t ← disinheritLock size parent t
    some (.ok, t)

end TreeCache
end Paffs.Tree
