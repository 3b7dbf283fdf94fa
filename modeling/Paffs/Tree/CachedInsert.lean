import Paffs.Tree.CacheCommit
import Paffs.Tree.Btree

/-! Insertion as it works on the cache: nodes are loaded, locked and split in their slots. -/
namespace Paffs.Tree

/-- What works on the cache. It ends with a value or with a result other than `ok`, in both cases with what it made of
the cache; where a null pointer is followed it does not end. -/
def Action (size : Nat) (α : Type) : Type := TreeCache size → Option (Except Result α × TreeCache size)

namespace Action
variable {size : Nat} {α β : Type}

instance : Monad (Action size) where
  pure a := fun t => some (.ok a, t)
  bind action next := fun t =>
    match action t with
    | none => none
    | some (.error r, t) => some (.error r, t)
    | some (.ok a, t) => next a t

/-- `return r` -/
def fail (r : Result) : Action size α := fun t => some (.error r, t)

def undefined : Action size α := fun _ => none

def read (f : TreeCache size → α) : Action size α := fun t => some (.ok (f t), t)

def change (f : TreeCache size → TreeCache size) : Action size Unit := fun t => some (.ok (), f t)

/-- The content of a slot. -/
def node (tcn : Fin size) : Action size (TreeCacheNode size) := read fun t => t.cache tcn

def store (tcn : Fin size) (f : TreeCacheNode size → TreeCacheNode size) : Action size Unit := change (·.update tcn f)

def ofResult (f : TreeCache size → Option (Result × TreeCache size)) : Action size Unit := fun t => do
  let (r, t) ← f t
  if r = .ok then some (.ok (), t) else some (.error r, t)

/-- The result is looked at later. -/
def attempt (action : Action size α) : Action size (Except Result α) := fun t => do
  let (r, t) ← action t
  some (.ok r, t)

def ofExcept : Except Result α → Action size α
  | .ok a => pure a
  | .error r => fail r

def ofOption : Option α → Action size α
  | some a => pure a
  | none => undefined

def lock (tcn : Fin size) : Action size Unit := fun t => do
  let t ← t.lockTreeCacheNode tcn
  some (.ok (), t)

/-- Nobody looks at what the unlocking reports. -/
def unlock (tcn : Fin size) : Action size Unit := fun t => do
  let (_, t) ← t.unlockTreeCacheNode tcn
  some (.ok (), t)

end Action

open Action

/-- A slot after `memset`. -/
def TreeCacheNode.cleared {size : Nat} : TreeCacheNode size :=
  ⟨⟨.branch [] fun _ => 0, 0⟩, none, fun _ => none, false, false, false⟩

namespace TreeCache
variable {size : Nat} (o : Surroundings size) (c : Config)

/-! ### New nodes -/

def findFirstFreeIndex (t : TreeCache size) : Option (Fin size) := (List.finRange size).find? fun i => !t.cacheUsage i

/-- `none` stands for `lowMem`. -/
def tryAddNewCacheNode (t : TreeCache size) : Option (Fin size × TreeCache size) := do
  let index ← t.findFirstFreeIndex
  some (index, { t.update index (fun _ => .cleared) with cacheUsage := Function.update t.cacheUsage index true })

def addNewCacheNode : Action size (Fin size) := fun t =>
  let t := { t with added := t.added + 1 }
  match t.tryAddNewCacheNode with
  | some (newTcn, t) => some (.ok newTcn, t)
  | none => do
    let (r, t) ← t.freeNodes o 1
    if r ≠ .ok then some (.error r, t)
    else
      match t.tryAddNewCacheNode with
      | some (newTcn, t) => some (.ok newTcn, t)
      | none => some (.error .lowMem, t)

/-! ### Insertion -/

def calculateMaxNeededNewNodesForInsertion (t : TreeCache size) : Nat → Fin size → Option Nat
  | 0, _ => none
  | fuel + 1, insertTarget =>
    let n := t.cache insertTarget
    if n.raw.keys = (if n.raw.isLeaf then c.leafOrder else c.branchOrder - 1) then
      match n.parent with
      | none => none
      | some parent =>
        if parent ≠ insertTarget then do
          let needed ← calculateMaxNeededNewNodesForInsertion t fuel parent
          some (1 + needed)
        else some 2
    else some 0

def getLeftIndex (t : TreeCache size) (parent left : Fin size) : Nat :=
  let n := t.cache parent
  let isLeft (i : Nat) : Bool :=
    n.raw.pointer i ≠ 0 && n.raw.pointer i = (t.cache left).raw.self || n.pointers i = some left
  ((List.range n.raw.keys).find? isLeft).getD n.raw.keys

/-- The pointers of a branch with a new one behind the left index; those behind the last are never read. -/
def insertPointer {α : Type} (pointers : Nat → α) (leftIndex : Nat) (right : α) : Nat → α := fun i =>
  if i ≤ leftIndex then pointers i else if i = leftIndex + 1 then right else pointers (i - 1)

def insertKey (keys : List Nat) (leftIndex key : Nat) : List Nat := keys.take leftIndex ++ key :: keys.drop leftIndex

def insertIntoLeaf (leaf : Fin size) (newInode : Inode) : Action size Unit := do
  let n ← node leaf
  match n.raw.as with
  | .leaf l => store leaf fun n => { n with raw := { n.raw with as := .leaf (Tree.insertIntoLeaf l newInode) }, dirty := true }
  | .branch _ _ => undefined

def insertIntoNode (parent : Fin size) (leftIndex key : Nat) (right : Fin size) : Action size Unit := do
  let n ← node parent
  let r ← node right
  match n.raw.as with
  | .leaf _ => undefined
  | .branch keys pointers =>
    let as := As.branch (insertKey keys leftIndex key) (insertPointer pointers leftIndex r.raw.self)
    store parent fun n =>
      { n with raw := { n.raw with as := as }, pointers := insertPointer n.pointers leftIndex (some right), dirty := true }
    store right ({ · with parent := some parent, dirty := true })

/-- If there is no new node, both stay locked. -/
def addNewCacheNodeBeside (left right : Fin size) : Action size (Fin size) := do
  lock left
  lock right
  let newTcn ← addNewCacheNode o
  unlock left
  unlock right
  pure newTcn

def insertIntoNewRoot (left : Fin size) (key : Nat) (right : Fin size) : Action size Unit := do
  let newRoot ← addNewCacheNodeBeside o left right
  let l ← node left
  let r ← node right
  let pointers (i : Nat) : Option (Fin size) := if i = 0 then some left else if i = 1 then some right else none
  let addresses (i : Nat) : Addr := if i = 0 then l.raw.self else if i = 1 then r.raw.self else 0
  store left ({ · with parent := some newRoot })
  store right ({ · with parent := some newRoot })
  store newRoot fun n =>
    { n with raw := { n.raw with as := .branch [key] addresses }, pointers := pointers, dirty := true, parent := some newRoot }
  change fun t => { t with cacheRoot := newRoot }

/-- The children that are cached get a new parent. -/
def adopt (t : TreeCache size) (parent : Fin size) (childs : List (Option (Fin size))) : TreeCache size :=
  { t with cache := fun c => if some c ∈ childs then { t.cache c with parent := some parent } else t.cache c }

/-- The two halves of a full branch: a new node takes what is behind `kPrime`, the key between them. -/
def splitNode (oldNode newNode : Fin size) (leftIndex key : Nat) (right : Fin size) : Action size Nat := do
  let n ← node oldNode
  let r ← node right
  match n.raw.as with
  | .leaf _ => undefined
  | .branch keys pointers =>
    let tempKeys := insertKey keys leftIndex key
    let tempAddresses := insertPointer pointers leftIndex r.raw.self
    let tempRAMaddresses := insertPointer n.pointers leftIndex (some right)
    let split := cut c.branchOrder
    let oldAs := As.branch (tempKeys.take (split - 1)) fun i => if i < split then tempAddresses i else 0
    let newAs := As.branch (tempKeys.drop split) fun j => tempAddresses (split + j)
    store oldNode fun n =>
      { n with raw := { n.raw with as := oldAs }, pointers := fun i => if i < split then tempRAMaddresses i else none, dirty := true }
    store newNode fun new =>
      { new with raw := { new.raw with as := newAs }, pointers := fun j => tempRAMaddresses (split + j), dirty := true,
                 parent := n.parent }
    change (·.adopt newNode ((List.range (c.branchOrder - split + 1)).map fun j => tempRAMaddresses (split + j)))
    pure (u16 (tempKeys.getD (split - 1) 0))

/-- `insertIntoParent` with `insertIntoNodeAfterSplitting`, which call each other; `fuel` bounds the height. -/
def insertIntoParent : Nat → Fin size → Nat → Fin size → Action size Unit
  | 0, _, _, _ => undefined
  | fuel + 1, left, key, right => do
    let l ← node left
    let parent ← ofOption l.parent
    if left = parent then insertIntoNewRoot o left key right
    else do
      let leftIndex ← read (·.getLeftIndex parent left)
      let p ← node parent
      if p.raw.keys < c.branchOrder - 1 then insertIntoNode parent leftIndex key right
      else do
        let newNode ← addNewCacheNodeBeside o parent right
        let kPrime ← splitNode c parent newNode leftIndex key right
        insertIntoParent fuel parent kPrime newNode

def insertIntoLeafAfterSplitting (leaf : Fin size) (newInode : Inode) : Action size Unit := do
  lock leaf
  let added ← attempt (addNewCacheNode o)
  unlock leaf
  let newLeaf ← ofExcept added
  let n ← node leaf
  match n.raw.as with
  | .branch _ _ => undefined
  | .leaf l =>
    let halves := splitLeaf c l newInode
    store newLeaf fun m => { m with raw := { m.raw with as := .leaf halves.2 }, dirty := true, parent := n.parent }
    store leaf fun n => { n with raw := { n.raw with as := .leaf halves.1 }, dirty := true }
    insertIntoParent o c size leaf (u16 (newLeafKey c l newInode)) newLeaf

/-- What `insertInode` does once there is room. -/
def insertIntoTarget (target : Fin size) (inode : Inode) : Action size Unit := do
  let n ← node target
  if n.raw.keys < c.leafOrder then insertIntoLeaf target inode
  else insertIntoLeafAfterSplitting o c target inode

end TreeCache
end Paffs.Tree
