import Paffs.Tree.Delete

/-! The calls of `Btree`. -/
namespace Paffs.Tree

/-- The tree in RAM, `none` once its last node was removed, and the tree below the registered
root node as it was written by the last commit, `none` before there was one. -/
structure Btree where
  cached : Option Node
  committed : Option Node

namespace Btree
variable (c : Config)

/-- An empty leaf is the root of a new tree. -/
def startNewTree : Btree := ⟨some (.leaf (zeroPadded c [])), none⟩

/-- Only a tree that has a root is written. -/
def commitCache (s : Btree) : Btree :=
  match s.cached with
  | some n => ⟨some n, some n⟩
  | none => s

/-- A root that is not in RAM is read from the registered address. Without one the read fails and
a zeroed node stays behind as root. -/
def getRootNodeFromCache (s : Btree) : Except Result Node × Btree :=
  match s.cached, s.committed with
  | some n, _ => (.ok n, s)
  | none, some n => (.ok n, ⟨some n, some n⟩)
  | none, none => (.error .bug, ⟨some (.branch [] []), none⟩)

def findLeaf (s : Btree) (key : InodeNo) : Except Result (Leaf × List Parent) × Btree :=
  match s.getRootNodeFromCache with
  | (.ok n, s) => (Tree.findLeaf c key.toNat n, s)
  | (.error r, s) => (.error r, s)

/-- The loop over all slots of a leaf that has at least one key. -/
def alreadyExisting (l : Leaf) (no : InodeNo) : Bool :=
  0 < l.entries.length && (l.entries.map Prod.fst ++ l.unused).any (· == no.toNat)

def insertInode (s : Btree) (inode : Inode) : Result × Btree :=
  match s.findLeaf c inode.no with
  | (.error r, s) => (r, s)
  | (.ok (l, path), s) =>
    if alreadyExisting l inode.no then (.exists, s)
    else if l.entries.length < c.leafOrder then
      (.ok, { s with cached := some (root (.leaf (insertIntoLeaf l inode)) path) })
    else (.ok, { s with cached := some (insertIntoLeafAfterSplitting c l inode path) })

def getInode (s : Btree) (number : InodeNo) : Except Result Inode × Btree :=
  match s.findLeaf c number with
  | (.error r, s) => (.error r, s)
  | (.ok (l, _), s) => (findInLeaf l number.toNat, s)

def updateExistingInode (s : Btree) (inode : Inode) : Result × Btree :=
  match s.findLeaf c inode.no with
  | (.error r, s) => (r, s)
  | (.ok (l, path), s) =>
    let pos := l.entries.findIdx (fun e => e.1 == inode.no.toNat)
    match l.entries[pos]? with
    | none => (.bug, s)
    | some e =>
      if e.2 = inode then (.ok, s)
      else (.ok, { s with cached := some (root (.leaf { l with entries := l.entries.set pos (e.1, inode) }) path) })

def deleteInode (s : Btree) (number : InodeNo) : Result × Btree :=
  match s.findLeaf c number with
  | (.error r, s) => (r, s)
  | (.ok (l, path), s) =>
    match findInLeaf l number.toNat with
    | .error r => (r, s)
    | .ok _ =>
      let (r, n) := deleteEntry c (.leaf l) number.toNat path
      (r, { s with cached := n })

/-- The leaf behind the last pointers, as long as the path to it fits the cache. -/
def lastLeaf : Nat → Node → Except Result Leaf
  | _, .leaf l => .ok l
  | 0, .branch _ _ => .error .lowMem
  | fuel + 1, .branch keys pointers =>
    match pointers[keys.length]? with
    | some n => lastLeaf fuel n
    | none => .error .invalidInput

def findFirstFreeNo (s : Btree) : Except Result InodeNo × Btree :=
  match s.getRootNodeFromCache with
  | (.error r, s) => (.error r, s)
  | (.ok n, s) =>
    match lastLeaf (c.treeNodeCacheSize - 1) n with
    | .error r => (.error r, s)
    | .ok l =>
      match l.entries.getLast? with
      | some e => (.ok (e.2.no + 1), s)
      | none => (.ok 0, s)

end Btree
end Paffs.Tree
