import Paffs.Common.Types

/-! The inode tree as `btree.cpp` works on it. Every node is taken to be at hand:
loading, evicting and locking nodes is the cache's business and leaves the tree alone. -/
namespace Paffs.Tree

/-- A leaf's arrays `keys` and `pInodes`, cut at its number of keys. The slots behind
the used ones keep whatever key was last written to them; their inodes are never read. -/
structure Leaf where
  entries : List (Nat × Inode)
  unused : List Nat

inductive Node where
  | leaf (leaf : Leaf)
  | branch (keys : List Nat) (pointers : List Node)

/-- The parent of a node together with the position of the node in it: the pointers left
and right of the node. A list of these, innermost first, stands for the parent links. -/
structure Parent where
  keys : List Nat
  left : List Node
  right : List Node

namespace Node

def isLeaf : Node → Bool
  | .leaf _ => true
  | .branch _ _ => false

/-- `raw.keys` -/
def keyCount : Node → Nat
  | .leaf l => l.entries.length
  | .branch keys _ => keys.length

end Node

/-- Stores into a local of type `uint16_t`. -/
def u16 (key : Nat) : Nat := key % 65536

theorem u16_of_lt {key : Nat} (h : key < 65536) : u16 key = key := Nat.mod_eq_of_lt h

def cut (length : Nat) : Nat :=
  if length % 2 = 0 then length / 2 else length / 2 + 1

theorem cut_spec (n : Nat) : n ≤ 2 * cut n ∧ 2 * cut n ≤ n + 1 := by
  unfold cut
  split <;> omega

/-- Puts a node below its parent. -/
def Parent.hang (p : Parent) (n : Node) : Node := .branch p.keys (p.left ++ n :: p.right)

/-- The whole tree around a node. -/
def root : Node → List Parent → Node
  | n, [] => n
  | n, p :: path => root (p.hang n) path

/-! ### Search -/

/-- The number of separators that are not above the key. -/
def childIndex (keys : List Nat) (key : Nat) : Nat := keys.findIdx (fun k => !(k ≤ key))

/-- `findLeaf`, from a node on; `fuel` branches may still be entered before the path would no
longer fit the cache. -/
def findLeafFrom (key : Nat) : Nat → Node → List Parent → Except Result (Leaf × List Parent)
  | _, .leaf l, path => .ok (l, path)
  | 0, .branch _ _, _ => .error .lowMem
  | fuel + 1, .branch keys pointers, path =>
    let i := childIndex keys key
    match pointers[i]? with
    | some n => findLeafFrom key fuel n (⟨keys, pointers.take i, pointers.drop (i + 1)⟩ :: path)
    | none => .error .invalidInput

def findLeaf (c : Config) (key : Nat) (n : Node) : Except Result (Leaf × List Parent) :=
  findLeafFrom key (c.treeNodeCacheSize - 2) n []

def findInLeaf (l : Leaf) (key : Nat) : Except Result Inode :=
  match l.entries[l.entries.findIdx (fun e => e.1 == key)]? with
  | some e => .ok e.2
  | none => .error .notFound

/-! ### Insertion -/

/-- Where a key belongs among the keys of a leaf. -/
def insertionPoint (l : Leaf) (key : Nat) : Nat := l.entries.findIdx (fun e => !(e.1 < key))

/-- The keys and inodes of a leaf with a new one at its place. -/
def insertEntry (l : Leaf) (newInode : Inode) : List (Nat × Inode) :=
  let i := insertionPoint l newInode.no.toNat
  l.entries.take i ++ (newInode.no.toNat, newInode) :: l.entries.drop i

def insertIntoLeaf (l : Leaf) (newInode : Inode) : Leaf :=
  ⟨insertEntry l newInode, l.unused.tail⟩

/-- The arrays of a leaf that has just been filled with these entries, the rest zeroed. -/
def zeroPadded (c : Config) (entries : List (Nat × Inode)) : Leaf :=
  ⟨entries, List.replicate (c.leafOrder - entries.length) 0⟩

def insertIntoNewRoot (left : Node) (key : Nat) (right : Node) : Node := .branch [key] [left, right]

def insertIntoNode (p : Parent) (left : Node) (key : Nat) (right : Node) : Node :=
  let leftIndex := p.left.length
  .branch (p.keys.take leftIndex ++ key :: p.keys.drop leftIndex) (p.left ++ left :: right :: p.right)

/-- The temporary set of keys of a branch that is about to be split. -/
def tempKeys (p : Parent) (key : Nat) : List Nat :=
  p.keys.take p.left.length ++ key :: p.keys.drop p.left.length

/-- `kPrime`, the key between the two halves of a split branch. -/
def splitKey (c : Config) (p : Parent) (key : Nat) : Nat :=
  (tempKeys p key).getD (cut c.branchOrder - 1) 0

/-- A full branch is split at `kPrime`; the halves and the key between them are what
remains to be put into the branch above. -/
def insertIntoNodeAfterSplitting (c : Config) (p : Parent) (left : Node) (key : Nat) (right : Node) :
    Node × Nat × Node :=
  let split := cut c.branchOrder
  let keys := tempKeys p key
  let addresses := p.left ++ left :: right :: p.right
  (.branch (keys.take (split - 1)) (addresses.take split), u16 (splitKey c p key),
    .branch (keys.drop split) (addresses.drop split))

def insertIntoParent (c : Config) (left : Node) (key : Nat) (right : Node) : List Parent → Node
  | [] => insertIntoNewRoot left key right
  | p :: path =>
    if p.keys.length < c.branchOrder - 1 then root (insertIntoNode p left key right) path
    else
      let (oldNode, kPrime, newNode) := insertIntoNodeAfterSplitting c p left key right
      insertIntoParent c oldNode kPrime newNode path

/-- The two leaves a full leaf is split into. -/
def splitLeaf (c : Config) (l : Leaf) (newInode : Inode) : Leaf × Leaf :=
  let temp := insertEntry l newInode
  (zeroPadded c (temp.take (cut c.leafOrder)), zeroPadded c (temp.drop (cut c.leafOrder)))

/-- The first key of the new leaf, before it is stored in a 16-bit variable. -/
def newLeafKey (c : Config) (l : Leaf) (newInode : Inode) : Nat :=
  ((insertEntry l newInode)[cut c.leafOrder]?.map Prod.fst).getD 0

def insertIntoLeafAfterSplitting (c : Config) (l : Leaf) (newInode : Inode) (path : List Parent) : Node :=
  insertIntoParent c (.leaf (splitLeaf c l newInode).1) (u16 (newLeafKey c l newInode))
    (.leaf (splitLeaf c l newInode).2) path

end Paffs.Tree
