import Paffs.Tree.Node

/-! Deletion from the inode tree: the entry is removed, and a node left with too few keys is
coalesced with a neighbour or takes one of its entries. -/
namespace Paffs.Tree

/-- Removes the first occurrence of a key, and with it the inode or the pointer behind it.
A key that is not there, but would be last, makes the last one go. -/
def removeEntryFromNode (c : Config) (n : Node) (key : Nat) : Except Result Node :=
  match n with
  | .leaf l =>
    let i := l.entries.findIdx (fun e => e.1 == key)
    if 0 < i ∧ key < (l.entries[i - 1]?.map Prod.fst).getD 0 then .error .bug
    else .ok (.leaf (zeroPadded c (l.entries.eraseIdx (min i (l.entries.length - 1)))))
  | .branch keys pointers =>
    let i := keys.findIdx (· == key)
    if 0 < i ∧ key < keys.getD (i - 1) 0 then .error .bug
    else
      let i := min i (keys.length - 1)
      .ok (.branch (keys.eraseIdx i) (pointers.eraseIdx (i + 1)))

/-- `none` stands for a root that was removed because the tree became empty. -/
def adjustRoot (root : Node) : Option Node :=
  match root with
  | .leaf l => if 0 < l.entries.length then some root else none
  | .branch keys pointers => if 0 < keys.length then some root else pointers.head?

def minKeys (c : Config) (n : Node) : Nat :=
  if n.isLeaf then cut c.leafOrder else cut c.branchOrder - 1

/-- How many keys two nodes may have together to be coalesced. -/
def capacity (c : Config) (neighbor : Node) : Nat :=
  if neighbor.isLeaf then c.leafOrder else c.branchOrder - 2

/-- Appends everything of one node to the node left of it. The second result is what the removed
node still holds. Neighbours are both leaves or both branches. -/
def coalesceNodes (toNode fromNode : Node) (kPrime : Nat) : Option (Node × Node) :=
  match toNode, fromNode with
  | .leaf t, .leaf f =>
    some (.leaf ⟨t.entries ++ f.entries, t.unused.drop f.entries.length⟩, .leaf f)
  | .branch tk tp, .branch fk fp =>
    some (.branch (tk ++ kPrime :: fk) (tp ++ fp), .branch [] (fp.take 1))
  | _, _ => none

/-- The last entry of the left neighbour becomes the first one of `n`. Returns both nodes and the
new key between them. The neighbour's inode is cleared, its key is not. -/
def redistributeFromLeft (n neighbor : Node) (kPrime : Nat) : Option (Node × Node × Nat) :=
  match n, neighbor with
  | .leaf l, .leaf nb => do
    let e ← nb.entries.getLast?
    some (.leaf ⟨e :: l.entries, l.unused.tail⟩, .leaf ⟨nb.entries.dropLast, e.1 :: nb.unused⟩, e.1)
  | .branch keys pointers, .branch nbKeys nbPointers => do
    let k ← nbKeys.getLast?
    let q ← nbPointers.getLast?
    some (.branch (kPrime :: keys) (q :: pointers), .branch nbKeys.dropLast nbPointers.dropLast, k)
  | _, _ => none

/-- The first entry of the right neighbour becomes the last one of `n`. The neighbour's entries
move down by one; the slot that becomes free keeps a copy of its last key. -/
def redistributeFromRight (n neighbor : Node) (kPrime : Nat) : Option (Node × Node × Nat) :=
  match n, neighbor with
  | .leaf l, .leaf nb => do
    let e ← nb.entries.head?
    let last ← nb.entries.getLast?
    some (.leaf ⟨l.entries ++ [e], l.unused.tail⟩, .leaf ⟨nb.entries.tail, last.1 :: nb.unused⟩,
      (nb.entries.tail.map Prod.fst ++ nb.unused).headD 0)
  | .branch keys pointers, .branch nbKeys nbPointers => do
    let k ← nbKeys.head?
    let q ← nbPointers.head?
    some (.branch (keys ++ [kPrime]) (pointers ++ [q]), .branch nbKeys.tail nbPointers.tail, k)
  | _, _ => none

/-- Returns what the call reports and the tree it leaves, `none` if the tree became empty. -/
def deleteEntry (c : Config) (n : Node) (key : Nat) : List Parent → Result × Option Node
  | [] =>
    match removeEntryFromNode c n key with
    | .error r => (r, some n)
    | .ok n => (.ok, adjustRoot n)
  | p :: path =>
    match removeEntryFromNode c n key with
    | .error r => (r, some (root n (p :: path)))
    | .ok n =>
      if minKeys c n ≤ n.keyCount then (.ok, some (root n (p :: path)))
      else
        -- the neighbour is the left one; only the leftmost child falls back on its right one
        let kPrimeIndex := p.left.length - 1
        let kPrime := u16 (p.keys.getD kPrimeIndex 0)
        match p.left.getLast?, p.right with
        | some neighbor, right =>
          if neighbor.keyCount + n.keyCount ≤ capacity c neighbor then
            match coalesceNodes neighbor n kPrime with
            | some (merged, rest) =>
              deleteEntry c (.branch p.keys (p.left.dropLast ++ merged :: rest :: right)) kPrime path
            | none => (.bug, some (root n (p :: path)))
          else
            match redistributeFromLeft n neighbor kPrime with
            | some (n, neighbor, key) =>
              (.ok, some (root (.branch (p.keys.set kPrimeIndex key) (p.left.dropLast ++ neighbor :: n :: right)) path))
            | none => (.bug, some (root n (p :: path)))
        | none, neighbor :: right =>
          if neighbor.keyCount + n.keyCount ≤ capacity c neighbor then
            match coalesceNodes n neighbor kPrime with
            | some (merged, rest) => deleteEntry c (.branch p.keys (merged :: rest :: right)) kPrime path
            | none => (.bug, some (root n (p :: path)))
          else
            match redistributeFromRight n neighbor kPrime with
            | some (n, neighbor, key) =>
              (.ok, some (root (.branch (p.keys.set kPrimeIndex key) (n :: neighbor :: right)) path))
            | none => (.bug, some (root n (p :: path)))
        | none, [] => (.invalidInput, some (root n (p :: path)))

end Paffs.Tree
