import Paffs.Lib.Ascending
import Paffs.Lib.Tiling
import Paffs.Tree.Btree

/-! What a well-formed inode tree is, and that hanging a well-formed node into a
well-formed surrounding gives a well-formed tree. -/
namespace Paffs.Tree
open Tiling
variable (c : Config)

abbrev Entry := Nat × Inode

/-- All keys of the leaf lie in `[lo, hi)`; it has at least `m` of them. -/
structure LeafWF (m lo hi : Nat) (l : Leaf) : Prop where
  proper : lo < hi
  ascending : l.entries.Pairwise (·.1 < ·.1)
  within : ∀ e ∈ l.entries, lo ≤ e.1 ∧ e.1 < hi
  numbered : ∀ e ∈ l.entries, e.1 = e.2.no.toNat
  enough : m ≤ l.entries.length
  slots : l.entries.length + l.unused.length = c.leafOrder

/-- The least number of keys in a node below the root, by its distance from the leaves. -/
def minFill : Nat → Nat
  | 0 => cut c.leafOrder
  | _ + 1 => cut c.branchOrder - 1

/-- A node whose leaves are all `h` levels below it, responsible for the keys in `[lo, hi)`, with at
least `m` keys of its own. A branch with `n` keys has `n + 1` children; its keys ascend, and each
bounds the children left and right of it. -/
def WF : Nat → Nat → Nat → Nat → Node → Prop
  | 0, m, lo, hi, .leaf l => LeafWF c m lo hi l
  | h + 1, m, lo, hi, .branch keys pointers =>
    m ≤ keys.length ∧ keys.length ≤ c.branchOrder - 1 ∧
      Tiles (fun a b n => WF h (minFill c h) a b n) lo keys pointers hi
  | _, _, _, _, _ => False

abbrev Child (h : Nat) : Nat → Nat → Node → Prop := fun a b n => WF c h (minFill c h) a b n

def rootFill : Nat → Nat
  | 0 => 0
  | _ + 1 => 1

/-- A whole tree over keys below `top`. -/
def RootWF (top h : Nat) (n : Node) : Prop := WF c h (rootFill h) 0 top n

/-- What a node in this place has to hold. -/
def need (h : Nat) : List Parent → Nat
  | [] => rootFill h
  | _ :: _ => minFill c h

/-- Everything around a node is well formed, given a node of height `h` over `[lo, hi)`. -/
def PathWF (top : Nat) : Nat → Nat → Nat → List Parent → Prop
  | _, lo, hi, [] => lo = 0 ∧ hi = top
  | h, lo, hi, p :: path => ∃ lo' hi', PathWF top (h + 1) lo' hi' path ∧
      need c (h + 1) path ≤ p.keys.length ∧ p.keys.length ≤ c.branchOrder - 1 ∧
      LeftOf (Child c h) lo' (p.keys.take p.left.length) p.left lo ∧
      RightOf (Child c h) hi (p.keys.drop p.left.length) p.right hi'

mutual
/-- The inodes below a node, from left to right. -/
def Node.entries : Node → List Entry
  | .leaf l => l.entries
  | .branch _ pointers => entriesOf pointers

def entriesOf : List Node → List Entry
  | [] => []
  | n :: ns => n.entries ++ entriesOf ns
end

theorem entriesOf_eq (ns : List Node) : entriesOf ns = ns.flatMap Node.entries := by
  induction ns with
  | nil => rfl
  | cons n ns ih => rw [entriesOf, ih, List.flatMap_cons]

@[simp] theorem entries_leaf (l : Leaf) : (Node.leaf l).entries = l.entries := rfl

@[simp] theorem entries_branch (keys : List Nat) (pointers : List Node) :
    (Node.branch keys pointers).entries = pointers.flatMap Node.entries := by
  rw [Node.entries, entriesOf_eq]

def before : List Parent → List Entry
  | [] => []
  | p :: path => before path ++ p.left.flatMap Node.entries

def after : List Parent → List Entry
  | [] => []
  | p :: path => p.right.flatMap Node.entries ++ after path

theorem entries_root (n : Node) (path : List Parent) :
    (root n path).entries = before path ++ n.entries ++ after path := by
  induction path generalizing n with
  | nil => simp [root, before, after]
  | cons p path ih =>
    rw [root, ih]
    simp [before, after, Parent.hang]

/-! ### Bounds -/

theorem rootFill_le_minFill (h : Nat) : rootFill h ≤ minFill c h := by
  have hb := c.three_le_branchOrder
  have hc := cut_spec c.branchOrder
  cases h <;> simp only [rootFill, minFill] <;> omega

theorem minFill_pos (h : Nat) : 0 < minFill c h := by
  have hl := c.leafOrder_pos
  have hcl := cut_spec c.leafOrder
  have hb := c.three_le_branchOrder
  have hcb := cut_spec c.branchOrder
  cases h <;> simp only [minFill] <;> omega

theorem need_pos (h : Nat) (path : List Parent) : 0 < need c (h + 1) path := by
  cases path with
  | nil => exact Nat.one_pos
  | cons p path => exact minFill_pos c (h + 1)

variable {c}

theorem LeafWF.weaken {m m' lo hi : Nat} {l : Leaf} (h : LeafWF c m lo hi l) (hm : m' ≤ m) : LeafWF c m' lo hi l :=
  { h with enough := hm.trans h.enough }

theorem WF.weaken {h m m' lo hi : Nat} {n : Node} (hn : WF c h m lo hi n) (hm : m' ≤ m) : WF c h m' lo hi n := by
  match h, n, hn with
  | 0, .leaf l, hn => exact LeafWF.weaken hn hm
  | h + 1, .branch keys pointers, hn => exact ⟨hm.trans hn.1, hn.2⟩

theorem WF.enough {h m lo hi : Nat} {n : Node} (hn : WF c h m lo hi n) : m ≤ n.keyCount := by
  match h, n, hn with
  | 0, .leaf l, hn => exact LeafWF.enough hn
  | h + 1, .branch keys pointers, hn => exact hn.1

theorem WF.raise {h m m' lo hi : Nat} {n : Node} (hn : WF c h m lo hi n) (hm : m' ≤ n.keyCount) :
    WF c h m' lo hi n := by
  match h, n, hn with
  | 0, .leaf l, hn => exact { show LeafWF c m lo hi l from hn with enough := hm }
  | h + 1, .branch keys pointers, hn => exact ⟨hm, hn.2⟩

theorem WF.bounds {h m lo hi : Nat} {n : Node} (hn : WF c h m lo hi n) :
    lo < hi ∧ (∀ e ∈ n.entries, lo ≤ e.1 ∧ e.1 < hi) ∧ n.entries.Pairwise (·.1 < ·.1) ∧
      ∀ e ∈ n.entries, e.1 = e.2.no.toNat := by
  induction h generalizing m lo hi n with
  | zero =>
    match n, hn with
    | .leaf l, hn => exact ⟨hn.proper, hn.within, hn.ascending, hn.numbered⟩
  | succ h ih =>
    match n, hn with
    | .branch keys pointers, hn =>
      have hcell : ∀ a b x, Child c h a b x → a ≤ b ∧ ∀ e ∈ x.entries, a ≤ e.1 ∧ e.1 < b :=
        fun a b x hx => ⟨(ih hx).1.le, (ih hx).2.1⟩
      rw [entries_branch]
      refine ⟨(hn.2.2.borders fun a b x hx => (ih hx).1).1, (hn.2.2.forall_mem _ _ hcell).2,
        hn.2.2.pairwise _ _ hcell fun a b x hx => (ih hx).2.2.1, ?_⟩
      exact hn.2.2.forall_cells fun a b x (hx : Child c h a b x) => (ih hx).2.2.2

theorem WF.lt {h m lo hi : Nat} {n : Node} (hn : WF c h m lo hi n) : lo < hi := hn.bounds.1

theorem WF.within {h m lo hi : Nat} {n : Node} (hn : WF c h m lo hi n) :
    ∀ e ∈ n.entries, lo ≤ e.1 ∧ e.1 < hi := hn.bounds.2.1

theorem WF.ascending {h m lo hi : Nat} {n : Node} (hn : WF c h m lo hi n) :
    n.entries.Pairwise (·.1 < ·.1) := hn.bounds.2.2.1

theorem WF.numbered {h m lo hi : Nat} {n : Node} (hn : WF c h m lo hi n) :
    ∀ e ∈ n.entries, e.1 = e.2.no.toNat := hn.bounds.2.2.2

theorem WF.entries_ne_nil {h m lo hi : Nat} {n : Node} (hn : WF c h m lo hi n) (hm : 0 < m) : n.entries ≠ [] := by
  induction h generalizing m lo hi n with
  | zero =>
    match n, hn with
    | .leaf l, hn => exact List.ne_nil_of_length_pos (hm.trans_le (LeafWF.enough hn))
  | succ h ih =>
    match n, hn with
    | .branch keys (x :: pointers), hn =>
      obtain ⟨a, b, -, hc, -⟩ := hn.2.2.focus 0 x rfl
      have hx := ih hc (minFill_pos c h)
      simp [hx]
    | .branch keys [], hn => simpa using hn.2.2.length_eq

theorem child_bounds {h : Nat} (a b : Nat) (n : Node) (hn : Child c h a b n) :
    a ≤ b ∧ ∀ e ∈ n.entries, a ≤ e.1 ∧ e.1 < b := ⟨hn.lt.le, hn.within⟩

/-- Keys around a place lie on their side of it. -/
theorem PathWF.outside {top h lo hi : Nat} {path : List Parent} (hp : PathWF c top h lo hi path) :
    (∀ e ∈ before path, e.1 < lo) ∧ ∀ e ∈ after path, hi ≤ e.1 := by
  induction path generalizing h lo hi with
  | nil => simp [before, after]
  | cons p path ih =>
    obtain ⟨lo', hi', hpath, -, -, hl, hr⟩ := hp
    obtain ⟨hb, ha⟩ := ih hpath
    obtain ⟨hlo, hl⟩ := hl.forall_mem _ Prod.fst child_bounds
    obtain ⟨hhi, hr⟩ := hr.forall_mem _ Prod.fst child_bounds
    simp only [before, after, List.mem_append]
    constructor
    · rintro e (he | he)
      · exact (hb e he).trans_le hlo
      · exact (hl e he).2
    · rintro e (he | he)
      · exact (hr e he).1
      · exact hhi.trans (ha e he)

/-- A node hung into its place gives a well-formed tree. -/
theorem PathWF.root_wf {top h lo hi : Nat} {path : List Parent} (hp : PathWF c top h lo hi path) {n : Node}
    (hn : WF c h (need c h path) lo hi n) : ∃ h', RootWF c top h' (root n path) := by
  induction path generalizing h lo hi n with
  | nil =>
    obtain ⟨rfl, rfl⟩ := hp
    exact ⟨h, hn⟩
  | cons p path ih =>
    obtain ⟨lo', hi', hpath, hmin, hmax, hl, hr⟩ := hp
    refine ih hpath ⟨hmin, hmax, ?_⟩
    have ht := hl.fill (s := []) (d := [n]) hn hr
    simpa using ht

/-- Where a search ends, the leaf and what is around it are well formed. -/
theorem findLeafFrom_spec {top : Nat} (key fuel : Nat) {h lo hi : Nat} {n : Node} {path : List Parent}
    (hp : PathWF c top h lo hi path) (hn : WF c h (need c h path) lo hi n) (hlo : lo ≤ key) (hhi : key < hi) :
    findLeafFrom key fuel n path = .error .lowMem ∨
      ∃ l path' a b, findLeafFrom key fuel n path = .ok (l, path') ∧ PathWF c top 0 a b path' ∧
        LeafWF c (need c 0 path') a b l ∧ a ≤ key ∧ key < b ∧ root (.leaf l) path' = root n path := by
  induction fuel generalizing h lo hi n path with
  | zero =>
    match h, n, hn with
    | 0, .leaf l, hn => exact .inr ⟨l, path, lo, hi, rfl, hp, hn, hlo, hhi, rfl⟩
    | h + 1, .branch keys pointers, hn => exact .inl rfl
  | succ fuel ih =>
    match h, n, hn with
    | 0, .leaf l, hn => exact .inr ⟨l, path, lo, hi, rfl, hp, hn, hlo, hhi, rfl⟩
    | h + 1, .branch keys pointers, hn =>
      obtain ⟨x, a, b, hx, hl, hcell, hr, ha, hb⟩ := hn.2.2.find key hlo hhi
      change pointers[childIndex keys key]? = some x at hx
      simp only [findLeafFrom, hx]
      obtain ⟨hi', rfl⟩ := List.getElem?_eq_some_iff.1 hx
      have hlen : (pointers.take (childIndex keys key)).length = childIndex keys key := by
        rw [List.length_take]; omega
      have hnext : PathWF c top h a b
          (⟨keys, pointers.take (childIndex keys key), pointers.drop (childIndex keys key + 1)⟩ :: path) := by
        refine ⟨lo, hi, hp, hn.1, hn.2.1, ?_, ?_⟩ <;> simp only [hlen]
        · exact hl
        · exact hr
      have hroot : root pointers[childIndex keys key]
          (⟨keys, pointers.take (childIndex keys key), pointers.drop (childIndex keys key + 1)⟩ :: path) =
          root (.branch keys pointers) path := by
        rw [root, Parent.hang, ← List.drop_eq_getElem_cons, List.take_append_drop]
      rw [← hroot]
      exact ih hnext hcell ha hb

end Paffs.Tree
