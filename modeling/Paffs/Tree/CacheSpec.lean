import Paffs.Tree.CacheCommit

/-! When the cache is in order, what is found through it, and what giving up a node changes. -/
namespace Paffs.Tree

namespace TreeNode
variable {n : TreeNode}

@[simp] theorem setPointer_self (n : TreeNode) (i : Nat) (addr : Addr) : (n.setPointer i addr).self = n.self := by
  unfold setPointer
  split <;> rfl

theorem setPointer_pointer_self (h : n.isLeaf = false) (i : Nat) (addr : Addr) : (n.setPointer i addr).pointer i = addr := by
  obtain ⟨_ | ⟨keys, pointers⟩, self⟩ := n
  · cases h
  · exact Function.update_self ..

theorem setPointer_pointer_ne (n : TreeNode) {i j : Nat} (h : j ≠ i) (addr : Addr) :
    (n.setPointer i addr).pointer j = n.pointer j := by
  obtain ⟨_ | ⟨keys, pointers⟩, self⟩ := n
  · rfl
  · exact Function.update_of_ne h ..

end TreeNode

/-- The same but for the addresses of the nodes below. -/
inductive As.Alike : As → As → Prop
  | leaf (l : Leaf) : Alike (.leaf l) (.leaf l)
  | branch (keys : List Nat) (pointers pointers' : Nat → Addr) : Alike (.branch keys pointers) (.branch keys pointers')

namespace As.Alike

theorem refl (a : As) : Alike a a := by
  cases a with
  | leaf l => exact .leaf l
  | branch keys pointers => exact .branch keys pointers pointers

theorem trans {a b c : As} (h : Alike a b) (h' : Alike b c) : Alike a c := by
  cases h with
  | leaf l => exact h'
  | branch keys pointers _ =>
    cases h' with
    | branch _ _ pointers' => exact .branch keys pointers pointers'

theorem isLeaf {n n' : TreeNode} (h : Alike n.as n'.as) : n'.isLeaf = n.isLeaf := by
  obtain ⟨as, self⟩ := n
  obtain ⟨as', self'⟩ := n'
  cases h <;> rfl

theorem keys {n n' : TreeNode} (h : Alike n.as n'.as) : n'.keys = n.keys := by
  obtain ⟨as, self⟩ := n
  obtain ⟨as', self'⟩ := n'
  cases h <;> rfl

theorem setPointer (n : TreeNode) (i : Nat) (addr : Addr) : Alike n.as (n.setPointer i addr).as := by
  obtain ⟨_ | ⟨keys, pointers⟩, self⟩ := n
  · exact .leaf _
  · exact .branch ..

end As.Alike

theorem readTreeNode_self {flash : Flash} {n : TreeNode} (h : flash n.self = some n) : readTreeNode flash n.self = some n := by
  rw [readTreeNode, h, Option.filter_some, if_pos (decide_eq_true rfl)]

/-- A whole tree lies below an address. -/
inductive Intact (flash : Flash) : Addr → Prop
  | leaf {addr : Addr} {n : TreeNode} : readTreeNode flash addr = some n → n.isLeaf = true → Intact flash addr
  | branch {addr : Addr} {n : TreeNode} : readTreeNode flash addr = some n → n.isLeaf = false →
      (∀ i ≤ n.keys, Intact flash (n.pointer i)) → Intact flash addr

theorem Intact.read {flash : Flash} {addr : Addr} (h : Intact flash addr) : ∃ n, readTreeNode flash addr = some n ∧
    (n.isLeaf = false → ∀ i ≤ n.keys, Intact flash (n.pointer i)) := by
  cases h with
  | leaf hread hleaf =>
    refine ⟨_, hread, fun h => ?_⟩
    rw [hleaf] at h
    cases h
  | branch hread _ hbelow => exact ⟨_, hread, fun _ => hbelow⟩

namespace TreeCache
variable {size : Nat} {t t' : TreeCache size} {x p c : Fin size} {i j : Nat}

/-! ### Search -/

/-- Where a node is at hand: in a slot of the cache or at an address. -/
abbrev Place (size : Nat) := Fin size ⊕ Addr

def nodeAt (t : TreeCache size) : Place size → Option TreeNode
  | .inl slot => some (t.cache slot).raw
  | .inr addr => readTreeNode t.flash addr

/-- A child that is not in the cache is read from flash. -/
def childAt (t : TreeCache size) (i : Nat) (addr : Addr) : Place size → Place size
  | .inl slot =>
    match (t.cache slot).pointers i with
    | some child => .inl child
    | none => .inr addr
  | .inr _ => .inr addr

theorem childAt_of_some (h : (t.cache x).pointers i = some c) (addr : Addr) : t.childAt i addr (.inl x) = .inl c := by
  rw [childAt, h]

theorem childAt_of_none (h : (t.cache x).pointers i = none) (addr : Addr) : t.childAt i addr (.inl x) = .inr addr := by
  rw [childAt, h]

/-- The inode of a number, over at most so many nodes. -/
def findFrom (t : TreeCache size) (key : Nat) : Nat → Place size → Except Result Inode
  | 0, _ => .error .lowMem
  | fuel + 1, place =>
    match t.nodeAt place with
    | none => .error .bug
    | some ⟨.leaf l, _⟩ => findInLeaf l key
    | some ⟨.branch keys pointers, _⟩ =>
      findFrom t key fuel (t.childAt (childIndex keys key) (pointers (childIndex keys key)) place)

/-- What the tree maps a number to, be the nodes cached or not. -/
def find (t : TreeCache size) (fuel key : Nat) : Except Result Inode :=
  t.findFrom key fuel (if t.cacheUsage t.cacheRoot then .inl t.cacheRoot else .inr t.rootnodeAddr)

/-- Places are looked through alike if they hold alike nodes, and below them places that are looked through alike. -/
theorem findFrom_congr {R : Place size → Place size → Prop}
    (hR : ∀ a b, R a b → ∃ n n', t.nodeAt a = some n ∧ t'.nodeAt b = some n' ∧ As.Alike n.as n'.as ∧
      (n.isLeaf = false → ∀ i ≤ n.keys, R (t.childAt i (n.pointer i) a) (t'.childAt i (n'.pointer i) b)))
    (key fuel : Nat) {a b : Place size} (h : R a b) : t'.findFrom key fuel b = t.findFrom key fuel a := by
  induction fuel generalizing a b with
  | zero => rfl
  | succ fuel ih =>
    obtain ⟨⟨as, self⟩, ⟨as', self'⟩, hn, hn', halike, hbelow⟩ := hR a b h
    cases halike with
    | leaf l => rw [findFrom, findFrom, hn, hn']
    | branch keys pointers pointers' =>
      rw [findFrom, findFrom, hn, hn']
      exact ih (hbelow rfl _ List.findIdx_le_length)

/-! ### Order -/

/-- A cached child and its position below the parent. -/
def HasChild (t : TreeCache size) (p : Fin size) (i : Nat) (c : Fin size) : Prop :=
  (t.cache p).raw.isLeaf = false ∧ i ≤ (t.cache p).raw.keys ∧ (t.cache p).pointers i = some c

/-- No node is below itself. -/
structure Ranks (t : TreeCache size) (rank : Fin size → Nat) : Prop where
  lt_of_hasChild : ∀ p i c, t.cacheUsage p = true → t.HasChild p i c → rank c < rank p
  lt_size : ∀ c, rank c < size

/-- The used slots form a tree below the root. -/
structure Linked (t : TreeCache size) : Prop where
  root_parent : (t.cache t.cacheRoot).parent = some t.cacheRoot ∨ t.cacheUsage t.cacheRoot = false
  root_used : ∀ c, t.cacheUsage c = true → t.cacheUsage t.cacheRoot = true
  parent : ∀ c, t.cacheUsage c = true → c ≠ t.cacheRoot → ∃ p i, t.cacheUsage p = true ∧ t.HasChild p i c
  child : ∀ p i c, t.cacheUsage p = true → t.HasChild p i c →
    t.cacheUsage c = true ∧ c ≠ t.cacheRoot ∧ (t.cache c).parent = some p
  position : ∀ p i j c, t.cacheUsage p = true → t.HasChild p i c → t.HasChild p j c → i = j
  ranked : ∃ rank, t.Ranks rank

theorem Linked.parent_root (h : t.Linked) (hroot : t.cacheUsage t.cacheRoot = true) :
    (t.cache t.cacheRoot).parent = some t.cacheRoot := by
  rcases h.root_parent with hp | hp
  · exact hp
  · rw [hroot] at hp
    cases hp

/-- The parent of a node is the node itself at the root, and else stands higher. -/
theorem Linked.parent_rank (h : t.Linked) {rank : Fin size → Nat} (hr : t.Ranks rank) (hc : t.cacheUsage c = true) :
    ∃ p, (t.cache c).parent = some p ∧ t.cacheUsage p = true ∧ (p = c ∨ rank c < rank p) := by
  by_cases hroot : c = t.cacheRoot
  · have hused := h.root_used c hc
    refine ⟨c, ?_, hc, .inl rfl⟩
    rw [hroot]
    exact h.parent_root hused
  · obtain ⟨p, i, hp, hchild⟩ := h.parent c hc hroot
    exact ⟨p, (h.child p i c hp hchild).2.2, hp, .inr (hr.lt_of_hasChild p i c hp hchild)⟩

theorem Linked.parent_used (h : t.Linked) (hc : t.cacheUsage c = true) : ∃ p, (t.cache c).parent = some p ∧ t.cacheUsage p = true := by
  by_cases hroot : c = t.cacheRoot
  · have hused := h.root_used c hc
    refine ⟨t.cacheRoot, ?_, hused⟩
    rw [hroot]
    exact h.parent_root hused
  · obtain ⟨p, i, hp, hchild⟩ := h.parent c hc hroot
    exact ⟨p, (h.child p i c hp hchild).2.2, hp⟩

/-- A node on the way from another to the root. -/
def Above (t : TreeCache size) (a c : Fin size) : Prop := Relation.TransGen (fun c p => (t.cache c).parent = some p) c a

theorem Above.above_parent {a : Fin size} (h : t.Above a c) (hp : (t.cache c).parent = some p) : a = p ∨ t.Above a p := by
  obtain ⟨q, hstep, hrest⟩ := Relation.TransGen.head'_iff.mp h
  cases hp.symm.trans hstep
  exact Relation.reflTransGen_iff_eq_or_transGen.mp hrest

/-- Clean nodes are on flash, and their parents know where; so are all nodes that are not cached. -/
structure Valid (t : TreeCache size) : Prop extends t.Linked where
  root_clean : t.cacheUsage t.cacheRoot = false → (t.cache t.cacheRoot).dirty = false
  stored : ∀ c, t.cacheUsage c = true → (t.cache c).dirty = false → t.flash (t.cache c).raw.self = some (t.cache c).raw
  known : ∀ p i c, t.cacheUsage p = true → t.HasChild p i c → (t.cache c).dirty = false →
    (t.cache p).raw.pointer i = (t.cache c).raw.self
  root_known : t.cacheUsage t.cacheRoot = true → (t.cache t.cacheRoot).dirty = false →
    t.rootnodeAddr = (t.cache t.cacheRoot).raw.self
  uncached : ∀ p, t.cacheUsage p = true → (t.cache p).raw.isLeaf = false → ∀ i ≤ (t.cache p).raw.keys,
    (t.cache p).pointers i = none → Intact t.flash ((t.cache p).raw.pointer i)

/-- The addresses the tree is read from. -/
inductive InUse (t : TreeCache size) : Addr → Prop
  | node {c : Fin size} : t.cacheUsage c = true → (t.cache c).dirty = false → InUse t (t.cache c).raw.self
  | uncached {p : Fin size} {i : Nat} : t.cacheUsage p = true → (t.cache p).raw.isLeaf = false → i ≤ (t.cache p).raw.keys →
      (t.cache p).pointers i = none → InUse t ((t.cache p).raw.pointer i)
  | child {addr : Addr} {n : TreeNode} {i : Nat} : InUse t addr → readTreeNode t.flash addr = some n → n.isLeaf = false →
      i ≤ n.keys → InUse t (n.pointer i)

end TreeCache

/-- What the tree cache relies on: garbage collection leaves the pages of the tree readable at their addresses, and a page
that was written is not written again before it is erased. -/
structure Surroundings.Careful {size : Nat} (o : Surroundings size) : Prop where
  collects : ∀ t addr, t.InUse addr → (o.findWritableArea t).2.2.2 addr = t.flash addr
  programs : ∀ t addr n other m, t.flash other = some m → (o.writePage t addr n).2 other = some m
  writes : ∀ t addr n, (o.writePage t addr n).1 = .ok → (o.writePage t addr n).2 addr = some n

namespace TreeCache
variable {size : Nat} {o : Surroundings size} {t t' : TreeCache size} {x p c : Fin size} {i j : Nat}

/-! ### What leaves the slots alone -/

/-- No slot changes hands, and no node is linked differently. -/
structure Alike (t t' : TreeCache size) : Prop where
  cacheRoot : t'.cacheRoot = t.cacheRoot
  cacheUsage : t'.cacheUsage = t.cacheUsage
  as : ∀ c, As.Alike (t.cache c).raw.as (t'.cache c).raw.as
  parent : ∀ c, (t'.cache c).parent = (t.cache c).parent
  pointers : ∀ c, (t'.cache c).pointers = (t.cache c).pointers
  locked : ∀ c, (t'.cache c).locked = (t.cache c).locked
  inheritedLock : ∀ c, (t'.cache c).inheritedLock = (t.cache c).inheritedLock

namespace Alike

theorem refl (t : TreeCache size) : Alike t t :=
  ⟨rfl, rfl, fun _ => .refl _, fun _ => rfl, fun _ => rfl, fun _ => rfl, fun _ => rfl⟩

theorem trans {t'' : TreeCache size} (h : Alike t t') (h' : Alike t' t'') : Alike t t'' :=
  ⟨h'.cacheRoot.trans h.cacheRoot, h'.cacheUsage.trans h.cacheUsage, fun c => (h.as c).trans (h'.as c),
    fun c => (h'.parent c).trans (h.parent c), fun c => (h'.pointers c).trans (h.pointers c),
    fun c => (h'.locked c).trans (h.locked c), fun c => (h'.inheritedLock c).trans (h.inheritedLock c)⟩

theorem hasChild (h : Alike t t') : t'.HasChild p i c ↔ t.HasChild p i c := by
  unfold HasChild
  rw [(h.as p).isLeaf, (h.as p).keys, h.pointers p]

theorem ranks (h : Alike t t') {rank : Fin size → Nat} (hr : t.Ranks rank) : t'.Ranks rank := by
  refine ⟨fun p i c hp hc => ?_, hr.lt_size⟩
  rw [h.cacheUsage] at hp
  exact hr.lt_of_hasChild p i c hp (h.hasChild.mp hc)

theorem linked (h : Alike t t') (hl : t.Linked) : t'.Linked := by
  obtain ⟨rank, hr⟩ := hl.ranked
  constructor
  · rw [h.cacheUsage, h.cacheRoot, h.parent]
    exact hl.root_parent
  · rw [h.cacheUsage, h.cacheRoot]
    exact hl.root_used
  · rw [h.cacheUsage, h.cacheRoot]
    intro c hc hne
    obtain ⟨p, i, hp, hchild⟩ := hl.parent c hc hne
    exact ⟨p, i, hp, h.hasChild.mpr hchild⟩
  · rw [h.cacheUsage, h.cacheRoot]
    intro p i c hp hchild
    rw [h.parent]
    exact hl.child p i c hp (h.hasChild.mp hchild)
  · rw [h.cacheUsage]
    intro p i j c hp hi hj
    exact hl.position p i j c hp (h.hasChild.mp hi) (h.hasChild.mp hj)
  · exact ⟨rank, h.ranks hr⟩

end Alike

/-- The flash still holds the tree. -/
def KeepsFlash (t t' : TreeCache size) : Prop :=
  ∀ addr, t.InUse addr → ∀ n, readTreeNode t.flash addr = some n → readTreeNode t'.flash addr = some n

theorem KeepsFlash.intact (h : t.KeepsFlash t') {addr : Addr} (hi : Intact t.flash addr) (hu : t.InUse addr) :
    Intact t'.flash addr := by
  induction hi with
  | leaf hread hleaf => exact .leaf (h _ hu _ hread) hleaf
  | branch hread hleaf _ ih => exact .branch (h _ hu _ hread) hleaf fun i hi => ih i hi (.child hu hread hleaf hi)

/-- Uncached nodes are looked for where they were. -/
def KeepsPointers (t t' : TreeCache size) : Prop :=
  ∀ p, t.cacheUsage p = true → (t.cache p).raw.isLeaf = false → ∀ i ≤ (t.cache p).raw.keys, (t.cache p).pointers i = none →
    (t'.cache p).raw.pointer i = (t.cache p).raw.pointer i

/-- The places of the tree. -/
def Holds (t : TreeCache size) : Place size → Prop
  | .inl slot => t.cacheUsage slot = true
  | .inr addr => t.InUse addr ∧ Intact t.flash addr

theorem Holds.nodeAt (h : t.Valid) {place : Place size} (hp : t.Holds place) : ∃ n, t.nodeAt place = some n ∧
    (n.isLeaf = false → ∀ i ≤ n.keys, t.Holds (t.childAt i (n.pointer i) place)) := by
  cases place with
  | inl slot =>
    refine ⟨_, rfl, fun hbranch i hi => ?_⟩
    cases hc : (t.cache slot).pointers i with
    | some child =>
      rw [childAt_of_some hc]
      exact (h.child slot i child hp ⟨hbranch, hi, hc⟩).1
    | none =>
      rw [childAt_of_none hc]
      exact ⟨.uncached hp hbranch hi hc, h.uncached slot hp hbranch i hi hc⟩
  | inr addr =>
    obtain ⟨hu, hintact⟩ := hp
    obtain ⟨n, hread, hbelow⟩ := hintact.read
    exact ⟨n, hread, fun hbranch i hi => ⟨.child hu hread hbranch hi, hbelow hbranch i hi⟩⟩

theorem find_of_keeps (h : t.Valid) (ha : t.Alike t') (hf : t.KeepsFlash t') (hp : t.KeepsPointers t')
    (hroot : t.cacheUsage t.cacheRoot = true) (fuel key : Nat) : t'.find fuel key = t.find fuel key := by
  unfold find
  rw [ha.cacheUsage, ha.cacheRoot, if_pos hroot, if_pos hroot]
  apply findFrom_congr (R := fun a b => a = b ∧ t.Holds a)
  · rintro place _ ⟨rfl, hholds⟩
    obtain ⟨n, hn, hbelow⟩ := hholds.nodeAt h
    cases place with
    | inl slot =>
      refine ⟨n, _, hn, rfl, ?_, fun hbranch i hi => ⟨?_, hbelow hbranch i hi⟩⟩
      all_goals cases hn
      · exact ha.as slot
      · have hc' := congrFun (ha.pointers slot) i
        cases hc : (t.cache slot).pointers i with
        | some child => rw [childAt_of_some hc, childAt_of_some (hc'.trans hc)]
        | none => rw [childAt_of_none hc, childAt_of_none (hc'.trans hc), hp slot hholds hbranch i hi hc]
    | inr addr => exact ⟨n, n, hn, hf addr hholds.1 n hn, .refl _, fun hbranch i hi => ⟨rfl, hbelow hbranch i hi⟩⟩
  · exact ⟨rfl, hroot⟩

/-- The run of a function that gives up no node. -/
structure Keeps (t t' : TreeCache size) : Prop where
  alike : t.Alike t'
  valid : t'.Valid
  find : ∀ fuel key, t'.find fuel key = t.find fuel key

namespace Keeps

theorem refl (h : t.Valid) : Keeps t t := ⟨.refl t, h, fun _ _ => rfl⟩

theorem trans {t'' : TreeCache size} (h : Keeps t t') (h' : Keeps t' t'') : Keeps t t'' :=
  ⟨h.alike.trans h'.alike, h'.valid, fun fuel key => (h'.find fuel key).trans (h.find fuel key)⟩

end Keeps

/-- What is clean afterwards has to be on flash and known where it is looked for. -/
theorem keeps_of (h : t.Valid) (ha : t.Alike t') (hf : t.KeepsFlash t') (hp : t.KeepsPointers t')
    (hroot : t.cacheUsage t.cacheRoot = true)
    (hstored : ∀ c, t.cacheUsage c = true → (t'.cache c).dirty = false → t'.flash (t'.cache c).raw.self = some (t'.cache c).raw)
    (hknown : ∀ p i c, t.cacheUsage p = true → t.HasChild p i c → (t'.cache c).dirty = false →
      (t'.cache p).raw.pointer i = (t'.cache c).raw.self)
    (hroot_known : (t'.cache t.cacheRoot).dirty = false → t'.rootnodeAddr = (t'.cache t.cacheRoot).raw.self) :
    Keeps t t' := by
  refine ⟨ha, ⟨ha.linked h.toLinked, ?_, ?_, ?_, ?_, ?_⟩, find_of_keeps h ha hf hp hroot⟩
  all_goals rw [ha.cacheUsage]
  · rw [ha.cacheRoot]
    intro hno
    rw [hroot] at hno
    cases hno
  · exact hstored
  · intro p i c hused hchild
    exact hknown p i c hused (ha.hasChild.mp hchild)
  · rw [ha.cacheRoot]
    exact fun _ => hroot_known
  · intro p hused hbranch i hi hnone
    rw [(ha.as p).isLeaf] at hbranch
    rw [(ha.as p).keys] at hi
    rw [ha.pointers] at hnone
    rw [hp p hused hbranch i hi hnone]
    exact hf.intact (h.uncached p hused hbranch i hi hnone) (.uncached hused hbranch hi hnone)

end TreeCache
end Paffs.Tree
