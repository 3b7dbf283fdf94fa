import Paffs.Tree.InsertSpec

/-! Deletion keeps the tree well formed and removes exactly one inode, as long as the keys
between the nodes it coalesces fit the 16-bit variable they are carried in. -/
namespace Paffs.Tree
open Tiling

/-- The node an underfull one is coalesced with or takes an entry from. -/
def neighbor (p : Parent) : Option Node := p.left.getLast?.or p.right.head?

/-- The key between a node and its neighbour, as it stands in their parent. -/
def kPrime (p : Parent) : Nat := p.keys.getD (p.left.length - 1) 0

/-- A node below these parents is left with `n` keys. If it is coalesced with its neighbour, the key
between both has at most 16 bits, and so on for the branch above that loses this key; if a branch
takes an entry of its neighbour, this holds of the key that moves down. -/
def kPrimesFit (c : Config) : Bool → Nat → List Parent → Bool
  | _, _, [] => true
  | isLeaf, n, p :: path =>
    (if isLeaf then cut c.leafOrder else cut c.branchOrder - 1) ≤ n ||
      (neighbor p).all fun nb =>
        if nb.keyCount + n ≤ capacity c nb then
          kPrime p < 65536 && kPrimesFit c false (p.keys.length - 1) path
        else isLeaf || kPrime p < 65536

variable {c : Config}

/-- What is left of a tree with these inodes. -/
def Leaves (c : Config) (top : Nat) (es : List Entry) : Option Node → Prop
  | none => es = []
  | some n => (∃ h, RootWF c top h n) ∧ n.entries = es

def maxShared (c : Config) : Nat → Nat
  | 0 => c.leafOrder
  | _ + 1 => c.branchOrder - 2

theorem WF.isLeaf_eq {h m lo hi : Nat} {n : Node} (hn : WF c h m lo hi n) : n.isLeaf = decide (h = 0) := by
  match h, n, hn with
  | 0, .leaf l, hn => rfl
  | h + 1, .branch keys pointers, hn => simp [Node.isLeaf]

theorem WF.capacity_eq {h m lo hi : Nat} {n : Node} (hn : WF c h m lo hi n) : capacity c n = maxShared c h := by
  rw [capacity, hn.isLeaf_eq]
  cases h <;> simp [maxShared]

theorem WF.minKeys_eq {h m lo hi : Nat} {n : Node} (hn : WF c h m lo hi n) : minKeys c n = minFill c h := by
  rw [minKeys, hn.isLeaf_eq]
  cases h <;> simp [minFill]

/-- Two neighbours with few keys become one node. -/
theorem coalesceNodes_spec {h m₁ m₂ a s b : Nat} {x y : Node} (hx : WF c h m₁ a s x) (hy : WF c h m₂ s b y)
    (hcap : x.keyCount + y.keyCount ≤ maxShared c h) (hmin : minFill c h ≤ x.keyCount + y.keyCount) :
    ∃ z rest, coalesceNodes x y s = some (z, rest) ∧ Child c h a b z ∧ z.entries = x.entries ++ y.entries := by
  match h, x, y, hx, hy with
  | 0, .leaf t, .leaf f, hx, hy =>
    have ht : LeafWF c m₁ a s t := hx
    have hf : LeafWF c m₂ s b f := hy
    have hslots := ht.slots
    refine ⟨_, _, rfl, ⟨ht.proper.trans hf.proper, ?_, fun e he => ?_, fun e he => ?_, ?_, ?_⟩, rfl⟩
    · exact List.pairwise_append.2 ⟨ht.ascending, hf.ascending, fun e he e' he' =>
        (ht.within e he).2.trans_le (hf.within e' he').1⟩
    · rcases List.mem_append.1 he with he | he
      · exact ⟨(ht.within e he).1, (ht.within e he).2.trans hf.proper⟩
      · exact ⟨ht.proper.le.trans (hf.within e he).1, (hf.within e he).2⟩
    · exact (List.mem_append.1 he).elim (ht.numbered e) (hf.numbered e)
    · simpa [Node.keyCount] using hmin
    · simp only [Node.keyCount, maxShared] at hcap
      simp only [List.length_append, List.length_drop]
      omega
  | h + 1, .branch tk tp, .branch fk fp, hx, hy =>
    have hord := c.three_le_branchOrder
    simp only [Node.keyCount, maxShared] at hcap hmin
    refine ⟨.branch (tk ++ s :: fk) (tp ++ fp), _, rfl, ⟨?_, ?_, ?_⟩, ?_⟩
    · simp only [List.length_append, List.length_cons]; omega
    · simp only [List.length_append, List.length_cons]; omega
    · exact (tiles_append hx.2.2.length_eq).2 ⟨hx.2.2, hy.2.2⟩
    · simp

/-- A node and its fuller left neighbour, after one entry has moved to the right. -/
theorem redistributeFromLeft_spec {h a s s' b : Nat} {x y : Node} (hx : Child c h a s x)
    (hy : WF c h (minFill c h - 1) s b y) (hs : h = 0 ∨ s' = s) (hlow : y.keyCount < minFill c h)
    (hcap : ¬ x.keyCount + y.keyCount ≤ maxShared c h) :
    ∃ y' x' k, redistributeFromLeft y x s' = some (y', x', k) ∧ Child c h a k x' ∧ Child c h k b y' ∧
      x'.entries ++ y'.entries = x.entries ++ y.entries := by
  have henough := hy.enough
  match h, x, y, hx, hy with
  | 0, .leaf nb, .leaf l, hx, hy =>
    have hnb : LeafWF c (minFill c 0) a s nb := hx
    have hl : LeafWF c (minFill c 0 - 1) s b l := hy
    have hcut := cut_spec c.leafOrder
    have hpos := c.leafOrder_pos
    have hslots := hnb.slots
    have hslots' := hl.slots
    simp only [Node.keyCount, maxShared, minFill] at hcap hlow henough
    have hne : nb.entries ≠ [] := by intro h; simp only [h, List.length_nil] at hcap; omega
    obtain ⟨init, e, he⟩ := (List.eq_nil_or_concat nb.entries).resolve_left hne
    rw [List.concat_eq_append] at he
    have hasc := hnb.ascending
    rw [he, List.pairwise_append] at hasc
    have hmem : ∀ x ∈ init, x ∈ nb.entries := fun x hx => by rw [he]; exact List.mem_append_left _ hx
    have heb := hnb.within e (by rw [he]; simp)
    have hlen : nb.entries.length = init.length + 1 := by rw [he]; simp
    obtain ⟨e₀, he₀⟩ : ∃ e₀, e₀ ∈ init := List.exists_mem_of_ne_nil _ (by
      intro h; simp only [h, List.length_nil] at hlen; omega)
    have ha : a < e.1 := (hnb.within e₀ (hmem e₀ he₀)).1.trans_lt (hasc.2.2 e₀ he₀ e (by simp))
    refine ⟨.leaf ⟨e :: l.entries, l.unused.tail⟩, .leaf ⟨nb.entries.dropLast, e.1 :: nb.unused⟩, e.1,
      by simp [redistributeFromLeft, he], ⟨ha, ?_, fun x hx => ?_, fun x hx => ?_, ?_, ?_⟩,
      ⟨heb.2.trans hl.proper, ?_, fun x hx => ?_, fun x hx => ?_, ?_, ?_⟩, by simp [he]⟩
    · simpa [he] using hasc.1
    · have hx : x ∈ init := by simpa [he] using hx
      exact ⟨(hnb.within x (hmem x hx)).1, hasc.2.2 x hx e (by simp)⟩
    · exact hnb.numbered x (List.mem_of_mem_dropLast hx)
    · simp only [List.length_dropLast, minFill]; omega
    · simp only [List.length_dropLast, List.length_cons]; omega
    · exact List.pairwise_cons.2 ⟨fun x hx => heb.2.trans_le (hl.within x hx).1, hl.ascending⟩
    · rcases List.mem_cons.1 hx with rfl | hx
      · exact ⟨le_rfl, heb.2.trans hl.proper⟩
      · exact ⟨(heb.2.trans_le (hl.within x hx).1).le, (hl.within x hx).2⟩
    · rcases List.mem_cons.1 hx with rfl | hx
      · exact hnb.numbered x (by rw [he]; simp)
      · exact hl.numbered x hx
    · simp only [List.length_cons, minFill]; omega
    · simp only [List.length_cons, List.length_tail]; omega
  | h + 1, .branch nbKeys nbPointers, .branch keys pointers, hx, hy =>
    obtain rfl := hs.resolve_left (Nat.succ_ne_zero h)
    have hcut := cut_spec c.branchOrder
    have hord := c.three_le_branchOrder
    simp only [Node.keyCount, maxShared, minFill] at hcap hlow henough
    have hcount := hx.2.2.length_eq
    have hxmin := hx.1
    have hxmax := hx.2.1
    have hymax := hy.2.1
    obtain ⟨ks, k, rfl⟩ : ∃ ks k, nbKeys = ks ++ [k] := by
      have hne : nbKeys ≠ [] := by intro h; simp only [h, List.length_nil] at hcap; omega
      obtain ⟨ks, k, hk⟩ := (List.eq_nil_or_concat nbKeys).resolve_left hne
      exact ⟨ks, k, by simpa using hk⟩
    obtain ⟨cs, q, rfl⟩ : ∃ cs q, nbPointers = cs ++ [q] := by
      have hne : nbPointers ≠ [] := by intro h; simp [h] at hcount
      obtain ⟨cs, q, hq⟩ := (List.eq_nil_or_concat nbPointers).resolve_left hne
      exact ⟨cs, q, by simpa using hq⟩
    simp only [List.length_append, List.length_singleton, minFill] at hcap hxmin hxmax hcount
    obtain ⟨hks, hq⟩ := (tiles_append (t := []) (by omega)).1 hx.2.2
    have hfill : minFill c (h + 1) = cut c.branchOrder - 1 := rfl
    have hgrown : (s' :: keys).length = keys.length + 1 := rfl
    exact ⟨.branch (s' :: keys) (q :: pointers), .branch ks cs, k, by simp [redistributeFromLeft],
      ⟨by omega, by omega, hks⟩, ⟨by omega, by omega, hq, hy.2.2⟩, by simp⟩

/-- A node and its fuller right neighbour, after one entry has moved to the left. -/
theorem redistributeFromRight_spec {h a s s' b : Nat} {x y : Node} (hx : WF c h (minFill c h - 1) a s x)
    (hy : Child c h s b y) (hs : h = 0 ∨ s' = s) (hlow : x.keyCount < minFill c h)
    (hcap : ¬ y.keyCount + x.keyCount ≤ maxShared c h) :
    ∃ x' y' k, redistributeFromRight x y s' = some (x', y', k) ∧ Child c h a k x' ∧ Child c h k b y' ∧
      x'.entries ++ y'.entries = x.entries ++ y.entries := by
  have henough := hx.enough
  match h, x, y, hx, hy with
  | 0, .leaf l, .leaf nb, hx, hy =>
    have hnb : LeafWF c (minFill c 0) s b nb := hy
    have hl : LeafWF c (minFill c 0 - 1) a s l := hx
    have hcut := cut_spec c.leafOrder
    have hpos := c.leafOrder_pos
    have hslots := hnb.slots
    have hslots' := hl.slots
    simp only [Node.keyCount, maxShared, minFill] at hcap hlow henough
    obtain ⟨e, f, rest, he⟩ : ∃ e f rest, nb.entries = e :: f :: rest := by
      rcases hes : nb.entries with _ | ⟨e, _ | ⟨f, rest⟩⟩
      · simp only [hes, List.length_nil] at hcap; omega
      · simp only [hes, List.length_singleton] at hcap; omega
      · exact ⟨e, f, rest, rfl⟩
    have hasc := hnb.ascending
    rw [he, List.pairwise_cons] at hasc
    have heb := hnb.within e (by rw [he]; simp)
    have hef : e.1 < f.1 := hasc.1 f (by simp)
    have hfb := (hnb.within f (by rw [he]; simp)).2
    have hmem : ∀ x ∈ f :: rest, x ∈ nb.entries := fun x hx => by rw [he]; exact List.mem_cons_of_mem _ hx
    have hlen : nb.entries.length = rest.length + 2 := by rw [he]; rfl
    have hlast : nb.entries.getLast? = some ((f :: rest).getLast (by simp)) := by
      simp [he, List.getLast?_eq_some_getLast]
    refine ⟨.leaf ⟨l.entries ++ [e], l.unused.tail⟩, .leaf ⟨f :: rest, ((f :: rest).getLast (by simp)).1 :: nb.unused⟩,
      f.1, ?_, ⟨(hl.proper.trans_le heb.1).trans hef, ?_, fun x hx => ?_, fun x hx => ?_, ?_, ?_⟩,
      ⟨hfb, hasc.2, fun x hx => ⟨?_, (hnb.within x (hmem x hx)).2⟩, fun x hx => hnb.numbered x (hmem x hx), ?_, ?_⟩,
      by simp [he]⟩
    · simp [redistributeFromRight, hlast]
      simp [he]
    · exact List.pairwise_append.2 ⟨hl.ascending, by simp, fun x hx y hy => by
        obtain rfl := List.mem_singleton.1 hy
        exact (hl.within x hx).2.trans_le heb.1⟩
    · rcases List.mem_append.1 hx with hx | hx
      · exact ⟨(hl.within x hx).1, ((hl.within x hx).2.trans_le heb.1).trans hef⟩
      · obtain rfl := List.mem_singleton.1 hx
        exact ⟨hl.proper.le.trans heb.1, hef⟩
    · rcases List.mem_append.1 hx with hx | hx
      · exact hl.numbered x hx
      · obtain rfl := List.mem_singleton.1 hx
        exact hnb.numbered x (by rw [he]; simp)
    · simp only [List.length_append, List.length_singleton, minFill]; omega
    · simp only [List.length_append, List.length_singleton, List.length_tail]; omega
    · rcases List.mem_cons.1 hx with rfl | hx
      · exact le_rfl
      · exact ((List.pairwise_cons.1 hasc.2).1 x hx).le
    · simp only [List.length_cons, minFill]; omega
    · simp only [List.length_cons]; omega
  | h + 1, .branch keys pointers, .branch nbKeys nbPointers, hx, hy =>
    obtain rfl := hs.resolve_left (Nat.succ_ne_zero h)
    have hcut := cut_spec c.branchOrder
    have hord := c.three_le_branchOrder
    simp only [Node.keyCount, maxShared, minFill] at hcap hlow henough
    have hymin := hy.1
    have hymax := hy.2.1
    have ht := hy.2.2
    rcases nbKeys with _ | ⟨k, ks⟩
    · simp only [List.length_nil] at hcap; omega
    rcases nbPointers with _ | ⟨q, cs⟩
    · exact ht.elim
    simp only [List.length_cons, minFill] at hcap hymin hymax
    have hfill : minFill c (h + 1) = cut c.branchOrder - 1 := rfl
    have hgrown : (keys ++ [s']).length = keys.length + 1 := by simp
    exact ⟨.branch (keys ++ [s']) (pointers ++ [q]), .branch ks cs, k, by simp [redistributeFromRight],
      ⟨by omega, by omega, (tiles_append hx.2.2.length_eq).2 ⟨hx.2.2, ht.1⟩⟩, ⟨by omega, by omega, ht.2⟩, by simp⟩

/-- Taking the key between two coalesced children out of their parent. -/
theorem removeEntryFromNode_border (c : Config) {k₁ k₂ : List Nat} {l r : List Node} (s : Nat) (z rest : Node)
    (hs : ∀ k ∈ k₁, k < s) (hlen : l.length = k₁.length) :
    removeEntryFromNode c (.branch (k₁ ++ s :: k₂) (l ++ z :: rest :: r)) s =
      .ok (.branch (k₁ ++ k₂) (l ++ z :: r)) := by
  have hidx : (k₁ ++ s :: k₂).findIdx (· == s) = k₁.length := by
    have hnot : ¬ ∃ x ∈ k₁, (x == s) = true := by
      rintro ⟨k, hk, hks⟩
      have hlt := hs k hk
      simp only [beq_iff_eq] at hks
      omega
    simp only [List.findIdx_append, List.findIdx_lt_length, hnot, if_false]
    simp [List.findIdx_cons]
  have hnot : ¬ (0 < k₁.length ∧ s < (k₁ ++ s :: k₂).getD (k₁.length - 1) 0) := by
    rintro ⟨hpos, hlt⟩
    rw [List.getD_append _ _ _ _ (by omega), List.getD_eq_getElem _ _ (by omega)] at hlt
    have := hs _ (List.getElem_mem (show k₁.length - 1 < k₁.length by omega))
    omega
  have hmin : min k₁.length ((k₁ ++ s :: k₂).length - 1) = k₁.length := by simp
  simp only [removeEntryFromNode, hidx, if_neg hnot, hmin]
  rw [List.eraseIdx_append_of_length_le le_rfl, List.eraseIdx_append_of_length_le (by omega),
    show k₁.length + 1 - l.length = 1 by omega, Nat.sub_self]
  rfl

section Border
variable {h m lo' a s b hi' : Nat} {k₁ k₂ : List Nat} {l r : List Node} {x y : Node}

/-- Two neighbours are coalesced and the key between them is taken out of their parent. -/
theorem coalesce_border {m₁ m₂ : Nat} (hl : LeftOf (Child c h) lo' k₁ l a) (hx : WF c h m₁ a s x)
    (hy : WF c h m₂ s b y) (hr : RightOf (Child c h) b k₂ r hi') (hcap : x.keyCount + y.keyCount ≤ maxShared c h)
    (hfew : minFill c h ≤ x.keyCount + y.keyCount) (hmin : m ≤ (k₁ ++ s :: k₂).length)
    (hmax : (k₁ ++ s :: k₂).length ≤ c.branchOrder - 1) :
    ∃ z rest p, coalesceNodes x y s = some (z, rest) ∧
      removeEntryFromNode c (.branch (k₁ ++ s :: k₂) (l ++ z :: rest :: r)) s = .ok p ∧
      WF c (h + 1) (m - 1) lo' hi' p ∧ p.keyCount = (k₁ ++ s :: k₂).length - 1 ∧
      p.entries = l.flatMap Node.entries ++ (x.entries ++ y.entries) ++ r.flatMap Node.entries := by
  obtain ⟨z, rest, hz, hzwf, hze⟩ := coalesceNodes_spec hx hy hcap hfew
  have hlt : ∀ k ∈ k₁, k < s := fun k hk =>
    ((hl.borders fun a b x hx => WF.lt hx).2 k hk).trans_lt hx.lt
  have hlen : (k₁ ++ s :: k₂).length = (k₁ ++ k₂).length + 1 := by
    simp only [List.length_append, List.length_cons]; omega
  have ht : Tiles (Child c h) lo' (k₁ ++ k₂) (l ++ z :: r) hi' := by
    simpa using hl.fill (s := []) (d := [z]) hzwf hr
  refine ⟨z, rest, .branch (k₁ ++ k₂) (l ++ z :: r), hz,
    removeEntryFromNode_border c s z rest hlt hl.length_eq, ⟨by omega, by omega, ht⟩, ?_, ?_⟩
  · simp only [Node.keyCount]; omega
  · simp [hze]

theorem entries_redistributed {x' y' : Node} (hes : x'.entries ++ y'.entries = x.entries ++ y.entries) :
    (l ++ x' :: y' :: r).flatMap Node.entries =
      l.flatMap Node.entries ++ (x.entries ++ y.entries) ++ r.flatMap Node.entries := by
  simp [← hes]

/-- An entry has moved over the border between two neighbours. -/
theorem redistribute_border {k : Nat} (hl : LeftOf (Child c h) lo' k₁ l a) (hx : Child c h a k x)
    (hy : Child c h k b y) (hr : RightOf (Child c h) b k₂ r hi') (hmin : m ≤ (k₁ ++ s :: k₂).length)
    (hmax : (k₁ ++ s :: k₂).length ≤ c.branchOrder - 1) :
    WF c (h + 1) m lo' hi' (.branch ((k₁ ++ s :: k₂).set k₁.length k) (l ++ x :: y :: r)) := by
  refine ⟨by simpa using hmin, by simpa using hmax, ?_⟩
  simpa using hl.fill (s := [k]) (d := [x, y]) ⟨hx, hy⟩ hr

end Border

theorem adjustRoot_spec {top h : Nat} {n : Node} (hn : WF c h (rootFill h - 1) 0 top n) :
    Leaves c top n.entries (adjustRoot n) := by
  match h, n, hn with
  | 0, .leaf l, hn =>
    rw [adjustRoot]
    split
    · exact ⟨⟨0, hn⟩, rfl⟩
    · next h =>
      rw [entries_leaf]
      exact List.length_eq_zero_iff.1 (by omega)
  | h + 1, .branch keys pointers, hn =>
    rw [adjustRoot]
    split
    · next hk => exact ⟨⟨h + 1, show WF c (h + 1) 1 0 top _ from ⟨hk, hn.2⟩⟩, rfl⟩
    · next hk =>
      obtain rfl : keys = [] := List.length_eq_zero_iff.1 (by omega)
      match pointers, hn.2.2 with
      | [x], ht => exact ⟨⟨h, WF.weaken ht (rootFill_le_minFill c h)⟩, by simp⟩

/-- Deleting an entry, for a node that keeps its place after losing it. -/
theorem deleteEntry_spec {top h lo hi key : Nat} {n n' : Node} {path : List Parent}
    (hrem : removeEntryFromNode c n key = .ok n') (hp : PathWF c top h lo hi path)
    (hn : WF c h (need c h path - 1) lo hi n') (hfit : kPrimesFit c (decide (h = 0)) n'.keyCount path) :
    (deleteEntry c n key path).1 = .ok ∧
      Leaves c top (before path ++ n'.entries ++ after path) (deleteEntry c n key path).2 := by
  induction path generalizing h lo hi key n n' with
  | nil =>
    obtain ⟨rfl, rfl⟩ := hp
    simp only [deleteEntry, hrem, before, after, List.nil_append, List.append_nil, true_and]
    exact adjustRoot_spec hn
  | cons p path ih =>
    have hplace := hp
    obtain ⟨lo', hi', hpath, hmin, hmax, hl, hr⟩ := hp
    obtain ⟨keys, left, right⟩ := p
    simp only [deleteEntry, hrem, hn.minKeys_eq]
    by_cases henough : minFill c h ≤ n'.keyCount
    · simp only [henough, if_true, true_and]
      exact ⟨hplace.root_wf (hn.raise henough), entries_root _ _⟩
    simp only [henough, if_false]
    have hkind : (if decide (h = 0) then cut c.leafOrder else cut c.branchOrder - 1) = minFill c h := by
      cases h <;> rfl
    rw [kPrimesFit, hkind, decide_eq_false henough, Bool.false_or] at hfit
    have hnlow := hn.enough
    simp only [need] at hnlow hn
    simp only at hl hr hmin hmax
    rcases List.eq_nil_or_concat left with rfl | ⟨l, x, rfl⟩
    · -- the leftmost child, the border to its right neighbour is `hi`
      obtain rfl : lo' = lo := hl
      simp only [List.length_nil, List.drop_zero] at hr
      cases right with
      | nil =>
        have hz := hr.length_eq
        have hpos := need_pos c h path
        simp only [List.length_nil] at hz
        omega
      | cons y r =>
        obtain ⟨k₂, r', y', m, rfl, hry, hy, hr⟩ := hr.first (by simp)
        obtain ⟨rfl, rfl⟩ := List.cons.inj hry
        simp only [neighbor, kPrime, List.getLast?_nil, List.head?_cons, Option.none_or, Option.all_some,
          hy.capacity_eq, List.length_nil, Nat.zero_sub, List.getD_cons_zero] at hfit ⊢
        by_cases hcap : y.keyCount + n'.keyCount ≤ maxShared c h
        · simp only [hcap, if_true, Bool.and_eq_true, decide_eq_true_eq] at hfit ⊢
          obtain ⟨z, rest, q, hz, hq, hqwf, hcount, hes⟩ := coalesce_border (leftOf_nil lo') hn hy hr
            (by omega) (by have := hy.enough; omega) hmin hmax
          rw [List.nil_append, List.nil_append] at hq
          simp only [u16_of_lt hfit.1, hz]
          have hnext := ih hq hpath hqwf (by rw [hcount]; exact hfit.2)
          refine ⟨hnext.1, ?_⟩
          convert hnext.2 using 1
          simp [before, after, hes]
        · simp only [hcap, if_false, Bool.or_eq_true, decide_eq_true_eq] at hfit ⊢
          obtain ⟨x', y', k, hred, hx', hy', hes⟩ :=
            redistributeFromRight_spec hn hy (hfit.imp_right u16_of_lt) (by omega) hcap
          rw [hred]
          refine ⟨rfl, hpath.root_wf (redistribute_border (leftOf_nil lo') hx' hy' hr hmin hmax), ?_⟩
          rw [entries_root, entries_branch, ← List.nil_append (x' :: _), entries_redistributed hes]
          simp [before, after]
    · -- the neighbour is on the left, the border between both is `lo`
      rw [List.concat_eq_append] at hl hr hfit ⊢
      obtain ⟨k₁, l', x', m, hk₁, hlx, hl', hx⟩ := hl.last (by simp)
      obtain ⟨rfl, hxx⟩ := List.append_inj' hlx rfl
      obtain rfl : x = x' := by simpa using hxx
      have hlen := hl'.length_eq
      obtain ⟨k₂, hk₂⟩ : ∃ k₂, keys.drop (l ++ [x]).length = k₂ := ⟨_, rfl⟩
      have hsplit : keys = k₁ ++ lo :: k₂ := by
        have := List.take_append_drop (l ++ [x]).length keys
        rw [hk₁, hk₂] at this
        simpa using this.symm
      rw [hk₂] at hr
      subst hsplit
      have hkey : (k₁ ++ lo :: k₂).getD ((l ++ [x]).length - 1) 0 = lo := by simp [hlen]
      simp only [neighbor, kPrime, List.getLast?_concat, List.dropLast_concat, Option.some_or, Option.all_some,
        hx.capacity_eq, hkey] at hfit ⊢
      by_cases hcap : x.keyCount + n'.keyCount ≤ maxShared c h
      · simp only [hcap, if_true, Bool.and_eq_true, decide_eq_true_eq] at hfit ⊢
        obtain ⟨z, rest, q, hz, hq, hqwf, hcount, hes⟩ := coalesce_border hl' hx hn hr
          hcap (by have := hx.enough; omega) hmin hmax
        simp only [u16_of_lt hfit.1, hz]
        have hnext := ih hq hpath hqwf (by rw [hcount]; exact hfit.2)
        refine ⟨hnext.1, ?_⟩
        convert hnext.2 using 1
        simp [before, after, hes]
      · simp only [hcap, if_false, Bool.or_eq_true, decide_eq_true_eq] at hfit ⊢
        obtain ⟨y', x', k, hred, hx', hy', hes⟩ :=
          redistributeFromLeft_spec hx hn (hfit.imp_right u16_of_lt) (by omega) hcap
        rw [hred]
        have hidx : (l ++ [x]).length - 1 = k₁.length := by simp [hlen]
        simp only [hidx, true_and]
        refine ⟨hpath.root_wf (redistribute_border hl' hx' hy' hr hmin hmax), ?_⟩
        rw [entries_root, entries_branch, entries_redistributed hes]
        simp [before, after]

/-- Deleting a number that a leaf holds. -/
theorem delete_spec {top lo hi key : Nat} {l : Leaf} {path : List Parent} {e : Entry}
    (hp : PathWF c top 0 lo hi path) (hl : LeafWF c (need c 0 path) lo hi l)
    (he : l.entries[Ascending.position key l.entries]? = some e)
    (hfit : kPrimesFit c true (l.entries.length - 1) path) :
    (deleteEntry c (.leaf l) key path).1 = .ok ∧
      Leaves c top (before path ++ l.entries.eraseIdx (Ascending.position key l.entries) ++ after path)
        (deleteEntry c (.leaf l) key path).2 := by
  have hkey := Ascending.getElem?_position he
  obtain ⟨hi', hget⟩ := List.getElem?_eq_some_iff.1 he
  have hslots := hl.slots
  have henough := hl.enough
  have hlen : (l.entries.eraseIdx (Ascending.position key l.entries)).length = l.entries.length - 1 :=
    List.length_eraseIdx_of_lt hi'
  have hrem : removeEntryFromNode c (.leaf l) key =
      .ok (.leaf (zeroPadded c (l.entries.eraseIdx (Ascending.position key l.entries)))) := by
    have hmin : min (Ascending.position key l.entries) (l.entries.length - 1) =
        Ascending.position key l.entries := by omega
    have hnot : ¬ (0 < Ascending.position key l.entries ∧
        key < (l.entries[Ascending.position key l.entries - 1]?.map Prod.fst).getD 0) := by
      rintro ⟨hpos, hlt⟩
      have hprev : Ascending.position key l.entries - 1 < l.entries.length := by omega
      rw [List.getElem?_eq_getElem hprev, Option.map_some, Option.getD_some] at hlt
      have hasc := List.pairwise_iff_getElem.1 hl.ascending _ _ hprev hi' (by omega)
      rw [hget, hkey] at hasc
      omega
    have hfind : l.entries.findIdx (fun e => e.1 == key) = Ascending.position key l.entries := rfl
    simp only [removeEntryFromNode, hfind, if_neg hnot, hmin]
  have hsub := List.eraseIdx_sublist l.entries (Ascending.position key l.entries)
  have hwf : WF c 0 (need c 0 path - 1) lo hi
      (.leaf (zeroPadded c (l.entries.eraseIdx (Ascending.position key l.entries)))) :=
    zeroPadded_wf hl.proper (hl.ascending.sublist hsub) (fun e he => hl.within e (hsub.subset he))
      (fun e he => hl.numbered e (hsub.subset he)) (by omega) (by omega)
  refine deleteEntry_spec hrem hp hwf ?_
  change kPrimesFit c true (l.entries.eraseIdx (Ascending.position key l.entries)).length path = true
  rw [hlen]
  exact hfit

end Paffs.Tree
