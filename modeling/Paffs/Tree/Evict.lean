import Paffs.Tree.CommitSpec

/-! A clean node without cached children leaves the cache, and everything is still found. -/
namespace Paffs.Tree.TreeCache
variable {size : Nat} {o : Surroundings size} {t t' : TreeCache size} {x p c d : Fin size} {i : Nat}

def withPointers (t : TreeCache size) (pointers : Fin size → Nat → Option (Fin size)) : TreeCache size :=
  { t with cache := fun c => { t.cache c with pointers := pointers c } }

theorem update_pointers (t : TreeCache size) (p : Fin size) (i : Nat) :
    (t.update p fun n => { n with pointers := Function.update n.pointers i none }) =
      t.withPointers fun c => if c = p then Function.update (t.cache c).pointers i none else (t.cache c).pointers := by
  refine congrArg (fun cache => { t with cache := cache }) ?_
  funext c
  by_cases hc : c = p
  · subst hc
    dsimp only
    rw [Function.update_self, if_pos rfl]
  · dsimp only
    rw [Function.update_of_ne hc, if_neg hc]

/-- Nothing but pointers change. -/
theorem deleteFromParent_eq (t : TreeCache size) (x : Fin size) : ∃ pointers, t.deleteFromParent x = t.withPointers pointers := by
  unfold deleteFromParent
  split
  · exact ⟨_, rfl⟩
  split
  · exact ⟨_, rfl⟩
  split
  · exact ⟨_, rfl⟩
  split
  · exact ⟨_, update_pointers t _ _⟩
  · exact ⟨_, rfl⟩

/-- A node that is gone from its slot and from its parent. -/
structure Evicted (t t' : TreeCache size) (x : Fin size) : Prop where
  cacheRoot : t'.cacheRoot = t.cacheRoot
  cacheUsage : t'.cacheUsage = Function.update t.cacheUsage x false
  rootnodeAddr : t'.rootnodeAddr = t.rootnodeAddr
  flash : t'.flash = t.flash
  raw : ∀ c, (t'.cache c).raw = (t.cache c).raw
  parent : ∀ c, (t'.cache c).parent = (t.cache c).parent
  dirty : ∀ c, (t'.cache c).dirty = (t.cache c).dirty
  locked : ∀ c, (t'.cache c).locked = (t.cache c).locked
  inheritedLock : ∀ c, (t'.cache c).inheritedLock = (t.cache c).inheritedLock

theorem evict_evicted (t : TreeCache size) (x : Fin size) : Evicted t (t.evict x) x := by
  obtain ⟨pointers, heq⟩ := t.deleteFromParent_eq x
  unfold evict
  rw [heq]
  exact ⟨rfl, rfl, rfl, rfl, fun _ => rfl, fun _ => rfl, fun _ => rfl, fun _ => rfl, fun _ => rfl⟩

/-- A node below another is the child of no other, and there only once. -/
theorem evict_pointers (h : t.Linked) (hx : t.cacheUsage x = true) (hc : t.cacheUsage c = true)
    (hbranch : (t.cache c).raw.isLeaf = false) (hi : i ≤ (t.cache c).raw.keys) :
    ((t.evict x).cache c).pointers i = if (t.cache c).pointers i = some x then none else (t.cache c).pointers i := by
  by_cases hroot : x = t.cacheRoot
  · have hparent : (t.cache x).parent = some x := by
      rw [hroot]
      exact h.parent_root (h.root_used x hx)
    have heq : t.deleteFromParent x = t := by
      rw [deleteFromParent, hparent]
      exact if_pos rfl
    have hnot : (t.cache c).pointers i ≠ some x := fun hsome => (h.child c i x hc ⟨hbranch, hi, hsome⟩).2.1 hroot
    rw [if_neg hnot, evict, heq]
    rfl
  · obtain ⟨p, j, hp, hchild⟩ := h.parent x hx hroot
    have hparent := (h.child p j x hp hchild).2.2
    have heq : t.deleteFromParent x = t.update p fun n => { n with pointers := Function.update n.pointers j none } := by
      rw [deleteFromParent, hparent]
      dsimp only
      rw [if_neg (h.ne_of_hasChild hp hchild), if_neg (by rw [hp]; decide), h.findChild hp hchild]
    have hcache : (t.evict x).cache c = (t.update p fun n => { n with pointers := Function.update n.pointers j none }).cache c := by
      rw [evict, heq]
      rfl
    rw [hcache]
    by_cases hcp : c = p
    · subst hcp
      rw [update_cache_self]
      dsimp only
      by_cases hij : i = j
      · subst hij
        rw [Function.update_self, if_pos hchild.2.2]
      · have hnot : (t.cache c).pointers i ≠ some x := fun hsome => hij (h.position c i j x hc ⟨hbranch, hi, hsome⟩ hchild)
        rw [Function.update_of_ne hij, if_neg hnot]
    · have hnot : (t.cache c).pointers i ≠ some x := by
        intro hsome
        have hother := (h.child c i x hc ⟨hbranch, hi, hsome⟩).2.2
        rw [hparent] at hother
        cases hother
        exact hcp rfl
      rw [update_cache_ne _ _ hcp, if_neg hnot]

theorem evict_hasChild (h : t.Linked) (hx : t.cacheUsage x = true) (hc : t.cacheUsage c = true) :
    (t.evict x).HasChild c i d ↔ t.HasChild c i d ∧ d ≠ x := by
  have he := evict_evicted t x
  unfold HasChild
  rw [he.raw]
  constructor
  · rintro ⟨hbranch, hi, hsome⟩
    rw [evict_pointers h hx hc hbranch hi] at hsome
    by_cases hpx : (t.cache c).pointers i = some x
    · rw [if_pos hpx] at hsome
      cases hsome
    · rw [if_neg hpx] at hsome
      refine ⟨⟨hbranch, hi, hsome⟩, ?_⟩
      rintro rfl
      exact hpx hsome
  · rintro ⟨⟨hbranch, hi, hsome⟩, hne⟩
    refine ⟨hbranch, hi, ?_⟩
    rw [evict_pointers h hx hc hbranch hi, hsome]
    refine if_neg fun heq => hne ?_
    cases heq
    rfl

theorem evict_cacheUsage : (t.evict x).cacheUsage c = true ↔ t.cacheUsage c = true ∧ c ≠ x := by
  rw [(evict_evicted t x).cacheUsage]
  by_cases hc : c = x
  · subst hc
    rw [Function.update_self]
    exact iff_of_false nofun fun h => h.2 rfl
  · rw [Function.update_of_ne hc]
    exact ⟨fun h => ⟨h, hc⟩, fun h => h.1⟩

theorem hasNoChilds_iff : t.hasNoChilds x = true ↔ ∀ i c, ¬ t.HasChild x i c := by
  unfold hasNoChilds HasChild
  cases hleaf : (t.cache x).raw.isLeaf with
  | true => exact iff_of_true rfl fun _ _ h => nomatch h.1
  | false =>
    rw [Bool.false_or, List.all_eq_true]
    constructor
    · intro hall i c ⟨_, hi, hsome⟩
      have hnone := hall i (List.mem_range.mpr (Nat.lt_succ_of_le hi))
      rw [hsome] at hnone
      simp at hnone
    · intro hno i hi
      cases hp : (t.cache x).pointers i with
      | none => exact decide_eq_true rfl
      | some c => exact absurd ⟨rfl, Nat.le_of_lt_succ (List.mem_range.mp hi), hp⟩ (hno i c)

theorem isEvictable_iff : t.isEvictable x = true ↔
    (t.cache x).dirty = false ∧ (t.cache x).locked = false ∧ (t.cache x).inheritedLock = false := by
  simp [isEvictable, and_assoc]

/-- Every path to the root enters it from a child. -/
theorem Linked.exists_child (h : t.Linked) (hc : t.cacheUsage c = true) (hne : c ≠ t.cacheRoot) :
    ∃ i d, t.HasChild t.cacheRoot i d := by
  obtain ⟨rank, hr⟩ := h.ranked
  induction hn : size - rank c using Nat.strong_induction_on generalizing c with
  | _ n ih =>
    obtain ⟨p, i, hp, hchild⟩ := h.parent c hc hne
    by_cases hroot : p = t.cacheRoot
    · exact ⟨i, c, hroot ▸ hchild⟩
    · have hlt := hr.lt_of_hasChild p i c hp hchild
      have hsize := hr.lt_size p
      exact ih (size - rank p) (by omega) hp hroot rfl

theorem Linked.evict (h : t.Linked) (hx : t.cacheUsage x = true) (hno : t.hasNoChilds x = true) : (t.evict x).Linked := by
  have he := evict_evicted t x
  have hnot := hasNoChilds_iff.mp hno
  obtain ⟨rank, hr⟩ := h.ranked
  constructor
  · rw [he.cacheRoot, he.parent]
    exact .inl (h.parent_root (h.root_used x hx))
  · intro c hc
    obtain ⟨hused, hne⟩ := evict_cacheUsage.mp hc
    rw [he.cacheRoot]
    refine evict_cacheUsage.mpr ⟨h.root_used c hused, ?_⟩
    rintro rfl
    obtain ⟨i, d, hchild⟩ := h.exists_child hused hne
    exact hnot i d hchild
  · intro c hc hroot
    obtain ⟨hused, hne⟩ := evict_cacheUsage.mp hc
    rw [he.cacheRoot] at hroot
    obtain ⟨p, i, hp, hchild⟩ := h.parent c hused hroot
    refine ⟨p, i, evict_cacheUsage.mpr ⟨hp, ?_⟩, (evict_hasChild h hx hp).mpr ⟨hchild, hne⟩⟩
    rintro rfl
    exact hnot i c hchild
  · intro p i c hp hc
    obtain ⟨hused, -⟩ := evict_cacheUsage.mp hp
    obtain ⟨hchild, hne⟩ := (evict_hasChild h hx hused).mp hc
    obtain ⟨hcused, hroot, hparent⟩ := h.child p i c hused hchild
    rw [he.cacheRoot, he.parent]
    exact ⟨evict_cacheUsage.mpr ⟨hcused, hne⟩, hroot, hparent⟩
  · intro p i j c hp hi hj
    obtain ⟨hused, -⟩ := evict_cacheUsage.mp hp
    exact h.position p i j c hused ((evict_hasChild h hx hused).mp hi).1 ((evict_hasChild h hx hused).mp hj).1
  · refine ⟨rank, fun p i c hp hc => ?_, hr.lt_size⟩
    obtain ⟨hused, -⟩ := evict_cacheUsage.mp hp
    exact hr.lt_of_hasChild p i c hused ((evict_hasChild h hx hused).mp hc).1

theorem uncached_of_hasNoChilds (hno : t.hasNoChilds x = true) (hbranch : (t.cache x).raw.isLeaf = false)
    (hi : i ≤ (t.cache x).raw.keys) : (t.cache x).pointers i = none := by
  cases hp : (t.cache x).pointers i with
  | none => rfl
  | some c => exact absurd ⟨hbranch, hi, hp⟩ (hasNoChilds_iff.mp hno i c)

/-- A clean node without cached children is on flash with all that is below it. -/
theorem Valid.intact (h : t.Valid) (hx : t.cacheUsage x = true) (hclean : (t.cache x).dirty = false)
    (hno : t.hasNoChilds x = true) : Intact t.flash (t.cache x).raw.self := by
  have hread := readTreeNode_self (h.stored x hx hclean)
  cases hleaf : (t.cache x).raw.isLeaf with
  | true => exact .leaf hread hleaf
  | false =>
    exact .branch hread hleaf fun i hi => h.uncached x hx hleaf i hi (uncached_of_hasNoChilds hno hleaf hi)

theorem Valid.evict (h : t.Valid) (hx : t.cacheUsage x = true) (hclean : (t.cache x).dirty = false)
    (hno : t.hasNoChilds x = true) : (t.evict x).Valid := by
  have he := evict_evicted t x
  refine ⟨h.toLinked.evict hx hno, ?_, ?_, ?_, ?_, ?_⟩
  · rw [he.cacheRoot, he.dirty]
    intro hunused
    by_cases hroot : t.cacheRoot = x
    · rw [hroot]
      exact hclean
    · have hused := (evict_cacheUsage (x := x)).mpr ⟨h.root_used x hx, hroot⟩
      rw [hunused] at hused
      cases hused
  · intro c hc hd
    rw [he.dirty] at hd
    rw [he.flash, he.raw]
    exact h.stored c (evict_cacheUsage.mp hc).1 hd
  · intro p i c hp hc hd
    obtain ⟨hused, -⟩ := evict_cacheUsage.mp hp
    rw [he.dirty] at hd
    rw [he.raw, he.raw]
    exact h.known p i c hused ((evict_hasChild h.toLinked hx hused).mp hc).1 hd
  · rw [he.cacheRoot, he.dirty, he.rootnodeAddr, he.raw]
    exact fun hc => h.root_known (evict_cacheUsage.mp hc).1
  · intro p hp hbranch i hi hnone
    obtain ⟨hused, -⟩ := evict_cacheUsage.mp hp
    rw [he.raw] at hbranch hi ⊢
    rw [he.flash]
    rw [evict_pointers h.toLinked hx hused hbranch hi] at hnone
    by_cases hsome : (t.cache p).pointers i = some x
    · rw [h.known p i x hused ⟨hbranch, hi, hsome⟩ hclean]
      exact h.intact hx hclean hno
    · rw [if_neg hsome] at hnone
      exact h.uncached p hused hbranch i hi hnone

/-- Where a node is looked for once another has left the cache. -/
def movedTo (t : TreeCache size) (x : Fin size) (place : Place size) : Place size :=
  if place = .inl x then .inr (t.cache x).raw.self else place

theorem find_evict (h : t.Valid) (hx : t.cacheUsage x = true) (hclean : (t.cache x).dirty = false)
    (hno : t.hasNoChilds x = true) (fuel key : Nat) : (t.evict x).find fuel key = t.find fuel key := by
  have he := evict_evicted t x
  have hroot := h.root_used x hx
  have hstart : (if (t.evict x).cacheUsage (t.evict x).cacheRoot then .inl (t.evict x).cacheRoot else .inr (t.evict x).rootnodeAddr) =
      t.movedTo x (.inl t.cacheRoot) := by
    rw [he.cacheRoot, he.rootnodeAddr]
    unfold movedTo
    by_cases hxr : t.cacheRoot = x
    · subst hxr
      rw [if_pos rfl, he.cacheUsage, Function.update_self, if_neg Bool.false_ne_true, h.root_known hroot hclean]
    · rw [if_pos (evict_cacheUsage.mpr ⟨hroot, hxr⟩), if_neg fun heq => hxr (Sum.inl.inj heq)]
  unfold find
  rw [if_pos hroot, hstart]
  apply findFrom_congr (R := fun a b => b = t.movedTo x a ∧ t.Holds a)
  · rintro place _ ⟨rfl, hholds⟩
    obtain ⟨n, hn, hbelow⟩ := hholds.nodeAt h
    refine ⟨n, n, hn, ?_, .refl _, fun hbranch i hi => ⟨?_, hbelow hbranch i hi⟩⟩
    · cases place with
      | inl slot =>
        cases hn
        by_cases hs : slot = x
        · subst hs
          rw [movedTo, if_pos rfl, nodeAt, he.flash]
          exact readTreeNode_self (h.stored slot hx hclean)
        · rw [movedTo, if_neg fun heq => hs (Sum.inl.inj heq), nodeAt, he.raw]
      | inr addr =>
        rw [movedTo, if_neg nofun, nodeAt, he.flash]
        exact hn
    · cases place with
      | inl slot =>
        cases hn
        by_cases hs : slot = x
        · subst hs
          rw [childAt_of_none (uncached_of_hasNoChilds hno hbranch hi), movedTo, movedTo, if_pos rfl, if_neg nofun]
          rfl
        · have hpointer := evict_pointers h.toLinked hx hholds hbranch hi
          rw [movedTo.eq_1 t x (.inl slot), if_neg fun heq => hs (Sum.inl.inj heq)]
          cases hc : (t.cache slot).pointers i with
          | none =>
            rw [hc, if_neg nofun] at hpointer
            rw [childAt_of_none hpointer, childAt_of_none hc]
            exact (if_neg nofun).symm
          | some d =>
            rw [childAt_of_some hc]
            by_cases hd : d = x
            · subst hd
              rw [hc, if_pos rfl] at hpointer
              rw [childAt_of_none hpointer, movedTo, if_pos rfl, h.known slot i d hholds ⟨hbranch, hi, hc⟩ hclean]
            · rw [hc, if_neg fun heq => hd (Option.some.inj heq)] at hpointer
              rw [childAt_of_some hpointer, movedTo, if_neg fun heq => hd (Sum.inl.inj heq)]
      | inr addr => rfl
  · exact ⟨rfl, hroot⟩

end Paffs.Tree.TreeCache
