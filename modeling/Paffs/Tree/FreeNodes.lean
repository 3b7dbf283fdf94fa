import Paffs.Tree.Evict

/-! Making room in the cache: only clean nodes that are not needed go, and everything is still found. -/
namespace Paffs.Tree.TreeCache
variable {size : Nat} {o : Surroundings size} {t t' : TreeCache size} {x p c : Fin size}

/-! ### Runs -/

/-- A step of a run: nothing leaves the cache, or one node does that is clean, not locked and has no cached children. -/
inductive Step : TreeCache size → TreeCache size → Prop
  | keeps {t t' : TreeCache size} : t.Alike t' → Step t t'
  | evicts {t : TreeCache size} {x : Fin size} : t.cacheUsage x = true → t.isEvictable x = true → t.hasNoChilds x = true →
      Step t (t.evict x)

/-- What every step leaves as it was. -/
structure Thins (t t' : TreeCache size) : Prop where
  as : ∀ c, As.Alike (t.cache c).raw.as (t'.cache c).raw.as
  parent : ∀ c, (t'.cache c).parent = (t.cache c).parent
  locked : ∀ c, (t'.cache c).locked = (t.cache c).locked
  inheritedLock : ∀ c, (t'.cache c).inheritedLock = (t.cache c).inheritedLock
  subset : ∀ c, t'.cacheUsage c = true → t.cacheUsage c = true
  stays : ∀ c, t.cacheUsage c = true → (t.cache c).locked = true ∨ (t.cache c).inheritedLock = true → t'.cacheUsage c = true

theorem Thins.refl (t : TreeCache size) : Thins t t :=
  ⟨fun _ => .refl _, fun _ => rfl, fun _ => rfl, fun _ => rfl, fun _ h => h, fun _ h _ => h⟩

theorem Thins.trans {t'' : TreeCache size} (h : Thins t t') (h' : Thins t' t'') : Thins t t'' := by
  refine ⟨fun c => (h.as c).trans (h'.as c), fun c => (h'.parent c).trans (h.parent c), fun c => (h'.locked c).trans (h.locked c),
    fun c => (h'.inheritedLock c).trans (h.inheritedLock c), fun c hc => h.subset c (h'.subset c hc), fun c hc hl => ?_⟩
  have hc' := h.stays c hc hl
  rw [← h.locked, ← h.inheritedLock] at hl
  exact h'.stays c hc' hl

theorem Step.thins (h : Step t t') : Thins t t' := by
  cases h with
  | keeps ha =>
    refine ⟨ha.as, ha.parent, ha.locked, ha.inheritedLock, ?_, ?_⟩
    all_goals rw [ha.cacheUsage]
    · exact fun _ hc => hc
    · exact fun _ hc _ => hc
  | @evicts x hx hev hno =>
    have he := evict_evicted t x
    obtain ⟨-, hlocked, hinherited⟩ := isEvictable_iff.mp hev
    have has : ∀ c, As.Alike (t.cache c).raw.as ((t.evict x).cache c).raw.as := by
      intro c
      rw [he.raw]
      exact .refl _
    refine ⟨has, he.parent, he.locked, he.inheritedLock, fun c hc => (evict_cacheUsage.mp hc).1, fun c hc hl => ?_⟩
    refine evict_cacheUsage.mpr ⟨hc, ?_⟩
    rintro rfl
    rw [hlocked, hinherited] at hl
    exact hl.elim nofun nofun

/-- A run that may give up nodes, with the cache in order afterwards and everything found as before. -/
structure Frees (t t' : TreeCache size) : Prop where
  run : Relation.ReflTransGen Step t t'
  valid : t'.Valid
  find : ∀ fuel key, t'.find fuel key = t.find fuel key

namespace Frees

theorem refl (h : t.Valid) : Frees t t := ⟨.refl, h, fun _ _ => rfl⟩

theorem trans {t'' : TreeCache size} (h : Frees t t') (h' : Frees t' t'') : Frees t t'' :=
  ⟨h.run.trans h'.run, h'.valid, fun fuel key => (h'.find fuel key).trans (h.find fuel key)⟩

theorem thins (h : Frees t t') : Thins t t' := by
  have hrun := h.run
  clear h
  induction hrun with
  | refl => exact .refl t
  | tail _ hstep ih => exact ih.trans hstep.thins

theorem evict (h : t.Valid) (hx : t.cacheUsage x = true) (hev : t.isEvictable x = true) (hno : t.hasNoChilds x = true) :
    Frees t (t.evict x) := by
  obtain ⟨hclean, -, -⟩ := isEvictable_iff.mp hev
  exact ⟨.single (.evicts hx hev hno), h.evict hx hclean hno, find_evict h hx hclean hno⟩

end Frees

theorem Keeps.frees (h : Keeps t t') : Frees t t' := ⟨.single (.keeps h.alike), h.valid, h.find⟩

theorem Keeps.countSetBits (h : Keeps t t') : t'.countSetBits = t.countSetBits := by
  rw [TreeCache.countSetBits, h.alike.cacheUsage, TreeCache.countSetBits]

theorem countSetBits_evict (hx : t.cacheUsage x = true) : (t.evict x).countSetBits + 1 = t.countSetBits := by
  have herase : (Finset.univ.filter fun i => (t.evict x).cacheUsage i = true) =
      (Finset.univ.filter fun i => t.cacheUsage i = true).erase x := by
    ext c
    rw [Finset.mem_erase, Finset.mem_filter_univ, Finset.mem_filter_univ, evict_cacheUsage, and_comm]
  rw [countSetBits, herase, countSetBits]
  exact Finset.card_erase_add_one ((Finset.mem_filter_univ x).mpr hx)

theorem countSetBits_le (t : TreeCache size) : t.countSetBits ≤ size := by
  refine (Finset.card_filter_le _ _).trans ?_
  rw [Finset.card_univ, Fintype.card_fin]

/-! ### Passes over the cache -/

theorem cleanFreeLeafLoop_frees (h : t.Valid) (slots : List (Fin size)) (n : Nat) :
    Frees t (cleanFreeLeafLoop slots n t).2 ∧
      n + (cleanFreeLeafLoop slots n t).2.countSetBits ≤ (cleanFreeLeafLoop slots n t).1 + t.countSetBits := by
  induction slots generalizing t n with
  | nil => exact ⟨.refl h, le_rfl⟩
  | cons i rest ih =>
    rw [cleanFreeLeafLoop]
    by_cases hi : (t.cacheUsage i && t.isEvictable i && (t.cache i).raw.isLeaf) = true
    swap
    · rw [if_neg hi]
      exact ih h n
    rw [if_pos hi]
    simp only [Bool.and_eq_true] at hi
    obtain ⟨⟨hused, hev⟩, hleaf⟩ := hi
    have hno : t.hasNoChilds i = true := by rw [hasNoChilds, hleaf, Bool.true_or]
    have hfrees := Frees.evict h hused hev hno
    have hcount := countSetBits_evict hused
    have hdecrement : n ≤ decrement n + 1 := by
      unfold decrement
      split
      · omega
      · omega
    by_cases hzero : decrement n = 0
    · rw [if_pos hzero]
      exact ⟨hfrees, by dsimp only; omega⟩
    · rw [if_neg hzero]
      obtain ⟨hf, hle⟩ := ih hfrees.valid (decrement n)
      exact ⟨hfrees.trans hf, by omega⟩

theorem setIndexFree_of_unused (h : t.cacheUsage x = false) : t.setIndexFree x = t := by
  rw [setIndexFree, ← h, Function.update_eq_self]

theorem ranks_evict (h : t.Linked) (hx : t.cacheUsage x = true) {rank : Fin size → Nat} (hr : t.Ranks rank) :
    (t.evict x).Ranks rank := by
  refine ⟨fun p i c hp hc => ?_, hr.lt_size⟩
  obtain ⟨hused, -⟩ := evict_cacheUsage.mp hp
  exact hr.lt_of_hasChild p i c hused ((evict_hasChild h hx hused).mp hc).1

/-- The way to the root gets shorter with every call. -/
theorem deletePathToRoot_frees (h : t.Valid) (hx : t.cacheUsage x = true) (hno : t.hasNoChilds x = true)
    {rank : Fin size → Nat} (hr : t.Ranks rank) {fuel : Nat} (hfuel : size ≤ fuel + rank x) :
    ∃ deleted t', deletePathToRoot fuel x t = some (deleted, t') ∧ Frees t t' ∧ t'.countSetBits + deleted = t.countSetBits ∧
      (t.isEvictable x = true → t'.cacheUsage x = false) := by
  induction fuel generalizing t x with
  | zero =>
    have := hr.lt_size x
    omega
  | succ fuel ih =>
    rw [deletePathToRoot]
    by_cases hev : t.isEvictable x = true
    swap
    · rw [if_pos (by simpa using hev)]
      exact ⟨0, t, rfl, .refl h, rfl, fun heq => absurd heq hev⟩
    rw [if_neg (by rw [hev]; decide)]
    have he := evict_evicted t x
    have hfrees := Frees.evict h hx hev hno
    have hcount := countSetBits_evict hx
    have hgone : (t.evict x).cacheUsage x = false := by
      rw [he.cacheUsage, Function.update_self]
    by_cases hroot : x = t.cacheRoot
    · have hparent : ((t.evict x).cache x).parent = some x := by
        rw [he.parent, hroot]
        exact h.parent_root (h.root_used x hx)
      dsimp only
      rw [hparent]
      dsimp only
      rw [if_neg fun hcond => hcond.1 rfl]
      exact ⟨1, _, rfl, hfrees, hcount, fun _ => hgone⟩
    · obtain ⟨p, i, hp, hchild⟩ := h.parent x hx hroot
      have hne := h.ne_of_hasChild hp hchild
      have hparent : ((t.evict x).cache x).parent = some p := by
        rw [he.parent]
        exact (h.child p i x hp hchild).2.2
      dsimp only
      rw [hparent]
      dsimp only
      by_cases hcond : p ≠ x ∧ (t.evict x).hasNoChilds p = true
      · rw [if_pos hcond]
        have hlt := hr.lt_of_hasChild p i x hp hchild
        have hp' := (evict_cacheUsage (x := x)).mpr ⟨hp, hne⟩
        obtain ⟨deleted, t', hrun, hf, hc, -⟩ := ih hfrees.valid hp' hcond.2 (ranks_evict h.toLinked hx hr) (by omega)
        rw [hrun]
        refine ⟨1 + deleted, t', rfl, hfrees.trans hf, by omega, fun _ => ?_⟩
        by_contra hstill
        rw [hf.thins.subset x (by simpa using hstill)] at hgone
        cases hgone
      · rw [if_neg hcond]
        exact ⟨1, _, rfl, hfrees, hcount, fun _ => hgone⟩

theorem cleanFreeLoop_frees (h : t.Valid) (slots : List (Fin size)) (n : Nat) :
    ∃ n' t', cleanFreeLoop slots n t = some (n', t') ∧ Frees t t' ∧ n + t'.countSetBits ≤ n' + t.countSetBits := by
  induction slots generalizing t n with
  | nil => exact ⟨n, t, rfl, .refl h, le_rfl⟩
  | cons i rest ih =>
    rw [cleanFreeLoop]
    by_cases hi : (t.cacheUsage i && t.isEvictable i && t.hasNoChilds i) = true
    swap
    · rw [if_neg hi]
      exact ih h n
    rw [if_pos hi]
    simp only [Bool.and_eq_true] at hi
    obtain ⟨⟨hused, hev⟩, hno⟩ := hi
    obtain ⟨rank, hr⟩ := h.ranked
    obtain ⟨cleaned, t', hrun, hfrees, hcount, hgone⟩ := deletePathToRoot_frees h hused hno hr (Nat.le_add_right size (rank i))
    rw [hrun]
    dsimp only [Option.bind_eq_bind, Option.bind_some]
    rw [setIndexFree_of_unused (hgone hev)]
    by_cases hmore : cleaned > n
    · rw [if_pos hmore]
      exact ⟨0, t', rfl, hfrees, by omega⟩
    rw [if_neg hmore]
    by_cases hzero : n - cleaned = 0
    · rw [if_pos hzero]
      exact ⟨0, t', rfl, hfrees, by omega⟩
    rw [if_neg hzero]
    obtain ⟨n', t'', hrun', hf, hle⟩ := ih hfrees.valid (n - cleaned)
    exact ⟨n', t'', hrun', hfrees.trans hf, by omega⟩

theorem cleanFreeLeafNodes_frees (h : t.Valid) (n : Nat) :
    ∃ n' t', t.cleanFreeLeafNodes n = some (n', t') ∧ Frees t t' ∧ n + t'.countSetBits ≤ n' + t.countSetBits := by
  obtain ⟨b, t₁, hresolve, hk⟩ := resolveDirtyPaths_root h
  obtain ⟨hf, hle⟩ := cleanFreeLeafLoop_frees hk.valid (List.finRange size) n
  rw [hk.countSetBits] at hle
  rw [cleanFreeLeafNodes, hresolve]
  exact ⟨_, _, rfl, hk.frees.trans hf, hle⟩

theorem cleanFreeNodes_frees (h : t.Valid) (n : Nat) :
    ∃ n' t', t.cleanFreeNodes n = some (n', t') ∧ Frees t t' ∧ n + t'.countSetBits ≤ n' + t.countSetBits := by
  obtain ⟨b, t₁, hresolve, hk⟩ := resolveDirtyPaths_root h
  obtain ⟨n', t', hrun, hf, hle⟩ := cleanFreeLoop_frees hk.valid (List.finRange size) n
  rw [hk.countSetBits] at hle
  rw [cleanFreeNodes, hresolve]
  exact ⟨n', t', hrun, hk.frees.trans hf, hle⟩

/-! ### Room for new nodes -/

theorem freeNodes_frees (ho : o.Careful) (h : t.Valid) (n : Nat) :
    ∃ r t', t.freeNodes o n = some (r, t') ∧ Frees t t' ∧ (r = .ok → n + t'.countSetBits ≤ t.countSetBits) := by
  unfold freeNodes
  split
  · exact ⟨_, _, rfl, .refl h, nofun⟩
  obtain ⟨n₁, t₁, hrun₁, hf₁, hle₁⟩ := cleanFreeLeafNodes_frees h n
  rw [hrun₁]
  dsimp only [Option.bind_eq_bind, Option.bind_some]
  split
  · exact ⟨_, _, rfl, hf₁, fun _ => by omega⟩
  obtain ⟨n₂, t₂, hrun₂, hf₂, hle₂⟩ := cleanFreeNodes_frees hf₁.valid n₁
  have hf₁₂ := hf₁.trans hf₂
  rw [hrun₂]
  dsimp only [Option.bind_some]
  split
  · exact ⟨_, _, rfl, hf₁₂, fun _ => by omega⟩
  obtain ⟨r, t₃, hrun₃, hk⟩ := commitCache_keeps ho hf₂.valid
  have hf₁₃ := hf₁₂.trans hk.frees
  have hcount := hk.countSetBits
  rw [hrun₃]
  dsimp only [Option.bind_some]
  split
  · rename_i hfailed
    exact ⟨_, _, rfl, hf₁₃, fun hok => absurd hok hfailed⟩
  obtain ⟨n₄, t₄, hrun₄, hf₄, hle₄⟩ := cleanFreeLeafNodes_frees hk.valid n₂
  have hf₁₄ := hf₁₃.trans hf₄
  rw [hrun₄]
  dsimp only [Option.bind_some]
  split
  · exact ⟨_, _, rfl, hf₁₄, fun _ => by omega⟩
  obtain ⟨n₅, t₅, hrun₅, hf₅, hle₅⟩ := cleanFreeNodes_frees hf₄.valid n₄
  have hf₁₅ := hf₁₄.trans hf₅
  rw [hrun₅]
  dsimp only [Option.bind_some]
  split
  · exact ⟨_, _, rfl, hf₁₅, fun _ => by omega⟩
  · exact ⟨_, _, rfl, hf₁₅, nofun⟩

theorem reserveNodes_frees (ho : o.Careful) (h : t.Valid) (n : Nat) :
    ∃ r t', t.reserveNodes o n = some (r, t') ∧ Frees t t' ∧ (r = .ok → n ≤ size - t'.countSetBits) := by
  have hle := t.countSetBits_le
  unfold reserveNodes
  split
  · rename_i henough
    exact ⟨_, _, rfl, .refl h, fun _ => henough⟩
  obtain ⟨r, t', hrun, hf, hcount⟩ := freeNodes_frees ho h (n - (size - t.countSetBits))
  exact ⟨r, t', hrun, hf, fun hok => by have := hcount hok; omega⟩

/-- What giving up nodes must not do any harm to: what is locked, what is above a node that is locked or stays, the parent
links, and the map from numbers to inodes. Its steps take away nodes that are clean and not locked, and no others. -/
structure Spares (t t' : TreeCache size) : Prop where
  run : Relation.ReflTransGen Step t t'
  locked : ∀ c, t.cacheUsage c = true → (t.cache c).locked = true ∨ (t.cache c).inheritedLock = true → t'.cacheUsage c = true
  above : ∀ a c, t.Above a c → t.cacheUsage c = true ∧ (t.cache c).locked = true ∨ t'.cacheUsage c = true → t'.cacheUsage a = true
  parent : ∀ c, t'.cacheUsage c = true → ∃ p, (t'.cache c).parent = some p ∧ t'.cacheUsage p = true
  find : ∀ fuel key, t'.find fuel key = t.find fuel key

theorem Frees.spares (h : Frees t t') : Spares t t' := by
  have habove : ∀ a c, t.Above a c → t'.cacheUsage c = true → t'.cacheUsage a = true := by
    intro a c habove hc
    have hparent : ∀ c p, t'.cacheUsage c = true → (t.cache c).parent = some p → t'.cacheUsage p = true := by
      intro c p hc hp
      obtain ⟨q, hq, hused⟩ := h.valid.parent_used hc
      rw [h.thins.parent, hp] at hq
      cases hq
      exact hused
    unfold Above at habove
    induction habove with
    | single hp => exact hparent _ _ hc hp
    | tail _ hp ih => exact hparent _ _ ih hp
  refine ⟨h.run, h.thins.stays, fun a c hac hc => habove a c hac ?_, fun c => h.valid.parent_used, h.find⟩
  rcases hc with ⟨hused, hlocked⟩ | hused
  · exact h.thins.stays c hused (.inl hlocked)
  · exact hused

def rootNode : TreeNode := ⟨.branch [5] fun i => i + 2, 1⟩
def leftLeaf : TreeNode := ⟨.leaf ⟨[(3, .empty 3)], []⟩, 2⟩
def rightLeaf : TreeNode := ⟨.leaf ⟨[(7, .empty 7)], []⟩, 3⟩

def leftCached : TreeCache 2 where
  cacheRoot := ⟨0, Nat.two_pos⟩
  cache := ![⟨rootNode, some ⟨0, Nat.two_pos⟩, fun i => if i = 0 then some ⟨1, Nat.one_lt_two⟩ else none, false, false, false⟩,
    ⟨leftLeaf, some ⟨0, Nat.two_pos⟩, fun _ => none, false, false, false⟩]
  cacheUsage := fun _ => true
  rootnodeAddr := 1
  flash := fun addr => if addr = 1 then some rootNode else if addr = 2 then some leftLeaf else if addr = 3 then some rightLeaf else none
  pageList := []
  clock := 0
  added := 0

theorem leftCached_hasChild {p c : Fin 2} {i : Nat} (h : leftCached.HasChild p i c) : p = 0 ∧ i = 0 ∧ c = 1 := by
  obtain ⟨hbranch, -, hsome⟩ := h
  fin_cases p
  · by_cases hi : i = 0
    · subst hi
      exact ⟨rfl, rfl, (Option.some.inj hsome).symm⟩
    · have hnone : (leftCached.cache 0).pointers i = none := if_neg hi
      cases hnone.symm.trans hsome
  · cases hbranch

theorem leftCached_valid : leftCached.Valid := by
  have hchild : leftCached.HasChild 0 0 1 := ⟨rfl, Nat.zero_le _, rfl⟩
  refine ⟨⟨.inl rfl, fun _ _ => rfl, ?_, ?_, ?_, fun c => 1 - c, ?_, ?_⟩, nofun, ?_, ?_, fun _ _ => rfl, ?_⟩
  · intro c _ hc
    fin_cases c
    · exact absurd rfl hc
    · exact ⟨0, 0, rfl, hchild⟩
  · intro p i c _ h
    obtain ⟨rfl, rfl, rfl⟩ := leftCached_hasChild h
    exact ⟨rfl, by decide, rfl⟩
  · intro p i j c _ hi hj
    obtain ⟨-, rfl, -⟩ := leftCached_hasChild hi
    obtain ⟨-, rfl, -⟩ := leftCached_hasChild hj
    rfl
  · intro p i c _ h
    obtain ⟨rfl, rfl, rfl⟩ := leftCached_hasChild h
    decide
  · intro c
    omega
  · intro c _ _
    fin_cases c
    · rfl
    · rfl
  · intro p i c _ h _
    obtain ⟨rfl, rfl, rfl⟩ := leftCached_hasChild h
    rfl
  · intro p _ hbranch i hi hnone
    fin_cases p
    · have hright : i = 1 := by
        have hle : i ≤ 1 := hi
        have hne : i ≠ 0 := by
          rintro rfl
          cases hnone
        omega
      subst hright
      exact .leaf (n := rightLeaf) rfl rfl
    · cases hbranch

/-- A device whose pages are programmed once. -/
def quietDevice {size : Nat} : Surroundings size where
  readOnly := false
  journalEnabled := true
  journalIsRecovering := false
  findWritableArea := fun t => (.ok, .active, 1, t.flash)
  getPageStatus := fun _ _ => .used
  findFirstFreePage := fun _ _ => (.ok, 0)
  writePage := fun t addr n =>
    if (t.flash addr).isSome then (.fail, t.flash) else (.ok, Function.update t.flash addr (some n))

theorem quietDevice_careful : (quietDevice : Surroundings size).Careful := by
  constructor
  · exact fun _ _ _ => rfl
  · intro t addr n other m hother
    dsimp only [quietDevice]
    split
    · exact hother
    · rename_i hfree
      have hne : other ≠ addr := by
        rintro rfl
        rw [hother] at hfree
        exact hfree rfl
      exact (Function.update_of_ne hne ..).trans hother
  · intro t addr n hok
    dsimp only [quietDevice] at hok ⊢
    split at hok
    · cases hok
    · rename_i hfree
      rw [if_neg hfree]
      exact Function.update_self ..

end Paffs.Tree.TreeCache
