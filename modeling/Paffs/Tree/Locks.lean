import Paffs.Tree.FreeNodes

/-! What a lock is good for: it changes nothing that is found, and the node stays with all nodes above it. -/
namespace Paffs.Tree.TreeCache
variable {size : Nat} {o : Surroundings size} {t t' : TreeCache size} {x c : Fin size}

def withLocks (t : TreeCache size) (locked inheritedLock : Fin size → Bool) : TreeCache size :=
  { t with cache := fun c => { t.cache c with locked := locked c, inheritedLock := inheritedLock c } }

/-- Only locks change. -/
def Relocks (t t' : TreeCache size) : Prop := ∃ locked inheritedLock, t' = t.withLocks locked inheritedLock

namespace Relocks

theorem refl (t : TreeCache size) : Relocks t t := ⟨fun c => (t.cache c).locked, fun c => (t.cache c).inheritedLock, rfl⟩

theorem trans {t'' : TreeCache size} (h : Relocks t t') (h' : Relocks t' t'') : Relocks t t'' := by
  obtain ⟨_, _, rfl⟩ := h
  obtain ⟨locked, inheritedLock, rfl⟩ := h'
  exact ⟨locked, inheritedLock, rfl⟩

theorem update {f : TreeCacheNode size → TreeCacheNode size} {locked inheritedLock : Bool}
    (hf : f (t.cache x) = { t.cache x with locked := locked, inheritedLock := inheritedLock }) : Relocks t (t.update x f) := by
  refine ⟨Function.update (fun c => (t.cache c).locked) x locked,
    Function.update (fun c => (t.cache c).inheritedLock) x inheritedLock, ?_⟩
  refine congrArg (fun cache => { t with cache := cache }) ?_
  funext c
  by_cases hc : c = x
  · subst hc
    dsimp only
    rw [Function.update_self, Function.update_self, Function.update_self, hf]
  · dsimp only
    rw [Function.update_of_ne hc, Function.update_of_ne hc, Function.update_of_ne hc]

theorem valid (h : Relocks t t') (hv : t.Valid) : t'.Valid := by
  obtain ⟨_, _, rfl⟩ := h
  obtain ⟨rank, hr⟩ := hv.ranked
  exact ⟨⟨hv.root_parent, hv.root_used, hv.parent, hv.child, hv.position, rank, hr.lt_of_hasChild, hr.lt_size⟩,
    hv.root_clean, hv.stored, hv.known, hv.root_known, hv.uncached⟩

theorem find (h : Relocks t t') (fuel key : Nat) : t'.find fuel key = t.find fuel key := by
  obtain ⟨locked, inheritedLock, rfl⟩ := h
  have hnode : ∀ place, (t.withLocks locked inheritedLock).nodeAt place = t.nodeAt place := by
    intro place
    cases place with
    | inl slot => rfl
    | inr addr => rfl
  have hchild : ∀ i addr place, (t.withLocks locked inheritedLock).childAt i addr place = t.childAt i addr place := by
    intro i addr place
    cases place with
    | inl slot => rfl
    | inr addr => rfl
  exact findFrom_eq hnode hchild key fuel (if t.cacheUsage t.cacheRoot then .inl t.cacheRoot else .inr t.rootnodeAddr)

theorem cacheUsage (h : Relocks t t') : t'.cacheUsage = t.cacheUsage := by
  obtain ⟨_, _, rfl⟩ := h
  rfl

theorem parent (h : Relocks t t') (c : Fin size) : (t'.cache c).parent = (t.cache c).parent := by
  obtain ⟨_, _, rfl⟩ := h
  rfl

theorem above (h : Relocks t t') {a : Fin size} : t'.Above a c ↔ t.Above a c := by
  obtain ⟨_, _, rfl⟩ := h
  exact Iff.rfl

theorem ranks (h : Relocks t t') {rank : Fin size → Nat} (hr : t.Ranks rank) : t'.Ranks rank := by
  obtain ⟨_, _, rfl⟩ := h
  exact ⟨hr.lt_of_hasChild, hr.lt_size⟩

end Relocks

/-! ### The way to the root -/

/-- The nodes above a node, the nearest first. -/
inductive Path (t : TreeCache size) : Fin size → List (Fin size) → Prop
  | root {x : Fin size} : (t.cache x).parent = some x → Path t x []
  | step {x p : Fin size} {ps : List (Fin size)} : (t.cache x).parent = some p → p ≠ x → Path t p ps → Path t x (p :: ps)

namespace Path
variable {ps : List (Fin size)}

theorem congr (h : t.Path x ps) (hparent : ∀ a ∈ x :: ps, (t'.cache a).parent = (t.cache a).parent) : t'.Path x ps := by
  induction h with
  | root hp => exact .root ((hparent _ List.mem_cons_self).trans hp)
  | step hp hne _ ih =>
    exact .step ((hparent _ List.mem_cons_self).trans hp) hne (ih fun a ha => hparent a (List.mem_cons_of_mem _ ha))

theorem mem_of_above (h : t.Path x ps) {a : Fin size} (ha : t.Above a x) : a ∈ x :: ps := by
  induction h with
  | @root x hp =>
    unfold Above at ha
    induction ha with
    | single hstep =>
      cases hp.symm.trans hstep
      exact List.mem_cons_self
    | tail _ hstep ih =>
      cases List.mem_singleton.mp ih
      cases hp.symm.trans hstep
      exact List.mem_cons_self
  | step hp _ _ ih =>
    rcases ha.above_parent hp with rfl | ha
    · exact List.mem_cons_of_mem _ List.mem_cons_self
    · exact List.mem_cons_of_mem _ (ih ha)

end Path

/-- The ranks rise on the way to the root, and the way is as short as the cache is small. -/
theorem Linked.exists_path (h : t.Linked) {rank : Fin size → Nat} (hr : t.Ranks rank) (hx : t.cacheUsage x = true) :
    ∃ ps, t.Path x ps ∧ ps.length + rank x < size ∧ (x :: ps).Pairwise (rank · < rank ·) ∧
      ∀ p ∈ ps, t.cacheUsage p = true ∧ (t.cache p).raw.isLeaf = false := by
  induction hn : size - rank x using Nat.strong_induction_on generalizing x with
  | _ n ih =>
    by_cases hroot : x = t.cacheRoot
    · refine ⟨[], .root ?_, ?_, List.pairwise_singleton .., nofun⟩
      · rw [hroot]
        exact h.parent_root (h.root_used x hx)
      · rw [List.length_nil, Nat.zero_add]
        exact hr.lt_size x
    · obtain ⟨p, i, hp, hchild⟩ := h.parent x hx hroot
      have hlt := hr.lt_of_hasChild p i x hp hchild
      have hsize := hr.lt_size p
      obtain ⟨ps, hpath, hlen, hsorted, hall⟩ := ih (size - rank p) (by omega) hp rfl
      refine ⟨p :: ps, .step (h.child p i x hp hchild).2.2 (h.ne_of_hasChild hp hchild) hpath, ?_, ?_, ?_⟩
      · rw [List.length_cons]
        omega
      · refine List.pairwise_cons.mpr ⟨fun a ha => ?_, hsorted⟩
        rcases List.mem_cons.mp ha with rfl | ha
        · exact hlt
        · exact hlt.trans ((List.pairwise_cons.mp hsorted).1 a ha)
      · intro a ha
        rcases List.mem_cons.mp ha with rfl | ha
        · exact ⟨hp, hchild.1⟩
        · exact hall a ha

/-! ### Locking and unlocking -/

@[simp] theorem withLocks_withLocks (t : TreeCache size) (locked inheritedLock locked' inheritedLock' : Fin size → Bool) :
    (t.withLocks locked inheritedLock).withLocks locked' inheritedLock' = t.withLocks locked' inheritedLock' := rfl

theorem update_eq_withLocks {f : TreeCacheNode size → TreeCacheNode size} {locked inheritedLock : Bool}
    (hf : f (t.cache x) = { t.cache x with locked := locked, inheritedLock := inheritedLock }) :
    t.update x f = t.withLocks (Function.update (fun c => (t.cache c).locked) x locked)
      (Function.update (fun c => (t.cache c).inheritedLock) x inheritedLock) := by
  refine congrArg (fun cache => { t with cache := cache }) ?_
  funext c
  by_cases hc : c = x
  · subst hc
    dsimp only
    rw [Function.update_self, Function.update_self, Function.update_self, hf]
  · dsimp only
    rw [Function.update_of_ne hc, Function.update_of_ne hc, Function.update_of_ne hc]

/-- From a node on all locks up to the root are inherited. -/
theorem inheritLock_of_path {ps : List (Fin size)} (h : t.Path c ps) {fuel : Nat} (hfuel : ps.length < fuel) :
    inheritLock fuel c t = some (t.withLocks (fun a => (t.cache a).locked)
      fun a => (t.cache a).inheritedLock || decide (a ∈ c :: ps)) := by
  induction fuel generalizing t c ps with
  | zero => cases hfuel
  | succ fuel ih =>
    have hs : t.update c ({ · with inheritedLock := true }) = t.withLocks (fun a => (t.cache a).locked)
        (Function.update (fun a => (t.cache a).inheritedLock) c true) := by
      have heq : t.update c ({ · with inheritedLock := true }) = _ := update_eq_withLocks rfl
      rw [heq, Function.update_eq_self]
    set s : TreeCache size := t.withLocks (fun a => (t.cache a).locked) (Function.update (fun a => (t.cache a).inheritedLock) c true)
    have hparent : ∀ a, (s.cache a).parent = (t.cache a).parent := fun _ => rfl
    rw [inheritLock, hs, hparent]
    cases h with
    | root hp =>
      rw [hp]
      dsimp only
      rw [if_pos rfl]
      refine congrArg (fun inheritedLock => some (t.withLocks (fun a => (t.cache a).locked) inheritedLock)) ?_
      funext a
      by_cases ha : a = c
      · subst ha
        rw [Function.update_self, decide_eq_true List.mem_cons_self, Bool.or_true]
      · rw [Function.update_of_ne ha, decide_eq_false (by simpa using ha), Bool.or_false]
    | @step _ p rest hp hne hpath =>
      have hpath' : s.Path p rest := hpath.congr fun _ _ => rfl
      rw [hp]
      dsimp only
      rw [if_neg hne, ih hpath' (Nat.lt_of_succ_lt_succ hfuel)]
      refine congrArg (fun inheritedLock => some (t.withLocks (fun a => (t.cache a).locked) inheritedLock)) ?_
      funext a
      have hsa : (s.cache a).inheritedLock = Function.update (fun a => (t.cache a).inheritedLock) c true a := rfl
      rw [hsa]
      by_cases ha : a = c
      · subst ha
        rw [Function.update_self, Bool.true_or, decide_eq_true List.mem_cons_self, Bool.or_true]
      · rw [Function.update_of_ne ha]
        simp [ha]

/-- A lock holds for the node and for all nodes above it. -/
theorem lockTreeCacheNode_of_path {ps : List (Fin size)} (hparent : (t.cache x).parent = some p) (h : t.Path p ps)
    (hfuel : ps.length < size) : t.lockTreeCacheNode x = some (t.withLocks (Function.update (fun a => (t.cache a).locked) x true)
      fun a => (t.cache a).inheritedLock || decide (a ∈ p :: ps)) := by
  have hs : t.update x ({ · with locked := true }) = t.withLocks (Function.update (fun a => (t.cache a).locked) x true)
      (fun a => (t.cache a).inheritedLock) := by
    have heq : t.update x ({ · with locked := true }) = _ := update_eq_withLocks rfl
    rw [heq, Function.update_eq_self]
  set s : TreeCache size := t.withLocks (Function.update (fun a => (t.cache a).locked) x true) fun a => (t.cache a).inheritedLock
  have hparent' : (s.cache x).parent = some p := hparent
  have hpath' : s.Path p ps := h.congr fun _ _ => rfl
  rw [lockTreeCacheNode, hs, hparent']
  exact inheritLock_of_path hpath' hfuel

theorem disinheritLock_of_path {ps : List (Fin size)} (h : t.Path c ps) {fuel : Nat} (hfuel : ps.length < fuel) :
    ∃ t', disinheritLock fuel c t = some t' ∧ Relocks t t' := by
  induction fuel generalizing t c ps with
  | zero => cases hfuel
  | succ fuel ih =>
    have hs : Relocks t (t.update c ({ · with inheritedLock := false })) := .update rfl
    rw [disinheritLock]
    split
    · exact ⟨t, rfl, .refl t⟩
    dsimp only
    split
    · exact ⟨_, rfl, hs⟩
    rw [hs.parent]
    cases h with
    | root hp =>
      rw [hp]
      exact ⟨_, if_pos rfl, hs⟩
    | step hp hne hpath =>
      rw [hp]
      dsimp only
      rw [if_neg hne]
      obtain ⟨t', hrun, hs'⟩ := ih (hpath.congr fun a _ => hs.parent a) (Nat.lt_of_succ_lt_succ hfuel)
      exact ⟨t', hrun, hs.trans hs'⟩

theorem unlockTreeCacheNode_of_path {ps : List (Fin size)} (hparent : (t.cache x).parent = some p) (h : t.Path p ps)
    (hfuel : ps.length < size) : ∃ t', t.unlockTreeCacheNode x = some (.ok, t') ∧ Relocks t t' := by
  have hs : Relocks t (t.update x ({ · with locked := false })) := .update rfl
  obtain ⟨t', hrun, hs'⟩ := disinheritLock_of_path (h.congr fun a _ => hs.parent a) hfuel
  refine ⟨t', ?_, hs.trans hs'⟩
  rw [unlockTreeCacheNode, (hs.parent x).trans hparent]
  dsimp only
  rw [hrun]
  rfl

/-- The parent of a used node, and the way from there. -/
theorem Linked.exists_parent_path (h : t.Linked) (hx : t.cacheUsage x = true) :
    ∃ p ps, (t.cache x).parent = some p ∧ t.cacheUsage p = true ∧ t.Path p ps ∧ ps.length < size := by
  obtain ⟨p, hparent, hp⟩ := h.parent_used hx
  obtain ⟨rank, hr⟩ := h.ranked
  obtain ⟨ps, hpath, hlen, -⟩ := h.exists_path hr hp
  exact ⟨p, ps, hparent, hp, hpath, by omega⟩

/-- Nothing on the way to a locked node is given up. -/
theorem freeNodes_of_locked (ho : o.Careful) (h : t.Valid) (hx : t.cacheUsage x = true) (n : Nat) :
    ∃ t', t.lockTreeCacheNode x = some t' ∧ ∃ r t'', t'.freeNodes o n = some (r, t'') ∧
      ∀ a, a = x ∨ t.Above a x → t''.cacheUsage a = true := by
  obtain ⟨p, ps, hparent, -, hpath, hlen⟩ := h.exists_parent_path hx
  have hlock := lockTreeCacheNode_of_path hparent hpath hlen
  set t' : TreeCache size := t.withLocks (Function.update (fun a => (t.cache a).locked) x true)
    fun a => (t.cache a).inheritedLock || decide (a ∈ p :: ps)
  have hs : Relocks t t' := ⟨_, _, rfl⟩
  have hlocked : (t'.cache x).locked = true := Function.update_self (f := fun a => (t.cache a).locked) ..
  obtain ⟨r, t'', hrun, hf, -⟩ := freeNodes_frees ho (hs.valid h) n
  refine ⟨t', hlock, r, t'', hrun, fun a ha => ?_⟩
  rcases ha with rfl | ha
  · exact hf.spares.locked a hx (.inl hlocked)
  · exact hf.spares.above a x (hs.above.mpr ha) (.inl ⟨hx, hlocked⟩)

end Paffs.Tree.TreeCache
