import Paffs.Tree.CacheSpec

/-! A commit changes neither the slots nor what is found. -/
namespace Paffs.Tree.TreeCache
variable {size : Nat} {o : Surroundings size} {t t' : TreeCache size} {x p c : Fin size} {i : Nat}

/-! ### One node -/

@[simp] theorem update_cache_self (t : TreeCache size) (x : Fin size) (f : TreeCacheNode size → TreeCacheNode size) :
    (t.update x f).cache x = f (t.cache x) := Function.update_self ..

theorem update_cache_ne (t : TreeCache size) (f : TreeCacheNode size → TreeCacheNode size) (h : c ≠ x) :
    (t.update x f).cache c = t.cache c := Function.update_of_ne h ..

theorem update_alike {f : TreeCacheNode size → TreeCacheNode size} (has : As.Alike (t.cache x).raw.as (f (t.cache x)).raw.as)
    (hparent : (f (t.cache x)).parent = (t.cache x).parent) (hpointers : (f (t.cache x)).pointers = (t.cache x).pointers)
    (hlocked : (f (t.cache x)).locked = (t.cache x).locked)
    (hinherited : (f (t.cache x)).inheritedLock = (t.cache x).inheritedLock) : t.Alike (t.update x f) := by
  have hne : ∀ c, c ≠ x → (t.update x f).cache c = t.cache c := fun c h => update_cache_ne t f h
  constructor
  · rfl
  · rfl
  all_goals
    intro c
    by_cases hc : c = x
  · subst hc
    rw [update_cache_self]
    exact has
  · rw [hne c hc]
    exact .refl _
  all_goals first
    | subst hc
      rw [update_cache_self]
      assumption
    | rw [hne c hc]

theorem Linked.ne_of_hasChild (h : t.Linked) (hp : t.cacheUsage p = true) (hc : t.HasChild p i c) : p ≠ c := by
  obtain ⟨rank, hr⟩ := h.ranked
  rintro rfl
  exact (hr.lt_of_hasChild p i p hp hc).ne rfl

theorem Linked.findChild (h : t.Linked) (hp : t.cacheUsage p = true) (hc : t.HasChild p i c) : t.findChild p c = some i := by
  rw [TreeCache.findChild, List.find?_range_eq_some]
  refine ⟨decide_eq_true hc.2.2, List.mem_range.mpr (Nat.lt_succ_of_le hc.2.1), fun j hj => ?_⟩
  by_contra hother
  have hother' : t.HasChild p j c := ⟨hc.1, hj.le.trans hc.2.1, by simpa using hother⟩
  exact hj.ne (h.position p j i c hp hother' hc)

/-- A dirty node may be changed as long as it stays dirty, and a clean one may become dirty. -/
theorem keeps_update (h : t.Valid) (hx : t.cacheUsage x = true) {f : TreeCacheNode size → TreeCacheNode size}
    (ha : t.Alike (t.update x f)) (hdirty : (f (t.cache x)).dirty = true)
    (hpointer : (f (t.cache x)).raw.isLeaf = false → ∀ i c, t.HasChild x i c → (t.cache c).dirty = false →
      (f (t.cache x)).raw.pointer i = (t.cache x).raw.pointer i)
    (huncached : ∀ i, (t.cache x).pointers i = none → (f (t.cache x)).raw.pointer i = (t.cache x).raw.pointer i) :
    Keeps t (t.update x f) := by
  have hne : ∀ c, c ≠ x → (t.update x f).cache c = t.cache c := fun c hc => update_cache_ne t f hc
  have hclean : ∀ c, ((t.update x f).cache c).dirty = false → c ≠ x := by
    rintro c hc rfl
    rw [update_cache_self, hdirty] at hc
    cases hc
  apply keeps_of h ha
  · exact fun _ _ _ hread => hread
  · intro p _ _ i _ hnone
    by_cases hp : p = x
    · subst hp
      rw [update_cache_self]
      exact huncached i hnone
    · rw [hne p hp]
  · exact h.root_used x hx
  · intro c hc hd
    have hcx := hclean c hd
    rw [hne c hcx] at hd ⊢
    exact h.stored c hc hd
  · intro p i c hp hchild hd
    have hcx := hclean c hd
    rw [hne c hcx] at hd ⊢
    rw [← h.known p i c hp hchild hd]
    by_cases hpx : p = x
    · subst hpx
      rw [update_cache_self]
      refine hpointer ?_ i c hchild hd
      have := (ha.as p).isLeaf
      rw [update_cache_self] at this
      exact this.trans hchild.1
    · rw [hne p hpx]
  · intro hd
    have hroot := hclean _ hd
    rw [hne _ hroot] at hd ⊢
    exact h.root_known (h.root_used x hx) hd

theorem keeps_dirty (h : t.Valid) (hx : t.cacheUsage x = true) : Keeps t (t.update x ({ · with dirty := true })) :=
  keeps_update h hx (update_alike (.refl _) rfl rfl rfl rfl) rfl (fun _ _ _ _ _ => rfl) fun _ _ => rfl

/-- The flash may change where the tree is not. -/
theorem keeps_flash (h : t.Valid) (hroot : t.cacheUsage t.cacheRoot = true) {flash : Flash} {pageList : List (Addr × Addr)}
    {clock : Nat} (hflash : ∀ addr, t.InUse addr → ∀ n, t.flash addr = some n → flash addr = some n) :
    Keeps t { t with flash := flash, pageList := pageList, clock := clock } := by
  apply keeps_of h
  · exact ⟨rfl, rfl, fun _ => .refl _, fun _ => rfl, fun _ => rfl, fun _ => rfl, fun _ => rfl⟩
  · intro addr hu n hread
    rw [readTreeNode, Option.filter_eq_some_iff] at hread ⊢
    exact ⟨hflash addr hu n hread.1, hread.2⟩
  · exact fun _ _ _ _ _ _ => rfl
  · exact hroot
  · intro c hc hd
    exact hflash _ (.node hc hd) _ (h.stored c hc hd)
  · exact fun p i c => h.known p i c
  · exact h.root_known hroot

theorem findFrom_eq (hnode : ∀ place, t'.nodeAt place = t.nodeAt place)
    (hchild : ∀ i addr place, t'.childAt i addr place = t.childAt i addr place) (key fuel : Nat) (place : Place size) :
    t'.findFrom key fuel place = t.findFrom key fuel place := by
  induction fuel generalizing place with
  | zero => rfl
  | succ fuel ih =>
    rw [findFrom, findFrom, hnode]
    split
    · rfl
    · rfl
    · rw [hchild, ih]

theorem keeps_pageList (h : t.Valid) (pageList : List (Addr × Addr)) : Keeps t { t with pageList := pageList } := by
  have ha : t.Alike { t with pageList := pageList } :=
    ⟨rfl, rfl, fun _ => .refl _, fun _ => rfl, fun _ => rfl, fun _ => rfl, fun _ => rfl⟩
  refine ⟨ha, ⟨ha.linked h.toLinked, h.root_clean, h.stored, h.known, h.root_known, h.uncached⟩, fun fuel key => ?_⟩
  have hnode : ∀ place, { t with pageList := pageList }.nodeAt place = t.nodeAt place := fun _ => rfl
  exact findFrom_eq hnode (fun _ _ _ => rfl) key fuel (if t.cacheUsage t.cacheRoot then .inl t.cacheRoot else .inr t.rootnodeAddr)

/-! ### Dirty paths -/

theorem resolveChilds_keeps {resolve : Fin size → TreeCache size → Option (Bool × TreeCache size)} (ha : t.Alike t')
    (h : t'.Valid) (hx : t'.cacheUsage x = true)
    (hresolve : ∀ t', t.Alike t' → t'.Valid → ∀ i child, t'.HasChild x i child → t'.cacheUsage child = true →
      ∃ b t'', resolve child t' = some (b, t'') ∧ Keeps t' t'')
    (hbranch : (t'.cache x).raw.isLeaf = false) {places : List Nat} (hplaces : ∀ i ∈ places, i ≤ (t'.cache x).raw.keys)
    (anyDirt : Bool) : ∃ b t'', resolveChilds resolve x places anyDirt t' = some (b, t'') ∧ Keeps t' t'' := by
  induction places generalizing t' anyDirt with
  | nil => exact ⟨_, _, rfl, .refl h⟩
  | cons i rest ih =>
    have hnext : ∀ t'' anyDirt, Keeps t' t'' →
        ∃ b t₃, resolveChilds resolve x rest anyDirt t'' = some (b, t₃) ∧ Keeps t' t₃ := by
      intro t'' anyDirt hk
      obtain ⟨b, t₃, hrun, hk'⟩ := ih (ha.trans hk.alike) hk.valid (by rw [hk.alike.cacheUsage]; exact hx)
        (by rw [(hk.alike.as x).isLeaf]; exact hbranch)
        (fun j hj => by rw [(hk.alike.as x).keys]; exact hplaces j (List.mem_cons_of_mem i hj)) anyDirt
      exact ⟨b, t₃, hrun, hk.trans hk'⟩
    rw [resolveChilds]
    cases hc : (t'.cache x).pointers i with
    | none => exact hnext t' anyDirt (.refl h)
    | some child =>
      have hchild : t'.HasChild x i child := ⟨hbranch, hplaces i List.mem_cons_self, hc⟩
      have hused := (h.child x i child hx hchild).1
      obtain ⟨dirt, t'', hcall, hk⟩ := hresolve t' ha h i child hchild hused
      dsimp only
      rw [if_pos hused, hcall]
      dsimp only [Option.bind_eq_bind, Option.bind_some]
      cases dirt with
      | false => exact hnext t'' anyDirt hk
      | true =>
        have hx' : t''.cacheUsage x = true := by
          rw [hk.alike.cacheUsage]
          exact hx
        exact hnext _ true (hk.trans (keeps_dirty hk.valid hx'))

theorem resolveDirtyPaths_keeps {rank : Fin size → Nat} (hr : t.Ranks rank) (h : t.Valid) (hx : t.cacheUsage x = true)
    {fuel : Nat} (hfuel : rank x < fuel) : ∃ b t', resolveDirtyPaths fuel x t = some (b, t') ∧ Keeps t t' := by
  induction fuel generalizing t x with
  | zero => cases hfuel
  | succ fuel ih =>
    rw [resolveDirtyPaths]
    by_cases hleaf : (t.cache x).raw.isLeaf = true
    · rw [if_pos hleaf]
      exact ⟨_, _, rfl, .refl h⟩
    · rw [if_neg hleaf]
      have hcall : ∀ t', t.Alike t' → t'.Valid → ∀ i child, t'.HasChild x i child → t'.cacheUsage child = true →
          ∃ b t'', resolveDirtyPaths fuel child t' = some (b, t'') ∧ Keeps t' t'' := by
        intro t' ha h' i child hchild hused
        have hlt := hr.lt_of_hasChild x i child hx (ha.hasChild.mp hchild)
        exact ih (ha.ranks hr) h' hused (by omega)
      obtain ⟨b, t', hrun, hk⟩ := resolveChilds_keeps (.refl t) h hx hcall (Bool.eq_false_iff.mpr hleaf)
        (fun i hi => Nat.le_of_lt_succ (List.mem_range.mp hi)) false
      rw [hrun]
      exact ⟨_, _, rfl, hk⟩

/-- With an empty cache no child is entered. -/
theorem resolveChilds_unused (hnone : ∀ c, t.cacheUsage c = false)
    (resolve : Fin size → TreeCache size → Option (Bool × TreeCache size)) (x : Fin size) (places : List Nat) (anyDirt : Bool) :
    resolveChilds resolve x places anyDirt t = some (anyDirt, t) := by
  induction places with
  | nil => rfl
  | cons i rest ih =>
    rw [resolveChilds]
    split
    · exact ih
    · rw [if_neg (Bool.eq_false_iff.mp (hnone _))]
      exact ih

theorem resolveDirtyPaths_unused (hnone : ∀ c, t.cacheUsage c = false) {fuel : Nat} (hfuel : 0 < fuel) (x : Fin size) :
    ∃ b, resolveDirtyPaths fuel x t = some (b, t) := by
  cases fuel with
  | zero => cases hfuel
  | succ fuel =>
    rw [resolveDirtyPaths, resolveChilds_unused hnone]
    split
    · exact ⟨_, rfl⟩
    · exact ⟨_, rfl⟩

theorem Linked.unused (h : t.Linked) (hroot : t.cacheUsage t.cacheRoot = false) (c : Fin size) : t.cacheUsage c = false := by
  by_contra hc
  rw [h.root_used c (by simpa using hc)] at hroot
  cases hroot

theorem resolveDirtyPaths_root (h : t.Valid) :
    ∃ b t', resolveDirtyPaths size t.cacheRoot t = some (b, t') ∧ Keeps t t' := by
  obtain ⟨rank, hr⟩ := h.ranked
  cases hroot : t.cacheUsage t.cacheRoot with
  | true => exact resolveDirtyPaths_keeps hr h hroot (hr.lt_size _)
  | false =>
    obtain ⟨b, hrun⟩ := resolveDirtyPaths_unused (h.unused hroot) t.cacheRoot.pos t.cacheRoot
    exact ⟨b, t, hrun, .refl h⟩

/-! ### Writing -/

/-- No dirty node becomes clean, but for the one that is written. -/
def StaysDirty (t t' : TreeCache size) : Prop := ∀ c, (t.cache c).dirty = true → (t'.cache c).dirty = true

theorem staysDirty_update {f : TreeCacheNode size → TreeCacheNode size} (hf : (t.cache x).dirty = true → (f (t.cache x)).dirty = true) :
    t.StaysDirty (t.update x f) := by
  intro c hc
  by_cases hcx : c = x
  · subst hcx
    rw [update_cache_self]
    exact hf hc
  · rw [update_cache_ne t f hcx]
    exact hc

theorem replacePage_eq (t : TreeCache size) (neu old : Addr) : ∃ pageList, t.replacePage neu old = { t with pageList := pageList } := by
  unfold replacePage
  split
  · exact ⟨_, rfl⟩
  · exact ⟨_, rfl⟩

/-- A node on flash that is known where it is looked for. -/
structure Written (t : TreeCache size) (x : Fin size) : Prop where
  stored : t.flash (t.cache x).raw.self = some (t.cache x).raw
  known : ∀ p i, t.cacheUsage p = true → t.HasChild p i x → (t.cache p).raw.pointer i = (t.cache x).raw.self
  root_known : x = t.cacheRoot → t.rootnodeAddr = (t.cache x).raw.self

theorem keeps_clean (h : t.Valid) (hx : t.cacheUsage x = true) (hw : t.Written x) :
    Keeps t (t.update x ({ · with dirty := false })) := by
  have ha : t.Alike (t.update x ({ · with dirty := false })) := update_alike (.refl _) rfl rfl rfl rfl
  have hraw : ∀ c, ((t.update x ({ · with dirty := false })).cache c).raw = (t.cache c).raw := by
    intro c
    by_cases hc : c = x
    · subst hc
      rw [update_cache_self]
    · rw [update_cache_ne _ _ hc]
  apply keeps_of h ha
  · exact fun _ _ _ hread => hread
  · intro p _ _ i _ _
    rw [hraw]
  · exact h.root_used x hx
  · intro c hc hd
    rw [hraw]
    by_cases hcx : c = x
    · exact hcx ▸ hw.stored
    · rw [update_cache_ne _ _ hcx] at hd
      exact h.stored c hc hd
  · intro p i c hp hchild hd
    rw [hraw, hraw]
    by_cases hcx : c = x
    · subst hcx
      exact hw.known p i hp hchild
    · rw [update_cache_ne _ _ hcx] at hd
      exact h.known p i c hp hchild hd
  · intro hd
    rw [hraw]
    by_cases hcx : t.cacheRoot = x
    · exact hcx ▸ hw.root_known hcx.symm
    · rw [update_cache_ne _ _ hcx] at hd
      exact h.root_known (h.root_used x hx) hd

/-- The address of a node that was written comes to where it is looked for. -/
theorem updateFlashAddressInParent_keeps (h : t.Valid) (hx : t.cacheUsage x = true) (hd : (t.cache x).dirty = true)
    (hstored : t.flash (t.cache x).raw.self = some (t.cache x).raw) :
    ∃ r t', t.updateFlashAddressInParent x = some (r, t') ∧ Keeps t t' ∧ t.StaysDirty t' ∧ t'.Written x := by
  by_cases hroot : x = t.cacheRoot
  · have hparent : (t.cache x).parent = some x := by
      rcases h.root_parent with hp | hp
      · rw [hroot]
        exact hp
      · rw [h.root_used x hx] at hp
        cases hp
    refine ⟨.ok, { t with rootnodeAddr := (t.cache x).raw.self }, ?_, ?_, fun _ hc => hc, ?_⟩
    · rw [updateFlashAddressInParent, hparent]
      exact if_pos rfl
    · apply keeps_of h
      · exact ⟨rfl, rfl, fun _ => .refl _, fun _ => rfl, fun _ => rfl, fun _ => rfl, fun _ => rfl⟩
      · exact fun _ _ _ hread => hread
      · exact fun _ _ _ _ _ _ => rfl
      · exact h.root_used x hx
      · exact h.stored
      · exact h.known
      · intro hclean
        rw [← hroot, hd] at hclean
        cases hclean
    · exact ⟨hstored, fun p i hp hchild => absurd hroot (h.child p i x hp hchild).2.1, fun _ => rfl⟩
  · obtain ⟨p, i, hp, hchild⟩ := h.parent x hx hroot
    have hne := h.ne_of_hasChild hp hchild
    have hparent := (h.child p i x hp hchild).2.2
    set f : TreeCacheNode size → TreeCacheNode size :=
      fun n => { n with raw := n.raw.setPointer i (t.cache x).raw.self, dirty := true }
    have halike : t.Alike (t.update p f) := update_alike (.setPointer _ _ _) rfl rfl rfl rfl
    refine ⟨.ok, t.update p f, ?_, ?_, staysDirty_update fun _ => rfl, ?_⟩
    · rw [updateFlashAddressInParent, hparent]
      dsimp only
      rw [if_neg hne, h.findChild hp hchild]
    · apply keeps_update h hp halike rfl
      · intro _ j c hc hclean
        apply TreeNode.setPointer_pointer_ne
        rintro rfl
        have heq : some c = some x := hc.2.2.symm.trans hchild.2.2
        cases heq
        rw [hd] at hclean
        cases hclean
      · intro j hnone
        apply TreeNode.setPointer_pointer_ne
        rintro rfl
        rw [hchild.2.2] at hnone
        cases hnone
    · have hself := update_cache_ne t f hne.symm
      constructor
      · rw [hself]
        exact hstored
      · intro q j hq hc
        have hc' := halike.hasChild.mp hc
        have hqp : some p = some q := hparent.symm.trans (h.child q j x hq hc').2.2
        cases hqp
        cases h.position p i j x hp hchild hc'
        rw [hself, update_cache_self]
        exact TreeNode.setPointer_pointer_self hchild.1 i _
      · exact fun heq => absurd heq hroot

theorem writeTreeNodeTo_keeps (ho : o.Careful) (h : t.Valid) (hx : t.cacheUsage x = true) (hd : (t.cache x).dirty = true)
    (activeArea : Nat) :
    ∃ r t', t.writeTreeNodeTo o x activeArea = some (r, t') ∧ Keeps t t' ∧ t.StaysDirty t' ∧ (r = .ok → t'.Written x) := by
  unfold writeTreeNodeTo
  dsimp only
  split
  · exact ⟨.bug, t, rfl, .refl h, fun _ hc => hc, nofun⟩
  set newAddr := combineAddress activeArea _
  set f : TreeCacheNode size → TreeCacheNode size := fun n => { n with raw := { n.raw with self := newAddr } }
  have hnamed : Keeps t (t.update x f) :=
    keeps_update h hx (update_alike (.refl _) rfl rfl rfl rfl) hd (fun _ _ _ _ _ => rfl) fun _ _ => rfl
  obtain ⟨pageList, hlist⟩ := (t.update x f).replacePage_eq newAddr (t.cache x).raw.self
  rw [hlist]
  set s : TreeCache size := { t.update x f with pageList := pageList }
  set written := o.writePage s newAddr (s.cache x).raw
  set s' : TreeCache size := { s with flash := written.2 }
  have hwritten : Keeps t s' := hnamed.trans
    (keeps_flash hnamed.valid (h.root_used x hx) fun addr _ n hn => ho.programs s newAddr _ addr n hn)
  have hstays : t.StaysDirty s' := staysDirty_update (f := f) id
  split
  · rename_i hfailed
    exact ⟨written.1, s', rfl, hwritten, hstays, fun hok => absurd hok hfailed⟩
  · rename_i hok
    have hcache : s'.cache x = f (t.cache x) := update_cache_self t x f
    have hdirty : (s'.cache x).dirty = true := by
      rw [hcache]
      exact hd
    have hstored : s'.flash (s'.cache x).raw.self = some (s'.cache x).raw := by
      have hself : (s'.cache x).raw.self = newAddr := by rw [hcache]
      rw [hself]
      exact ho.writes s newAddr (s.cache x).raw (not_not.mp hok)
    obtain ⟨r, t', hrun, hk, hstays', hw⟩ := updateFlashAddressInParent_keeps hwritten.valid hx hdirty hstored
    exact ⟨r, t', hrun, hwritten.trans hk, fun c hc => hstays' c (hstays c hc), fun _ => hw⟩

theorem writeTreeNode_keeps (ho : o.Careful) (h : t.Valid) (hx : t.cacheUsage x = true) (hd : (t.cache x).dirty = true) :
    ∃ r t', t.writeTreeNode o x = some (r, t') ∧ Keeps t t' ∧ t.StaysDirty t' ∧ (r = .ok → t'.Written x) := by
  unfold writeTreeNode
  split
  · exact ⟨.bug, t, rfl, .refl h, fun _ hc => hc, nofun⟩
  rcases hfind : o.findWritableArea t with ⟨r, activeStatus, activeArea, flash⟩
  have hflash : ∀ addr, t.InUse addr → ∀ n, t.flash addr = some n → flash addr = some n := by
    intro addr hu n hn
    have := ho.collects t addr hu
    rw [hfind] at this
    exact this.trans hn
  set s : TreeCache size := { t with flash := flash, clock := t.clock + 1 }
  have hcollected : Keeps t s := keeps_flash h (h.root_used x hx) hflash
  dsimp only
  split
  · rename_i hne
    exact ⟨r, s, rfl, hcollected, fun _ hc => hc, fun hok => absurd hok hne⟩
  split
  · exact ⟨.bug, s, rfl, hcollected, fun _ hc => hc, nofun⟩
  split
  · exact ⟨.bug, s, rfl, hcollected, fun _ hc => hc, nofun⟩
  split
  · exact ⟨.bug, s, rfl, hcollected, fun _ hc => hc, nofun⟩
  obtain ⟨r', t', hrun, hk, hstays, hw⟩ := writeTreeNodeTo_keeps (t := s) ho hcollected.valid hx hd activeArea
  exact ⟨r', t', hrun, hcollected.trans hk, hstays, hw⟩

theorem writeClean_keeps (ho : o.Careful) (h : t.Valid) (hx : t.cacheUsage x = true) (hd : (t.cache x).dirty = true) :
    ∃ r t', t.writeClean o x = some (r, t') ∧ Keeps t t' ∧ ∀ c, c ≠ x → (t.cache c).dirty = true → (t'.cache c).dirty = true := by
  obtain ⟨r, t', hrun, hk, hstays, hw⟩ := writeTreeNode_keeps ho h hx hd
  have hx' : t'.cacheUsage x = true := by
    rw [hk.alike.cacheUsage]
    exact hx
  rw [writeClean, hrun]
  dsimp only [Option.bind_eq_bind, Option.bind_some]
  by_cases hok : r = .ok
  · rw [if_neg (not_not.mpr hok)]
    refine ⟨_, _, rfl, hk.trans (keeps_clean hk.valid hx' (hw hok)), fun c hne hc => ?_⟩
    rw [update_cache_ne _ _ hne]
    exact hstays c hc
  · rw [if_pos hok]
    exact ⟨_, _, rfl, hk, fun c _ hc => hstays c hc⟩

/-! ### All nodes -/

/-- A commit from a node on: what is not below it stays dirty. -/
structure Commits (rank : Fin size → Nat) (bound : Nat) (t t' : TreeCache size) : Prop extends Keeps t t' where
  dirty : ∀ c, bound ≤ rank c → (t.cache c).dirty = true → (t'.cache c).dirty = true

theorem Commits.refl {rank : Fin size → Nat} {bound : Nat} (h : t.Valid) : Commits rank bound t t := ⟨.refl h, fun _ _ hc => hc⟩

theorem Commits.trans {rank : Fin size → Nat} {bound : Nat} {t'' : TreeCache size} (h : Commits rank bound t t')
    (h' : Commits rank bound t' t'') : Commits rank bound t t'' :=
  ⟨h.toKeeps.trans h'.toKeeps, fun c hb hc => h'.dirty c hb (h.dirty c hb hc)⟩

theorem commitChilds_commits {commit : Fin size → TreeCache size → Option (Result × TreeCache size)} {rank : Fin size → Nat}
    (ha : t.Alike t') (h : t'.Valid) (hx : t'.cacheUsage x = true)
    (hcommit : ∀ t', t.Alike t' → t'.Valid → ∀ i child, t'.HasChild x i child → t'.cacheUsage child = true →
      ∃ r t'', commit child t' = some (r, t'') ∧ Commits rank (rank x) t' t'')
    (hbranch : (t'.cache x).raw.isLeaf = false) {places : List Nat} (hplaces : ∀ i ∈ places, i ≤ (t'.cache x).raw.keys) :
    ∃ r t'', commitChilds commit x places t' = some (r, t'') ∧ Commits rank (rank x) t' t'' := by
  induction places generalizing t' with
  | nil => exact ⟨_, _, rfl, .refl h⟩
  | cons i rest ih =>
    have hnext : ∀ t'', Commits rank (rank x) t' t'' →
        ∃ r t₃, commitChilds commit x rest t'' = some (r, t₃) ∧ Commits rank (rank x) t' t₃ := by
      intro t'' hk
      obtain ⟨r, t₃, hrun, hk'⟩ := ih (ha.trans hk.alike) hk.valid (by rw [hk.alike.cacheUsage]; exact hx)
        (by rw [(hk.alike.as x).isLeaf]; exact hbranch)
        (fun j hj => by rw [(hk.alike.as x).keys]; exact hplaces j (List.mem_cons_of_mem i hj))
      exact ⟨r, t₃, hrun, hk.trans hk'⟩
    rw [commitChilds]
    cases hc : (t'.cache x).pointers i with
    | none => exact hnext t' (.refl h)
    | some child =>
      have hchild : t'.HasChild x i child := ⟨hbranch, hplaces i List.mem_cons_self, hc⟩
      obtain ⟨r, t'', hcall, hk⟩ := hcommit t' ha h i child hchild (h.child x i child hx hchild).1
      dsimp only
      rw [hcall]
      dsimp only [Option.bind_eq_bind, Option.bind_some]
      by_cases hok : r = .ok
      · rw [if_neg (not_not.mpr hok)]
        exact hnext t'' hk
      · rw [if_pos hok]
        exact ⟨_, _, rfl, hk⟩

theorem commitNodesRecursively_commits (ho : o.Careful) {rank : Fin size → Nat} (hr : t.Ranks rank) (h : t.Valid)
    (hx : t.cacheUsage x = true) {fuel : Nat} (hfuel : rank x < fuel) :
    ∃ r t', commitNodesRecursively o fuel x t = some (r, t') ∧ Commits rank (rank x + 1) t t' := by
  induction fuel generalizing t x with
  | zero => cases hfuel
  | succ fuel ih =>
    have hwrite : ∀ t', t'.Valid → t'.cacheUsage x = true → (t'.cache x).dirty = true →
        ∃ r t'', t'.writeClean o x = some (r, t'') ∧ Commits rank (rank x + 1) t' t'' := by
      intro t' h' hx' hd
      obtain ⟨r, t'', hrun, hk, hdirty⟩ := writeClean_keeps ho h' hx' hd
      refine ⟨r, t'', hrun, hk, fun c hb => hdirty c ?_⟩
      rintro rfl
      omega
    rw [commitNodesRecursively]
    by_cases hdirty : (t.cache x).dirty = true
    swap
    · rw [if_pos (by simpa using hdirty)]
      exact ⟨_, _, rfl, .refl h⟩
    rw [if_neg (by rw [hdirty]; decide)]
    by_cases hleaf : (t.cache x).raw.isLeaf = true
    · rw [if_pos hleaf]
      exact hwrite t h hx hdirty
    rw [if_neg hleaf]
    have hcall : ∀ t', t.Alike t' → t'.Valid → ∀ i child, t'.HasChild x i child → t'.cacheUsage child = true →
        ∃ r t'', commitNodesRecursively o fuel child t' = some (r, t'') ∧ Commits rank (rank x) t' t'' := by
      intro t' ha h' i child hchild hused
      have hlt := hr.lt_of_hasChild x i child hx (ha.hasChild.mp hchild)
      obtain ⟨r, t'', hrun, hk⟩ := ih (ha.ranks hr) h' hused (by omega)
      exact ⟨r, t'', hrun, hk.toKeeps, fun c hb => hk.dirty c (by omega)⟩
    obtain ⟨r, t', hrun, hk⟩ := commitChilds_commits (.refl t) h hx hcall (Bool.eq_false_iff.mpr hleaf)
      (fun i hi => Nat.le_of_lt_succ (List.mem_range.mp hi))
    have hk' : Commits rank (rank x + 1) t t' := ⟨hk.toKeeps, fun c hb => hk.dirty c (by omega)⟩
    rw [hrun]
    dsimp only [Option.bind_eq_bind, Option.bind_some]
    by_cases hok : r = .ok
    · rw [if_neg (not_not.mpr hok)]
      have hx' : t'.cacheUsage x = true := by
        rw [hk.alike.cacheUsage]
        exact hx
      obtain ⟨r', t'', hrun', hk''⟩ := hwrite t' hk.valid hx' (hk.dirty x le_rfl hdirty)
      exact ⟨r', t'', hrun', hk'.trans hk''⟩
    · rw [if_pos hok]
      exact ⟨_, _, rfl, hk'⟩

theorem commitNodesRecursively_unused (hd : (t.cache x).dirty = false) {fuel : Nat} (hfuel : 0 < fuel) :
    commitNodesRecursively o fuel x t = some (.ok, t) := by
  cases fuel with
  | zero => cases hfuel
  | succ fuel => rw [commitNodesRecursively, hd, Bool.not_false, if_pos rfl]

theorem commitNodesRecursively_root (ho : o.Careful) (h : t.Valid) :
    ∃ r t', commitNodesRecursively o size t.cacheRoot t = some (r, t') ∧ Keeps t t' := by
  obtain ⟨rank, hr⟩ := h.ranked
  cases hroot : t.cacheUsage t.cacheRoot with
  | true =>
    obtain ⟨r, t', hrun, hk⟩ := commitNodesRecursively_commits ho hr h hroot (hr.lt_size _)
    exact ⟨r, t', hrun, hk.toKeeps⟩
  | false => exact ⟨_, _, commitNodesRecursively_unused (h.root_clean hroot) t.cacheRoot.pos, .refl h⟩

/-- A commit that fails leaves the cache in order as well. -/
theorem commitCache_keeps (ho : o.Careful) (h : t.Valid) : ∃ r t', t.commitCache o = some (r, t') ∧ Keeps t t' := by
  unfold commitCache
  split
  · exact ⟨_, _, rfl, .refl h⟩
  obtain ⟨b, t₁, hresolve, hk₁⟩ := resolveDirtyPaths_root h
  rw [hresolve]
  dsimp only [Option.bind_eq_bind, Option.bind_some]
  obtain ⟨r, t₂, hcommit, hk₂⟩ := commitNodesRecursively_root ho hk₁.valid
  rw [hcommit]
  dsimp only [Option.bind_some]
  have hk := hk₁.trans hk₂
  split
  · exact ⟨_, _, rfl, hk⟩
  split
  · exact ⟨_, _, rfl, hk⟩
  · exact ⟨_, _, rfl, hk.trans (keeps_pageList hk.valid [])⟩

end Paffs.Tree.TreeCache
