import Paffs.AddressCache.PathSpec

/-! The three list paths of one inode together. -/
namespace Paffs.AddressCache
open Journal

/-! ### Page numbers -/

section Positions
variable {n : Nat} [NeZero n]

@[simp] theorem positions_length (depth pageOffs : Nat) : (positions n depth pageOffs).length = depth + 1 := by
  induction depth with
  | zero => rfl
  | succ depth ih => simp [positions, ih]

/-- Only the last digits of a number count. -/
theorem positions_mod {depth k : Nat} (hk : depth < k) (x : Nat) : positions n depth (x % n ^ k) = positions n depth x := by
  have hdigit : ∀ i < k, Fin.ofNat n (x % n ^ k / n ^ i) = Fin.ofNat n (x / n ^ i) := by
    intro i hi
    apply Fin.ext
    have hpow : n ^ k = n ^ i * n ^ (k - i) := by rw [← pow_add, Nat.add_sub_cancel' (by omega)]
    rw [Fin.val_ofNat, Fin.val_ofNat, hpow, Nat.mod_mul_right_div_self]
    exact Nat.mod_mod_of_dvd _ (dvd_pow_self n (by omega))
  induction depth with
  | zero =>
    have hlast := hdigit 0 hk
    rw [pow_zero, Nat.div_one, Nat.div_one] at hlast
    rw [positions, positions, hlast]
  | succ depth ih => rw [positions, positions, ih (by omega), hdigit _ hk]

theorem positions_inj {depth x y : Nat} (hx : x < n ^ (depth + 1)) (hy : y < n ^ (depth + 1))
    (h : positions n depth x = positions n depth y) : x = y := by
  induction depth generalizing x y with
  | zero =>
    have hval := congrArg Fin.val (List.cons.inj h).1
    simp only [zero_add, pow_one, Fin.val_ofNat] at hx hy hval
    rwa [Nat.mod_eq_of_lt hx, Nat.mod_eq_of_lt hy] at hval
  | succ depth ih =>
    obtain ⟨hhead, htail⟩ := List.cons.inj h
    have hquot : ∀ z < n ^ (depth + 1 + 1), z / n ^ (depth + 1) % n = z / n ^ (depth + 1) := by
      intro z hz
      rw [pow_succ] at hz
      exact Nat.mod_eq_of_lt (Nat.div_lt_of_lt_mul hz)
    have hdiv : x / n ^ (depth + 1) = y / n ^ (depth + 1) := by
      have hval := congrArg Fin.val hhead
      rwa [Fin.val_ofNat, Fin.val_ofNat, hquot x hx, hquot y hy] at hval
    have hpos : 0 < n ^ (depth + 1) := Nat.pos_of_ne_zero (pow_ne_zero _ (NeZero.ne n))
    rw [← positions_mod (Nat.lt_succ_self depth) x, ← positions_mod (Nat.lt_succ_self depth) y] at htail
    have hmod := ih (Nat.mod_lt x hpos) (Nat.mod_lt y hpos) htail
    rw [← Nat.div_add_mod x (n ^ (depth + 1)), ← Nat.div_add_mod y (n ^ (depth + 1)), hdiv, hmod]

end Positions

namespace Indirection

@[simp] theorem anchor_setAnchor (inode : Inode) (addr : Addr) (t : Indirection) : t.anchor (t.setAnchor inode addr) = addr := by
  cases t <;> rfl

theorem anchor_setAnchor_of_ne (inode : Inode) (addr : Addr) {t u : Indirection} (h : u ≠ t) :
    u.anchor (t.setAnchor inode addr) = u.anchor inode := by
  cases t <;> cases u <;> first | rfl | exact (h rfl).elim

@[simp] theorem setAnchor_direct (inode : Inode) (addr : Addr) (t : Indirection) :
    (t.setAnchor inode addr).direct = inode.direct := by
  cases t <;> rfl

@[simp] theorem setAnchor_no (inode : Inode) (addr : Addr) (t : Indirection) : (t.setAnchor inode addr).no = inode.no := by
  cases t <;> rfl

theorem depth_le_two (t : Indirection) : t.depth ≤ 2 := by
  cases t <;> decide

end Indirection

namespace State
variable {n : Nat} {areas : Areas n}

theorem path_setPath (s : State n) (slot : Slot) (t : Indirection) (w : Path n) : (s.setPath slot t w).path slot t = w := by
  simp [path, setPath]

theorem path_setPath_of_ne (s : State n) (slot : Slot) {t u : Indirection} (h : u ≠ t) (w : Path n) :
    (s.setPath slot t w).path slot u = { s.path slot u with dev := w.dev } := by
  simp [path, setPath, Function.update_of_ne h, Indirection.anchor_setAnchor_of_ne _ _ h]

/-- What each indirection stands for. Lists of different indirections are different pages, too. -/
structure Holds (hollow frame : Set Addr) (V : Indirection → List (Fin n) → Addr) (slot : Slot) (s : State n) : Prop where
  rep : ∀ t, (s.path slot t).Represents hollow t.depth t.depth (V t)
  used : ∀ t (ps : List (Fin n)), ps.length ≤ t.depth → V t ps ≠ 0 → s.dev.statuses (V t ps) = .used
  kept : ∀ t (ps : List (Fin n)), ps.length ≤ t.depth → V t ps ∉ olds s.dev.statemachine.list
  apart : ∀ t (ps : List (Fin n)), ps.length ≤ t.depth → V t ps ≠ 0 → V t ps ∉ frame
  inj : ∀ t u (ps qs : List (Fin n)), ps.length ≤ t.depth → qs.length ≤ u.depth → V t ps = V u qs → V t ps ≠ 0 →
    t = u ∧ ps = qs
  frame_used : ∀ a ∈ frame, s.dev.statuses a = .used
  frame_kept : ∀ a ∈ frame, a ∉ olds s.dev.statemachine.list
  olds_used : ∀ a ∈ olds s.dev.statemachine.list, s.dev.statuses a = .used

/-- The lists of the other indirections. -/
def others (V : Indirection → List (Fin n) → Addr) (t : Indirection) : Set Addr :=
  {a | ∃ u ≠ t, ∃ ps : List (Fin n), ps.length ≤ u.depth ∧ V u ps ≠ 0 ∧ a = V u ps}

variable {hollow frame : Set Addr} {V V' : Indirection → List (Fin n) → Addr} {slot : Slot} {s s' : State n}

theorem Holds.stands (h : Holds hollow frame V slot s) (t : Indirection) :
    (s.path slot t).Stands hollow (frame ∪ others V t) t.depth t.depth (V t) := by
  refine ⟨h.rep t, h.used t, h.kept t, fun ps hps h0 => ?_, fun ps qs hps hqs heq h0 => (h.inj t t ps qs hps hqs heq h0).2,
    ?_, ?_, h.olds_used⟩
  · rintro (hf | ⟨u, hu, qs, hqs, -, heq⟩)
    · exact h.apart t ps hps h0 hf
    · exact hu (h.inj t u ps qs hps hqs heq h0).1.symm
  · rintro a (hf | ⟨u, -, qs, hqs, h0, rfl⟩)
    · exact h.frame_used a hf
    · exact h.used u qs hqs h0
  · rintro a (hf | ⟨u, -, qs, hqs, -, rfl⟩)
    · exact h.frame_kept a hf
    · exact h.kept u qs hqs

/-- One indirection changes, and keeps to its own pages. -/
theorem Holds.of_stands (h : Holds hollow frame V slot s) {t : Indirection} {W : List (Fin n) → Addr} {w : Path n}
    (hw : w.Stands hollow (frame ∪ others V t) t.depth t.depth W)
    (hkeeps : s.dev.Keeps (frame ∪ others V t) w.dev) : Holds hollow frame (Function.update V t W) slot (s.setPath slot t w) := by
  have hin : ∀ u ≠ t, ∀ ps : List (Fin n), ps.length ≤ u.depth → V u ps ≠ 0 → V u ps ∈ frame ∪ others V t :=
    fun u hu ps hps h0 => .inr ⟨u, hu, ps, hps, h0, rfl⟩
  constructor
  · intro u
    by_cases hu : u = t
    · subst hu
      rw [path_setPath, Function.update_self]
      exact hw.rep
    · rw [path_setPath_of_ne _ _ hu, Function.update_of_ne hu]
      refine (h.rep u).of_flash _ fun ps hps => ?_
      by_cases h0 : V u ps = 0
      · rw [h0]
        rfl
      · simp only [Device.readAddrList, h0, if_false]
        exact hkeeps.flash _ (hin u hu ps hps h0)
  · intro u ps hps h0
    by_cases hu : u = t
    · subst hu
      rw [Function.update_self] at h0 ⊢
      exact hw.owns.used ps hps h0
    · rw [Function.update_of_ne hu] at h0 ⊢
      exact hw.owns.frame_used _ (hin u hu ps hps h0)
  · intro u ps hps
    by_cases hu : u = t
    · subst hu
      rw [Function.update_self]
      exact hw.owns.kept ps hps
    · rw [Function.update_of_ne hu]
      by_cases h0 : V u ps = 0
      · rw [h0]
        exact Device.zero_not_mem_olds _
      · exact hw.owns.frame_kept _ (hin u hu ps hps h0)
  · intro u ps hps h0
    by_cases hu : u = t
    · subst hu
      rw [Function.update_self] at h0 ⊢
      exact fun hf => hw.owns.apart ps hps h0 (.inl hf)
    · rw [Function.update_of_ne hu] at h0 ⊢
      exact h.apart u ps hps h0
  · intro u v ps qs hps hqs heq h0
    by_cases hu : u = t <;> by_cases hv : v = t
    · subst hu
      subst hv
      rw [Function.update_self] at heq h0
      exact ⟨rfl, hw.owns.inj ps qs hps hqs heq h0⟩
    · subst hu
      rw [Function.update_self, Function.update_of_ne hv] at heq
      rw [Function.update_self] at h0
      exact (hw.owns.apart ps hps h0 (heq ▸ hin v hv qs hqs (heq ▸ h0))).elim
    · subst hv
      rw [Function.update_self, Function.update_of_ne hu] at heq
      rw [Function.update_of_ne hu] at h0
      exact (hw.owns.apart qs hqs (heq ▸ h0) (heq ▸ hin u hu ps hps h0)).elim
    · rw [Function.update_of_ne hu, Function.update_of_ne hv] at heq
      rw [Function.update_of_ne hu] at h0
      exact h.inj u v ps qs hps hqs heq h0
  · exact fun a ha => hw.owns.frame_used a (.inl ha)
  · exact fun a ha => hw.owns.frame_kept a (.inl ha)
  · exact hw.owns.olds_used

/-- Nothing changes that does not belong to the inode. -/
structure Spares (frame : Set Addr) (slot : Slot) (s s' : State n) : Prop where
  flash : ∀ a ∈ frame, s'.dev.flash a = s.dev.flash a
  tree : ∀ no, no ≠ (s.ram slot).no → s'.dev.tree no = s.dev.tree no
  ram : ∀ slot', slot' ≠ slot → s'.ram slot' = s.ram slot'
  no : (s'.ram slot).no = (s.ram slot).no
  ptr : s'.pac.mInodePtr = s.pac.mInodePtr
  readOnly : s'.dev.readOnly = s.dev.readOnly

/-- The file's pages are the same, too. -/
structure Follows (frame : Set Addr) (slot : Slot) (V V' : Indirection → List (Fin n) → Addr) (s s' : State n) : Prop
    extends Spares frame slot s s' where
  leaves : ∀ t (ps : List (Fin n)), t.depth < ps.length → V' t ps = V t ps
  direct : (s'.ram slot).direct = (s.ram slot).direct

theorem Spares.refl (frame : Set Addr) (slot : Slot) (s : State n) : Spares frame slot s s :=
  ⟨fun _ _ => rfl, fun _ _ => rfl, fun _ _ => rfl, rfl, rfl, rfl⟩

theorem Follows.refl (frame : Set Addr) (slot : Slot) (V : Indirection → List (Fin n) → Addr) (s : State n) :
    Follows frame slot V V s s :=
  ⟨.refl .., fun _ _ _ => rfl, rfl⟩

variable {V'' : Indirection → List (Fin n) → Addr} {s'' : State n}

theorem Spares.trans (h : Spares frame slot s s') (h' : Spares frame slot s' s'') : Spares frame slot s s'' where
  flash a ha := (h'.flash a ha).trans (h.flash a ha)
  tree no hno := (h'.tree no (by rw [h.no]; exact hno)).trans (h.tree no hno)
  ram slot' hs := (h'.ram slot' hs).trans (h.ram slot' hs)
  no := h'.no.trans h.no
  ptr := h'.ptr.trans h.ptr
  readOnly := h'.readOnly.trans h.readOnly

theorem Follows.trans (h : Follows frame slot V V' s s') (h' : Follows frame slot V' V'' s' s'') :
    Follows frame slot V V'' s s'' where
  toSpares := h.toSpares.trans h'.toSpares
  leaves t ps hps := (h'.leaves t ps hps).trans (h.leaves t ps hps)
  direct := h'.direct.trans h.direct

theorem Follows.of_moves {t : Indirection} {W : List (Fin n) → Addr} {w : Path n}
    (h : (s.path slot t).Moves (frame ∪ others V t) t.depth (V t) W w) :
    Follows frame slot V (Function.update V t W) s (s.setPath slot t w) where
  leaves u ps hps := by
    by_cases hu : u = t
    · subst hu
      rw [Function.update_self]
      exact h.leaves ps hps
    · rw [Function.update_of_ne hu]
  flash a ha := h.keeps.flash a (.inl ha)
  tree no _ := congrFun h.keeps.tree no
  ram slot' hs := Function.update_of_ne hs ..
  direct := by simp [setPath]
  no := by simp [setPath]
  ptr := rfl
  readOnly := h.keeps.readOnly

/-- An action on one list path that keeps what the path stands for. -/
theorem onPath_spec (h : Holds hollow frame V slot s) {t : Indirection} {f : Path n → Result × Path n}
    (hf : ∀ frame', (s.path slot t).Stands hollow frame' t.depth t.depth (V t) →
      ∃ W, (f (s.path slot t)).2.Stands hollow frame' t.depth t.depth W ∧
        (s.path slot t).Moves frame' t.depth (V t) W (f (s.path slot t)).2) :
    ∃ V', Holds hollow frame V' slot (s.onPath slot t f).2 ∧ Follows frame slot V V' s (s.onPath slot t f).2 := by
  obtain ⟨W, hstands, hmoves⟩ := hf _ (h.stands t)
  exact ⟨_, h.of_stands hstands hmoves.keeps, .of_moves hmoves⟩

theorem isDirty_eq_false : s.isDirty = false ↔ ∀ t : Indirection, ∀ k ≤ t.depth, (s.pac.lists t k).dirty = false := by
  constructor
  · intro h t k hk
    simp only [isDirty, Bool.or_eq_false_iff] at h
    obtain ⟨⟨⟨⟨⟨h1, h2⟩, h3⟩, h4⟩, h5⟩, h6⟩ := h
    cases t with
    | singl =>
      obtain rfl : k = 0 := Nat.le_zero.1 hk
      exact h1
    | doubl =>
      rcases Nat.le_one_iff_eq_zero_or_eq_one.1 hk with rfl | rfl
      · exact h2
      · exact h3
    | tripl =>
      have hk' : k = 0 ∨ k = 1 ∨ k = 2 := by
        have h2 : k ≤ 2 := hk
        omega
      rcases hk' with rfl | rfl | rfl
      · exact h4
      · exact h5
      · exact h6
  · intro h
    have hs := h .singl 0 (by decide)
    have hd := fun k hk => h .doubl k hk
    have ht := fun k hk => h .tripl k hk
    simp [isDirty, hs, hd 0 (by decide), hd 1 (by decide), ht 0 (by decide), ht 1 (by decide), ht 2 (by decide)]

end State

theorem Device.invalidateOldPages_eq {n : Nat} (d : Device n) : d.invalidateOldPages =
    { d with statuses := Writes.mark .dirty (olds d.statemachine.list) d.statuses
             statemachine := .clear
             events := d.events ++ (statusEntries (Writes.changes .dirty (olds d.statemachine.list) d.statuses) ++
               if olds d.statemachine.list = [] then [] else [JournalEntry.pagestate .pac .invalidateOldPages]).map .entry } := by
  rw [Device.invalidateOldPages, Device.act, World.invalidateOldPages_eq]
  rfl

namespace State
variable {n : Nat} {areas : Areas n} {hollow frame : Set Addr} {V V' : Indirection → List (Fin n) → Addr} {slot : Slot}
  {s s' : State n}

/-- Nobody owns what is given up now. -/
theorem Holds.invalidate (h : Holds hollow frame V slot s) {dev : Device n}
    (hst : dev.statuses = Writes.mark .dirty (olds s.dev.statemachine.list) s.dev.statuses)
    (hsm : dev.statemachine = .clear) (hflash : dev.flash = s.dev.flash) (clean : Bool) :
    Holds hollow frame V slot { s with dev, pac := { s.pac with isInodeDirty := clean } } := by
  have hused : ∀ a, a ∉ olds s.dev.statemachine.list → s.dev.statuses a = .used → dev.statuses a = .used := by
    intro a ha hu
    rw [hst, Writes.mark_of_not_mem _ ha, hu]
  constructor
  · intro t
    refine (h.rep t).of_flash _ fun ps _ => ?_
    simp [Device.readAddrList, hflash, path]
  · exact fun t ps hps h0 => hused _ (h.kept t ps hps) (h.used t ps hps h0)
  · intro t ps _
    change _ ∉ olds dev.statemachine.list
    simp [hsm, PageStateMachine.clear]
  · exact h.apart
  · exact h.inj
  · exact fun a ha => hused a (h.frame_kept a ha) (h.frame_used a ha)
  · intro a _
    change _ ∉ olds dev.statemachine.list
    simp [hsm, PageStateMachine.clear]
  · intro a ha
    change a ∈ olds dev.statemachine.list at ha
    simp [hsm, PageStateMachine.clear] at ha

theorem Holds.congr (h : Holds hollow frame V slot s) (hlists : s'.pac.lists = s.pac.lists)
    (hanchor : ∀ t : Indirection, t.anchor (s'.ram slot) = t.anchor (s.ram slot)) (hflash : s'.dev.flash = s.dev.flash)
    (hstatuses : s'.dev.statuses = s.dev.statuses) (hsm : s'.dev.statemachine = s.dev.statemachine) :
    Holds hollow frame V slot s' where
  rep t := by
    have hpath : s'.path slot t = { s.path slot t with dev := s'.dev } := by simp [path, hlists, hanchor]
    rw [hpath]
    refine (h.rep t).of_flash _ fun ps _ => ?_
    simp only [Device.readAddrList, hflash, path]
  used t ps hps h0 := by
    rw [hstatuses]
    exact h.used t ps hps h0
  kept t ps hps := by
    rw [hsm]
    exact h.kept t ps hps
  apart := h.apart
  inj := h.inj
  frame_used a ha := by
    rw [hstatuses]
    exact h.frame_used a ha
  frame_kept a ha := by
    rw [hsm]
    exact h.frame_kept a ha
  olds_used a ha := by
    rw [hsm] at ha
    rw [hstatuses]
    exact h.olds_used a ha

/-- Setting a page in a list that is loaded. -/
theorem Holds.setLeaf (h : Holds hollow frame V slot s) {t : Indirection} {path : List (Fin n)} {pos : Fin n} {addr : Addr}
    (hactive : ∀ k ≤ t.depth, (s.pac.lists t k).active) (hpos : position (s.pac.lists t) t.depth = path)
    (hne : (s.pac.lists t t.depth).cache pos ≠ addr) :
    Holds hollow frame (Function.update V t (Function.update (V t) (path ++ [pos]) addr)) slot
      (s.setPath slot t ((s.path slot t).setElem t.depth ((s.pac.lists t t.depth).setAddr pos addr))) := by
  have hstands := h.stands t
  have hrep := hstands.rep.setLeaf hactive hne
  change Path.Represents _ _ _ (Function.update (V t) (position (s.pac.lists t) t.depth ++ [pos]) addr) _ at hrep
  have hshort : ∀ ps : List (Fin n), ps.length ≤ t.depth → Function.update (V t) (path ++ [pos]) addr ps = V t ps := by
    intro ps hps
    refine Function.update_of_ne ?_ ..
    rintro rfl
    rw [← hpos, List.length_append, position_length] at hps
    exact Nat.not_succ_le_self _ hps
  rw [hpos] at hrep
  refine h.of_stands ⟨hrep, ?_⟩ (.refl ..)
  exact hstands.owns.congr hshort

/-- Committing one list path. -/
theorem onPath_commitPath (h : Holds hollow frame V slot s) (t : Indirection)
    (heq : s.onPath slot t (Path.commitPath areas t.depth) = (.ok, s')) :
    ∃ V', Holds hollow frame V' slot s' ∧ Follows frame slot V V' s s' := by
  have hok : ((s.path slot t).commitPath areas t.depth).1 = .ok := congrArg Prod.fst heq
  obtain rfl : (s.onPath slot t (Path.commitPath areas t.depth)).2 = s' := congrArg Prod.snd heq
  refine onPath_spec h fun frame' hstands => ?_
  obtain ⟨W, hstands', hmoves, -⟩ := Path.commitPath_spec hstands t.depth_le_two hok
  exact ⟨W, hstands', hmoves⟩

/-- The steps of a commit that goes through. -/
theorem commit_steps (hptr : s.pac.mInodePtr = some slot) (hdirty : s.pac.isInodeDirty) (hok : (s.commit areas).1 = .ok) :
    ∃ s₁ s₂ s₃, s.onPath slot .singl (Path.commitPath areas 0) = (.ok, s₁) ∧
      s₁.onPath slot .doubl (Path.commitPath areas 1) = (.ok, s₂) ∧
      s₂.onPath slot .tripl (Path.commitPath areas 2) = (.ok, s₃) ∧ s₃.isDirty = false ∧
      (s₃.dev.tree (s₃.ram slot).no).isSome ∧
      (s.commit areas).2 = { s₃ with
        dev := (s₃.dev.updateExistingInode (s₃.ram slot)).2.invalidateOldPages.addEvent (.entry (.checkpoint .pac))
        pac := { s₃.pac with isInodeDirty := false } } := by
  rw [commit, hptr] at hok ⊢
  simp only [hdirty, Bool.not_true, Bool.false_eq_true, if_false] at hok ⊢
  obtain ⟨s₁, h₁, hok⟩ := ok_of_andThen hok
  obtain ⟨s₂, h₂, hok⟩ := ok_of_andThen hok
  obtain ⟨s₃, h₃, hok⟩ := ok_of_andThen hok
  have hclean : s₃.isDirty = false := by
    by_contra hd
    rw [if_pos (by simpa using hd)] at hok
    cases hok
  rw [if_neg (by simp [hclean])] at hok
  refine ⟨s₁, s₂, s₃, h₁, h₂, h₃, hclean, ?_, ?_⟩
  · by_contra hno
    simp [Device.updateExistingInode, hno] at hok
  · rw [h₁, andThen_ok, h₂, andThen_ok, h₃, andThen_ok, if_neg (by simp [hclean])]

theorem commit_spec (h : Holds hollow frame V slot s) (hptr : s.pac.mInodePtr = some slot) (hok : (s.commit areas).1 = .ok) :
    ∃ V', Holds hollow frame V' slot (s.commit areas).2 ∧ Follows frame slot V V' s (s.commit areas).2 ∧
      (s.pac.isInodeDirty = false ∧ (s.commit areas).2 = s ∨
        s.pac.isInodeDirty ∧ (s.commit areas).2.isDirty = false ∧
          (s.commit areas).2.dev.tree (s.ram slot).no = some ((s.commit areas).2.ram slot)) := by
  by_cases hdirty : s.pac.isInodeDirty
  swap
  · have hsame : (s.commit areas).2 = s := by
      rw [commit, hptr]
      simp [hdirty]
    rw [hsame]
    exact ⟨V, h, .refl .., .inl ⟨by simpa using hdirty, rfl⟩⟩
  obtain ⟨s₁, s₂, s₃, h₁, h₂, h₃, hclean, hsome, heq⟩ := commit_steps hptr hdirty hok
  obtain ⟨V₁, hholds₁, hfollows₁⟩ := onPath_commitPath h .singl h₁
  obtain ⟨V₂, hholds₂, hfollows₂⟩ := onPath_commitPath hholds₁ .doubl h₂
  obtain ⟨V₃, hholds₃, hfollows₃⟩ := onPath_commitPath hholds₂ .tripl h₃
  have hfollows := (hfollows₁.trans hfollows₂).trans hfollows₃
  have hdev : (s₃.dev.updateExistingInode (s₃.ram slot)).2 = { s₃.dev.addEvent (.store (s₃.ram slot)) with
      tree := Function.update s₃.dev.tree (s₃.ram slot).no (some (s₃.ram slot)) } := by
    simp [Device.updateExistingInode, hsome]
  rw [heq, hdev, Device.invalidateOldPages_eq]
  refine ⟨V₃, hholds₃.invalidate (by rfl) (by rfl) (by rfl) false, ?_, .inr ⟨hdirty, hclean, ?_⟩⟩
  · refine hfollows.trans ⟨⟨fun _ _ => rfl, fun no hno => ?_, fun _ _ => rfl, rfl, rfl, rfl⟩, fun _ _ _ => rfl, rfl⟩
    exact Function.update_of_ne hno ..
  · rw [← hfollows.no]
    exact Function.update_self ..

theorem onPath_lists {t : Indirection} {f : Path n → Result × Path n} (heq : s.onPath slot t f = (.ok, s')) :
    (f (s.path slot t)).1 = .ok ∧ s'.pac.lists t = (f (s.path slot t)).2.start ∧ ∀ u ≠ t, s'.pac.lists u = s.pac.lists u := by
  obtain rfl : s.setPath slot t (f (s.path slot t)).2 = s' := congrArg Prod.snd heq
  exact ⟨congrArg Prod.fst heq, Function.update_self .., fun u hu => Function.update_of_ne hu ..⟩

/-- A commit commits each path, with the lists that it had before. -/
theorem commit_path (hptr : s.pac.mInodePtr = some slot) (hdirty : s.pac.isInodeDirty) (hok : (s.commit areas).1 = .ok)
    (t : Indirection) : ∃ w : Path n, w.start = s.pac.lists t ∧ (w.commitPath areas t.depth).1 = .ok ∧
      (s.commit areas).2.pac.lists t = (w.commitPath areas t.depth).2.start := by
  obtain ⟨s₁, s₂, s₃, h₁, h₂, h₃, -, -, heq⟩ := commit_steps hptr hdirty hok
  obtain ⟨hok₁, hself₁, hother₁⟩ := onPath_lists h₁
  obtain ⟨hok₂, hself₂, hother₂⟩ := onPath_lists h₂
  obtain ⟨hok₃, hself₃, hother₃⟩ := onPath_lists h₃
  rw [heq]
  cases t with
  | singl =>
    refine ⟨s.path slot .singl, rfl, hok₁, ?_⟩
    exact ((hother₃ _ (by decide)).trans (hother₂ _ (by decide))).trans hself₁
  | doubl => exact ⟨s₁.path slot .doubl, hother₁ _ (by decide), hok₂, (hother₃ _ (by decide)).trans hself₂⟩
  | tripl => exact ⟨s₂.path slot .tripl, (hother₂ _ (by decide)).trans (hother₁ _ (by decide)), hok₃, hself₃⟩

theorem onPath_loadPath (h : Holds hollow frame V slot s) {t : Indirection} {path : List (Fin n)} (hlen : path.length = t.depth)
    (hun : Path.Undisturbed path 1 false (s.path slot t))
    (heq : s.onPath slot t (Path.loadPath areas path) = (.ok, s')) :
    ∃ V', Holds hollow frame V' slot s' ∧ Follows frame slot V V' s s' ∧ (∀ k ≤ t.depth, (s'.pac.lists t k).active) ∧
      position (s'.pac.lists t) t.depth = path ∧ ∀ p, (s'.pac.lists t t.depth).cache p = V' t (path ++ [p]) := by
  have hok : ((s.path slot t).loadPath areas path).1 = .ok := congrArg Prod.fst heq
  obtain rfl : s.setPath slot t ((s.path slot t).loadPath areas path).2 = s' := congrArg Prod.snd heq
  obtain ⟨W, hstands, hmoves, hactive, hpos⟩ := Path.loadPath_spec (h.stands t) t.depth_le_two hlen hun hok
  have hlists : (s.setPath slot t ((s.path slot t).loadPath areas path).2).pac.lists t =
      ((s.path slot t).loadPath areas path).2.start := Function.update_self ..
  refine ⟨_, h.of_stands hstands hmoves.keeps, .of_moves hmoves, ?_, ?_, fun p => ?_⟩
  · rw [hlists]
    exact hactive
  · rw [hlists]
    exact hpos
  · have hcached := hstands.rep.cached t.depth (Nat.le_refl _) (Nat.le_refl _) (hactive _ (Nat.le_refl _)) p
    rw [hpos] at hcached
    rw [hlists, Function.update_self, hcached]

end State
end Paffs.AddressCache
