import Paffs.Journal.Replay

/-! What DataIO and the page address cache take for the success of a transaction when a log is replayed: the
first update of an inode in the tree, whatever inode that is. -/
namespace Paffs.Journal

/-- `DataIO`, as far as it processes a log. -/
structure DataIo where
  sm : PageStateMachine
  journalLastModifiedInode : InodeNo
  journalLastSize : Nat
  journalInodeValid : Bool
  modifiedInode : Bool
  processedForeignSuccessElement : Bool
  journalIsWriteTruncatePair : Bool
  deriving DecidableEq

/-- `PageAddressCache`, as far as it judges transactions. -/
structure Pac where
  sm : PageStateMachine
  /-- The number in `mJournalInodeCopy`, if `mInodePtr` points there. -/
  mInodePtr : Option InodeNo
  processedForeignSuccessElement : Bool
  deriving DecidableEq

namespace DataIo

def resetState : DataIo := ⟨.clear, 0, 0, false, false, false, false⟩

def isInterestedIn (d : DataIo) : JournalEntry → Bool
  | .update _ => d.modifiedInode && !d.processedForeignSuccessElement
  | _ => false

def processEntry (d : DataIo) : JournalEntry → Result × DataIo
  | .newInodeSize inodeNo filesize =>
    if d.journalInodeValid && d.journalLastModifiedInode = inodeNo && d.journalLastSize = filesize then
      -- the same message comes again when a directory is truncated
      (.ok, { d with journalIsWriteTruncatePair := true })
    else
      (.ok, { d with journalLastModifiedInode := inodeNo, journalLastSize := filesize, journalInodeValid := true,
                     modifiedInode := false })
  | .pagestate _ e =>
    let (r, sm) := d.sm.processEntry e
    (r, { d with sm, modifiedInode := true })
  | .update _ =>
    let (r, sm) := d.sm.processEntry .success
    (r, { d with sm, processedForeignSuccessElement := true })
  | _ => (.bug, d)

end DataIo

namespace Pac

/-- Before the first entry no inode is set. -/
def resetState : Pac := ⟨.clear, none, false⟩

def isInterestedIn (c : Pac) : JournalEntry → Bool
  | .update _ => c.sm.journalState = .invalid && !c.processedForeignSuccessElement
  | _ => false

/-- Lists that `setPage` writes while a log is replayed are not in the log, and not modelled here. -/
def processEntry (c : Pac) : JournalEntry → Result × Pac
  | .setAddress inodeNo _ _ => (.ok, if c.mInodePtr = some inodeNo then c else { c with mInodePtr := some inodeNo })
  | .pagestate _ e =>
    let (r, sm) := c.sm.processEntry e
    (r, { c with sm })
  | .update _ =>
    if c.mInodePtr = none then (.bug, c)
    else
      let (r, sm) := c.sm.processEntry .success
      (r, { c with sm, processedForeignSuccessElement := true })
  | _ => (.invalidInput, c)

end Pac

/-- The topic an entry is handed to in any case. -/
def JournalEntry.target? : JournalEntry → Option Topic
  | .pagestate target _ => some target
  | .newInodeSize .. => some .dataIo
  | .setAddress .. => some .pac
  | .setStatus .. | .rootnode _ | .update _ | .checkpoint _ => none

def DataIo.step (d : DataIo) (e : JournalEntry) : DataIo :=
  if e.target? = some .dataIo ∨ d.isInterestedIn e then (d.processEntry e).2 else d

def Pac.step (c : Pac) (e : JournalEntry) : Pac :=
  if e.target? = some .pac ∨ c.isInterestedIn e then (c.processEntry e).2 else c

/-- What the end of the log takes back. -/
def PageStateMachine.undone (sm : PageStateMachine) : List Replacement :=
  if sm.journalState = .invalid then sm.list else []

/-- The topics that judge by the tree's updates. -/
inductive Judging where
  | dataIo | pac
  deriving DecidableEq, Repr

namespace Judging

/-- `maxPagesPerWrite` pages, with positions for DataIO. -/
def params : Judging → Params
  | .dataIo => ⟨.dataIo, 256, true⟩
  | .pac => ⟨.pac, 256, false⟩

/-- `Journal::applyJournalEntries` on the entries behind the last checkpoint, as the topic's state machine sees it. -/
def machine (t : Judging) (log : List JournalEntry) : PageStateMachine :=
  match t with
  | .dataIo => (log.foldl DataIo.step .resetState).sm
  | .pac => (log.foldl Pac.step .resetState).sm

def reverted (t : Judging) (log : List JournalEntry) : List Replacement := (t.machine log).undone

end Judging

/-- A complete transaction of a topic. Its body begins with the first page it replaces, and no success element of
its inode comes before the last one. Other entries may stand anywhere. -/
structure Transaction (t : Judging) where
  no : InodeNo
  opening : List JournalEntry
  body : List JournalEntry
  closing : List JournalEntry
  opening_quiet : ∀ e ∈ opening, e.pagestate? t.params = none
  opening_target : t = .pac → ∃ page addr, .setAddress no page addr ∈ opening
  body_head : ∃ e B, body = e :: B ∧ e.pagestate? t.params ≠ none
  body_replaces : ∀ e ∈ body, ∀ x, e.pagestate? t.params = some x → x.replacement? ≠ none
  body_size : ∀ e ∈ body, ∀ inodeNo filesize, e ≠ .newInodeSize inodeNo filesize
  body_unfinished : .update no ∉ body
  closing_invalidates : closing.filterMap (JournalEntry.pagestate? t.params) =
    if olds (recorded t.params body) = [] then [] else [.invalidateOldPages]
  uncheckpointed : .checkpoint t.params.topic ∉ opening ++ body ++ closing

namespace Transaction
variable {t : Judging}

def log (T : Transaction t) : List JournalEntry := T.opening ++ T.body ++ .update T.no :: T.closing

/-- Some page was given up, so `InvalidateOldPages` was logged. -/
def Overwrites (T : Transaction t) : Prop := olds (recorded t.params T.body) ≠ []

instance (T : Transaction t) : Decidable T.Overwrites := inferInstanceAs (Decidable (_ ≠ _))

/-- The success element is there. -/
def Finished (T : Transaction t) (U : List JournalEntry) : Prop := T.opening ++ T.body ++ [.update T.no] <+: U

instance (T : Transaction t) (U : List JournalEntry) : Decidable (T.Finished U) :=
  inferInstanceAs (Decidable (_ <+: _))

end Transaction

/-! ### The state machine between success elements -/

namespace PageStateMachine

def processAll (sm : PageStateMachine) (es : List Pagestate) : PageStateMachine :=
  es.foldl (fun sm e => (sm.processEntry e).2) sm

theorem processAll_append (sm : PageStateMachine) (es fs : List Pagestate) :
    sm.processAll (es ++ fs) = (sm.processAll es).processAll fs := List.foldl_append

variable {sm : PageStateMachine} {es : List Pagestate}

/-- While a transaction is being recovered, no page is taken in. -/
theorem processAll_recover (hsm : sm.journalState = .recover) (hes : ∀ x ∈ es, x.replacement? ≠ none) :
    sm.processAll es = sm := by
  induction es with
  | nil => rfl
  | cons x es ih =>
    have hx : (sm.processEntry x).2 = sm := by
      have h := hes x (List.mem_cons_self ..)
      cases x <;> simp_all [processEntry, Pagestate.replacement?]
    change ((sm.processEntry x).2).processAll es = sm
    rw [hx]
    exact ih fun y hy => hes y (List.mem_cons_of_mem _ hy)

theorem processEntry_replacement (hsm : sm.journalState ≠ .recover) {x : Pagestate} {r : Replacement}
    (hx : x.replacement? = some r) : (sm.processEntry x).2.list = sm.list ++ [r] ∧
      (sm.processEntry x).2.journalState = .invalid := by
  cases x <;> cases h : sm.journalState <;> simp_all [processEntry, Pagestate.replacement?, append]

/-- Before, every page is. -/
theorem processAll_collect (hsm : sm.journalState ≠ .recover) (hes : ∀ x ∈ es, x.replacement? ≠ none) :
    (sm.processAll es).list = sm.list ++ es.filterMap Pagestate.replacement? ∧
      (sm.processAll es).journalState = if es = [] then sm.journalState else .invalid := by
  induction es generalizing sm with
  | nil => simp [processAll]
  | cons x es ih =>
    obtain ⟨r, hr⟩ := Option.ne_none_iff_exists'.1 (hes x (List.mem_cons_self ..))
    obtain ⟨hlist, hstate⟩ := processEntry_replacement hsm hr
    have hnext := @ih (sm.processEntry x).2 (by simp [hstate]) fun y hy => hes y (List.mem_cons_of_mem _ hy)
    change ((sm.processEntry x).2.processAll es).list = _ ∧ ((sm.processEntry x).2.processAll es).journalState = _
    rw [hnext.1, hnext.2, hlist, hstate]
    simp [hr]

end PageStateMachine

/-! ### What the two topics have in common -/

theorem Judging.pagestate?_eq_some {t : Judging} {e : JournalEntry} {x : Pagestate} :
    e.pagestate? t.params = some x ↔ e = .pagestate t.params.topic x := by
  cases e with
  | pagestate target y => by_cases h : target = t.params.topic <;> simp [JournalEntry.pagestate?, h]
  | rootnode => cases t <;> simp [JournalEntry.pagestate?, params]
  | setStatus | update | newInodeSize | setAddress | checkpoint => simp [JournalEntry.pagestate?]

theorem Judging.pagestate?_eq_none {t : Judging} {target : Topic} {x : Pagestate} :
    (JournalEntry.pagestate target x).pagestate? t.params = none ↔ target ≠ t.params.topic := by
  simp [JournalEntry.pagestate?]

namespace DataIo
variable (d : DataIo)

theorem step_own (x : Pagestate) : d.step (.pagestate .dataIo x) =
    { d with sm := (d.sm.processEntry x).2, modifiedInode := true } := by
  simp [step, JournalEntry.target?, processEntry]

theorem step_update (no : InodeNo) : d.step (.update no) =
    if d.modifiedInode && !d.processedForeignSuccessElement then
      { d with sm := (d.sm.processEntry .success).2, processedForeignSuccessElement := true }
    else d := by
  simp [step, JournalEntry.target?, isInterestedIn, processEntry]

theorem step_newInodeSize (no : InodeNo) (size : Nat) : ∃ d' : DataIo, d.step (.newInodeSize no size) = d' ∧
    d'.sm = d.sm ∧ d'.processedForeignSuccessElement = d.processedForeignSuccessElement ∧
      (d'.modifiedInode → d.modifiedInode) := by
  refine ⟨_, rfl, ?_⟩
  simp only [step, JournalEntry.target?, processEntry, true_or, if_true]
  split <;> simp

theorem step_other {e : JournalEntry} (h : e.pagestate? Judging.dataIo.params = none)
    (hsize : ∀ no size, e ≠ .newInodeSize no size) (hno : ∀ no, e ≠ .update no) : d.step e = d := by
  cases e with
  | pagestate target x =>
    have ht := Judging.pagestate?_eq_none.1 h
    exact if_neg (by simpa [JournalEntry.target?, isInterestedIn, Judging.params] using ht)
  | newInodeSize no size => exact (hsize no size rfl).elim
  | update no => exact (hno no rfl).elim
  | setStatus | rootnode | setAddress | checkpoint => exact if_neg (by simp [JournalEntry.target?, isInterestedIn])

end DataIo

namespace Pac
variable (c : Pac)

theorem step_own (x : Pagestate) : c.step (.pagestate .pac x) = { c with sm := (c.sm.processEntry x).2 } := by
  simp [step, JournalEntry.target?, processEntry]

theorem step_update (no : InodeNo) : c.step (.update no) =
    if c.sm.journalState = .invalid ∧ c.mInodePtr ≠ none ∧ c.processedForeignSuccessElement = false then
      { c with sm := (c.sm.processEntry .success).2, processedForeignSuccessElement := true }
    else c := by
  simp only [step, JournalEntry.target?, isInterestedIn, processEntry]
  by_cases hptr : c.mInodePtr = none <;> simp [hptr]

theorem step_setAddress (no : InodeNo) (page : PageNo) (addr : Addr) :
    c.step (.setAddress no page addr) = { c with mInodePtr := some no } := by
  have h : c.mInodePtr = some no → c = { c with mInodePtr := some no } := fun h => by rw [← h]
  simp only [step, JournalEntry.target?, processEntry, true_or, if_true]
  split
  · next hptr => exact h hptr
  · rfl

theorem step_other {e : JournalEntry} (h : e.pagestate? Judging.pac.params = none)
    (haddr : ∀ no page addr, e ≠ .setAddress no page addr) (hno : ∀ no, e ≠ .update no) : c.step e = c := by
  cases e with
  | pagestate target x =>
    have ht := Judging.pagestate?_eq_none.1 h
    exact if_neg (by simpa [JournalEntry.target?, isInterestedIn, Judging.params] using ht)
  | setAddress no page addr => exact (haddr no page addr rfl).elim
  | update no => exact (hno no rfl).elim
  | setStatus | rootnode | newInodeSize | checkpoint => exact if_neg (by simp [JournalEntry.target?, isInterestedIn])

/-- Once an inode is set, one is. -/
theorem foldl_target (A : List JournalEntry) (c : Pac)
    (h : c.mInodePtr ≠ none ∨ ∃ no page addr, .setAddress no page addr ∈ A) : (A.foldl step c).mInodePtr ≠ none := by
  induction A generalizing c with
  | nil => simpa using h
  | cons e A ih =>
    apply ih
    by_cases haddr : ∃ no page addr, e = .setAddress no page addr
    · obtain ⟨no, page, addr, rfl⟩ := haddr
      rw [step_setAddress]
      exact .inl (by simp)
    have hin : c.mInodePtr ≠ none ∨ ∃ no page addr, .setAddress no page addr ∈ A := by
      refine h.imp_right fun ⟨no, page, addr, hmem⟩ => ⟨no, page, addr, ?_⟩
      exact (List.mem_cons.1 hmem).resolve_left fun he => haddr ⟨no, page, addr, he.symm⟩
    refine hin.imp_left fun hptr => ?_
    have hkeep : (c.step e).mInodePtr = c.mInodePtr := by
      cases hx : e.pagestate? Judging.pac.params with
      | some x =>
        obtain rfl := Judging.pagestate?_eq_some.1 hx
        change (c.step (.pagestate .pac x)).mInodePtr = _
        rw [step_own]
      | none =>
        by_cases hno : ∃ no, e = .update no
        · obtain ⟨no, rfl⟩ := hno
          rw [step_update]
          split <;> rfl
        · rw [step_other c hx (fun no page addr he => haddr ⟨no, page, addr, he⟩) fun no he => hno ⟨no, he⟩]
    rwa [hkeep]

end Pac

/-- What both topics have in common: `armed` is what the next update finds, if none was seen before. -/
structure Listener (t : Judging) where
  State : Type
  start : State
  step : State → JournalEntry → State
  sm : State → PageStateMachine
  seen : State → Bool
  armed : State → Prop
  ready : State → Prop
  machine_eq : ∀ log, t.machine log = sm (log.foldl step start)
  start_sm : sm start = .clear
  start_seen : seen start = false
  start_armed : ¬ armed start
  own : ∀ {s e x}, e.pagestate? t.params = some x → sm (step s e) = ((sm s).processEntry x).2 ∧ seen (step s e) = seen s
  other : ∀ {s e}, e.pagestate? t.params = none → (∀ no, e ≠ .update no) → sm (step s e) = sm s ∧ seen (step s e) = seen s
  ignored : ∀ {s no}, seen s ∨ ¬ armed s → step s (.update no) = s
  taken : ∀ {s no}, seen s = false → armed s → sm (step s (.update no)) = ((sm s).processEntry .success).2 ∧
    seen (step s (.update no))
  arms : ∀ {s e x}, ready s → e.pagestate? t.params = some x → x.replacement? ≠ none →
    (sm s).journalState ≠ .recover → armed (step s e)
  stays : ∀ {s e}, armed s → e.pagestate? t.params = none → (∀ no size, e ≠ .newInodeSize no size) →
    (∀ no, e ≠ .update no) → armed (step s e)
  readies : ∀ {s e}, ready s → ready (step s e)
  quiet : ∀ {s e}, (sm s).journalState = .ok → ¬ armed s → e.pagestate? t.params = none → ¬ armed (step s e)
  target : ∀ A : List JournalEntry, (t = .pac → ∃ inodeNo page addr, .setAddress inodeNo page addr ∈ A) →
    ready (A.foldl step start)

def DataIo.listener : Listener .dataIo where
  State := DataIo
  start := .resetState
  step := DataIo.step
  sm := DataIo.sm
  seen := DataIo.processedForeignSuccessElement
  armed d := d.modifiedInode
  ready _ := True
  machine_eq _ := rfl
  start_sm := rfl
  start_seen := rfl
  start_armed := by simp [resetState]
  own {d e x} h := by
    obtain rfl := Judging.pagestate?_eq_some.1 h
    change (d.step (.pagestate .dataIo x)).sm = _ ∧ (d.step (.pagestate .dataIo x)).processedForeignSuccessElement = _
    rw [step_own]
    exact ⟨rfl, rfl⟩
  other {d e} h hno := by
    by_cases hsize : ∃ no size, e = .newInodeSize no size
    · obtain ⟨no, size, rfl⟩ := hsize
      obtain ⟨d', rfl, hsm, hseen, -⟩ := d.step_newInodeSize no size
      exact ⟨hsm, hseen⟩
    · rw [d.step_other h (fun no size he => hsize ⟨no, size, he⟩) hno]
      exact ⟨rfl, rfl⟩
  ignored {d no} h := by
    rw [step_update, if_neg]
    rcases h with h | h <;> simp [h]
  taken {d no} hs ha := by
    rw [step_update, if_pos (by simp [hs, ha])]
    exact ⟨rfl, rfl⟩
  arms {d e x} _ h _ _ := by
    obtain rfl := Judging.pagestate?_eq_some.1 h
    change (d.step (.pagestate .dataIo x)).modifiedInode = true
    rw [step_own]
  stays {d e} ha h hsize hno := by
    rw [d.step_other h hsize hno]
    exact ha
  readies _ := trivial
  quiet {d e} _ ha h := by
    by_cases hsize : ∃ no size, e = .newInodeSize no size
    · obtain ⟨no, size, rfl⟩ := hsize
      obtain ⟨d', rfl, -, -, harmed⟩ := d.step_newInodeSize no size
      exact fun h => ha (harmed h)
    · by_cases hno : ∃ no, e = .update no
      · obtain ⟨no, rfl⟩ := hno
        rw [step_update, if_neg (by simp [ha])]
        exact ha
      · rw [d.step_other h (fun no size he => hsize ⟨no, size, he⟩) fun no he => hno ⟨no, he⟩]
        exact ha
  target _ _ := trivial

def Pac.listener : Listener .pac where
  State := Pac
  start := .resetState
  step := Pac.step
  sm := Pac.sm
  seen := Pac.processedForeignSuccessElement
  armed c := c.sm.journalState = .invalid ∧ c.mInodePtr ≠ none
  ready c := c.mInodePtr ≠ none
  machine_eq _ := rfl
  start_sm := rfl
  start_seen := rfl
  start_armed := by simp [resetState]
  own {c e x} h := by
    obtain rfl := Judging.pagestate?_eq_some.1 h
    change (c.step (.pagestate .pac x)).sm = _ ∧ (c.step (.pagestate .pac x)).processedForeignSuccessElement = _
    rw [step_own]
    exact ⟨rfl, rfl⟩
  other {c e} h hno := by
    by_cases haddr : ∃ no page addr, e = .setAddress no page addr
    · obtain ⟨no, page, addr, rfl⟩ := haddr
      rw [step_setAddress]
      exact ⟨rfl, rfl⟩
    · rw [c.step_other h (fun no page addr he => haddr ⟨no, page, addr, he⟩) hno]
      exact ⟨rfl, rfl⟩
  ignored {c no} h := by
    rw [step_update, if_neg]
    rintro ⟨hsm, hptr, hseen⟩
    rcases h with h | h
    · simp [hseen] at h
    · exact h ⟨hsm, hptr⟩
  taken {c no} hs ha := by
    rw [step_update, if_pos ⟨ha.1, ha.2, hs⟩]
    exact ⟨rfl, rfl⟩
  arms {c e x} hr h hx hsm := by
    obtain rfl := Judging.pagestate?_eq_some.1 h
    obtain ⟨r, hr'⟩ := Option.ne_none_iff_exists'.1 hx
    have hstate := (PageStateMachine.processEntry_replacement hsm hr').2
    change ((c.step (.pagestate .pac x)).sm.journalState = _ ∧ (c.step (.pagestate .pac x)).mInodePtr ≠ none)
    rw [step_own]
    exact ⟨hstate, hr⟩
  stays {c e} ha h hsize hno := by
    by_cases haddr : ∃ no page addr, e = .setAddress no page addr
    · obtain ⟨no, page, addr, rfl⟩ := haddr
      rw [step_setAddress]
      exact ⟨ha.1, by simp⟩
    · rw [c.step_other h (fun no page addr he => haddr ⟨no, page, addr, he⟩) hno]
      exact ha
  readies {c e} h := Pac.foldl_target [e] c (.inl h)
  quiet {c e} hsm ha h := by
    by_cases haddr : ∃ no page addr, e = .setAddress no page addr
    · obtain ⟨no, page, addr, rfl⟩ := haddr
      rw [step_setAddress]
      simp [hsm]
    · by_cases hno : ∃ no, e = .update no
      · obtain ⟨no, rfl⟩ := hno
        rw [step_update, if_neg (by simp [hsm])]
        exact ha
      · rw [c.step_other h (fun no page addr he => haddr ⟨no, page, addr, he⟩) fun no he => hno ⟨no, he⟩]
        exact ha
  target A h := Pac.foldl_target A .resetState (.inr (h rfl))

/-- Behind `A`, pages are replaced, and no inode is updated yet. -/
structure Collecting (t : Judging) (A B : List JournalEntry) : Prop where
  target : t = .pac → ∃ inodeNo page addr, .setAddress inodeNo page addr ∈ A
  head : ∃ e C, B = e :: C ∧ e.pagestate? t.params ≠ none
  replaces : ∀ e ∈ B, ∀ x, e.pagestate? t.params = some x → x.replacement? ≠ none
  size : ∀ e ∈ B, ∀ inodeNo filesize, e ≠ .newInodeSize inodeNo filesize
  no_update : ∀ e ∈ B, ∀ no, e ≠ .update no

theorem Collecting.collected {t : Judging} {A B : List JournalEntry} (h : Collecting t A B) :
    (PageStateMachine.clear.processAll (B.filterMap (JournalEntry.pagestate? t.params))).list = recorded t.params B ∧
      (PageStateMachine.clear.processAll (B.filterMap (JournalEntry.pagestate? t.params))).journalState = .invalid := by
  have hes : ∀ x ∈ B.filterMap (JournalEntry.pagestate? t.params), x.replacement? ≠ none := by
    intro x hx
    obtain ⟨e, he, hex⟩ := List.mem_filterMap.1 hx
    exact h.replaces e he x hex
  have hne : B.filterMap (JournalEntry.pagestate? t.params) ≠ [] := by
    obtain ⟨e, C, rfl, he⟩ := h.head
    obtain ⟨x, hx⟩ := Option.ne_none_iff_exists'.1 he
    simp [List.filterMap_cons_some hx]
  obtain ⟨hlist, hstate⟩ := @PageStateMachine.processAll_collect .clear _ (by simp [PageStateMachine.clear]) hes
  rw [if_neg hne] at hstate
  exact ⟨by rw [hlist]; rfl, hstate⟩

/-- The own entries of a log, up to the first update of an inode, and the success that this update stands for. -/
structure Judges (t : Judging) : Prop where
  quiet : ∀ A : List JournalEntry, (∀ e ∈ A, e.pagestate? t.params = none) → t.machine A = .clear
  unseen : ∀ A B : List JournalEntry, (∀ e ∈ A, e.pagestate? t.params = none) → Collecting t A B →
    t.machine (A ++ B) = PageStateMachine.clear.processAll (B.filterMap (JournalEntry.pagestate? t.params))
  seen : ∀ (A B C : List JournalEntry) (no : InodeNo), (∀ e ∈ A, e.pagestate? t.params = none) → Collecting t A B →
    t.machine (A ++ B ++ .update no :: C) =
      { PageStateMachine.clear.processAll (B.filterMap (JournalEntry.pagestate? t.params)) with
        journalState := .recover }.processAll (C.filterMap (JournalEntry.pagestate? t.params))

namespace Listener
variable {t : Judging} (l : Listener t)

/-- Once a success element was seen, updates do not count any more. -/
theorem foldl_seen {s : l.State} (hs : l.seen s) (log : List JournalEntry) :
    l.sm (log.foldl l.step s) = (l.sm s).processAll (log.filterMap (JournalEntry.pagestate? t.params)) := by
  induction log generalizing s with
  | nil => rfl
  | cons e log ih =>
    rw [List.foldl_cons]
    cases hx : e.pagestate? t.params with
    | some x =>
      obtain ⟨hsm, hseen⟩ := l.own (s := s) hx
      rw [ih (hseen.trans hs), hsm, List.filterMap_cons_some hx]
      rfl
    | none =>
      rw [List.filterMap_cons_none hx]
      by_cases hno : ∃ no, e = .update no
      · obtain ⟨no, rfl⟩ := hno
        rw [l.ignored (.inl hs)]
        exact ih hs
      · obtain ⟨hsm, hseen⟩ := l.other (s := s) hx fun no he => hno ⟨no, he⟩
        rw [ih (hseen.trans hs), hsm]

/-- Before the first page is replaced nothing happens. -/
theorem foldl_quiet {A : List JournalEntry} (hA : ∀ e ∈ A, e.pagestate? t.params = none) {s : l.State}
    (hsm : l.sm s = .clear) (hs : l.seen s = false) (ha : ¬ l.armed s) :
    l.sm (A.foldl l.step s) = .clear ∧ l.seen (A.foldl l.step s) = false ∧ ¬ l.armed (A.foldl l.step s) := by
  induction A generalizing s with
  | nil => exact ⟨hsm, hs, ha⟩
  | cons e A ih =>
    have hx := hA e (List.mem_cons_self ..)
    have hstate : (l.sm s).journalState = .ok := by rw [hsm]; rfl
    have hnext := l.quiet hstate ha hx
    apply ih fun x hx => hA x (List.mem_cons_of_mem _ hx)
    · by_cases hno : ∃ no, e = .update no
      · obtain ⟨no, rfl⟩ := hno
        rw [l.ignored (.inr ha), hsm]
      · rw [(l.other hx fun no he => hno ⟨no, he⟩).1, hsm]
    · by_cases hno : ∃ no, e = .update no
      · obtain ⟨no, rfl⟩ := hno
        rw [l.ignored (.inr ha), hs]
      · rw [(l.other hx fun no he => hno ⟨no, he⟩).2, hs]
    · exact hnext

/-- While pages are replaced, the next update is waited for. -/
theorem foldl_collecting {B : List JournalEntry}
    (hB : ∀ e ∈ B, ∀ x, e.pagestate? t.params = some x → x.replacement? ≠ none)
    (hsize : ∀ e ∈ B, ∀ no size, e ≠ .newInodeSize no size) (hno : ∀ e ∈ B, ∀ no, e ≠ .update no) {s : l.State}
    (hs : l.seen s = false) (hr : l.ready s) (hst : (l.sm s).journalState ≠ .recover)
    (ha : l.armed s ∨ ∃ e C, B = e :: C ∧ e.pagestate? t.params ≠ none) :
    l.sm (B.foldl l.step s) = (l.sm s).processAll (B.filterMap (JournalEntry.pagestate? t.params)) ∧
      l.seen (B.foldl l.step s) = false ∧ l.armed (B.foldl l.step s) := by
  induction B generalizing s with
  | nil => exact ⟨rfl, hs, ha.resolve_right (by simp)⟩
  | cons e B ih =>
    have hin := List.mem_cons_self (a := e) (l := B)
    have hmore := @ih (fun x hx => hB x (List.mem_cons_of_mem _ hx)) (fun x hx => hsize x (List.mem_cons_of_mem _ hx))
      (fun x hx => hno x (List.mem_cons_of_mem _ hx)) (l.step s e)
    rw [List.foldl_cons]
    cases hx : e.pagestate? t.params with
    | some x =>
      obtain ⟨hsm, hseen⟩ := l.own (s := s) hx
      obtain ⟨r, hr'⟩ := Option.ne_none_iff_exists'.1 (hB e hin x hx)
      have hstate := (PageStateMachine.processEntry_replacement hst hr').2
      have hgo := hmore (hseen.trans hs) (l.readies hr) (by rw [hsm, hstate]; simp)
        (.inl (l.arms hr hx (hB e hin x hx) hst))
      rw [List.filterMap_cons_some hx]
      refine ⟨?_, hgo.2⟩
      rw [hgo.1, hsm]
      rfl
    | none =>
      have harmed : l.armed s := by
        refine ha.resolve_right ?_
        rintro ⟨e', C, heq, hne⟩
        obtain ⟨rfl, rfl⟩ := List.cons.inj heq
        exact hne hx
      obtain ⟨hsm, hseen⟩ := l.other (s := s) hx (hno e hin)
      have hgo := hmore (hseen.trans hs) (l.readies hr) (by rw [hsm]; exact hst)
        (.inl (l.stays harmed hx (hsize e hin) (hno e hin)))
      rw [List.filterMap_cons_none hx]
      refine ⟨?_, hgo.2⟩
      rw [hgo.1, hsm]

theorem judges (l : Listener t) : Judges t where
  quiet A hA := by
    rw [l.machine_eq]
    exact (l.foldl_quiet hA l.start_sm l.start_seen l.start_armed).1
  unseen A B hA hB := by
    obtain ⟨hsm, hseen, -⟩ := l.foldl_quiet hA l.start_sm l.start_seen l.start_armed
    rw [l.machine_eq, List.foldl_append,
      (l.foldl_collecting hB.replaces hB.size hB.no_update hseen (l.target A hB.target) (by simp [hsm, PageStateMachine.clear])
        (.inr hB.head)).1, hsm]
  seen A B C no hA hB := by
    obtain ⟨hsm, hseen, -⟩ := l.foldl_quiet hA l.start_sm l.start_seen l.start_armed
    obtain ⟨hsm', hseen', harmed⟩ := l.foldl_collecting hB.replaces hB.size hB.no_update hseen (l.target A hB.target)
      (by simp [hsm, PageStateMachine.clear]) (.inr hB.head)
    obtain ⟨htaken, hseen''⟩ := @Listener.taken t l _ no hseen' harmed
    rw [l.machine_eq, List.foldl_append, List.foldl_append, List.foldl_cons, l.foldl_seen hseen'', htaken, hsm', hsm]
    simp [PageStateMachine.processEntry, hB.collected.2]

end Listener

theorem Judging.judges (t : Judging) : Judges t := by
  cases t with
  | dataIo => exact DataIo.listener.judges
  | pac => exact Pac.listener.judges

/-! ### Transactions in a row -/

namespace Transaction
variable {t : Judging} (T : Transaction t)

theorem quiet_pagestates {p : Params} {A : List JournalEntry} (hA : ∀ e ∈ A, e.pagestate? p = none) :
    A.filterMap (JournalEntry.pagestate? p) = [] := by
  rw [List.filterMap_eq_nil_iff]
  exact hA

theorem body_pagestates {B : List JournalEntry} (hB : B <+: T.body) :
    ∀ x ∈ B.filterMap (JournalEntry.pagestate? t.params), x.replacement? ≠ none := by
  intro x hx
  obtain ⟨e, he, hex⟩ := List.mem_filterMap.1 hx
  exact T.body_replaces e (hB.subset he) x hex

theorem update_pagestate (t : Judging) (no : InodeNo) : (JournalEntry.update no).pagestate? t.params = none := rfl

theorem log_pagestates : T.log.filterMap (JournalEntry.pagestate? t.params) =
    T.body.filterMap (JournalEntry.pagestate? t.params) ++ if T.Overwrites then [.invalidateOldPages] else [] := by
  rw [log, List.filterMap_append, List.filterMap_append, quiet_pagestates T.opening_quiet,
    List.filterMap_cons_none (update_pagestate t T.no), T.closing_invalidates]
  by_cases h : olds (recorded t.params T.body) = [] <;> simp [Overwrites, h]

theorem first_update (B : List JournalEntry) : (∀ no, .update no ∉ B) ∨
    ∃ C no D, B = C ++ .update no :: D ∧ ∀ no, .update no ∉ C := by
  induction B with
  | nil => exact .inl (by simp)
  | cons e B ih =>
    by_cases he : ∃ no, e = .update no
    · obtain ⟨no, rfl⟩ := he
      exact .inr ⟨[], no, B, rfl, by simp⟩
    have hne : ∀ no, JournalEntry.update no ≠ e := fun no h => he ⟨no, h.symm⟩
    rcases ih with hB | ⟨C, no, D, rfl, hC⟩
    · exact .inl fun no h => (List.mem_cons.1 h).elim (hne no) (hB no)
    · exact .inr ⟨e :: C, no, D, rfl, fun no' h => (List.mem_cons.1 h).elim (hne no') (hC no')⟩

theorem collecting {B : List JournalEntry} (hB : B <+: T.body) (hne : B ≠ []) (hno : ∀ no, .update no ∉ B) :
    Collecting t T.opening B where
  target h := ⟨T.no, T.opening_target h⟩
  head := by
    obtain ⟨e, D, hbody, he⟩ := T.body_head
    rw [hbody] at hB
    obtain ⟨C, rfl, -⟩ := (List.prefix_cons_iff.1 hB).resolve_left hne
    exact ⟨e, C, rfl, he⟩
  replaces e he := T.body_replaces e (hB.subset he)
  size e he := T.body_size e (hB.subset he)
  no_update e he no := fun h => hno no (h ▸ he)

/-- A part of the body that has begun is judged by the first update in it. -/
theorem body_cases {B : List JournalEntry} (hB : B <+: T.body) (hne : B ≠ []) :
    (∀ no, .update no ∉ B) ∧ Collecting t T.opening B ∨
      ∃ C no D, B = C ++ .update no :: D ∧ Collecting t T.opening C := by
  rcases first_update B with hno | ⟨C, no, D, rfl, hno⟩
  · exact .inl ⟨hno, T.collecting hB hne hno⟩
  · refine .inr ⟨C, no, D, rfl, T.collecting ((List.prefix_append _ _).trans hB) ?_ hno⟩
    rintro rfl
    -- the body begins with a page, not with an update
    obtain ⟨e, D', hbody, he⟩ := T.body_head
    rw [hbody, List.nil_append, List.cons_prefix_cons] at hB
    exact he (hB.1 ▸ rfl)

/-- The first transaction of a log is recovered, whatever was updated. -/
theorem machine_first : ∃ sm : PageStateMachine, sm.journalState = .recover ∧ ∀ K,
    t.machine (T.opening ++ T.body ++ .update T.no :: K) = sm.processAll (K.filterMap (JournalEntry.pagestate? t.params)) := by
  obtain ⟨e, B, hbody, -⟩ := T.body_head
  rcases T.body_cases (List.prefix_refl _) (by simp [hbody]) with ⟨-, hcol⟩ | ⟨C, no, D, heq, hcol⟩
  · refine ⟨_, ?_, fun K => t.judges.seen _ _ K T.no T.opening_quiet hcol⟩
    rfl
  · refine ⟨{ PageStateMachine.clear.processAll (C.filterMap (JournalEntry.pagestate? t.params)) with
      journalState := .recover }, rfl, fun K => ?_⟩
    have hD : ∀ x ∈ D.filterMap (JournalEntry.pagestate? t.params), x.replacement? ≠ none := by
      intro x hx
      refine T.body_pagestates (List.prefix_refl _) x ?_
      rw [heq, List.filterMap_append]
      exact List.mem_append_right _ hx
    have hlog : T.opening ++ T.body ++ .update T.no :: K = T.opening ++ C ++ .update no :: (D ++ .update T.no :: K) := by
      simp [heq]
    rw [hlog, t.judges.seen _ _ _ no T.opening_quiet hcol, List.filterMap_append,
      List.filterMap_cons_none (update_pagestate t T.no), PageStateMachine.processAll_append,
      PageStateMachine.processAll_recover rfl hD]

/-- What is cut off the closing part may be the last own entry. -/
theorem closing_cases {K : List JournalEntry} (hK : K <+: T.closing) :
    K.filterMap (JournalEntry.pagestate? t.params) = [] ∨
      K.filterMap (JournalEntry.pagestate? t.params) = [.invalidateOldPages] := by
  have h := hK.filterMap (JournalEntry.pagestate? t.params)
  rw [T.closing_invalidates] at h
  split at h
  · exact .inl (List.prefix_nil.1 h)
  · rcases List.prefix_cons_iff.1 h with h | ⟨K', h, h'⟩
    · exact .inl h
    · rw [h, List.prefix_nil.1 h']
      exact .inr rfl

/-- Where a transaction is cut. -/
theorem cut_cases {U : List JournalEntry} (hU : U <+: T.log) :
    (¬ T.Finished U ∧ U <+: T.opening) ∨ (¬ T.Finished U ∧ ∃ B, U = T.opening ++ B ∧ B ≠ [] ∧ B <+: T.body) ∨
      T.Finished U ∧ ∃ K, U = T.opening ++ T.body ++ .update T.no :: K ∧ K <+: T.closing := by
  have hlong : T.Finished U → (T.opening ++ T.body).length < U.length := by
    intro h
    have hlen := h.length_le
    simp only [List.length_append, List.length_singleton] at hlen ⊢
    omega
  rw [log, List.append_assoc] at hU
  rcases Writes.prefix_append_cases hU with hA | ⟨Q, rfl, hQ⟩
  · refine .inl ⟨fun h => ?_, hA⟩
    have hlen := hlong h
    have hle := hA.length_le
    simp only [List.length_append] at hlen
    omega
  have hcases : Q <+: T.body ∨ ∃ K, Q = T.body ++ .update T.no :: K ∧ K <+: T.closing := by
    rcases Writes.prefix_append_cases hQ with hB | ⟨K, rfl, hK⟩
    · exact .inl hB
    rcases List.prefix_cons_iff.1 hK with rfl | ⟨K', rfl, hK'⟩
    · exact .inl (by rw [List.append_nil])
    · exact .inr ⟨K', rfl, hK'⟩
  rcases hcases with hB | ⟨K, rfl, hK⟩
  · have hun : ¬ T.Finished (T.opening ++ Q) := by
      intro h
      have hlen := hlong h
      have hle := hB.length_le
      simp only [List.length_append] at hlen
      omega
    by_cases hne : Q = []
    · rw [hne, List.append_nil] at hun ⊢
      exact .inl ⟨hun, List.prefix_refl _⟩
    · exact .inr (.inl ⟨hun, Q, rfl, hne, hB⟩)
  · exact .inr (.inr ⟨⟨K, by simp⟩, K, by simp, hK⟩)

end Transaction

/-! ### The state machine after complete transactions -/

/-- After the first transaction: still in it, or done with one that overwrote a page, or beyond that one. -/
inductive Phase where
  | recovering | settled | stuck
  deriving DecidableEq, Repr

namespace Phase

def next : Phase → Bool → Phase
  | recovering, false => recovering
  | recovering, true => settled
  | settled, _ | stuck, _ => stuck

def Holds : Phase → PageStateMachine → Prop
  | recovering, sm => sm.journalState = .recover
  | settled, sm => sm = .clear
  | stuck, sm => sm.journalState = .invalid ∧ sm.list ≠ []

/-- The phase behind transactions of which some overwrote pages. -/
def after (overwrites : List Bool) : Phase := overwrites.foldl next recovering

theorem after_concat (bs : List Bool) (b : Bool) : after (bs ++ [b]) = (after bs).next b := by
  simp [after]

theorem after_eq_recovering {bs : List Bool} : after bs = recovering ↔ true ∉ bs := by
  induction bs using List.reverseRecOn with
  | nil => simp [after]
  | append_singleton bs b ih =>
    rw [after_concat, List.mem_append, not_or, ← ih]
    cases h : after bs <;> cases b <;> simp [next]

theorem after_concat_cases (bs : List Bool) (b : Bool) : after (bs ++ [b]) =
    if true ∈ bs then stuck else if b then settled else recovering := by
  rw [after_concat]
  by_cases h : true ∈ bs
  · have hne : after bs ≠ recovering := fun he => after_eq_recovering.1 he h
    rw [if_pos h]
    cases hph : after bs <;> simp_all [next]
  · rw [if_neg h, after_eq_recovering.2 h]
    cases b <;> rfl

end Phase

section Undone
variable {sm : PageStateMachine} {es ks : List Pagestate}

/-- `InvalidateOldPages` is refused, unless a transaction is being recovered. -/
theorem processAll_refused (hsm : sm.journalState ≠ .recover) (hks : ks = [] ∨ ks = [.invalidateOldPages]) :
    sm.processAll ks = sm := by
  rcases hks with rfl | rfl
  · rfl
  · change (sm.processEntry .invalidateOldPages).2 = sm
    cases h : sm.journalState <;> simp_all [PageStateMachine.processEntry]

theorem undone_recovering (hsm : sm.journalState = .recover) (hes : ∀ x ∈ es, x.replacement? ≠ none)
    (hks : ks = [] ∨ ks = [.invalidateOldPages]) : (sm.processAll (es ++ ks)).undone = [] := by
  rw [PageStateMachine.processAll_append, PageStateMachine.processAll_recover hsm hes]
  rcases hks with rfl | rfl
  · simp [PageStateMachine.processAll, PageStateMachine.undone, hsm]
  · simp [PageStateMachine.processAll, PageStateMachine.processEntry, PageStateMachine.undone, hsm, PageStateMachine.clear]

theorem undone_collecting (hsm : sm.journalState ≠ .recover) (hnew : sm.journalState = .ok → sm.list = [])
    (hes : ∀ x ∈ es, x.replacement? ≠ none) (hks : ks = [] ∨ ks = [.invalidateOldPages]) :
    (sm.processAll (es ++ ks)).undone = sm.list ++ es.filterMap Pagestate.replacement? := by
  obtain ⟨hlist, hstate⟩ := PageStateMachine.processAll_collect hsm hes
  have hne : (sm.processAll es).journalState ≠ .recover := by
    rw [hstate]
    split
    · exact hsm
    · simp
  rw [PageStateMachine.processAll_append, processAll_refused hne hks, PageStateMachine.undone, hlist, hstate]
  by_cases hnil : es = []
  · cases h : sm.journalState <;> simp_all
  · simp [hnil]

end Undone

namespace Phase
variable {t : Judging} {ph : Phase} {sm : PageStateMachine}

theorem next_holds (h : ph.Holds sm) (T : Transaction t) :
    (ph.next T.Overwrites).Holds (sm.processAll (T.log.filterMap (JournalEntry.pagestate? t.params))) := by
  have hes := T.body_pagestates (List.prefix_refl _)
  have hne : T.body.filterMap (JournalEntry.pagestate? t.params) ≠ [] := by
    obtain ⟨e, C, hbody, he⟩ := T.body_head
    obtain ⟨x, hx⟩ := Option.ne_none_iff_exists'.1 he
    simp [hbody, List.filterMap_cons_some hx]
  have hks : (if T.Overwrites then [Pagestate.invalidateOldPages] else []) = [] ∨
      (if T.Overwrites then [Pagestate.invalidateOldPages] else []) = [.invalidateOldPages] := by
    split <;> simp
  rw [T.log_pagestates, PageStateMachine.processAll_append]
  cases ph with
  | recovering =>
    rw [PageStateMachine.processAll_recover h hes]
    change sm.journalState = .recover at h
    by_cases how : T.Overwrites
    · simp [how, next, Holds, PageStateMachine.processAll, PageStateMachine.processEntry, h]
    · simp [how, next, Holds, PageStateMachine.processAll, h]
  | settled =>
    obtain rfl : sm = .clear := h
    obtain ⟨hlist, hstate⟩ := @PageStateMachine.processAll_collect .clear _ (by simp [PageStateMachine.clear]) hes
    rw [if_neg hne] at hstate
    rw [processAll_refused (by simp [hstate]) hks]
    refine ⟨hstate, ?_⟩
    obtain ⟨x, xs, hx⟩ := List.exists_cons_of_ne_nil hne
    obtain ⟨r, hr⟩ := Option.ne_none_iff_exists'.1 (hes x (by simp [hx]))
    rw [hlist, hx, List.filterMap_cons_some hr]
    simp
  | stuck =>
    obtain ⟨hsm, hl⟩ : sm.journalState = .invalid ∧ sm.list ≠ [] := h
    obtain ⟨hlist, hstate⟩ := @PageStateMachine.processAll_collect sm _ (by simp [hsm]) hes
    rw [if_neg hne] at hstate
    rw [processAll_refused (by simp [hstate]) hks]
    exact ⟨hstate, by simp [hlist, hl]⟩

/-- Complete transactions, one after the other. -/
theorem foldl_holds (h : ph.Holds sm) (Ts : List (Transaction t)) :
    ((Ts.map fun T => decide T.Overwrites).foldl next ph).Holds
      (sm.processAll ((Ts.map Transaction.log).flatten.filterMap (JournalEntry.pagestate? t.params))) := by
  induction Ts generalizing ph sm with
  | nil => exact h
  | cons T Ts ih =>
    rw [List.map_cons, List.map_cons, List.flatten_cons, List.filterMap_append, PageStateMachine.processAll_append]
    exact ih (next_holds h T)

end Phase

namespace Transaction
variable {t : Judging} (T : Transaction t)

theorem cut_pagestates {U : List JournalEntry} (hU : U <+: T.log) : ∃ es ks,
    U.filterMap (JournalEntry.pagestate? t.params) = es ++ ks ∧ (∀ x ∈ es, x.replacement? ≠ none) ∧
      (ks = [] ∨ ks = [.invalidateOldPages]) ∧ recorded t.params U = es.filterMap Pagestate.replacement? := by
  have hrec : ∀ es ks, U.filterMap (JournalEntry.pagestate? t.params) = es ++ ks →
      (ks = [] ∨ ks = [.invalidateOldPages]) → recorded t.params U = es.filterMap Pagestate.replacement? := by
    rintro es ks h (rfl | rfl)
    · rw [recorded, h, List.append_nil]
    · rw [recorded, h, List.filterMap_append]
      simp [Pagestate.replacement?]
  suffices h : ∃ es ks, U.filterMap (JournalEntry.pagestate? t.params) = es ++ ks ∧
      (∀ x ∈ es, x.replacement? ≠ none) ∧ (ks = [] ∨ ks = [.invalidateOldPages]) by
    obtain ⟨es, ks, h, hes, hks⟩ := h
    exact ⟨es, ks, h, hes, hks, hrec es ks h hks⟩
  rcases T.cut_cases hU with ⟨-, hA⟩ | ⟨-, B, rfl, -, hB⟩ | ⟨-, K, rfl, hK⟩
  · refine ⟨[], [], ?_, by simp, .inl rfl⟩
    rw [quiet_pagestates fun e he => T.opening_quiet e (hA.subset he)]
    rfl
  · refine ⟨_, [], ?_, T.body_pagestates hB, .inl rfl⟩
    rw [List.filterMap_append, quiet_pagestates T.opening_quiet, List.nil_append, List.append_nil]
  · refine ⟨_, _, ?_, T.body_pagestates (List.prefix_refl _), T.closing_cases hK⟩
    rw [List.filterMap_append, List.filterMap_append, quiet_pagestates T.opening_quiet,
      List.filterMap_cons_none (update_pagestate t T.no), List.nil_append]

/-- The first transaction of a log, cut anywhere. -/
theorem undone_first {U : List JournalEntry} (hU : U <+: T.log) :
    t.reverted U = (if T.Finished U then [] else recorded t.params U) ↔
      (T.Finished U ∨ recorded t.params U = [] ∨ ∀ no, .update no ∉ U.drop T.opening.length) := by
  rcases T.cut_cases hU with ⟨hun, hA⟩ | ⟨hun, B, rfl, hne, hB⟩ | ⟨hfin, K, rfl, hK⟩
  · have hquiet : ∀ e ∈ U, e.pagestate? t.params = none := fun e he => T.opening_quiet e (hA.subset he)
    have hrec : recorded t.params U = [] := by rw [recorded, quiet_pagestates hquiet]; rfl
    rw [Judging.reverted, t.judges.quiet U hquiet, hrec]
    simp [PageStateMachine.undone, PageStateMachine.clear]
  · have hrec : recorded t.params (T.opening ++ B) = recorded t.params B := by
      rw [recorded, List.filterMap_append, quiet_pagestates T.opening_quiet, List.nil_append, recorded]
    rw [if_neg hun, Judging.reverted, List.drop_left, PageStateMachine.undone]
    rcases T.body_cases hB hne with ⟨hno, hcol⟩ | ⟨C, no, D, rfl, hcol⟩
    · rw [t.judges.unseen _ _ T.opening_quiet hcol, hcol.collected.2, if_pos rfl, hcol.collected.1, hrec]
      exact iff_of_true rfl (.inr (.inr hno))
    · have hD : ∀ x ∈ D.filterMap (JournalEntry.pagestate? t.params), x.replacement? ≠ none := by
        intro x hx
        refine T.body_pagestates hB x ?_
        rw [List.filterMap_append]
        exact List.mem_append_right _ hx
      have hsome : recorded t.params (T.opening ++ (C ++ .update no :: D)) ≠ [] := by
        obtain ⟨e, C', rfl, he⟩ := hcol.head
        obtain ⟨x, hx⟩ := Option.ne_none_iff_exists'.1 he
        obtain ⟨r, hr⟩ := Option.ne_none_iff_exists'.1 (hcol.replaces e (List.mem_cons_self ..) x hx)
        rw [hrec, recorded, List.cons_append, List.filterMap_cons_some hx, List.filterMap_cons_some hr]
        simp
      rw [← List.append_assoc, t.judges.seen _ _ _ no T.opening_quiet hcol, PageStateMachine.processAll_recover rfl hD,
        if_neg (by simp), List.append_assoc]
      refine iff_of_false hsome.symm ?_
      rintro (h | h | h)
      · exact hun h
      · exact hsome h
      · exact h no (by simp)
  · obtain ⟨sm, hsm, hmachine⟩ := T.machine_first
    rw [if_pos hfin, Judging.reverted, hmachine]
    refine iff_of_true ?_ (.inl hfin)
    exact @undone_recovering _ [] _ hsm (by simp) (T.closing_cases hK)

/-- The state machine behind complete transactions. -/
theorem machine_complete (X : Transaction t) (Ts : List (Transaction t)) : ∃ sm,
    (Phase.after ((X :: Ts).map fun T => decide T.Overwrites)).Holds sm ∧
      ∀ U, t.machine (((X :: Ts).map Transaction.log).flatten ++ U) =
        sm.processAll (U.filterMap (JournalEntry.pagestate? t.params)) := by
  obtain ⟨sm, hsm, hmachine⟩ := X.machine_first
  have hfirst : (Phase.recovering.next X.Overwrites).Holds
      (sm.processAll (X.closing.filterMap (JournalEntry.pagestate? t.params))) := by
    rw [X.closing_invalidates]
    change sm.journalState = .recover at hsm
    by_cases h : olds (recorded t.params X.body) = []
    · simp [Overwrites, h, Phase.next, Phase.Holds, PageStateMachine.processAll, hsm]
    · simp [Overwrites, h, Phase.next, Phase.Holds, PageStateMachine.processAll, PageStateMachine.processEntry, hsm]
  refine ⟨_, Phase.foldl_holds hfirst Ts, fun U => ?_⟩
  have hlog : ((X :: Ts).map Transaction.log).flatten ++ U =
      X.opening ++ X.body ++ .update X.no :: (X.closing ++ ((Ts.map Transaction.log).flatten ++ U)) := by
    simp [log]
  rw [hlog, hmachine, List.filterMap_append, List.filterMap_append, PageStateMachine.processAll_append,
    PageStateMachine.processAll_append]

theorem recorded_of_finished {U : List JournalEntry} (h : T.Finished U) : recorded t.params U ≠ [] := by
  obtain ⟨e, C, hbody, he⟩ := T.body_head
  obtain ⟨x, hx⟩ := Option.ne_none_iff_exists'.1 he
  obtain ⟨r, hr⟩ := Option.ne_none_iff_exists'.1 (T.body_replaces e (by simp [hbody]) x hx)
  obtain ⟨K, rfl⟩ := h
  rw [recorded, hbody, List.append_assoc, List.append_assoc, List.filterMap_append, quiet_pagestates T.opening_quiet,
    List.nil_append, List.cons_append, List.filterMap_cons_some hx, List.filterMap_cons_some hr]
  simp

/-- Each transaction is judged by its own success element only as long as no finished one but the last has
overwritten a page; and an unfinished one behind a finished one only if that one has. -/
theorem reverted_iff (Ts : List (Transaction t)) (last : Transaction t) {U : List JournalEntry} (hU : U <+: last.log) :
    t.reverted ((Ts.map Transaction.log).flatten ++ U) = (if last.Finished U then [] else recorded t.params U) ↔
      if last.Finished U then ∀ T ∈ Ts, ¬ T.Overwrites
      else (∀ T ∈ Ts.dropLast, ¬ T.Overwrites) ∧
        (recorded t.params U = [] ∨ (Ts = [] ∧ ∀ no, .update no ∉ U.drop last.opening.length) ∨
          ∃ T, Ts.getLast? = some T ∧ T.Overwrites) := by
  cases Ts with
  | nil =>
    rw [List.map_nil, List.flatten_nil, List.nil_append, last.undone_first hU]
    by_cases hfin : last.Finished U <;> simp [hfin]
  | cons X Ts =>
    obtain ⟨sm, hholds, hmachine⟩ := machine_complete X Ts
    obtain ⟨es, ks, hown, hes, hks, hrec⟩ := last.cut_pagestates hU
    have hfin : last.Finished U → recorded t.params U ≠ [] := last.recorded_of_finished
    rw [Judging.reverted, hmachine, hown]
    obtain ⟨init, L, hTs⟩ := (List.eq_nil_or_concat (X :: Ts)).resolve_left (by simp)
    rw [List.concat_eq_append] at hTs
    rw [hTs] at hholds ⊢
    rw [List.map_append, List.map_singleton, Phase.after_concat_cases] at hholds
    have hstuck : true ∈ init.map (fun T => decide T.Overwrites) ↔ ¬ ∀ T ∈ init, ¬ T.Overwrites := by simp
    rw [List.dropLast_concat, List.getLast?_concat]
    split at hholds
    · -- a finished transaction behind one that has overwritten a page is taken back
      next hover =>
      have hun : (sm.processAll (es ++ ks)).undone = sm.list ++ recorded t.params U := by
        rw [hrec]
        exact undone_collecting (by simp [hholds.1]) (by simp [hholds.1]) hes hks
      have hl := hholds.2
      rw [hstuck] at hover
      rw [hun]
      refine iff_of_false ?_ ?_
      · split <;> simp [hl]
      · split
        · exact fun h => hover fun T hT => h T (List.mem_append_left _ hT)
        · exact fun h => hover h.1
    next hover =>
    rw [hstuck, not_not] at hover
    split at hholds
    · next hlast =>
      have hun : (sm.processAll (es ++ ks)).undone = recorded t.params U := by
        obtain rfl : sm = .clear := hholds
        rw [hrec]
        exact undone_collecting (by simp [PageStateMachine.clear]) (fun _ => rfl) hes hks
      have how : L.Overwrites := by simpa using hlast
      rw [hun]
      split
      · next h => exact iff_of_false (hfin h) fun h => h L (by simp) how
      · exact iff_of_true rfl ⟨hover, .inr (.inr ⟨L, rfl, how⟩)⟩
    · next hlast =>
      have how : ¬ L.Overwrites := by simpa using hlast
      rw [undone_recovering hholds hes hks]
      split
      · refine iff_of_true rfl fun T hT => ?_
        rcases List.mem_append.1 hT with hT | hT
        · exact hover T hT
        · obtain rfl := List.mem_singleton.1 hT
          exact how
      · refine ⟨fun h => ⟨hover, .inl h.symm⟩, ?_⟩
        rintro ⟨-, h | ⟨h, -⟩ | ⟨T, hT, hT'⟩⟩
        · exact h.symm
        · simp at h
        · obtain rfl := Option.some.inj hT
          exact (how hT').elim

/-- The end of the log gives back the new pages of what is undone, and of nothing else. -/
theorem signalEndOfLog_undone {p : Params} (w : World) {a : Addr} (ha : a ∉ olds w.sm.list) :
    (w.signalEndOfLog p).2.statuses a = Writes.mark .dirty (news w.sm.undone) w.statuses a := by
  cases h : w.sm.journalState with
  | ok => simp [World.signalEndOfLog_ok h, PageStateMachine.undone, h, World.clear]
  | invalid => simp [World.signalEndOfLog_invalid h, PageStateMachine.undone, h]
  | recover => simp [World.signalEndOfLog_recover h, PageStateMachine.undone, h, Writes.mark, ha]

/-! One page is written; `old` may be 0. -/

def writePage (no : InodeNo) (neu old : Addr) : Transaction .dataIo where
  no := no
  opening := []
  body := [.pagestate .dataIo (.replacePagePos neu old no 0), .setStatus neu .used]
  closing := if old = 0 then [] else [.setStatus old .dirty, .pagestate .dataIo .invalidateOldPages]
  opening_quiet := by simp
  opening_target := by simp
  body_head := ⟨_, _, rfl, by simp [JournalEntry.pagestate?, Judging.params]⟩
  body_replaces := by simp [JournalEntry.pagestate?, Judging.params, Pagestate.replacement?]
  body_size := by simp
  body_unfinished := by simp
  closing_invalidates := by
    by_cases h : old = 0 <;>
      simp [h, JournalEntry.pagestate?, Judging.params, Pagestate.replacement?, recorded, olds, pages, List.filterMap_cons]
  uncheckpointed := by
    by_cases h : old = 0 <;> simp [h]

/-- Another inode is updated between the two pages. -/
def writeTwo : Transaction .dataIo where
  no := 2
  opening := []
  body := [.pagestate .dataIo (.replacePagePos 11 0 2 0), .update 7, .pagestate .dataIo (.replacePagePos 12 0 2 1)]
  closing := []
  opening_quiet := by simp
  opening_target := by simp
  body_head := ⟨_, _, rfl, by simp [JournalEntry.pagestate?, Judging.params]⟩
  body_replaces := by simp [JournalEntry.pagestate?, Judging.params, Pagestate.replacement?]
  body_size := by simp
  body_unfinished := by decide
  closing_invalidates := by decide
  uncheckpointed := by decide

theorem reverted_iff_written : Judging.dataIo.reverted ((writePage 1 10 5).log ++ (writePage 2 11 6).log.take 2) = [⟨11, 6, 2, 0⟩] :=
  (reverted_iff [writePage 1 10 5] (writePage 2 11 6) (U := (writePage 2 11 6).log.take 2) (List.take_prefix _ _)).2 (by decide)

/-- A second write is taken back though it is finished; an unfinished one behind an appending one is kept, and
so is one after whose first page another inode was updated. -/
theorem reverted_fails :
    Judging.dataIo.reverted ((writePage 1 10 5).log ++ (writePage 1 11 10).log) = [⟨11, 10, 1, 0⟩] ∧
      (writePage 1 11 10).Finished (writePage 1 11 10).log ∧
    Judging.dataIo.reverted ((writePage 1 10 0).log ++ (writePage 2 11 6).log.take 2) = [] ∧
      ¬ (writePage 2 11 6).Finished ((writePage 2 11 6).log.take 2) ∧
    Judging.dataIo.reverted (writeTwo.log.take 2) = [] ∧ ¬ writeTwo.Finished (writeTwo.log.take 2) := by
  decide

end Transaction

end Paffs.Journal
