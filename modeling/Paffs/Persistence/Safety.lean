import Paffs.Persistence.Raw
import Paffs.Persistence.RoundTrip

/-! Which logs can be replayed without leaving the arrays of the journal. -/
namespace Paffs.Persistence.Raw
open Bytes Bytes.Memory Enumeration
variable {c : MramConfig} {d : Driver c} {W : Type}

namespace Use

def index : Use → Nat
  | .position t | .compare t | .call t => t

end Use

/-- Every use is inside the array and of a registered topic, or the last one shows that there is no topic and the replay
stops with an error. -/
def SafeUses (r : Result) (uses : List Use) : Prop :=
  (∀ u ∈ uses, isRegistered u.index) ∨
    r ≠ .ok ∧ ∃ before t, uses = before ++ [.compare t] ∧ t < numberOfTopics ∧ ∀ u ∈ before, isRegistered u.index

/-- The replay comes to an end. -/
def Safe (workers : Workers W) (s : System d W) : Prop :=
  ∃ scans applies r s', s.processBuffer workers scans applies = .done (r, s') ∧ SafeUses r s'.uses

/-! ### What the log has to be -/

/-- From `curr` on the entries come to an end that is seen with `r`, and each checkpoint on the way is one of a registered
topic. -/
inductive Scannable (d : Driver c) (m : d.State) : Nat → Memory → Result → Prop where
  | stop {curr entry r} : readNextElem d m curr entry = .error r → Scannable d m curr entry r
  | element {curr entry e curr' r} : readNextElem d m curr entry = .ok (e, curr') →
      (topic e = checkpoint → isRegistered (target e)) → Scannable d m curr' e r → Scannable d m curr entry r

/-- From `curr` on each page state is one of a registered topic, up to the end of the entries or up to a page state that is
refused. -/
inductive Applicable (d : Driver c) (m : d.State) : Nat → Prop where
  | stop {curr r} : readNextElem d m curr cleared = .error r → Applicable d m curr
  | refused {curr e curr'} : readNextElem d m curr cleared = .ok (e, curr') → topic e = pagestate → ¬ isRegistered (target e) →
      target e ≠ pagestate → target e ≠ numberOfTopics → Applicable d m curr
  | element {curr e curr'} : readNextElem d m curr cleared = .ok (e, curr') →
      (topic e = pagestate → isRegistered (target e)) → Applicable d m curr' → Applicable d m curr

def Replayable (d : Driver c) (m : d.State) : Prop :=
  ∃ r, Scannable d m MramPersistence.sizeofPageAbs cleared r ∧
    (r = .notFound → Applicable d m MramPersistence.sizeofPageAbs)

/-! ### Topics -/

theorem isRegistered_lt {t : Nat} (h : isRegistered t) : t < numberOfTopics := by
  by_contra hnot
  rw [isRegistered, List.getElem?_eq_none (Nat.le_of_not_lt hnot)] at h
  exact absurd h (by decide)

theorem isRegistered_of_lt {t : Nat} (hpos : 0 < t) (hlt : t < numberOfTopics) (hcheck : t ≠ checkpoint) (hpage : t ≠ pagestate) :
    isRegistered t := by
  have hall : ∀ t < numberOfTopics, 0 < t → t ≠ checkpoint → t ≠ pagestate → isRegistered t := by decide
  exact hall t hlt hpos hcheck hpage

/-- An entry whose size is known. -/
def Known (entry : Memory) : Prop := 0 < topic entry ∧ topic entry < numberOfTopics

theorem known_of_size {n : Nat} {entry : Memory} (h : getSizeFromJE n entry ≠ 0) : Known entry := by
  have hrun := nextCode_run Topic entry 0
  rw [show alignUp 0 1 = 0 from rfl] at hrun
  cases hcode : Enumeration.ofCode Topic (entry.readWord 0 1) with
  | none =>
    rw [hcode] at hrun
    refine absurd ?_ h
    simp [getSizeFromJE, hrun]
  | some t =>
    obtain ⟨hlt, hget⟩ := List.getElem?_eq_some_iff.mp hcode
    refine ⟨Nat.pos_of_ne_zero fun hzero => h ?_, hlt⟩
    have ht : t = .invalid := by
      rw [← hget]
      unfold topic at hzero
      simp only [hzero]
      rfl
    rw [hcode, ht] at hrun
    simp [getSizeFromJE, hrun]

theorem known_of_read {m : d.State} {curr curr' : Nat} {entry e : Memory} (h : readNextElem d m curr entry = .ok (e, curr')) :
    Known e := by
  unfold readNextElem at h
  split at h
  · cases h
  · dsimp only at h
    split at h
    · cases h
    · rename_i hsize
      cases h
      exact known_of_size hsize

theorem read_error {m : d.State} {curr : Nat} {entry : Memory} {r : Result} (h : readNextElem d m curr entry = .error r) :
    r = .notFound ∨ r = .fail := by
  unfold readNextElem at h
  split at h
  · exact .inl (Except.error.inj h).symm
  · dsimp only at h
    split at h
    · exact .inr (Except.error.inj h).symm
    · cases h

/-! ### Callbacks -/

namespace System
variable (workers : Workers W) {s : System d W}

/-- While the journal is disabled a callback changes its own state only. -/
theorem call_disabled (x : Calls W) (h : s.disabled) : ∃ w, call x s = { s with world := w } := by
  induction x with
  | done world => exact ⟨world, rfl⟩
  | addEvent entry next ih =>
    have hskip : s.addEvent entry = (.ok, s) := if_pos (.inl h)
    rw [call, hskip]
    exact ih .ok

/-- So does a loop over the topics. -/
theorem foldl_disabled {f : System d W → Nat → System d W} (hf : ∀ s t, s.disabled → ∃ w, f s t = { s with world := w })
    (h : s.disabled) (ts : List Nat) : ∃ w, ts.foldl f s = { s with world := w } := by
  induction ts generalizing s with
  | nil => exact ⟨s.world, rfl⟩
  | cons t ts ih =>
    obtain ⟨w, hw⟩ := hf s t h
    rw [List.foldl_cons, hw]
    exact ih h

theorem preScan_disabled (entry : Memory) (h : s.disabled) : ∃ w, preScan workers entry s = { s with world := w } := by
  refine foldl_disabled (fun s t hs => ?_) h _
  split
  · exact call_disabled _ hs
  · exact ⟨s.world, rfl⟩

theorem addEvent_uses (entry : Memory) : (s.addEvent entry).2.uses = s.uses := by
  unfold addEvent
  split
  · rfl
  · split
    · dsimp only
      split
      · rfl
      · unfold appendEntry
        split <;> rfl
    · rfl

theorem call_uses (x : Calls W) : (call x s).uses = s.uses := by
  induction x generalizing s with
  | done world => rfl
  | addEvent entry next ih =>
    rw [call]
    exact (ih _).trans (addEvent_uses entry)

/-! ### The first pass -/

def scanUses (entry : Memory) : List Use :=
  if topic entry = checkpoint then [.position (target entry)]
  else if topic entry = pagestate then []
  else [.compare (topic entry)]

/-- One element: only the target of a checkpoint can lead out of the array. -/
theorem preScanElem_eq (first : Positions) {entry : Memory} (hknown : Known entry) (h : s.disabled) :
    if topic entry = checkpoint ∧ numberOfTopics ≤ target entry then preScanElem workers entry s first = .undefined
    else ∃ w first', preScanElem workers entry s first = .done (.ok, { s with world := w, uses := s.uses ++ scanUses entry }, first') := by
  unfold preScanElem scanUses
  by_cases hcheck : topic entry = checkpoint
  · by_cases htarget : target entry < numberOfTopics
    · rw [if_neg (fun hand => Nat.not_le.mpr htarget hand.2)]
      simp only [if_pos hcheck, if_pos htarget]
      exact ⟨_, _, rfl⟩
    · rw [if_pos ⟨hcheck, Nat.le_of_not_lt htarget⟩]
      simp only [if_pos hcheck, if_neg htarget]
  · rw [if_neg (fun hand => hcheck hand.1)]
    simp only [if_neg hcheck]
    by_cases hpage : topic entry = pagestate
    · simp only [if_pos hpage, List.append_nil]
      exact ⟨_, _, rfl⟩
    · have hreg := isRegistered_of_lt hknown.1 hknown.2 hcheck hpage
      obtain ⟨w, hw⟩ := preScan_disabled workers entry (s := s.use (.compare (topic entry))) h
      have hvalid : s.isTopicValid (topic entry) = .done (true, s.use (.compare (topic entry))) := by
        unfold isTopicValid
        rw [if_pos ⟨hknown.1, hknown.2.le⟩, if_neg hpage, if_pos hknown.2, hreg]
      simp only [if_neg hpage, hvalid, Outcome.bind, if_true, hw]
      exact ⟨_, _, rfl⟩

theorem preScanElem_of_target (first : Positions) {entry : Memory} (hknown : Known entry) (h : s.disabled)
    (htarget : topic entry = checkpoint → isRegistered (target entry)) :
    ∃ w first', preScanElem workers entry s first = .done (.ok, { s with world := w, uses := s.uses ++ scanUses entry }, first') := by
  have helem := preScanElem_eq workers first hknown h
  rwa [if_neg fun hand => Nat.not_le.mpr (isRegistered_lt (htarget hand.1)) hand.2] at helem

theorem registered_scanUses {entry : Memory} (hknown : Known entry) (htarget : topic entry = checkpoint → isRegistered (target entry)) :
    ∀ u ∈ scanUses entry, isRegistered u.index := by
  intro u hu
  unfold scanUses at hu
  split at hu
  · rename_i hcheck
    rw [List.mem_singleton.mp hu]
    exact htarget hcheck
  · rename_i hcheck
    split at hu
    · cases hu
    · rename_i hpage
      rw [List.mem_singleton.mp hu]
      exact isRegistered_of_lt hknown.1 hknown.2 hcheck hpage

theorem preScanLoop_error {e : Memory} {first first' : Positions} {s' : System d W} {r : Result} (fuel : Nat)
    (helem : preScanElem workers e s first = .done (.ok, s', first')) (hread : readNextElem d s'.mram s'.curr e = .error r) :
    preScanLoop workers (fuel + 1) s e first = .done (if r = .notFound then .ok else r, s', first') := by
  rw [preScanLoop, helem]
  simp only [Outcome.bind, ne_eq, not_true_eq_false, if_false, hread]
  cases r <;> rfl

theorem preScanLoop_ok {e e' : Memory} {first first' : Positions} {s' : System d W} {curr' : Nat} (fuel : Nat)
    (helem : preScanElem workers e s first = .done (.ok, s', first')) (hread : readNextElem d s'.mram s'.curr e = .ok (e', curr')) :
    preScanLoop workers (fuel + 1) s e first = preScanLoop workers fuel { s' with curr := curr' } e' first' := by
  rw [preScanLoop, helem]
  simp only [Outcome.bind, ne_eq, not_true_eq_false, if_false, hread]

/-- A log that is as it should be is read to its end. -/
theorem preScanLoop_of_scannable (first : Positions) {curr : Nat} {e : Memory} {r : Result} (hlog : Scannable d s.mram curr e r)
    (hcurr : s.curr = curr) (hknown : Known e) (htarget : topic e = checkpoint → isRegistered (target e)) (h : s.disabled)
    (huses : ∀ u ∈ s.uses, isRegistered u.index) :
    ∃ fuel r' s' first', preScanLoop workers fuel s e first = .done (r', s', first') ∧ (r' = .ok → r = .notFound) ∧ s'.mram = s.mram ∧
      s'.disabled ∧ ∀ u ∈ s'.uses, isRegistered u.index := by
  generalize hm : s.mram = m at hlog
  induction hlog generalizing s first with
  | @stop curr e r hread =>
    obtain ⟨w, first', helem⟩ := preScanElem_of_target workers first hknown h htarget
    refine ⟨1, _, _, _, preScanLoop_error workers 0 helem (hm ▸ hcurr ▸ hread), fun hok => ?_, hm, h, fun u hu => ?_⟩
    · by_contra hr
      rw [if_neg hr] at hok
      rcases read_error hread with rfl | rfl
      · exact hr rfl
      · cases hok
    · exact (List.mem_append.mp hu).elim (huses u) (registered_scanUses hknown htarget u)
  | @element curr e e' curr' r hread htarget' hrest ih =>
    obtain ⟨w, first', helem⟩ := preScanElem_of_target workers first hknown h htarget
    have huses' : ∀ u ∈ s.uses ++ scanUses e, isRegistered u.index := fun u hu =>
      (List.mem_append.mp hu).elim (huses u) (registered_scanUses hknown htarget u)
    obtain ⟨fuel, r', s', first'', hloop, hr', hmram, hdisabled, hs'⟩ :=
      ih (s := { s with world := w, uses := s.uses ++ scanUses e, curr := curr' }) first' rfl (known_of_read hread) htarget' h
        huses' hm
    exact ⟨fuel + 1, r', s', first'', (preScanLoop_ok workers fuel helem (hm ▸ hcurr ▸ hread)).trans hloop, hr', hmram, hdisabled, hs'⟩

/-- Conversely, a pass that came to its end has read such a log, when its uses of positions are of registered topics. -/
theorem scannable_of_preScanLoop {fuel : Nat} {e : Memory} {first first' : Positions} {s' : System d W} {r' : Result}
    (hloop : preScanLoop workers fuel s e first = .done (r', s', first')) (hknown : Known e) (h : s.disabled) :
    s.uses <+: s'.uses ∧ s'.mram = s.mram ∧ s'.disabled ∧ ((∀ t, .position t ∈ s'.uses → isRegistered t) →
      (topic e = checkpoint → isRegistered (target e)) ∧ ∃ r, Scannable d s.mram s.curr e r ∧ (r = .notFound → r' = .ok)) := by
  induction fuel generalizing s e first with
  | zero => cases hloop
  | succ fuel ih =>
    have helem := preScanElem_eq workers first hknown h
    split at helem
    · rw [preScanLoop, helem] at hloop
      cases hloop
    · obtain ⟨w, first1, helem⟩ := helem
      have hcheck (hpos : ∀ t, .position t ∈ s'.uses → isRegistered t) (hlonger : s.uses ++ scanUses e <+: s'.uses)
          (htopic : topic e = checkpoint) : isRegistered (target e) := by
        refine hpos _ (hlonger.subset (List.mem_append_right _ ?_))
        rw [scanUses, if_pos htopic]
        exact List.mem_singleton_self _
      cases hread : readNextElem d s.mram s.curr e with
      | error r =>
        rw [preScanLoop_error workers fuel helem hread] at hloop
        cases hloop
        refine ⟨List.prefix_append _ _, rfl, h, fun hpos => ⟨hcheck hpos (List.prefix_refl _), r, .stop hread, fun hr => if_pos hr⟩⟩
      | ok next =>
        obtain ⟨e', curr'⟩ := next
        rw [preScanLoop_ok workers fuel helem hread] at hloop
        obtain ⟨hlonger, hmram, hdisabled, hlog⟩ := ih hloop (known_of_read hread) h
        refine ⟨(List.prefix_append _ _).trans hlonger, hmram, hdisabled, fun hpos => ⟨hcheck hpos hlonger, ?_⟩⟩
        obtain ⟨htarget', r, hrest, hr⟩ := hlog hpos
        exact ⟨r, .element hread htarget' hrest, hr⟩

/-! ### The second pass -/

theorem processEntry_disabled (t : Nat) (entry : Memory) (h : s.disabled) :
    ∃ w, processEntry workers t entry s = { s with world := w } := call_disabled _ h

theorem notify_disabled (first : Positions) (entry : Memory) (t : Nat) (h : s.disabled) :
    ∃ w, registered.foldl (fun s u =>
      if u ≠ t ∧ workers.isInterestedIn u entry s.world ∧ s.tell.ge (first u) then processEntry workers u entry s else s) s =
        { s with world := w } := by
  refine foldl_disabled (fun s u hs => ?_) h _
  split
  · exact processEntry_disabled workers u entry hs
  · exact ⟨s.world, rfl⟩

theorem dispatch_of_registered (first : Positions) (entry : Memory) {t : Nat} (ht : isRegistered t) (h : s.disabled) :
    ∃ w us, dispatch workers first entry t s = .done (.ok, { s with world := w, uses := s.uses ++ us }) ∧
      ∀ u ∈ us, isRegistered u.index := by
  unfold dispatch
  rw [if_pos (isRegistered_lt ht)]
  dsimp only
  by_cases hge : (s.use (.position t)).tell.ge (first t)
  · obtain ⟨w, hw⟩ := processEntry_disabled workers t entry (s := (s.use (.position t)).use (.call t)) h
    obtain ⟨w', hw'⟩ := notify_disabled workers first entry t (s := { (s.use (.position t)).use (.call t) with world := w }) h
    rw [if_pos hge, if_pos ht, Outcome.bind, hw, hw']
    refine ⟨w', [.position t, .call t], ?_, by simp [Use.index, ht]⟩
    simp only [use, List.append_assoc, List.singleton_append]
  · obtain ⟨w, hw⟩ := notify_disabled workers first entry t (s := s.use (.position t)) h
    rw [if_neg hge, Outcome.bind, hw]
    exact ⟨w, [.position t], rfl, by simp [Use.index, ht]⟩

/-- The pseudo topic of the page states: nobody is called, or C++ leaves the call undefined. -/
theorem dispatch_of_not_registered (first : Positions) (entry : Memory) {t : Nat} (hlt : t < numberOfTopics) (ht : ¬ isRegistered t)
    (h : s.disabled) : dispatch workers first entry t s = .undefined ∨
      ∃ w, dispatch workers first entry t s = .done (.ok, { s with world := w, uses := s.uses ++ [.position t] }) := by
  unfold dispatch
  rw [if_pos hlt]
  dsimp only
  by_cases hge : (s.use (.position t)).tell.ge (first t)
  · rw [if_pos hge, if_neg ht]
    exact .inl rfl
  · obtain ⟨w, hw⟩ := notify_disabled workers first entry t (s := s.use (.position t)) h
    rw [if_neg hge, Outcome.bind, hw]
    exact .inr ⟨w, rfl⟩

theorem applyElem_accepted (first : Positions) {entry : Memory} (hknown : Known entry) (h : s.disabled)
    (htarget : topic entry = pagestate → isRegistered (target entry)) :
    ∃ w us, applyElem workers first entry s = .done (.ok, { s with world := w, uses := s.uses ++ us }) ∧
      ∀ u ∈ us, isRegistered u.index := by
  unfold applyElem
  by_cases hcheck : topic entry = checkpoint
  · rw [if_pos hcheck]
    exact ⟨s.world, [], by rw [List.append_nil], by simp⟩
  · rw [if_neg hcheck]
    by_cases hpage : topic entry = pagestate
    · have hreg := htarget hpage
      have hlt := isRegistered_lt hreg
      have hne : target entry ≠ pagestate := by
        intro heq
        rw [heq] at hreg
        exact absurd hreg (by decide)
      have hpos : 0 < target entry := by
        refine Nat.pos_of_ne_zero fun heq => ?_
        rw [heq] at hreg
        exact absurd hreg (by decide)
      obtain ⟨w, us, hdispatch, hus⟩ :=
        dispatch_of_registered workers first entry hreg (s := s.use (.compare (target entry))) h
      rw [if_pos hpage, isTopicValid, if_pos ⟨hpos, hlt.le⟩, if_neg hne, if_pos hlt, Outcome.bind]
      dsimp only
      rw [if_pos hreg, hdispatch]
      refine ⟨w, .compare (target entry) :: us, ?_, ?_⟩
      · simp only [use, List.append_assoc, List.singleton_append]
      · intro u hu
        rcases List.mem_cons.mp hu with rfl | hu
        · exact hreg
        · exact hus u hu
    · rw [if_neg hpage]
      exact dispatch_of_registered workers first entry (isRegistered_of_lt hknown.1 hknown.2 hcheck hpage) h

theorem applyElem_refused (first : Positions) {entry : Memory} (hpage : topic entry = pagestate) (hreg : ¬ isRegistered (target entry))
    (hne : target entry ≠ pagestate) (hnum : target entry ≠ numberOfTopics) :
    ∃ us, applyElem workers first entry s = .done (.bug, { s with uses := s.uses ++ us }) ∧
      (us = [] ∨ us = [.compare (target entry)] ∧ target entry < numberOfTopics) := by
  have hcheck : topic entry ≠ checkpoint := by rw [hpage]; decide
  unfold applyElem isTopicValid
  rw [if_neg hcheck, if_pos hpage]
  by_cases hin : target entry > 0 ∧ target entry ≤ numberOfTopics
  · have hlt : target entry < numberOfTopics := lt_of_le_of_ne hin.2 hnum
    rw [if_pos hin, if_neg hne, if_pos hlt, Outcome.bind]
    dsimp only
    rw [if_neg hreg]
    exact ⟨_, rfl, .inr ⟨rfl, hlt⟩⟩
  · rw [if_neg hin, Outcome.bind]
    exact ⟨[], by rw [List.append_nil]; rfl, .inl rfl⟩

/-- Two targets pass the check and lead astray. -/
theorem applyElem_astray (first : Positions) {entry : Memory} (hpage : topic entry = pagestate) (h : s.disabled)
    (htarget : target entry = pagestate ∨ target entry = numberOfTopics) :
    applyElem workers first entry s = .undefined ∨
      ∃ w, applyElem workers first entry s = .done (.ok, { s with world := w, uses := s.uses ++ [.position pagestate] }) := by
  have hcheck : topic entry ≠ checkpoint := by rw [hpage]; decide
  unfold applyElem isTopicValid
  rw [if_neg hcheck, if_pos hpage]
  rcases htarget with heq | heq
  · rw [heq, if_pos (by decide), if_pos rfl, Outcome.bind]
    exact dispatch_of_not_registered workers first entry (t := pagestate) (by decide) (by decide) h
  · rw [heq, if_pos (by decide), if_neg (by decide), if_neg (by decide)]
    exact .inl rfl

theorem applyLoop_ok {first : Positions} {e : Memory} {curr' : Nat} (fuel : Nat) (hread : readNextElem d s.mram s.curr cleared = .ok (e, curr')) :
    applyLoop workers first (fuel + 1) s =
      (applyElem workers first e { s with curr := curr' }).bind fun (r, s) =>
        if r ≠ .ok then .done (r, s) else applyLoop workers first fuel s := by
  rw [applyLoop]
  simp only [hread]

theorem applyLoop_error {first : Positions} {r : Result} (fuel : Nat) (hread : readNextElem d s.mram s.curr cleared = .error r) :
    applyLoop workers first (fuel + 1) s = .done (if r = .notFound then .ok else r, s) := by
  rw [applyLoop]
  simp only [hread]
  cases r <;> rfl

theorem applyLoop_of_applicable (first : Positions) {curr : Nat} (hlog : Applicable d s.mram curr) (hcurr : s.curr = curr)
    (h : s.disabled) (huses : ∀ u ∈ s.uses, isRegistered u.index) :
    ∃ fuel r s', applyLoop workers first fuel s = .done (r, s') ∧ SafeUses r s'.uses := by
  generalize hm : s.mram = m at hlog
  induction hlog generalizing s with
  | stop hread => exact ⟨1, _, _, applyLoop_error workers 0 (hm ▸ hcurr ▸ hread), .inl huses⟩
  | @refused curr e curr' hread hpage hreg hne hnum =>
    obtain ⟨us, helem, hus⟩ := applyElem_refused workers (s := { s with curr := curr' }) first hpage hreg hne hnum
    refine ⟨1, .bug, { s with curr := curr', uses := s.uses ++ us }, ?_, ?_⟩
    · rw [applyLoop_ok workers 0 (hm ▸ hcurr ▸ hread), helem]
      rfl
    · rcases hus with rfl | ⟨rfl, hlt⟩
      · exact .inl (by rwa [List.append_nil])
      · exact .inr ⟨by decide, s.uses, _, rfl, hlt, huses⟩
  | @element curr e curr' hread htarget hrest ih =>
    obtain ⟨w, us, helem, hus⟩ :=
      applyElem_accepted workers (s := { s with curr := curr' }) first (known_of_read hread) h htarget
    obtain ⟨fuel, r, s', hloop, hsafe⟩ := ih (s := { s with curr := curr', world := w, uses := s.uses ++ us }) rfl h
      (fun u hu => (List.mem_append.mp hu).elim (huses u) (hus u)) hm
    refine ⟨fuel + 1, r, s', ?_, hsafe⟩
    rw [applyLoop_ok workers fuel (hm ▸ hcurr ▸ hread), helem]
    exact hloop

theorem applicable_of_applyLoop {first : Positions} {fuel : Nat} {r : Result} {s' : System d W}
    (hloop : applyLoop workers first fuel s = .done (r, s')) (h : s.disabled) :
    s.uses <+: s'.uses ∧ ((∀ t, .position t ∈ s'.uses → isRegistered t) → Applicable d s.mram s.curr) := by
  induction fuel generalizing s with
  | zero => cases hloop
  | succ fuel ih =>
    cases hread : readNextElem d s.mram s.curr cleared with
    | error r' =>
      rw [applyLoop_error workers fuel hread] at hloop
      cases hloop
      exact ⟨List.prefix_refl _, fun _ => .stop hread⟩
    | ok next =>
      obtain ⟨e, curr'⟩ := next
      rw [applyLoop_ok workers fuel hread] at hloop
      by_cases haccept : topic e = pagestate → isRegistered (target e)
      · obtain ⟨w, us, helem, hus⟩ :=
          applyElem_accepted workers (s := { s with curr := curr' }) first (known_of_read hread) h haccept
        rw [helem] at hloop
        obtain ⟨hlonger, hlog⟩ := ih hloop h
        exact ⟨(List.prefix_append _ _).trans hlonger, fun hpos => .element hread haccept (hlog hpos)⟩
      · obtain ⟨hpage, hreg⟩ := Classical.not_imp.mp haccept
        by_cases hastray : target e = pagestate ∨ target e = numberOfTopics
        · rcases applyElem_astray workers (s := { s with curr := curr' }) first hpage h hastray with helem | ⟨w, helem⟩
          · rw [helem] at hloop
            cases hloop
          · rw [helem] at hloop
            obtain ⟨hlonger, -⟩ := ih hloop h
            refine ⟨(List.prefix_append _ _).trans hlonger, fun hpos => ?_⟩
            have hpseudo := hpos pagestate (hlonger.subset (List.mem_append_right _ (List.mem_singleton_self _)))
            exact absurd hpseudo (by decide)
        · rw [not_or] at hastray
          obtain ⟨us, helem, -⟩ :=
            applyElem_refused workers (s := { s with curr := curr' }) first hpage hreg hastray.1 hastray.2
          rw [helem] at hloop
          cases hloop
          exact ⟨List.prefix_append _ _, fun _ => .refused hread hpage hreg hastray.1 hastray.2⟩

/-! ### Both passes -/

theorem foldl_call_uses (f : Nat → W → Calls W) (ts : List Nat) : (ts.foldl (fun s t => call (f t s.world) s) s).uses = s.uses := by
  induction ts generalizing s with
  | nil => rfl
  | cons t ts ih => exact ih.trans (call_uses _)

theorem applyJournalEntries_of_done {first : Positions} {fuel : Nat} {r : Result} {s' : System d W}
    (hloop : applyLoop workers first fuel s.rewind = .done (r, s')) :
    ∃ s'', applyJournalEntries workers first fuel s = .done (r, s'') ∧ s''.uses = s'.uses := by
  unfold applyJournalEntries
  rw [hloop, Outcome.bind]
  dsimp only
  by_cases hr : r = .ok
  · rw [if_neg (not_not_intro hr), hr]
    exact ⟨_, rfl, foldl_call_uses workers.signalEndOfLog registered⟩
  · rw [if_pos hr]
    exact ⟨s', rfl, rfl⟩

theorem done_of_applyJournalEntries {first : Positions} {fuel : Nat} {r : Result} {s'' : System d W}
    (happly : applyJournalEntries workers first fuel s = .done (r, s'')) :
    ∃ s', applyLoop workers first fuel s.rewind = .done (r, s') ∧ s''.uses = s'.uses := by
  cases hloop : applyLoop workers first fuel s.rewind with
  | done x =>
    obtain ⟨r', s'⟩ := x
    obtain ⟨s₂, happly', huses⟩ := applyJournalEntries_of_done workers hloop
    rw [happly'] at happly
    cases happly
    exact ⟨s', rfl, huses⟩
  | _ =>
    rw [applyJournalEntries, hloop] at happly
    cases happly

theorem processBuffer_error {r : Result} (hsize : c.mramSize.toNat ≠ 0)
    (hread : readNextElem d s.mram MramPersistence.sizeofPageAbs cleared = .error r) :
    ∃ r' s', s'.uses = [] ∧ ∀ scans applies, processBuffer workers scans applies s = .done (r', s') := by
  refine ⟨if r = .notFound then .ok else r, { s with uses := [], world := registered.foldl (fun w t => workers.resetState t w) s.world }.rewind,
    rfl, fun scans applies => ?_⟩
  unfold processBuffer
  rw [if_neg hsize]
  simp only [rewind, hread]
  cases r <;> rfl

theorem processBuffer_ok {e : Memory} {curr' : Nat} (hsize : c.mramSize.toNat ≠ 0)
    (hread : readNextElem d s.mram MramPersistence.sizeofPageAbs cleared = .ok (e, curr')) :
    ∃ (s₀ : System d W) (first : Positions), s₀.mram = s.mram ∧ s₀.curr = curr' ∧ s₀.disabled ∧ s₀.uses = [] ∧
      ∀ scans applies, processBuffer workers scans applies s =
        (preScanLoop workers scans s₀ e first).bind fun (r, s, first) =>
          if r ≠ .ok then .done (r, s) else applyJournalEntries workers first applies s := by
  refine ⟨{ { s with uses := [], world := registered.foldl (fun w t => workers.resetState t w) s.world }.rewind with
    curr := curr', disabled := true }, fun _ => ⟨MramPersistence.sizeofPageAbs, 0⟩, rfl, rfl, rfl, rfl, fun scans applies => ?_⟩
  unfold processBuffer
  rw [if_neg hsize]
  simp only [rewind, hread]
  rfl

theorem position_of_safeUses {r : Result} {uses : List Use} (h : SafeUses r uses) : ∀ t, .position t ∈ uses → isRegistered t := by
  intro t ht
  rcases h with hall | ⟨-, before, t', rfl, -, hbefore⟩
  · exact hall _ ht
  · rcases List.mem_append.mp ht with ht | ht
    · exact hbefore _ ht
    · cases List.mem_singleton.mp ht

theorem safe_of_replayable (hsize : c.mramSize.toNat ≠ 0) (h : Replayable d s.mram) : Safe workers s := by
  obtain ⟨r, hscan, happlicable⟩ := h
  cases hscan with
  | stop hread =>
    obtain ⟨r', s', huses, heq⟩ := processBuffer_error workers hsize hread
    exact ⟨0, 0, r', s', heq 0 0, .inl (by simp [huses])⟩
  | @element _ _ e curr' _ hread htarget hrest =>
    obtain ⟨s₀, first, hmram, hcurr, hdisabled, huses, heq⟩ := processBuffer_ok workers hsize hread
    obtain ⟨scans, r₁, s₁, first₁, hloop, hr₁, hmram₁, hdisabled₁, huses₁⟩ :=
      preScanLoop_of_scannable workers (s := s₀) first (hmram ▸ hrest) hcurr (known_of_read hread) htarget hdisabled
        (by simp [huses])
    by_cases hok : r₁ = .ok
    · obtain ⟨applies, r₂, s₂, happly, hsafe⟩ := applyLoop_of_applicable workers (s := s₁.rewind) first₁
        ((hmram₁.trans hmram).symm ▸ happlicable (hr₁ hok)) rfl hdisabled₁ huses₁
      obtain ⟨s₃, hentries, huses₃⟩ := applyJournalEntries_of_done workers happly
      refine ⟨scans, applies, r₂, s₃, ?_, huses₃ ▸ hsafe⟩
      rw [heq, hloop, Outcome.bind]
      exact (if_neg (not_not_intro hok)).trans hentries
    · refine ⟨scans, 0, r₁, s₁, ?_, .inl huses₁⟩
      rw [heq, hloop, Outcome.bind]
      exact if_pos hok

theorem replayable_of_safe (hsize : c.mramSize.toNat ≠ 0) (h : Safe workers s) : Replayable d s.mram := by
  obtain ⟨scans, applies, r, s', hrun, hsafe⟩ := h
  have hpos := position_of_safeUses hsafe
  cases hread : readNextElem d s.mram MramPersistence.sizeofPageAbs cleared with
  | error r' =>
    refine ⟨r', .stop hread, fun _ => .stop hread⟩
  | ok next =>
    obtain ⟨e, curr'⟩ := next
    obtain ⟨s₀, first, hmram, hcurr, hdisabled, huses, heq⟩ := processBuffer_ok workers hsize hread
    rw [heq] at hrun
    cases hloop : preScanLoop workers scans s₀ e first with
    | done x =>
      obtain ⟨r₁, s₁, first₁⟩ := x
      obtain ⟨-, hmram₁, hdisabled₁, hlog⟩ := scannable_of_preScanLoop workers hloop (known_of_read hread) hdisabled
      rw [hloop, Outcome.bind] at hrun
      dsimp only at hrun
      by_cases hok : r₁ = .ok
      · rw [if_neg (not_not_intro hok)] at hrun
        obtain ⟨s₂, happly, huses₂⟩ := done_of_applyJournalEntries workers hrun
        obtain ⟨hlonger, happlicable⟩ := applicable_of_applyLoop workers happly hdisabled₁
        rw [huses₂] at hpos
        obtain ⟨htarget, r₂, hscan, -⟩ := hlog fun t ht => hpos t (hlonger.subset ht)
        rw [hmram, hcurr] at hscan
        refine ⟨r₂, .element hread htarget hscan, fun _ => ?_⟩
        have hstart := happlicable hpos
        rwa [show s₁.rewind.mram = s.mram from hmram₁.trans hmram] at hstart
      · rw [if_pos hok] at hrun
        cases hrun
        obtain ⟨htarget, r₂, hscan, hr₂⟩ := hlog hpos
        rw [hmram, hcurr] at hscan
        exact ⟨r₂, .element hread htarget hscan, fun hnot => absurd (hr₂ hnot) hok⟩
    | _ =>
      rw [hloop] at hrun
      cases hrun

/-- Which logs are replayed safely, whatever the topics do with the entries. -/
theorem processBuffer_safe_iff (workers : Workers W) (s : System d W) :
    Safe workers s ↔ c.mramSize.toNat = 0 ∨ Replayable d s.mram := by
  by_cases hsize : c.mramSize.toNat = 0
  · refine iff_of_true ⟨0, 0, .ok, { s with uses := [] }, ?_, .inl (by simp)⟩ (.inl hsize)
    exact if_pos hsize
  · exact ⟨fun h => .inr (replayable_of_safe workers hsize h), fun h => safe_of_replayable workers hsize (h.resolve_left hsize)⟩

/-! ### Termination -/

theorem readNextElem_progress {m : d.State} {curr curr' : Nat} {entry e : Memory} (hlow : hwm d m + 2 ^ 16 ≤ 2 ^ 32)
    (h : readNextElem d m curr entry = .ok (e, curr')) : curr < hwm d m ∧ curr < curr' := by
  unfold readNextElem at h
  split at h
  · cases h
  · rename_i hbound
    dsimp only at h
    split at h
    · cases h
    · rename_i hsize
      cases h
      have hmod : getSizeFromJE c.byteUsage (d.readMRAM m curr (sizeofMax c.byteUsage) entry) < 2 ^ 16 := Nat.mod_lt _ (by decide)
      rw [Nat.mod_eq_of_lt (by omega)]
      omega

/-- Each element brings the pointer nearer to the high water mark. -/
theorem preScanLoop_ends (fuel : Nat) (first : Positions) {e : Memory} (hlow : hwm d s.mram + 2 ^ 16 ≤ 2 ^ 32)
    (hfuel : hwm d s.mram - s.curr < fuel) (hknown : Known e) (h : s.disabled) : preScanLoop workers fuel s e first ≠ .running := by
  induction fuel generalizing s e first with
  | zero => cases hfuel
  | succ fuel ih =>
    have helem := preScanElem_eq workers first hknown h
    split at helem
    · rw [preScanLoop, helem]
      exact nofun
    · obtain ⟨w, first', helem⟩ := helem
      cases hread : readNextElem d s.mram s.curr e with
      | error r =>
        rw [preScanLoop_error workers fuel helem hread]
        exact nofun
      | ok next =>
        have hprogress := readNextElem_progress hlow hread
        rw [preScanLoop_ok workers fuel helem hread]
        exact ih first' hlow (by dsimp only; omega) (known_of_read hread) h

theorem applyLoop_ends (fuel : Nat) (first : Positions) (hlow : hwm d s.mram + 2 ^ 16 ≤ 2 ^ 32)
    (hfuel : hwm d s.mram - s.curr < fuel) (h : s.disabled) : applyLoop workers first fuel s ≠ .running := by
  induction fuel generalizing s with
  | zero => cases hfuel
  | succ fuel ih =>
    cases hread : readNextElem d s.mram s.curr cleared with
    | error r =>
      rw [applyLoop_error workers fuel hread]
      exact nofun
    | ok next =>
      obtain ⟨e, curr'⟩ := next
      have hprogress := readNextElem_progress hlow hread
      have hnear : hwm d s.mram - curr' < fuel := by omega
      rw [applyLoop_ok workers fuel hread]
      by_cases haccept : topic e = pagestate → isRegistered (target e)
      · obtain ⟨w, us, helem, -⟩ :=
          applyElem_accepted workers (s := { s with curr := curr' }) first (known_of_read hread) h haccept
        rw [helem]
        exact ih hlow hnear h
      · obtain ⟨hpage, hreg⟩ := Classical.not_imp.mp haccept
        by_cases hastray : target e = pagestate ∨ target e = numberOfTopics
        · rcases applyElem_astray workers (s := { s with curr := curr' }) first hpage h hastray with helem | ⟨w, helem⟩
          · rw [helem]
            exact nofun
          · rw [helem]
            exact ih hlow hnear h
        · rw [not_or] at hastray
          obtain ⟨us, helem, -⟩ :=
            applyElem_refused workers (s := { s with curr := curr' }) first hpage hreg hastray.1 hastray.2
          rw [helem]
          exact nofun

/-- A log whose high water mark is not among the last addresses is replayed in finitely many steps, or goes astray. -/
theorem processBuffer_ends (hlow : hwm d s.mram + 2 ^ 16 ≤ 2 ^ 32) :
    processBuffer workers (2 ^ 32) (2 ^ 32) s ≠ .running := by
  by_cases hsize : c.mramSize.toNat = 0
  · rw [processBuffer, if_pos hsize]
    exact nofun
  · cases hread : readNextElem d s.mram MramPersistence.sizeofPageAbs cleared with
    | error r =>
      obtain ⟨r', s', -, heq⟩ := processBuffer_error workers hsize hread
      rw [heq]
      exact nofun
    | ok next =>
      obtain ⟨s₀, first, hmram, -, hdisabled, -, heq⟩ := processBuffer_ok workers hsize hread
      have hscan := preScanLoop_ends workers (2 ^ 32) first (hmram ▸ hlow) (by rw [hmram]; omega)
        (known_of_read hread) hdisabled
      rw [heq]
      cases hloop : preScanLoop workers (2 ^ 32) s₀ next.1 first with
      | running => exact absurd hloop hscan
      | undefined => exact nofun
      | done x =>
        obtain ⟨r₁, s₁, first₁⟩ := x
        obtain ⟨-, hmram₁, hdisabled₁, -⟩ := scannable_of_preScanLoop workers hloop (known_of_read hread) hdisabled
        rw [Outcome.bind]
        dsimp only
        by_cases hok : r₁ = .ok
        · have happly := applyLoop_ends workers (s := s₁.rewind) (2 ^ 32) first₁
            (show hwm d s₁.mram + _ ≤ _ from hmram₁.symm ▸ hmram ▸ hlow) (show hwm d s₁.mram - _ < _ by rw [hmram₁, hmram]; omega)
            hdisabled₁
          rw [if_neg (not_not_intro hok), applyJournalEntries]
          cases hentries : applyLoop workers first₁ (2 ^ 32) s₁.rewind with
          | running => exact absurd hentries happly
          | undefined => exact nofun
          | done y =>
            rw [Outcome.bind]
            dsimp only
            split <;> exact nofun
        · rw [if_pos hok]
          exact nofun

/-- A log with nothing but the checkpoint of a twelfth topic. -/
def twelfthTopic : Memory := fun i => [6, 0, 0, 0, 1, 11].getD i 0

def defaultDriver : Driver .default := officeModel2Artix7

def idle : Workers Unit where
  resetState _ w := w
  isInterestedIn _ _ _ := false
  preScan _ _ _ w := .done w
  processEntry _ _ _ w := .done w
  signalEndOfLog _ w := .done w

theorem exists_readNextElem (d : Driver c) (m : d.State) (curr : Nat) (entry : Memory) (hhwm : hwm d m ≠ 2 ^ 32 - 1) (hcurr : curr < hwm d m)
    (hsize : getSizeFromJE c.byteUsage (d.readMRAM m curr (sizeofMax c.byteUsage) entry) ≠ 0) :
    ∃ curr', readNextElem d m curr entry = .ok (d.readMRAM m curr (sizeofMax c.byteUsage) entry, curr') := by
  unfold readNextElem
  rw [if_neg (not_or.mpr ⟨hhwm, Nat.not_le.mpr hcurr⟩)]
  exact ⟨_, if_neg hsize⟩

theorem checkpoint_of_twelfth_topic_is_unsafe :
    ¬ ∀ (c : MramConfig) (d : Driver c) (W : Type) (workers : Workers W) (s : System d W), Safe workers s := by
  intro hall
  have hsafe := hall .default defaultDriver Unit idle ⟨twelfthTopic, 4, fun _ => true, false, (), []⟩
  obtain ⟨r, hscan, -⟩ := replayable_of_safe idle (by decide +kernel) hsafe
  let size := sizeofMax MramConfig.default.byteUsage
  have hcheck : topic (defaultDriver.readMRAM twelfthTopic 4 size cleared) = checkpoint := by decide +kernel
  have hnot : ¬ isRegistered (target (defaultDriver.readMRAM twelfthTopic 4 size cleared)) := by decide +kernel
  obtain ⟨curr', hread⟩ := exists_readNextElem defaultDriver twelfthTopic 4 cleared
    (by decide +kernel) (by decide +kernel) (by decide +kernel)
  generalize defaultDriver.readMRAM twelfthTopic 4 size cleared = e at hread hcheck hnot
  cases hscan with
  | stop hread' => cases hread.symm.trans hread'
  | element hread' htarget hrest =>
    cases hread.symm.trans hread'
    exact hnot (htarget hcheck)

end System

/-! ### Logs that the journal wrote -/

theorem isRegistered_code (t : Topic) : isRegistered (code t).toNat = t.isRegistered := by
  cases t <;> decide

theorem counted_topic {n : Nat} (b : BitVec 5) (e : Entry n) : ∃ rest, counted b e = byte (code e.topic) :: rest := by
  rcases position_or_whole e with ⟨offs, position, rfl⟩ | ⟨hcounted, -⟩
  · exact ⟨_, rfl⟩
  · rw [hcounted]
    cases e with
    | summaryCache area entry => cases entry <;> exact ⟨_, rfl⟩
    | areaMgmt area operation => cases operation <;> exact ⟨_, rfl⟩
    | superblock entry =>
      cases entry with
      | areaMap offs operation => cases operation <;> exact ⟨_, rfl⟩
      | _ => exact ⟨_, rfl⟩
    | _ => exact ⟨_, rfl⟩

theorem topic_of_stored {n : Nat} {m : Memory} {b : BitVec 5} {e : Entry n} (h : m.Stored 0 (counted b e)) :
    topic m = (code e.topic).toNat := by
  obtain ⟨rest, hrest⟩ := counted_topic b e
  rw [hrest] at h
  have hword : m.readWord 0 1 = code e.topic := by simpa [alignUp] using h.1
  exact congrArg Word.toNat hword

/-- The topics that an entry names are registered. -/
def Proper {n : Nat} : Entry n → Prop
  | .checkpoint target | .pagestate target _ => target.isRegistered
  | _ => True

theorem target_of_stored {n : Nat} {m : Memory} {b : BitVec 5} {e : Entry n} (h : m.Stored 0 (counted b e)) (hproper : Proper e)
    (htopic : topic m = checkpoint ∨ topic m = pagestate) : isRegistered (target m) := by
  rw [topic_of_stored h] at htopic
  unfold target
  cases e with
  | checkpoint t =>
    have htarget : m.readWord 1 1 = code t := by simpa [alignUp] using h.2.1
    rw [htarget, isRegistered_code]
    exact hproper
  | pagestate t entry =>
    have htarget : m.readWord 1 1 = code t := by
      cases entry <;> simpa [alignUp] using h.2.1
    rw [htarget, isRegistered_code]
    exact hproper
  | _ => exact absurd htopic (by simp only [Entry.topic]; decide)

/-- In a log that the journal wrote each element is where it was appended. -/
theorem readNextElem_of_appended {m : d.State} {a : Nat} {x : Image c.byteUsage} {xs : List (Image c.byteUsage)} {old : Memory}
    (hmem : ∀ i, a ≤ i → d.content m i = lay old a (x :: xs) i) (hhwm : hwm d m = layEnd a (x :: xs)) (hlt : hwm d m < 2 ^ 32 - 1)
    (hfit : a + sizeofMax c.byteUsage ≤ c.mramSize.toNat) (entry : Memory) :
    ∃ e, readNextElem d m a entry = .ok (e, a + x.size) ∧ ∀ i < x.size, e i = x.object i := by
  have hmax : x.size ≤ sizeofMax c.byteUsage := countedSize_le_sizeofMax x.2
  have htwo : 2 ≤ x.size := (countedSize_bounds x.2).1
  have hmram : c.mramSize.toNat < 2 ^ 32 := c.mramSize.toNat_lt
  have hbytes : ∀ i < x.size, d.readMRAM m a (sizeofMax c.byteUsage) entry i = x.object i := fun i hi => by
    rw [d.readMRAM_inside _ _ _ _ _ hfit (by omega), hmem _ (by omega), lay_head hi]
  have hsize := MramPersistence.getSizeFromJE_eq hbytes
  have hend := le_layEnd (a + x.size) xs
  rw [← layEnd_cons, ← hhwm] at hend
  refine ⟨_, ?_, hbytes⟩
  rw [readNextElem, if_neg (by omega)]
  simp only [hsize]
  rw [if_neg (by omega), Nat.mod_eq_of_lt (by omega)]

theorem replayable_of_appended {m : d.State} {a : Nat} {xs : List (Image c.byteUsage)} {old : Memory}
    (hmem : ∀ i, a ≤ i → d.content m i = lay old a xs i) (hhwm : hwm d m = layEnd a xs) (hlt : hwm d m < 2 ^ 32 - 1)
    (hfit : ∀ before x after, xs = before ++ x :: after → layEnd a before + sizeofMax c.byteUsage ≤ c.mramSize.toNat)
    (hproper : ∀ x ∈ xs, Proper x.2) (entry : Memory) : Scannable d m a entry .notFound ∧ Applicable d m a := by
  induction xs generalizing a entry with
  | nil =>
    have hread (entry : Memory) : readNextElem d m a entry = .error .notFound := by
      rw [readNextElem, if_pos]
      exact .inr (by rw [hhwm]; exact le_rfl)
    exact ⟨.stop (hread entry), .stop (hread cleared)⟩
  | cons x xs ih =>
    have hhere : a + sizeofMax c.byteUsage ≤ c.mramSize.toNat := by simpa [layEnd] using hfit [] x xs rfl
    have hrest := ih (a := a + x.size) (fun i hi => (hmem i (by omega)).trans (lay_tail hi)) (hhwm.trans (layEnd_cons a x xs))
      (fun before y after heq => by simpa [layEnd, Nat.add_assoc] using hfit (x :: before) y after (by rw [heq]; rfl))
      (fun y hy => hproper y (List.mem_cons_of_mem _ hy))
    have htarget {e : Memory} (he : ∀ i < x.size, e i = x.object i) := target_of_stored (counted_stored he) (hproper x List.mem_cons_self)
    obtain ⟨e, hread, he⟩ := readNextElem_of_appended hmem hhwm hlt hhere entry
    obtain ⟨e', hread', he'⟩ := readNextElem_of_appended hmem hhwm hlt hhere cleared
    exact ⟨.element hread (fun h => htarget he (.inl h)) (hrest e).1, .element hread' (fun h => htarget he' (.inr h)) (hrest e').2⟩

theorem fit_of_appendAll {s s' : MramPersistence} {xs : List (Image c.byteUsage)}
    (h : MramPersistence.appendAll c s (xs.map Image.object) = some s') (before : List (Image c.byteUsage)) (x : Image c.byteUsage)
    (after : List (Image c.byteUsage)) (heq : xs = before ++ x :: after) :
    layEnd s.curr before + sizeofMax c.byteUsage ≤ c.mramSize.toNat := by
  induction before generalizing s xs with
  | nil =>
    subst heq
    simpa [layEnd] using (MramPersistence.appendAll_cons h).1
  | cons y before ih =>
    subst heq
    obtain ⟨hfit, hrest⟩ := MramPersistence.appendAll_cons h
    have hcurr : (MramPersistence.appendEntry c s y.object).2.curr = s.curr + y.size := by rw [MramPersistence.appendEntry_spec hfit]
    rw [layEnd_cons, ← hcurr]
    exact ih hrest rfl

/-- What the journal writes to a cleared log can be replayed. -/
theorem replayable_of_appendAll {m : d.State} {s s' : MramPersistence} {xs : List (Image c.byteUsage)} (hsize : c.mramSize.toNat ≠ 0)
    (h : MramPersistence.appendAll c s.clear (xs.map Image.object) = some s') (hcontent : d.content m = s'.mram)
    (hproper : ∀ x ∈ xs, Proper x.2) : Replayable d m := by
  obtain ⟨hready, hcurr, hbytes⟩ := MramPersistence.appendAll_spec (MramPersistence.ready_clear s) h
  have hmram : c.mramSize.toNat < 2 ^ 32 := c.mramSize.toNat_lt
  have hmod := c.mramSize_mod
  have hbound := hready.curr_le
  have hhwm : hwm d m = s'.curr := by
    rw [← hready.hwm_eq, hwm, MramPersistence.hwm]
    refine congrArg Word.toNat (readWord_congr fun i hi => ?_)
    rw [d.readMRAM_inside _ _ _ _ _ (by omega) (by omega), hcontent, Nat.zero_add]
  have hlog := replayable_of_appended (fun i hi => by rw [hcontent]; exact hbytes i hi) (hhwm.trans hcurr) (by omega)
    (fit_of_appendAll h) hproper cleared
  exact ⟨.notFound, hlog.1, fun _ => hlog.2⟩

end Paffs.Persistence.Raw
