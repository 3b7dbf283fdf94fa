import Paffs.Persistence.Journal

/-! The journal hands every topic the entries addressed to it behind its last checkpoint. -/
namespace Paffs.Persistence
variable {n : Nat} {W : Type}

/-! ### What is due -/

namespace Entry

def isCheckpoint : Entry n → Bool
  | .checkpoint _ => true
  | _ => false

/-- To whom an entry is addressed; a checkpoint to nobody. -/
def addressee (e : Entry n) : Option Topic := if e.isCheckpoint then none else some e.target

end Entry

def behindStep (t : Topic) (acc : List (Entry n)) : Entry n → List (Entry n)
  | .checkpoint target => if target = t then [] else acc
  | e => acc ++ [e]

/-- The entries behind the last checkpoint of `t`. -/
def behindCheckpoint (t : Topic) (es : List (Entry n)) : List (Entry n) := es.foldl (behindStep t) []

/-- Those of them that are addressed to `t`. -/
def due (t : Topic) (es : List (Entry n)) : List (Entry n) := (behindCheckpoint t es).filter (·.addressee = some t)

section Due
variable {t : Topic} {e : Entry n} {es fs : List (Entry n)}

theorem behindStep_of_not_checkpoint (h : e.isCheckpoint = false) (acc : List (Entry n)) : behindStep t acc e = acc ++ [e] := by
  cases e with
  | checkpoint target => cases h
  | _ => rfl

theorem behindCheckpoint_concat : behindCheckpoint t (es ++ [e]) = behindStep t (behindCheckpoint t es) e := by
  rw [behindCheckpoint, List.foldl_concat, behindCheckpoint]

theorem due_concat_checkpoint : due t (es ++ [.checkpoint t]) = [] := by
  rw [due, behindCheckpoint_concat, behindStep, if_pos rfl, List.filter_nil]

theorem due_concat_foreign_checkpoint {u : Topic} (h : u ≠ t) : due t (es ++ [.checkpoint u]) = due t es := by
  rw [due, behindCheckpoint_concat, behindStep, if_neg h, due]

theorem due_concat (h : e.isCheckpoint = false) :
    due t (es ++ [e]) = due t es ++ if e.target = t then [e] else [] := by
  rw [due, behindCheckpoint_concat, behindStep_of_not_checkpoint h, List.filter_append, due]
  by_cases ht : e.target = t <;> simp [Entry.addressee, h, ht]

theorem due_concat_congr (h : due t es = due t fs) : due t (es ++ [e]) = due t (fs ++ [e]) := by
  cases e with
  | checkpoint u =>
    by_cases ht : u = t
    · subst ht
      rw [due_concat_checkpoint, due_concat_checkpoint]
    · rw [due_concat_foreign_checkpoint ht, due_concat_foreign_checkpoint ht, h]
  | _ => rw [due_concat rfl, due_concat rfl, h]

/-- Nothing in front of a checkpoint of `t` is behind it. -/
theorem behindCheckpoint_append : behindCheckpoint t (es ++ .checkpoint t :: fs) = behindCheckpoint t fs := by
  rw [behindCheckpoint, List.foldl_append, List.foldl_cons, behindStep, if_pos rfl, behindCheckpoint]

theorem behindCheckpoint_of_none (h : ∀ target, .checkpoint target ∈ es → target ≠ t) :
    behindCheckpoint t es = es.filter (!·.isCheckpoint) := by
  induction es using List.reverseRecOn with
  | nil => rfl
  | append_singleton es e ih =>
    rw [behindCheckpoint_concat, ih fun target hmem => h target (List.mem_append_left _ hmem), List.filter_append]
    cases e with
    | checkpoint target =>
      have hne := h target (by simp)
      simp [behindStep, hne, Entry.isCheckpoint]
    | _ => simp [behindStep, Entry.isCheckpoint]

end Due

/-! ### Positions -/

namespace LogPersistence

/-- The pointer behind the entries `es`. -/
def currOf (es : List (Entry n)) : Nat := 4 + (es.map countedSize).sum

theorem currOf_append (es fs : List (Entry n)) : currOf (es ++ fs) = currOf es + (fs.map countedSize).sum := by
  simp [currOf, Nat.add_assoc]

theorem currOf_lt_concat (es : List (Entry n)) (e : Entry n) : currOf es < currOf (es ++ [e]) := by
  have hsize := (countedSize_bounds e).1
  simp only [currOf_append, List.map_cons, List.map_nil, List.sum_cons, List.sum_nil]
  omega

theorem four_le_currOf (es : List (Entry n)) : 4 ≤ currOf es := Nat.le_add_right _ _

end LogPersistence

/-- Both positions lie in the MRAM, behind its first bytes; an equal position does not count. -/
theorem JournalEntryPosition.ge_iff {p q : Nat} (hq : 0 < q) :
    (⟨p, 0⟩ : JournalEntryPosition).ge ⟨q, 0⟩ = true ↔ q < p := by
  by_cases heq : p = q
  · simp [ge, lt, heq, hq]
  · simp [ge, lt, heq]
    omega

open LogPersistence

/-- The entries of `es`, read behind `passed`, that end behind `first`. -/
def live (first : Nat) : List (Entry n) → List (Entry n) → List (Entry n)
  | _, [] => []
  | passed, e :: es =>
    (if !e.isCheckpoint ∧ first < currOf (passed ++ [e]) then [e] else []) ++ live first (passed ++ [e]) es

theorem live_append (first : Nat) (passed es fs : List (Entry n)) :
    live first passed (es ++ fs) = live first passed es ++ live first (passed ++ es) fs := by
  induction es generalizing passed with
  | nil => simp [live]
  | cons e es ih => simp [live, ih]

theorem live_of_le {first : Nat} {passed es : List (Entry n)} (h : currOf (passed ++ es) ≤ first) :
    live first passed es = [] := by
  induction es generalizing passed with
  | nil => rfl
  | cons e es ih =>
    rw [List.append_cons] at h
    have hle : currOf (passed ++ [e]) ≤ currOf (passed ++ [e] ++ es) := by
      rw [currOf_append _ es]
      exact Nat.le_add_right _ _
    rw [live, ih h, if_neg (by omega), List.append_nil]

theorem live_of_lt {first : Nat} {passed : List (Entry n)} (es : List (Entry n)) (h : first ≤ currOf passed) :
    live first passed es = es.filter (!·.isCheckpoint) := by
  induction es generalizing passed with
  | nil => rfl
  | cons e es ih =>
    have hlt : first < currOf (passed ++ [e]) := h.trans_lt (currOf_lt_concat passed e)
    rw [live, ih hlt.le, List.filter_cons]
    cases e.isCheckpoint <;> simp [hlt]

/-- What the first pass finds for a topic: `first` is behind its last checkpoint, if there is one. -/
inductive Found (t : Topic) (passed ahead : List (Entry n)) (before : Nat) : Nat → Prop
  | none (h : ∀ target, .checkpoint target ∈ ahead → target ≠ t) : Found t passed ahead before before
  | last (es fs : List (Entry n)) (hes : ahead = es ++ .checkpoint t :: fs) (hfs : ∀ target, .checkpoint target ∈ fs → target ≠ t) :
    Found t passed ahead before (currOf (passed ++ es ++ [.checkpoint t]))

theorem live_of_found {t : Topic} {es : List (Entry n)} {first : Nat} (h : Found t [] es 4 first) :
    live first [] es = behindCheckpoint t es := by
  cases h with
  | none h => rw [live_of_lt _ (four_le_currOf _), behindCheckpoint_of_none h]
  | last fs gs hes hgs =>
    rw [hes, behindCheckpoint_append, behindCheckpoint_of_none hgs, List.append_cons fs, live_append,
      live_of_le (by simp), live_of_lt _ (by simp), List.nil_append]

section Found
variable {t u : Topic} {e : Entry n} {passed ahead : List (Entry n)} {before first : Nat}

theorem Found.cons (he : e.isCheckpoint = false) (h : Found t (passed ++ [e]) ahead before first) :
    Found t passed (e :: ahead) before first := by
  cases h with
  | none h =>
    refine .none fun target hmem => ?_
    rcases List.mem_cons.1 hmem with heq | htail
    · rw [← heq] at he
      cases he
    · exact h target htail
  | last es fs hes hfs =>
    have hlast : Found t passed _ before _ := .last (e :: es) fs (congrArg (e :: ·) hes) hfs
    rwa [List.append_cons passed] at hlast

theorem Found.cons_checkpoint {firsts : Topic → Nat} (h : Found t (passed ++ [.checkpoint u]) ahead
    (Function.update firsts u (currOf (passed ++ [.checkpoint u])) t) first) :
    Found t passed (.checkpoint u :: ahead) (firsts t) first := by
  cases h with
  | none h =>
    by_cases ht : t = u
    · subst ht
      rw [Function.update_self]
      have hlast : Found t passed _ (firsts t) _ := .last [] ahead rfl h
      rwa [List.append_nil] at hlast
    · rw [Function.update_of_ne ht]
      refine .none fun target hmem => ?_
      rcases List.mem_cons.1 hmem with heq | htail
      · rw [Entry.checkpoint.inj heq]
        exact Ne.symm ht
      · exact h target htail
  | last es fs hes hfs =>
    have hlast : Found t passed _ (firsts t) _ := .last (.checkpoint u :: es) fs (congrArg (.checkpoint u :: ·) hes) hfs
    rwa [List.append_cons passed] at hlast

theorem Found.pos (h : Found t passed ahead before first) (hb : 0 < before) : 0 < first := by
  cases h with
  | none _ => exact hb
  | last es fs _ _ => exact Nat.lt_of_lt_of_le (Nat.zero_lt_succ _) (four_le_currOf _)

end Found

/-! ### The journal's own bookkeeping -/

namespace Journal
variable {c : MramConfig} {j : Journal n}

/-- Outside of a replay. A topic without unchecked changes has nothing due. -/
structure Consistent (j : Journal n) : Prop where
  enabled : j.disabled = false
  at_end : j.persistence.ahead = []
  valid : ∀ e ∈ j.persistence.passed, e.topic ≠ .checkpoint → e.target.isRegistered
  due_eq : ∀ t, due t j.added = due t j.persistence.passed
  quiet : ∀ t, j.uncheckpointedChanges t = false → due t j.persistence.passed = []

theorem clear_consistent (hm : c.mramSize.toNat ≠ 0) (j : Journal n) : Consistent (j.clear c) := by
  have hlog : (j.clear c).persistence = LogPersistence.clear := if_neg hm
  exact ⟨rfl, by rw [hlog]; rfl, by simp [hlog, LogPersistence.clear], fun t => by rw [hlog]; rfl, fun t _ => by rw [hlog]; rfl⟩

theorem appendEntry_cases (p : LogPersistence n) (e : Entry n) : p.appendEntry c e = (.noSpace, p) ∨
    ∃ r, r ≠ .noSpace ∧ p.appendEntry c e = (r, ⟨p.passed ++ [e], []⟩) := by
  unfold LogPersistence.appendEntry
  split
  · exact .inl rfl
  · refine .inr ⟨_, ?_, rfl⟩
    split <;> simp

theorem store_consistent (hj : Consistent j) (e : Event n) : Consistent (j.store c e.1).2 := by
  obtain ⟨e, hvalid⟩ := e
  unfold store
  rcases appendEntry_cases (c := c) j.persistence e with happ | ⟨r, hr, happ⟩
  · rw [happ]
    simpa using hj
  · rw [happ]
    simp only [if_neg hr]
    refine ⟨hj.enabled, rfl, ?_, fun t => due_concat_congr (hj.due_eq t), fun t ht => ?_⟩
    · intro f hf
      rcases List.mem_append.1 hf with hold | hnew
      · exact hj.valid f hold
      · rw [List.mem_singleton.1 hnew]
        exact hvalid
    · cases e <;> dsimp only at ht
      case checkpoint u =>
        by_cases hu : u = t
        · rw [hu, due_concat_checkpoint]
        · rw [due_concat_foreign_checkpoint hu]
          exact hj.quiet t (by rwa [Function.update_of_ne (Ne.symm hu)] at ht)
      all_goals
        rw [due_concat rfl]
        split
        · rename_i heq
          rw [← heq, Function.update_self] at ht
          cases ht
        · rw [List.append_nil]
          exact hj.quiet t (by rwa [Function.update_of_ne (Ne.symm ‹_›)] at ht)

/-- An event is swallowed, stored, or a checkpoint that is suppressed. -/
theorem addEvent_cases (e : Entry n) : (j.addEvent c e).2 = j ∨ (j.addEvent c e).2 = (j.store c e).2 ∨
    ∃ target, e = .checkpoint target ∧ j.uncheckpointedChanges target = false ∧
      (j.addEvent c e).2 = { j with added := j.added ++ [e] } := by
  unfold addEvent
  split
  · exact .inl rfl
  · split
    · rename_i target
      split
      · exact .inr (.inl rfl)
      · exact .inr (.inr ⟨target, rfl, Bool.eq_false_of_not_eq_true ‹_›, rfl⟩)
    · exact .inr (.inl rfl)

theorem addEvent_consistent (hj : Consistent j) (e : Event n) : Consistent (j.addEvent c e.1).2 := by
  rcases addEvent_cases (c := c) (j := j) e.1 with hsame | hstore | ⟨target, heq, hbit, hadded⟩
  · rwa [hsame]
  · rw [hstore]
    exact store_consistent hj e
  · rw [hadded, heq]
    refine ⟨hj.enabled, hj.at_end, hj.valid, fun t => ?_, hj.quiet⟩
    by_cases ht : target = t
    · rw [← ht, due_concat_checkpoint, hj.quiet target hbit]
    · rw [due_concat_foreign_checkpoint ht, hj.due_eq]

end Journal

/-! ### One replay -/

/-- What was handed to one topic. -/
def handedTo (t : Topic) (calls : List (Topic × Entry n)) : List (Entry n) := (calls.filter (·.1 = t)).map Prod.snd

theorem handedTo_append (t : Topic) (a b : List (Topic × Entry n)) : handedTo t (a ++ b) = handedTo t a ++ handedTo t b := by
  simp [handedTo]

namespace System
variable {c : MramConfig} {workers : Workers n W} {s : System n W}

/-- Events of a disabled journal are swallowed. -/
theorem call_of_disabled (hs : s.journal.disabled = true) (calls : Calls n W) : ∃ w, call c calls s = { s with world := w } := by
  induction calls generalizing s with
  | done w => exact ⟨w, rfl⟩
  | addEvent e next ih =>
    have hskip : s.journal.addEvent c e.1 = (.ok, s.journal) := if_pos (.inl hs)
    rw [call, hskip]
    exact ih .ok hs

theorem foldl_of_disabled {f : System n W → Topic → System n W} (hf : ∀ s t, s.journal.disabled = true →
    ∃ w, f s t = { s with world := w }) (ts : List Topic) (hs : s.journal.disabled = true) :
    ∃ w, ts.foldl f s = { s with world := w } := by
  induction ts generalizing s with
  | nil => exact ⟨s.world, rfl⟩
  | cons t ts ih =>
    obtain ⟨w, hw⟩ := hf s t hs
    rw [List.foldl_cons, hw]
    exact ih hs

theorem preScanElem_of_disabled (c : MramConfig) (workers : Workers n W) (hs : s.journal.disabled = true) (e : Entry n) :
    ∃ w, preScanElem c workers e s = { s with world := w } := by
  refine foldl_of_disabled (fun s t hs => ?_) topics hs
  split
  · exact call_of_disabled hs _
  · exact ⟨s.world, rfl⟩

/-- The pointer has moved on to the end. -/
def atEnd (s : System n W) (w : W) : System n W :=
  { s.setPersistence ⟨s.journal.persistence.passed ++ s.journal.persistence.ahead, []⟩ with world := w }

theorem readNextElem_cons {e : Entry n} {ahead : List (Entry n)} (h : s.journal.persistence.ahead = e :: ahead) :
    s.journal.persistence.readNextElem = some (e, ⟨s.journal.persistence.passed ++ [e], ahead⟩) := by
  simp [LogPersistence.readNextElem, h]

theorem update_position (first : Topic → Nat) (t : Topic) (q : Nat) :
    Function.update (fun t => (⟨first t, 0⟩ : JournalEntryPosition)) t ⟨q, 0⟩ = fun u => ⟨Function.update first t q u, 0⟩ := by
  funext u
  by_cases hu : u = t
  · rw [hu, Function.update_self, Function.update_self]
  · rw [Function.update_of_ne hu, Function.update_of_ne hu]

/-- One element further. -/
def advance (s : System n W) (e : Entry n) (ahead : List (Entry n)) : System n W :=
  s.setPersistence ⟨s.journal.persistence.passed ++ [e], ahead⟩

theorem advance_atEnd {e : Entry n} {ahead : List (Entry n)} (h : s.journal.persistence.ahead = e :: ahead) (v w : W) :
    ({ s.advance e ahead with world := v } : System n W).atEnd w = s.atEnd w := by
  simp [advance, atEnd, setPersistence, h]

theorem isTopicValid_topic {e : Entry n} (h : e.isCheckpoint = false) : isTopicValid e.topic = true := by
  cases e with
  | checkpoint target => cases h
  | _ => rfl

theorem preScanLoop_cons (c : MramConfig) (workers : Workers n W) (fuel : Nat) (first : Topic → JournalEntryPosition) {e : Entry n} {ahead : List (Entry n)}
    (hs : s.journal.disabled = true) (hahead : s.journal.persistence.ahead = e :: ahead) (he : e.isCheckpoint = false) :
    ∃ v, preScanLoop c workers (fuel + 1) s first =
      preScanLoop c workers fuel { s.advance e ahead with world := v } first := by
  have hvalid := isTopicValid_topic he
  obtain ⟨v, hv⟩ := preScanElem_of_disabled c workers (s := s.advance e ahead) hs e
  rw [preScanLoop, readNextElem_cons hahead]
  cases e with
  | checkpoint target => cases he
  | pagestate target entry => exact ⟨s.world, rfl⟩
  | _ =>
    refine ⟨v, ?_⟩
    rw [← hv]
    exact if_pos hvalid

theorem preScanLoop_spec (workers : Workers n W) (fuel : Nat) (first : Topic → Nat) (hs : s.journal.disabled = true)
    (hfuel : s.journal.persistence.ahead.length < fuel) : ∃ (w : W) (last : Topic → Nat),
      preScanLoop c workers fuel s (fun t => ⟨first t, 0⟩) = (.ok, s.atEnd w, fun t => ⟨last t, 0⟩) ∧
      ∀ t, Found t s.journal.persistence.passed s.journal.persistence.ahead (first t) (last t) := by
  induction fuel generalizing s first with
  | zero => omega
  | succ fuel ih =>
    cases hahead : s.journal.persistence.ahead with
    | nil =>
      refine ⟨s.world, first, ?_, fun t => .none fun target hmem => absurd hmem List.not_mem_nil⟩
      simp only [preScanLoop, LogPersistence.readNextElem, hahead, atEnd, setPersistence, List.append_nil]
      rw [← hahead]
    | cons e ahead =>
      rw [hahead, List.length_cons] at hfuel
      cases hcheck : e.isCheckpoint with
      | true =>
        obtain ⟨target, rfl⟩ : ∃ target, e = .checkpoint target := by
          cases e with
          | checkpoint target => exact ⟨target, rfl⟩
          | _ => cases hcheck
        obtain ⟨w, last, hloop, hfound⟩ := ih (s := s.advance (.checkpoint target) ahead)
          (Function.update first target (currOf (s.journal.persistence.passed ++ [.checkpoint target]))) hs
          (Nat.lt_of_succ_lt_succ hfuel)
        refine ⟨w, last, ?_, fun t => (hfound t).cons_checkpoint⟩
        rw [← update_position] at hloop
        rw [preScanLoop, readNextElem_cons hahead, ← advance_atEnd hahead s.world w]
        exact hloop
      | false =>
        obtain ⟨v, hstep⟩ := preScanLoop_cons c workers fuel (fun t => ⟨first t, 0⟩) hs hahead hcheck
        obtain ⟨w, last, hloop, hfound⟩ := ih (s := { s.advance e ahead with world := v }) first hs (Nat.lt_of_succ_lt_succ hfuel)
        refine ⟨w, last, ?_, fun t => (hfound t).cons hcheck⟩
        rw [hstep, hloop, advance_atEnd hahead v w]

/-! ### The second pass -/

theorem processEntry_of_disabled (c : MramConfig) (workers : Workers n W) (hs : s.journal.disabled = true) (t : Topic)
    (e : Entry n) : ∃ w, processEntry c workers t e s = { s with world := w, handed := s.handed ++ [(t, e)] } := by
  obtain ⟨w, hw⟩ := call_of_disabled (c := c) hs (workers.processEntry t e s.tell s.world)
  exact ⟨w, by rw [processEntry, hw]⟩

theorem handedTo_map {us : List Topic} (hus : us.Nodup) (t : Topic) (e : Entry n) :
    handedTo t (us.map fun u => (u, e)) = if t ∈ us then [e] else [] := by
  have hcount := hus.count (a := t)
  have hfilter : us.filter (· = t) = List.replicate (us.count t) t := List.filter_eq t
  have hmap : handedTo t (us.map fun u => (u, e)) = (us.filter (· = t)).map fun _ => e := by
    simp [handedTo, List.filter_map, Function.comp_def]
  rw [hmap, hfilter, hcount]
  split <;> simp

/-- The other topics are informed at most once each. -/
theorem informed_of_disabled (c : MramConfig) (workers : Workers n W) (first : Topic → JournalEntryPosition) (e : Entry n)
    (ts : List Topic) (hs : s.journal.disabled = true) : ∃ (w : W) (us : List Topic), us.Sublist ts ∧
      (∀ u ∈ us, u ≠ e.target ∧ s.tell.ge (first u) = true) ∧
      ts.foldl (fun s t => if t ≠ e.target ∧ workers.isInterestedIn t e s.world ∧ s.tell.ge (first t)
        then processEntry c workers t e s else s) s = { s with world := w, handed := s.handed ++ us.map fun u => (u, e) } := by
  induction ts generalizing s with
  | nil => exact ⟨s.world, [], List.Sublist.slnil, by simp, by simp⟩
  | cons t ts ih =>
    rw [List.foldl_cons]
    split
    · rename_i ht
      obtain ⟨v, hv⟩ := processEntry_of_disabled c workers hs t e
      rw [hv]
      obtain ⟨w, us, hsub, hus, hfold⟩ := @ih { s with world := v, handed := s.handed ++ [(t, e)] } hs
      refine ⟨w, t :: us, hsub.cons_cons t, fun u hu => ?_, ?_⟩
      · rcases List.mem_cons.1 hu with rfl | htail
        · exact ⟨ht.1, ht.2.2⟩
        · exact hus u htail
      · rw [hfold]
        simp
    · obtain ⟨w, us, hsub, hus, hfold⟩ := ih hs
      exact ⟨w, us, hsub.cons t, hus, hfold⟩

/-- An element goes to its target, and to others only where their own checkpoints allow. -/
theorem applyElem_of_disabled (c : MramConfig) (workers : Workers n W) (first : Topic → JournalEntryPosition) (e : Entry n)
    (hs : s.journal.disabled = true) : ∃ w given,
      applyElem c workers first e s = { s with world := w, handed := s.handed ++ given } ∧
      ∀ t, (handedTo t given).Sublist (if s.tell.ge (first t) then [e] else []) ∧
        (t = e.target → handedTo t given = if s.tell.ge (first t) then [e] else []) := by
  obtain ⟨v, own, hown, hto⟩ : ∃ v own, (if s.tell.ge (first e.target) then processEntry c workers e.target e s else s) =
      { s with world := v, handed := s.handed ++ own } ∧ ∀ t, handedTo t own =
        if t = e.target ∧ s.tell.ge (first t) = true then [e] else [] := by
    split
    · rename_i hge
      obtain ⟨v, hv⟩ := processEntry_of_disabled c workers hs e.target e
      refine ⟨v, [(e.target, e)], hv, fun t => ?_⟩
      by_cases ht : t = e.target
      · simp [handedTo, ht, hge]
      · simp [handedTo, ht, Ne.symm ht]
    · refine ⟨s.world, [], by simp, fun t => ?_⟩
      by_cases ht : t = e.target
      · simp [handedTo, ht, ‹¬ _›]
      · simp [handedTo, ht]
  obtain ⟨w, us, hsub, hus, hfold⟩ := informed_of_disabled c workers first e topics
    (s := { s with world := v, handed := s.handed ++ own }) hs
  have hnodup : us.Nodup := hsub.nodup (by decide)
  refine ⟨w, own ++ us.map fun u => (u, e), ?_, fun t => ?_⟩
  · rw [applyElem, hown, hfold]
    simp
  · rw [handedTo_append, hto, handedTo_map hnodup]
    by_cases ht : t = e.target
    · have hnot : t ∉ us := fun hmem => (hus t hmem).1 ht
      simp [ht ▸ hnot, ht]
    · by_cases hmem : t ∈ us
      · have hge : s.tell.ge (first t) = true := (hus t hmem).2
        simp [ht, hmem, hge]
      · simp [ht, hmem]

theorem applyLoop_cons (c : MramConfig) (workers : Workers n W) (first : Topic → JournalEntryPosition) (fuel : Nat)
    {e : Entry n} {ahead : List (Entry n)} (hahead : s.journal.persistence.ahead = e :: ahead)
    (hvalid : e.topic ≠ .checkpoint → e.target.isRegistered) : applyLoop c workers first (fuel + 1) s =
      applyLoop c workers first fuel (if e.isCheckpoint then s.advance e ahead
        else applyElem c workers first e (s.advance e ahead)) := by
  rw [applyLoop, readNextElem_cons hahead]
  cases e with
  | pagestate target entry =>
    have htarget : isTopicValid target = true := by
      have hreg : target.isRegistered = true := hvalid (by simp [Entry.topic])
      cases target <;> first | rfl | cases hreg
    exact if_pos htarget
  | _ => rfl

theorem applyLoop_spec (c : MramConfig) (workers : Workers n W) {first : Topic → Nat} (hfirst : ∀ t, 0 < first t)
    {fuel : Nat} (hs : s.journal.disabled = true) (hfuel : s.journal.persistence.ahead.length < fuel)
    (hvalid : ∀ e ∈ s.journal.persistence.ahead, e.topic ≠ .checkpoint → e.target.isRegistered) : ∃ (w : W) (given : List _),
      applyLoop c workers (fun t => ⟨first t, 0⟩) fuel s = (.ok, { s.atEnd w with handed := s.handed ++ given }) ∧
      ∀ t, let es := live (first t) s.journal.persistence.passed s.journal.persistence.ahead
        (handedTo t given).Sublist es ∧
          (handedTo t given).filter (·.addressee = some t) = es.filter (·.addressee = some t) := by
  induction fuel generalizing s with
  | zero => omega
  | succ fuel ih =>
    cases hahead : s.journal.persistence.ahead with
    | nil =>
      refine ⟨s.world, [], ?_, fun t => ⟨List.Sublist.slnil, rfl⟩⟩
      simp only [applyLoop, LogPersistence.readNextElem, hahead, atEnd, setPersistence, List.append_nil]
      rw [← hahead]
    | cons e ahead =>
      rw [hahead, List.length_cons] at hfuel
      rw [hahead] at hvalid
      have hvalid' : ∀ f ∈ ahead, f.topic ≠ .checkpoint → f.target.isRegistered :=
        fun f hf => hvalid f (List.mem_cons_of_mem _ hf)
      rw [applyLoop_cons c workers _ fuel hahead (hvalid e List.mem_cons_self)]
      cases hcheck : e.isCheckpoint with
      | true =>
        obtain ⟨w, given, hloop, hgiven⟩ := @ih (s.advance e ahead) hs (Nat.lt_of_succ_lt_succ hfuel) hvalid'
        refine ⟨w, given, ?_, fun t => ?_⟩
        · rw [if_pos rfl, hloop, ← advance_atEnd hahead s.world w]
          rfl
        · simpa [live, hcheck, advance, setPersistence] using hgiven t
      | false =>
        obtain ⟨v, own, helem, hown⟩ := applyElem_of_disabled c workers (fun t => ⟨first t, 0⟩) e
          (s := s.advance e ahead) hs
        obtain ⟨w, given, hloop, hgiven⟩ := @ih { s.advance e ahead with world := v, handed := s.handed ++ own } hs
          (Nat.lt_of_succ_lt_succ hfuel) hvalid'
        refine ⟨w, own ++ given, ?_, fun t => ?_⟩
        · rw [if_neg Bool.false_ne_true, helem]
          refine hloop.trans ?_
          rw [← advance_atEnd hahead v w, List.append_assoc]
          rfl
        · obtain ⟨hsub, htarget⟩ := hown t
          obtain ⟨hrest, heq⟩ := hgiven t
          have hge : (s.advance e ahead).tell.ge ⟨first t, 0⟩ = true ↔
              first t < currOf (s.journal.persistence.passed ++ [e]) := JournalEntryPosition.ge_iff (hfirst t)
          have hlive : live (first t) s.journal.persistence.passed (e :: ahead) =
              (if (s.advance e ahead).tell.ge ⟨first t, 0⟩ then [e] else []) ++
                live (first t) (s.journal.persistence.passed ++ [e]) ahead := by
            simp [live, hcheck, hge]
          dsimp only
          rw [hlive, handedTo_append]
          refine ⟨hsub.append hrest, ?_⟩
          rw [List.filter_append, List.filter_append]
          congr 1
          by_cases ht : t = e.target
          · rw [htarget ht]
          · have hnot : ∀ es : List (Entry n), es.Sublist [e] → es.filter (·.addressee = some t) = [] := fun es hes => by
              refine List.filter_eq_nil_iff.2 fun f hf => ?_
              rw [List.mem_singleton.1 (hes.subset hf)]
              simp [Entry.addressee, hcheck, Ne.symm ht]
            have hle : (if (s.advance e ahead).tell.ge ⟨first t, 0⟩ then [e] else []).Sublist [e] := by
              split
              · exact List.Sublist.refl _
              · exact List.nil_sublist _
            rw [hnot _ (hsub.trans hle), hnot _ hle]

/-! ### Whole replays and runs -/

theorem call_consistent (hs : s.journal.Consistent) (calls : Calls n W) :
    (call c calls s).journal.Consistent ∧ (call c calls s).handed = s.handed := by
  induction calls generalizing s with
  | done w => exact ⟨hs, rfl⟩
  | addEvent e next ih => exact @ih _ { s with journal := (s.journal.addEvent c e.1).2 } (Journal.addEvent_consistent hs e)

theorem signal_consistent (workers : Workers n W) (hs : s.journal.Consistent) (ts : List Topic) :
    let s' := ts.foldl (fun s t => call c (workers.signalEndOfLog t s.world) s) s
    s'.journal.Consistent ∧ s'.handed = s.handed := by
  induction ts generalizing s with
  | nil => exact ⟨hs, rfl⟩
  | cons t ts ih =>
    obtain ⟨hcall, hhanded⟩ := call_consistent (c := c) hs (workers.signalEndOfLog t s.world)
    obtain ⟨hrest, hsame⟩ := ih hcall
    exact ⟨hrest, hsame.trans hhanded⟩

theorem rewind_of_consistent (hs : s.journal.Consistent) :
    s.journal.persistence.rewind = ⟨[], s.journal.persistence.passed⟩ := by
  rw [LogPersistence.rewind, hs.at_end, List.append_nil]

theorem applyJournalEntries_spec (c : MramConfig) (workers : Workers n W) {es : List (Entry n)} {first : Topic → Nat}
    (hdisabled : s.journal.disabled = true) (hlog : s.journal.persistence = ⟨es, []⟩)
    (henabled : Journal.Consistent { s.journal with disabled := false }) (hfound : ∀ t, Found t [] es 4 (first t)) :
    (applyJournalEntries c workers (fun t => ⟨first t, 0⟩) s).1 = .ok ∧
    (applyJournalEntries c workers (fun t => ⟨first t, 0⟩) s).2.journal.Consistent ∧ ∃ given,
      (applyJournalEntries c workers (fun t => ⟨first t, 0⟩) s).2.handed = s.handed ++ given ∧
      ∀ t, (handedTo t given).Sublist (behindCheckpoint t es) ∧ (handedTo t given).filter (·.addressee = some t) = due t es := by
  have hfirst : ∀ t, 0 < first t := fun t => (hfound t).pos (Nat.zero_lt_succ _)
  have hrewind : s.setPersistence s.journal.persistence.rewind = s.setPersistence ⟨[], es⟩ := by
    rw [hlog, LogPersistence.rewind, List.append_nil]
  obtain ⟨w, given, hloop, hgiven⟩ := applyLoop_spec c workers hfirst (s := s.setPersistence ⟨[], es⟩) hdisabled
    (Nat.lt_add_one _) (fun e he => henabled.valid e (by simpa [hlog, setPersistence] using he))
  have hjournal : ({ ({ (s.setPersistence ⟨[], es⟩).atEnd w with handed := s.handed ++ given } : System n W).journal with
      disabled := false } : Journal n) = { s.journal with disabled := false } := by
    simp [atEnd, setPersistence, hlog]
  obtain ⟨hend, hhanded⟩ := signal_consistent (c := c) workers
    (s := ⟨{ s.journal with disabled := false }, w, s.handed ++ given⟩) henabled topics
  have hresult : applyJournalEntries c workers (fun t => ⟨first t, 0⟩) s =
      (.ok, topics.foldl (fun s t => call c (workers.signalEndOfLog t s.world) s)
        ⟨{ s.journal with disabled := false }, w, s.handed ++ given⟩) := by
    rw [applyJournalEntries, hrewind]
    simp only [hloop]
    rw [← hjournal]
    rfl
  rw [hresult]
  refine ⟨rfl, hend, given, hhanded, fun t => ?_⟩
  have hlive := live_of_found (hfound t)
  have hto := hgiven t
  simp only [setPersistence, hlive] at hto
  exact hto

theorem replay_spec (c : MramConfig) (workers : Workers n W) (es : List (Entry n)) (fuel : Nat)
    (hdisabled : s.journal.disabled = true) (hlog : s.journal.persistence = ⟨[], es⟩) (hfuel : es.length < fuel)
    (henabled : Journal.Consistent { s.journal with persistence := ⟨es, []⟩, disabled := false }) :
    (replay c workers fuel s).1 = .ok ∧ (replay c workers fuel s).2.journal.Consistent ∧ ∃ given,
      (replay c workers fuel s).2.handed = s.handed ++ given ∧
      ∀ t, (handedTo t given).Sublist (behindCheckpoint t es) ∧ (handedTo t given).filter (·.addressee = some t) = due t es := by
  have hscan := preScanLoop_spec (c := c) workers fuel (fun _ => 4) hdisabled (by rwa [hlog])
  obtain ⟨w, last, hscan, hfound⟩ := hscan
  have htell : s.tell = ⟨4, 0⟩ := by
    rw [tell, hlog]
    rfl
  have hend : s.atEnd w = ⟨{ s.journal with persistence := ⟨es, []⟩ }, w, s.handed⟩ := by
    simp [atEnd, setPersistence, hlog]
  rw [replay, htell, hscan, hend]
  rw [hlog] at hfound
  exact applyJournalEntries_spec c workers (s := ⟨{ s.journal with persistence := ⟨es, []⟩ }, w, s.handed⟩)
    hdisabled rfl henabled hfound

/-- One replay of a consistent journal. -/
theorem processBuffer_spec (workers : Workers n W) (hm : c.mramSize.toNat ≠ 0) (hs : s.journal.Consistent) :
    (processBuffer c workers s).1 = .ok ∧ (processBuffer c workers s).2.journal.Consistent ∧
      ∀ t, (handedTo t (processBuffer c workers s).2.handed).Sublist (behindCheckpoint t s.journal.persistence.passed) ∧
        (handedTo t (processBuffer c workers s).2.handed).filter (·.addressee = some t) = due t s.journal.persistence.passed := by
  rw [processBuffer, if_neg hm]
  simp only [setPersistence, rewind_of_consistent hs]
  cases hlog : s.journal.persistence.passed with
  | nil =>
    refine ⟨rfl, ⟨hs.enabled, rfl, by simp, ?_, ?_⟩, fun t => ⟨List.Sublist.slnil, rfl⟩⟩
    · simpa [hlog] using hs.due_eq
    · simpa [hlog] using hs.quiet
  | cons e rest =>
    obtain ⟨hok, hend, given, hhanded, hgiven⟩ := replay_spec c workers (e :: rest) (rest.length + 2)
      (s := ⟨{ s.journal with persistence := ⟨[], e :: rest⟩, disabled := true },
        topics.foldl (fun w t => workers.resetState t w) s.world, []⟩) rfl rfl (Nat.lt_add_one _)
      ⟨rfl, rfl, by simpa [hlog] using hs.valid, by simpa [hlog] using hs.due_eq, by simpa [hlog] using hs.quiet⟩
    refine ⟨hok, hend, fun t => ?_⟩
    dsimp only
    rw [hhanded]
    exact hgiven t

theorem step_consistent (hm : c.mramSize.toNat ≠ 0) (hs : s.journal.Consistent) (op : Op n W) :
    (step c workers s op).journal.Consistent := by
  cases op with
  | addEvent e => exact Journal.addEvent_consistent hs e
  | clear => exact Journal.clear_consistent hm _
  | processBuffer => exact (processBuffer_spec workers hm hs).2.1
  | work f => exact hs

theorem run_consistent (workers : Workers n W) (hm : c.mramSize.toNat ≠ 0) (w : W) (ops : List (Op n W)) :
    (run c workers w ops).journal.Consistent := by
  induction ops using List.reverseRecOn with
  | nil => exact Journal.clear_consistent hm _
  | append_singleton ops op ih =>
    rw [run, List.foldl_concat]
    exact step_consistent hm ih op

/-- Every replay hands each topic, of the entries addressed to it, those added behind its last checkpoint, each once and
in order; what else a topic gets lies behind its last stored checkpoint. A checkpoint is suppressed only when nothing
addressed to its topic is stored behind the last one. -/
theorem dispatch_exact (c : MramConfig) (hm : c.mramSize.toNat ≠ 0) (workers : Workers n W) (w : W) (ops : List (Op n W))
    (t : Topic) :
    let s := run c workers w ops
    let handed := handedTo t (processBuffer c workers s).2.handed
    (processBuffer c workers s).1 = .ok ∧
      handed.filter (·.addressee = some t) = due t s.journal.added ∧
      handed.Sublist (behindCheckpoint t s.journal.persistence.passed) ∧
      (s.journal.uncheckpointedChanges t = false → due t s.journal.persistence.passed = []) := by
  have hs := run_consistent workers hm w ops
  obtain ⟨hok, -, hgiven⟩ := processBuffer_spec workers hm hs
  obtain ⟨hsub, hdue⟩ := hgiven t
  exact ⟨hok, hdue.trans (hs.due_eq t).symm, hsub, hs.quiet t⟩

/-- Area management alone: the state is `mUnfinishedTransaction`, and the end of the log writes the checkpoint. -/
def areaManagement (n : Nat) : Workers n Bool where
  resetState t w := if t = .areaMgmt then false else w
  isInterestedIn t e w := t = .areaMgmt && w && (e.topic = .superblock || e.topic = .summaryCache)
  preScan _ _ _ w := .done w
  processEntry t e _ w := .done (if t = .areaMgmt && e.topic = .areaMgmt then true else w)
  signalEndOfLog t w := if t = .areaMgmt && w then .addEvent ⟨.checkpoint .areaMgmt, fun h => absurd rfl h⟩ fun _ => .done w else .done w

def areaInitialised (n : Nat) : List (Op n Bool) :=
  [.addEvent ⟨.areaMgmt (Bytes.Word.ofNat 2 5) (.initAreaAs .data), fun _ => rfl⟩,
   .addEvent ⟨.superblock (.areaMap (Bytes.Word.ofNat 2 5) (.type .data)), fun _ => rfl⟩]

theorem dispatch_exact_areaInitialised : let s := run .default (areaManagement 32) false (areaInitialised 32)
    (handedTo .areaMgmt (processBuffer .default (areaManagement 32) s).2.handed).filter (·.addressee = some .areaMgmt) =
      due .areaMgmt s.journal.added ∧ (due .areaMgmt s.journal.added).length = 1 :=
  ⟨(dispatch_exact .default (by decide) (areaManagement 32) false (areaInitialised 32) .areaMgmt).2.1, by decide +kernel⟩

/-- A topic also gets entries of others. -/
theorem dispatch_not_only_addressed : ¬ ∀ (c : MramConfig) (n : Nat) (W : Type) (workers : Workers n W) (w : W)
    (ops : List (Op n W)) (t : Topic), let s := run c workers w ops
    handedTo t (processBuffer c workers s).2.handed = due t s.journal.added := by
  intro hall
  have hlength := congrArg List.length (hall .default 32 Bool (areaManagement 32) false (areaInitialised 32) .areaMgmt)
  exact absurd hlength (by decide +kernel)

end System
end Paffs.Persistence
