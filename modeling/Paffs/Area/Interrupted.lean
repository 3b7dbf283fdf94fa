import Paffs.Area.Recovery

/-! Runs with power losses inside the operations of area management. -/
namespace Paffs.Areas
open Resume
variable {P : Type} {c : Config} (faults : Faults P) {d d' d'' : Device P}

namespace Device

/-! ### Nothing is left unfinished between operations -/

/-- What is logged between two states leaves no transaction open. -/
def Idle (d d' : Device P) : Prop := ∃ log, d'.log = d.log ++ log ∧ ∀ before, unfinished before = none → unfinished (before ++ log) = none

theorem Idle.refl (d : Device P) : Idle d d := ⟨[], (List.append_nil _).symm, fun before h => by rwa [List.append_nil]⟩

theorem Idle.trans (h : Idle d d') (h' : Idle d' d'') : Idle d d'' := by
  obtain ⟨log, hlog, hidle⟩ := h
  obtain ⟨log', hlog', hidle'⟩ := h'
  refine ⟨log ++ log', by rw [hlog', hlog, List.append_assoc], fun before hbefore => ?_⟩
  rw [← List.append_assoc]
  exact hidle' _ (hidle before hbefore)

/-- A checkpoint at the end closes what was opened. -/
theorem Logged.idle (h : Logged c d d') {log : List Event} (hend : d'.log = log ++ [.checkpoint .areaMgmt]) : Idle d d' := by
  obtain ⟨more, hmore, -⟩ := h
  refine ⟨more, hmore, fun before hbefore => ?_⟩
  rcases List.eq_nil_or_concat more with rfl | ⟨init, last, rfl⟩
  · rwa [List.append_nil]
  · rw [List.concat_eq_append] at hmore ⊢
    rw [hmore, ← List.append_assoc] at hend
    obtain rfl := List.singleton_inj.1 (List.append_inj_right' hend rfl)
    rw [← List.append_assoc]
    exact unfinished_checkpoint _

/-- Entries of others are nothing to area management while no transaction is open. -/
theorem unfinished_others {before log : List Event} (hbefore : unfinished before = none)
    (hlog : ∀ entry ∈ log, entry.ofAreaMgmt = false ∧ entry ≠ .checkpoint .areaMgmt) : unfinished (before ++ log) = none := by
  rw [unfinished_append fun entry he => (hlog entry he).2, hbefore]
  induction log with
  | nil => rfl
  | cons entry log ih =>
    have hnone : processEntry none entry = none := if_neg (Bool.eq_false_iff.1 (hlog entry List.mem_cons_self).1)
    rw [List.foldl_cons, hnone]
    exact ih fun e he => hlog e (List.mem_cons_of_mem _ he)

theorem Silent.idle (h : Silent d d') : Idle d d' := by
  obtain ⟨-, log, hlog, hmem⟩ := h
  refine ⟨log, hlog, fun before hbefore => unfinished_others hbefore fun entry he => ?_⟩
  have hentry := hmem entry he
  cases entry with
  | commit | remove | reset | setStatus | setStatusBlock => exact ⟨rfl, by simp⟩
  | _ => cases hentry

theorem operation_idle (d : Device P) (entry : Event) : Idle d (d.operation c entry) := by
  rcases d.operation_log (c := c) entry with ⟨haccepted, hlog⟩ | ⟨-, hsame⟩
  · refine ⟨[entry], hlog, fun before hbefore => unfinished_others hbefore fun e he => ?_⟩
    rw [List.mem_singleton.1 he]
    cases entry with
    | type | status | increaseErasecount | position | swap | activeArea | usedAreas => exact ⟨rfl, by simp⟩
    | _ => cases haccepted
  · rw [hsame]
    exact .refl d

theorem addEvent_idle (entry : Event) (h : entry.ofAreaMgmt = false ∧ entry ≠ .checkpoint .areaMgmt) (d : Device P) :
    Idle d (d.addEvent entry) :=
  ⟨[entry], rfl, fun before hbefore => unfinished_others hbefore fun e he => by rwa [List.mem_singleton.1 he]⟩

theorem moveValidDataToNewArea_idle (src dst : AreaPos) (summary : Summary) :
    Idle d (d.moveValidDataToNewArea c faults src dst summary).2 :=
  addEvent_idle (.moveValidData src) ⟨rfl, by simp⟩ d

theorem deleteAreaContents_idle (area swappedArea : AreaPos) :
    Idle d (d.deleteAreaContents c faults area swappedArea false).2 := by
  have hlogged := deleteAreaContents_logged faults (c := c) (d := d) area swappedArea false
  unfold deleteAreaContents at hlogged ⊢
  split
  · exact .refl d
  · rename_i hlt
    split
    · exact .refl d
    · rename_i htype
      rw [if_neg hlt, if_neg htype] at hlogged
      exact hlogged.idle rfl

/-- A deletion that fails retires the area; what follows is not area management's. -/
theorem deleteAreaContents_failed {d₀ : Device P} (h : Logged c d d₀) {area : AreaPos} (swappedArea : AreaPos)
    (hlt : ¬ area ≥ c.areasNo) (htype : ¬ d₀.getType c area = .retired) (hfail : (d₀.deleteAreaContents c faults area swappedArea true).1 ≠ .ok) :
    Idle d (d₀.deleteAreaContents c faults area swappedArea true).2 := by
  have hretired : (d₀.eraseOrRetire c faults (erasedArea area swappedArea)).1 ≠ .ok →
      Idle d (d₀.eraseOrRetire c faults (erasedArea area swappedArea)).2 := by
    have hlogged := h.trans (eraseOrRetire_logged faults (d := d₀) (erasedArea area swappedArea))
    unfold eraseOrRetire at hlogged ⊢
    split
    · exact fun hne => absurd rfl hne
    · rename_i nand heq
      rw [heq] at hlogged
      exact fun _ => hlogged.idle rfl
  unfold deleteAreaContents at hfail ⊢
  rw [if_neg hlt, if_neg htype] at hfail ⊢
  exact (((hretired hfail).trans (operation_idle _ (.increaseErasecount area))).trans (resetASWritten_silent area).idle).trans
    (deleteSummary_silent area).idle

theorem deleteArea_idle (area : AreaPos) : Idle d (d.deleteArea c faults area).2 := by
  by_cases hok : (d.deleteArea c faults area).1 = .ok
  · obtain ⟨reset, remove, htransaction⟩ := deleteArea_transaction faults hok
    exact (deleteArea_logged faults area).idle htransaction.log
  · unfold deleteArea at hok ⊢
    split
    · exact .refl d
    · rename_i hlt
      split
      · exact .refl d
      · rename_i htype
        rw [if_neg hlt, if_neg htype] at hok
        have hbegun : Logged c d (d.addEvent (.deleteArea area)) := (Logged.refl d).addEvent rfl
        have hfailed := deleteAreaContents_failed faults hbegun 0 hlt htype
        split
        · rename_i d₁ heq
          rw [heq] at hok
          exact absurd rfl hok
        · rename_i r d₁ hne heq
          rw [heq] at hfailed
          exact hfailed hne

theorem idle_kept : Kept c faults Idle where
  refl := .refl
  trans := .trans
  operation := operation_idle
  silent := Silent.idle
  checkpoint d := addEvent_idle _ ⟨rfl, by simp⟩ d
  initAreaAs _ area type := (initAreaAs_logged area type).idle (initAreaAs_transaction area type).log
  closeArea _ area := (closeArea_logged area).idle (closeArea_transaction area).log
  retireArea _ area := (retireArea_logged area).idle (retireArea_transaction area).log
  deleteAreaContents _ area swappedArea := deleteAreaContents_idle faults area swappedArea
  deleteArea _ area := deleteArea_idle faults area
  moveValidDataToNewArea _ src dst summary := moveValidDataToNewArea_idle faults src dst summary

end Device

/-! ### The whole device -/

namespace Chip
variable {s : Chip P}

def areasOf (journal : List Entry) : List Event :=
  journal.filterMap fun
    | .areas entry => some entry
    | .rootnode _ => none

/-- The mount, and area management at the end of the log. -/
def recover (c : Config) (faults : Faults P) (s : Chip P) (cache : List (Option Elem)) : Chip P :=
  (s.mount c cache).work (·.signalEndOfLog c faults (unfinished (areasOf s.journal)))

theorem areasOf_append (journal : List Entry) (log : List Event) : areasOf (journal ++ log.map .areas) = areasOf journal ++ log := by
  rw [areasOf, List.filterMap_append, List.filterMap_map]
  exact congrArg _ (List.filterMap_some ..)

/-- No operation on areas is under way. -/
def AtRest (s : Chip P) : Prop := unfinished (areasOf s.journal) = none

theorem AtRest.work (h : s.AtRest) {f : Device P → Device P}
    (hf : Device.Idle { s.device with log := [] } (f { s.device with log := [] })) : (s.work f).AtRest := by
  obtain ⟨log, hlog, hidle⟩ := hf
  have hjournal : (s.work f).journal = s.journal ++ log.map .areas := congrArg (fun l : List Event => s.journal ++ l.map Entry.areas) hlog
  unfold AtRest
  rw [hjournal, areasOf_append]
  exact hidle _ h

theorem AtRest.step (h : s.AtRest) (st : Step P) (hst : s.Meets st) : (s.step faults c st).AtRest := by
  cases st with
  | areas op => exact AtRest.work (f := (·.step c faults op)) h ((Device.idle_kept faults).step faults op hst)
  | operation entry => exact AtRest.work (f := (·.operation c entry)) h (Device.operation_idle _ entry)
  | registerRootnode addr =>
    change (s.registerRootnode addr).AtRest
    unfold AtRest Chip.registerRootnode
    split
    · exact h
    · change unfinished (List.filterMap _ (s.journal ++ [.rootnode addr])) = none
      rw [List.filterMap_append]
      exact (congrArg unfinished (List.append_nil _)).trans h
  | commitSuperIndex asDirty stored =>
    change (s.commitSuperIndex asDirty stored).AtRest
    unfold AtRest Chip.commitSuperIndex
    split
    · exact h
    · cases stored with
      | true =>
        change unfinished (areasOf (s.journal ++ [Event.checkpoint .superblock].map .areas)) = none
        rw [areasOf_append]
        exact Device.unfinished_others h fun entry he => by
          rw [List.mem_singleton.1 he]
          exact ⟨rfl, by simp⟩
      | false => exact (congrArg (fun journal => unfinished (areasOf journal)) (List.append_nil _)).trans h
  | readSuperIndex =>
    exact AtRest.work (f := (·.setUsedAreas s.index.sb.usedAreas)) (s := { s with
      device := { s.device with sb := s.index.sb }
      rootnodeAddr := s.index.rootnodeAddr
      mRootnodeDirty := false }) h (Device.operation_idle (c := c) _ (.usedAreas _))
  | clear => rfl
  | powerLoss cache =>
    have hjournal : (s.mount c cache).journal = s.journal := (foldl_preScan s.journal _).2.2.1
    change unfinished (areasOf (s.mount c cache).journal) = none
    rw [hjournal]
    exact h

theorem AtRest.run (h : s.AtRest) (steps : List (Step P)) (hsteps : s.Along faults c steps) : (s.run faults c steps).AtRest := by
  induction steps generalizing s with
  | nil => exact h
  | cons st steps ih => exact ih (h.step faults st hsteps.1) hsteps.2

end Chip
end Paffs.Areas
