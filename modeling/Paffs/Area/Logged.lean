import Paffs.Area.Operations
import Paffs.Area.Replay

/-! The operations on areas log all they do to the superblock. -/
namespace Paffs.Areas
variable {P : Type} {c : Config} (faults : Faults P) {d d' d'' : Device P}

def Event.ofSummaryCache : Event → Bool
  | .commit _ | .remove _ | .reset _ | .setStatus _ _ _ | .setStatusBlock _ _ => true
  | _ => false

theorem Event.not_ofSuperblock {entry : Event} (h : entry.ofSummaryCache = true) : entry.ofSuperblock = false := by
  cases entry with
  | commit | remove | reset | setStatus | setStatusBlock => rfl
  | _ => cases h

namespace Device

/-- What is logged between two states says what has become of the superblock. -/
def Logged (c : Config) (d d' : Device P) : Prop := ∃ log, d'.log = d.log ++ log ∧ d'.sb = replayed c log d.sb

/-- Only the summary cache logs, and nothing happens to the superblock. -/
def Silent (d d' : Device P) : Prop := d'.sb = d.sb ∧ ∃ log, d'.log = d.log ++ log ∧ ∀ entry ∈ log, entry.ofSummaryCache = true

theorem Logged.refl (d : Device P) : Logged c d d := ⟨[], (List.append_nil _).symm, rfl⟩

theorem Logged.trans (h : Logged c d d') (h' : Logged c d' d'') : Logged c d d'' := by
  obtain ⟨log, hlog, hsb⟩ := h
  obtain ⟨log', hlog', hsb'⟩ := h'
  exact ⟨log ++ log', by rw [hlog', hlog, List.append_assoc], by rw [hsb', hsb, replayed_append]⟩

/-- Only the superblock and the log matter. -/
theorem Logged.congr (h : Logged c d d') (hsb : d''.sb = d'.sb) (hlog : d''.log = d'.log) : Logged c d d'' := by
  obtain ⟨log, hl, hs⟩ := h
  exact ⟨log, hlog.trans hl, hsb.trans hs⟩

theorem Silent.refl (d : Device P) : Silent d d := ⟨rfl, [], (List.append_nil _).symm, by simp⟩

theorem Silent.trans (h : Silent d d') (h' : Silent d' d'') : Silent d d'' := by
  obtain ⟨hsb, log, hlog, hmem⟩ := h
  obtain ⟨hsb', log', hlog', hmem'⟩ := h'
  refine ⟨hsb'.trans hsb, log ++ log', by rw [hlog', hlog, List.append_assoc], fun entry he => ?_⟩
  rcases List.mem_append.1 he with he | he
  · exact hmem entry he
  · exact hmem' entry he

theorem Silent.of_same (hsb : d'.sb = d.sb) (hlog : d'.log = d.log) : Silent d d' :=
  ⟨hsb, [], by rw [hlog, List.append_nil], by simp⟩

theorem Silent.addEvent (entry : Event) (h : entry.ofSummaryCache = true) (hsb : d'.sb = d.sb) (hlog : d'.log = d.log ++ [entry]) :
    Silent d d' :=
  ⟨hsb, [entry], hlog, fun e he => by rwa [List.mem_singleton.1 he]⟩

theorem Silent.logged (h : Silent d d') : Logged c d d' := by
  obtain ⟨hsb, log, hlog, hmem⟩ := h
  exact ⟨log, hlog, by rw [hsb, replayed_of_not log d.sb fun e he => Event.not_ofSuperblock (hmem e he)]⟩

/-! ### `Superblock` -/

/-- An operation logs its own entry, unless it is refused. -/
theorem operation_log (d : Device P) (entry : Event) :
    (entry.accepted c = true ∧ (d.operation c entry).log = d.log ++ [entry]) ∨
      (entry.accepted c = false ∧ d.operation c entry = d) := by
  cases entry with
  | type area type =>
    change (decide (area < c.areasNo) = true ∧ (d.setType c area type).log = _) ∨ (decide (area < c.areasNo) = false ∧ d.setType c area type = d)
    unfold setType
    split_ifs with hge
    · exact .inr ⟨by simpa using hge, rfl⟩
    · exact .inl ⟨by simpa using hge, rfl⟩
  | status area status =>
    change (decide (area < c.areasNo) = true ∧ (d.setStatus c area status).log = _) ∨ (decide (area < c.areasNo) = false ∧ d.setStatus c area status = d)
    unfold setStatus
    split_ifs with hge
    · exact .inr ⟨by simpa using hge, rfl⟩
    · exact .inl ⟨by simpa using hge, rfl⟩
  | increaseErasecount area =>
    change (decide (area < c.areasNo) = true ∧ (d.increaseErasecount c area).log = _) ∨ (decide (area < c.areasNo) = false ∧ d.increaseErasecount c area = d)
    unfold increaseErasecount
    split_ifs with hge
    · exact .inr ⟨by simpa using hge, rfl⟩
    · exact .inl ⟨by simpa using hge, rfl⟩
  | position area pos =>
    change (decide (area < c.areasNo) = true ∧ (d.setPos c area pos).log = _) ∨ (decide (area < c.areasNo) = false ∧ d.setPos c area pos = d)
    unfold setPos
    split_ifs with hge
    · exact .inr ⟨by simpa using hge, rfl⟩
    · exact .inl ⟨by simpa using hge, rfl⟩
  | swap a b =>
    change ((decide (a < c.areasNo) && decide (b < c.areasNo)) = true ∧ (d.swapAreaPosition c a b).log = _) ∨
      ((decide (a < c.areasNo) && decide (b < c.areasNo)) = false ∧ d.swapAreaPosition c a b = d)
    unfold swapAreaPosition
    split_ifs with hge
    · refine .inr ⟨?_, rfl⟩
      rcases hge with ha | hb
      · rw [decide_eq_false (Nat.not_lt.2 ha), Bool.false_and]
      · rw [decide_eq_false (Nat.not_lt.2 hb), Bool.and_false]
    · rw [not_or, Nat.not_le, Nat.not_le] at hge
      exact .inl ⟨by rw [decide_eq_true hge.1, decide_eq_true hge.2]; rfl, rfl⟩
  | activeArea type area =>
    change (decide (type ≠ .no) = true ∧ (d.setActiveArea type area).log = _) ∨ (decide (type ≠ .no) = false ∧ d.setActiveArea type area = d)
    unfold setActiveArea
    split_ifs with hno
    · exact .inr ⟨by simpa using hno, rfl⟩
    · exact .inl ⟨by simpa using hno, rfl⟩
  | usedAreas num => exact .inl ⟨rfl, rfl⟩
  | _ => exact .inr ⟨rfl, rfl⟩

theorem operation_logged (d : Device P) (entry : Event) : Logged c d (d.operation c entry) := by
  rcases d.operation_log (c := c) entry with ⟨-, hlog⟩ | ⟨-, hsame⟩
  · exact ⟨[entry], hlog, d.operation_on entry⟩
  · rw [hsame]
    exact .refl d

variable (area : AreaPos)

theorem setType_logged (type : AreaType) : Logged c d (d.setType c area type) := d.operation_logged (.type area type)
theorem setStatus_logged (status : AreaStatus) : Logged c d (d.setStatus c area status) := d.operation_logged (.status area status)
theorem increaseErasecount_logged : Logged c d (d.increaseErasecount c area) := d.operation_logged (.increaseErasecount area)
theorem swapAreaPosition_logged (b : AreaPos) : Logged c d (d.swapAreaPosition c area b) := d.operation_logged (.swap area b)
theorem setActiveArea_logged (type : AreaType) : Logged c d (d.setActiveArea type area) := d.operation_logged (.activeArea type area)
theorem setUsedAreas_logged (num : Nat) : Logged c d (d.setUsedAreas num) := d.operation_logged (.usedAreas num)

/-! ### The summary cache -/

variable (e : Elem) (summary : Summary)

theorem deleteSummary_silent : Silent d (d.deleteSummary area) := by
  unfold deleteSummary
  split
  · exact .addEvent (.remove area) rfl rfl rfl
  · exact .refl d

theorem resetASWritten_silent : Silent d (d.resetASWritten area) := by
  unfold resetASWritten
  split
  · exact .addEvent (.reset area) rfl rfl rfl
  · exact .refl d

theorem loadElem_silent (slot : Nat) : Silent d (d.loadElem c slot area) := by
  unfold loadElem
  dsimp only
  split
  · exact .of_same rfl rfl
  · exact .of_same rfl rfl

theorem writeAreasummary_silent : Silent d (d.writeAreasummary c faults e).2 := by
  unfold writeAreasummary
  split_ifs
  · exact .refl d
  · exact .refl d
  · dsimp only
    split
    · exact .addEvent (.commit e.area) rfl rfl rfl
    · exact .of_same rfl rfl

theorem commitAndEraseElem_silent : Silent d (d.commitAndEraseElem c faults e).2 := by
  have h := writeAreasummary_silent faults (c := c) (d := d) e
  unfold commitAndEraseElem
  split
  · rename_i d' heq
    rw [heq] at h
    exact h.trans (.of_same rfl rfl)
  · rename_i r d' _ heq
    rwa [heq] at h

theorem freeNextBestSummaryCacheEntry_silent : Silent d (d.freeNextBestSummaryCacheEntry c faults).2 := by
  unfold freeNextBestSummaryCacheEntry
  split
  · exact .of_same rfl rfl
  · split
    · exact commitAndEraseElem_silent faults _
    · exact .refl d

theorem loadUnbufferedArea_silent : Silent d (d.loadUnbufferedArea c faults area).2 := by
  have h := freeNextBestSummaryCacheEntry_silent faults (c := c) (d := d)
  unfold loadUnbufferedArea
  split
  · exact loadElem_silent area _
  · split
    · rename_i d' heq
      rwa [heq] at h
    · rename_i d' heq
      rw [heq] at h
      split
      · exact h.trans (loadElem_silent area _)
      · exact h
    · rename_i heq
      rwa [heq] at h

theorem setSummaryStatus_silent : Silent d (d.setSummaryStatus c faults area summary).2 := by
  have h := loadUnbufferedArea_silent faults (c := c) (d := d) area
  unfold setSummaryStatus
  dsimp only
  split
  · exact .addEvent (.setStatusBlock area _) rfl rfl rfl
  · split
    · rename_i d' heq
      rw [heq] at h
      exact h.trans (writeAreasummary_silent faults _)
    · rename_i d' heq
      rw [heq] at h
      exact h.trans (.addEvent (.setStatusBlock area _) rfl rfl rfl)
    · rename_i heq
      rwa [heq] at h

/-! ### Whole areas -/

variable (type : AreaType)

/-- An entry that is not the superblock's is added at the end. -/
theorem Logged.addEvent (h : Logged c d d') {entry : Event} (hentry : entry.ofSuperblock = false) :
    Logged c d (d'.addEvent entry) := by
  obtain ⟨log, hlog, hsb⟩ := h
  refine ⟨log ++ [entry], ?_, ?_⟩
  · rw [← List.append_assoc, ← hlog]
    rfl
  · rw [replayed_append, ← hsb, replayed_of_not [entry] d'.sb fun e he => by rwa [List.mem_singleton.1 he]]
    rfl

theorem Logged.withNand (h : Logged c d d') (nand : Nand P) : Logged c d { d' with nand := nand } := h.congr rfl rfl

theorem initAreaAs_logged : Logged c d (d.initAreaAs c area type) := by
  have hbegun : Logged c d (d.addEvent (.initAreaAs area type)) := (Logged.refl d).addEvent rfl
  have htyped := hbegun.trans (setType_logged area type)
  unfold initAreaAs
  dsimp only
  split
  · exact ((htyped.trans (setUsedAreas_logged _)).trans (setActiveArea_logged area type)).addEvent rfl
  · exact (htyped.trans (setActiveArea_logged area type)).addEvent rfl

theorem closeArea_logged : Logged c d (d.closeArea c area) := by
  have hbegun : Logged c d (d.addEvent (.closeArea area)) := (Logged.refl d).addEvent rfl
  exact ((hbegun.trans (setStatus_logged area .closed)).trans (setActiveArea_logged 0 _)).addEvent rfl

theorem retireArea_logged : Logged c d (d.retireArea c area) := by
  have hbegun : Logged c d (d.addEvent (.retireArea area)) := (Logged.refl d).addEvent rfl
  have hclosed := hbegun.trans (setStatus_logged area .closed)
  unfold retireArea
  dsimp only
  split
  · exact (((hclosed.trans (setUsedAreas_logged _)).trans (setType_logged area .retired)).withNand _).addEvent rfl
  · exact ((hclosed.trans (setType_logged area .retired)).withNand _).addEvent rfl

theorem eraseOrRetire_logged : Logged c d (d.eraseOrRetire c faults area).2 := by
  unfold eraseOrRetire
  split
  · exact (Logged.refl d).withNand _
  · exact ((Logged.refl d).withNand _).trans (retireArea_logged area)

theorem addEventUnless_logged (quiet : Bool) {entry : Event} (hentry : entry.ofSuperblock = false) :
    Logged c d (d.addEventUnless quiet entry) := by
  unfold addEventUnless
  split
  · exact .refl d
  · exact (Logged.refl d).addEvent hentry

theorem deleteAreaContents_logged (swappedArea : AreaPos) (quiet : Bool) :
    Logged c d (d.deleteAreaContents c faults area swappedArea quiet).2 := by
  unfold deleteAreaContents
  split
  · exact .refl d
  · split
    · exact .refl d
    · exact ((((addEventUnless_logged quiet rfl).trans (eraseOrRetire_logged faults _)).trans (increaseErasecount_logged area)).trans
        (resetASWritten_silent area).logged).trans ((deleteSummary_silent area).logged.trans (addEventUnless_logged quiet rfl))

theorem deleteArea_logged : Logged c d (d.deleteArea c faults area).2 := by
  unfold deleteArea
  split
  · exact .refl d
  · split
    · exact .refl d
    · have hcontents : Logged c d ((d.addEvent (.deleteArea area)).deleteAreaContents c faults area 0 true).2 :=
        ((Logged.refl d).addEvent rfl).trans (deleteAreaContents_logged faults area 0 true)
      split
      · rename_i d' heq
        rw [heq] at hcontents
        exact (((hcontents.trans (setStatus_logged area .empty)).trans (setType_logged area .unset)).trans
          (setUsedAreas_logged _)).addEvent rfl
      · rename_i r d' _ heq
        rwa [heq] at hcontents

/-! ### Garbage collection -/

theorem moveValidDataToNewArea_logged (src dst : AreaPos) : Logged c d (d.moveValidDataToNewArea c faults src dst summary).2 :=
  ((Logged.refl d).addEvent rfl).withNand _

/-- A relation that the single operations stand in, one after the other. -/
structure Kept (c : Config) (faults : Faults P) (R : Device P → Device P → Prop) : Prop where
  refl : ∀ d, R d d
  trans : ∀ {d d' d''}, R d d' → R d' d'' → R d d''
  operation : ∀ d entry, R d (d.operation c entry)
  silent : ∀ {d d'}, Silent d d' → R d d'
  checkpoint : ∀ d, R d (d.addEvent (.checkpoint .garbage))
  initAreaAs : ∀ d area type, R d (d.initAreaAs c area type)
  closeArea : ∀ d area, R d (d.closeArea c area)
  retireArea : ∀ d area, R d (d.retireArea c area)
  deleteAreaContents : ∀ d area swappedArea, R d (d.deleteAreaContents c faults area swappedArea false).2
  deleteArea : ∀ d area, R d (d.deleteArea c faults area).2
  moveValidDataToNewArea : ∀ d src dst summary, R d (d.moveValidDataToNewArea c faults src dst summary).2

namespace Kept
variable {faults} {R : Device P → Device P → Prop} (h : Kept c faults R)
include h

theorem clearOldPlace (d : Device P) (fav : Candidate) : R d (d.clearOldPlace c faults fav).2 := by
  have hcontents := h.deleteAreaContents d fav.area (d.getActiveArea .garbageBuffer)
  unfold Device.clearOldPlace
  dsimp only
  split
  · exact h.trans hcontents (h.silent (setSummaryStatus_silent faults _ _))
  · exact h.trans (h.trans hcontents (h.operation _ (.activeArea .garbageBuffer 0))) (h.silent (setSummaryStatus_silent faults _ _))

theorem finishCollection (d : Device P) (target : AreaType) (fav : Candidate) : R d (d.finishCollection c faults target fav).2 := by
  have hswapped := h.operation d (.swap fav.area (d.getActiveArea .garbageBuffer))
  have hend : ∀ {d' : Device P}, R d d' →
      R d ((if target = .unset then d' else d'.initAreaAs c fav.area target).addEvent (.checkpoint .garbage)) := by
    intro d' hd
    split
    · exact h.trans hd (h.checkpoint _)
    · exact h.trans (h.trans hd (h.initAreaAs _ _ _)) (h.checkpoint _)
  have hcleared := h.trans hswapped (h.clearOldPlace _ fav)
  unfold Device.finishCollection
  dsimp only
  by_cases hvalid : fav.containsValidData = true
  · simp only [hvalid, if_true]
    split
    · exact hcleared
    · exact hend hcleared
  · simp only [hvalid, if_false, Bool.false_eq_true]
    exact hend hswapped

theorem collectRounds (k : Nat) (d : Device P) (target : AreaType) : R d (d.collectRounds c faults k target).2 := by
  induction k generalizing d with
  | zero => exact h.refl d
  | succ k ih =>
    rw [Device.collectRounds]
    split_ifs
    · exact h.refl d
    · have hmoved := h.moveValidDataToNewArea d (d.findNextBestArea c target).area (d.getActiveArea .garbageBuffer)
        (d.findNextBestArea c target).summary
      split
      · rename_i d' heq
        rw [heq] at hmoved
        exact h.trans hmoved (h.finishCollection _ target _)
      · rename_i d' heq
        rwa [heq] at hmoved
    · have hdeleted := h.deleteArea d (d.findNextBestArea c target).area
      split
      · rename_i d' heq
        rw [heq] at hdeleted
        exact h.trans hdeleted (h.finishCollection _ target _)
      · rename_i r d' _ heq
        rw [heq] at hdeleted
        exact h.trans hdeleted (ih d')

theorem commitAreaSummaryHard (d : Device P) (order : List AreaPos) : R d (d.commitAreaSummaryHard c faults order).2 := by
  unfold Device.commitAreaSummaryHard
  split
  · exact h.refl d
  · rename_i area e heq
    have hmoved := h.moveValidDataToNewArea d area (d.getActiveArea .garbageBuffer) e.entries
    dsimp only
    split
    · rename_i d' heq
      rwa [heq] at hmoved
    · rename_i d' heq
      rw [heq] at hmoved
      split
      · exact h.trans hmoved (h.deleteArea d' area)
      · exact h.trans (h.trans (h.trans hmoved (h.operation _ (.swap area _))) (h.deleteAreaContents _ area _))
          (h.silent (setSummaryStatus_silent faults _ _))

end Kept
end Device

/-- Between the operations on areas only the summary cache logs. -/
def Op.LogsSilently (op : Op P) (d : Device P) : Prop :=
  match op with
  | .pages _ _ _ log => ∃ more, log = d.log ++ more ∧ ∀ entry ∈ more, entry.ofSummaryCache = true
  | _ => True

namespace Device

theorem Kept.step {R : Device P → Device P → Prop} (h : Kept c faults R) (op : Op P) (hop : op.LogsSilently d) :
    R d (d.step c faults op) := by
  cases op with
  | initAreaAs area type => exact h.initAreaAs d area type
  | closeArea area => exact h.closeArea d area
  | retireArea area => exact h.retireArea d area
  | deleteArea area => exact h.deleteArea d area
  | deleteAreaContents area swappedArea => exact h.deleteAreaContents d area swappedArea
  | collectGarbage target => exact h.collectRounds _ d target
  | commitAreaSummaryHard order => exact h.commitAreaSummaryHard d order
  | pages flash writes cache log =>
    obtain ⟨more, hlog, hmem⟩ := hop
    exact h.silent ⟨rfl, more, hlog, hmem⟩

theorem logged_kept : Kept c faults (Logged c) where
  refl := .refl
  trans := .trans
  operation := operation_logged
  silent := Silent.logged
  checkpoint d := (Logged.refl d).addEvent rfl
  initAreaAs _ area type := initAreaAs_logged area type
  closeArea _ area := closeArea_logged area
  retireArea _ area := retireArea_logged area
  deleteAreaContents _ area swappedArea := deleteAreaContents_logged faults area swappedArea false
  deleteArea _ area := deleteArea_logged faults area
  moveValidDataToNewArea _ src dst summary := moveValidDataToNewArea_logged faults summary src dst

end Device
end Paffs.Areas
