import Paffs.Area.Format

/-! What the functions on areas leave alone. -/
namespace Paffs.Areas
variable {P : Type} (c : Config) (faults : Faults P)

/-! ### The driver -/

namespace Nand
variable (n : Nand P) (area : AreaPos)

theorem writePage_flash_ne {area area' : AreaPos} (page : PageOffs) (x : Page P) (h : area' ≠ area) :
    (n.writePage faults area page x).2.flash area' = n.flash area' :=
  Function.update_of_ne h _ _

theorem writePage_flash (area : AreaPos) (page page' : PageOffs) (x : Page P) :
    (n.writePage faults area page x).2.flash area page' =
      if page' = page then (if faults.succeeds n.clock then x else faults.leaves n.clock page) else n.flash area page' := by
  simp [writePage, setPage, Function.update_apply]

@[simp] theorem writePage_erases (page : PageOffs) (x : Page P) : (n.writePage faults area page x).2.erases = n.erases := rfl

@[simp] theorem writePage_bad (page : PageOffs) (x : Page P) : (n.writePage faults area page x).2.bad = n.bad := rfl

@[simp] theorem eraseBlocks_erases (i k : Nat) : (eraseBlocks c faults area i k n).2.erases = n.erases := by
  induction k generalizing i n with
  | zero => rfl
  | succ k ih =>
    cases hok : faults.succeeds n.clock with
    | true => simp only [eraseBlocks, eraseBlock, hok]; exact ih ..
    | false => simp only [eraseBlocks, eraseBlock, hok]

theorem eraseArea_erases : (n.eraseArea c faults area).2.erases = Function.update n.erases area (n.erases area + 1) := by
  rw [eraseArea, eraseBlocks_erases]

theorem markAllBad_frame : (n.markAllBad c area).flash = n.flash ∧ (n.markAllBad c area).erases = n.erases ∧
    (n.markAllBad c area).clock = n.clock := by
  rw [markAllBad]
  induction List.range c.blocksPerArea generalizing n with
  | nil => exact ⟨rfl, rfl, rfl⟩
  | cons block blocks ih =>
    rw [List.foldl_cons]
    split
    · exact ih n
    · exact ih (n.markBad _)

@[simp] theorem markAllBad_flash : (n.markAllBad c area).flash = n.flash := (markAllBad_frame c n area).1

@[simp] theorem markAllBad_erases : (n.markAllBad c area).erases = n.erases := (markAllBad_frame c n area).2.1

@[simp] theorem markAllBad_clock : (n.markAllBad c area).clock = n.clock := (markAllBad_frame c n area).2.2

end Nand

namespace Device
variable (d : Device P) (area pos : AreaPos)

/-! ### The map of the superblock -/

section Superblock
variable (type : AreaType) (status : AreaStatus) (e : Event)

@[simp] theorem addEvent_sb : (d.addEvent e).sb = d.sb := rfl
@[simp] theorem addEvent_nand : (d.addEvent e).nand = d.nand := rfl
@[simp] theorem addEvent_cache : (d.addEvent e).cache = d.cache := rfl
@[simp] theorem addEventUnless_sb (quiet : Bool) : (d.addEventUnless quiet e).sb = d.sb := by cases quiet <;> rfl
@[simp] theorem addEventUnless_nand (quiet : Bool) : (d.addEventUnless quiet e).nand = d.nand := by cases quiet <;> rfl
@[simp] theorem addEventUnless_cache (quiet : Bool) : (d.addEventUnless quiet e).cache = d.cache := by cases quiet <;> rfl

@[simp] theorem setType_nand : (d.setType c area type).nand = d.nand := by unfold setType; split <;> rfl
@[simp] theorem setType_cache : (d.setType c area type).cache = d.cache := by unfold setType; split <;> rfl
@[simp] theorem setStatus_nand : (d.setStatus c area status).nand = d.nand := by unfold setStatus; split <;> rfl
@[simp] theorem setStatus_cache : (d.setStatus c area status).cache = d.cache := by unfold setStatus; split <;> rfl
@[simp] theorem setPos_nand : (d.setPos c area pos).nand = d.nand := by unfold setPos; split <;> rfl
@[simp] theorem setPos_cache : (d.setPos c area pos).cache = d.cache := by unfold setPos; split <;> rfl
@[simp] theorem increaseErasecount_nand : (d.increaseErasecount c area).nand = d.nand := by
  unfold increaseErasecount; split <;> rfl
@[simp] theorem increaseErasecount_cache : (d.increaseErasecount c area).cache = d.cache := by
  unfold increaseErasecount; split <;> rfl
@[simp] theorem setActiveArea_nand : (d.setActiveArea type area).nand = d.nand := by unfold setActiveArea; split <;> rfl
@[simp] theorem setActiveArea_cache : (d.setActiveArea type area).cache = d.cache := by unfold setActiveArea; split <;> rfl
theorem setUsedAreas_nand (num : Nat) : (d.setUsedAreas num).nand = d.nand := rfl
theorem setUsedAreas_cache (num : Nat) : (d.setUsedAreas num).cache = d.cache := rfl
@[simp] theorem increaseUsedAreas_nand : d.increaseUsedAreas.nand = d.nand := setUsedAreas_nand ..
@[simp] theorem increaseUsedAreas_cache : d.increaseUsedAreas.cache = d.cache := setUsedAreas_cache ..
@[simp] theorem decreaseUsedAreas_nand : d.decreaseUsedAreas.nand = d.nand := setUsedAreas_nand ..
@[simp] theorem decreaseUsedAreas_cache : d.decreaseUsedAreas.cache = d.cache := setUsedAreas_cache ..
@[simp] theorem swapAreaPosition_nand : (d.swapAreaPosition c area pos).nand = d.nand := by
  unfold swapAreaPosition; split <;> rfl
@[simp] theorem swapAreaPosition_cache : (d.swapAreaPosition c area pos).cache = d.cache := by
  unfold swapAreaPosition; split <;> rfl

theorem setActiveArea_activeArea (htype : type ≠ .no) :
    (d.setActiveArea type area).sb.activeArea = Function.update d.sb.activeArea type area := by
  rw [setActiveArea, if_neg htype]
  rfl
@[simp] theorem setPos_activeArea : (d.setPos c area pos).sb.activeArea = d.sb.activeArea := by
  unfold setPos; split <;> rfl
@[simp] theorem setType_activeArea : (d.setType c area type).sb.activeArea = d.sb.activeArea := by
  unfold setType; split <;> rfl
@[simp] theorem setStatus_activeArea : (d.setStatus c area status).sb.activeArea = d.sb.activeArea := by
  unfold setStatus; split <;> rfl
@[simp] theorem increaseErasecount_activeArea : (d.increaseErasecount c area).sb.activeArea = d.sb.activeArea := by
  unfold increaseErasecount; split <;> rfl
@[simp] theorem swapAreaPosition_activeArea : (d.swapAreaPosition c area pos).sb.activeArea = d.sb.activeArea := by
  unfold swapAreaPosition; split <;> rfl
theorem setUsedAreas_activeArea (num : Nat) : (d.setUsedAreas num).sb.activeArea = d.sb.activeArea := rfl
@[simp] theorem increaseUsedAreas_activeArea : d.increaseUsedAreas.sb.activeArea = d.sb.activeArea :=
  setUsedAreas_activeArea ..
@[simp] theorem decreaseUsedAreas_activeArea : d.decreaseUsedAreas.sb.activeArea = d.sb.activeArea :=
  setUsedAreas_activeArea ..

end Superblock

/-! ### The summary cache -/

section SummaryCache
variable (e : Elem) (f : Elem → Elem) (summary : Summary)

@[simp] theorem updateElem_sb : (d.updateElem area f).sb = d.sb := rfl
@[simp] theorem updateElem_nand : (d.updateElem area f).nand = d.nand := rfl
@[simp] theorem removeSummaryElem_sb : (d.removeSummaryElem area).sb = d.sb := rfl
@[simp] theorem removeSummaryElem_nand : (d.removeSummaryElem area).nand = d.nand := rfl
@[simp] theorem dropUnchanged_sb : (d.dropUnchanged c).sb = d.sb := rfl
@[simp] theorem dropUnchanged_nand : (d.dropUnchanged c).nand = d.nand := rfl

@[simp] theorem resetASWritten_sb : (d.resetASWritten area).sb = d.sb := by unfold resetASWritten; split <;> rfl
@[simp] theorem resetASWritten_nand : (d.resetASWritten area).nand = d.nand := by unfold resetASWritten; split <;> rfl
@[simp] theorem deleteSummary_sb : (d.deleteSummary area).sb = d.sb := by unfold deleteSummary; split <;> rfl
@[simp] theorem deleteSummary_nand : (d.deleteSummary area).nand = d.nand := by unfold deleteSummary; split <;> rfl

@[simp] theorem loadElem_sb (slot : Nat) : (d.loadElem c slot area).sb = d.sb := by unfold loadElem; simp only; split <;> rfl
@[simp] theorem loadElem_nand (slot : Nat) : (d.loadElem c slot area).nand = d.nand := by
  unfold loadElem; simp only; split <;> rfl

end SummaryCache

/-! ### Summaries are written behind the data pages -/

variable {c} in
/-- The data pages are the same. -/
def SameData (c : Config) (n n' : Nand P) : Prop := ∀ area, ∀ page < c.dataPagesPerArea, n'.flash area page = n.flash area page

/-- What happens inside the summary cache: it writes summaries, and nothing else changes but the cache and the log. -/
structure Quiet (c : Config) (d d' : Device P) : Prop where
  sb : d'.sb = d.sb
  bad : d'.nand.bad = d.nand.bad
  erases : d'.nand.erases = d.nand.erases
  journalReplayMode : d'.journalReplayMode = d.journalReplayMode
  clock : d.nand.clock ≤ d'.nand.clock
  data : SameData c d.nand d'.nand

section Quiet
variable {c : Config} {d d' d'' : Device P} (e : Elem) (summary : Summary)

theorem Quiet.refl (d : Device P) : Quiet c d d := ⟨rfl, rfl, rfl, rfl, le_rfl, fun _ _ _ => rfl⟩

theorem Quiet.trans (h : Quiet c d d') (h' : Quiet c d' d'') : Quiet c d d'' :=
  ⟨h'.sb.trans h.sb, h'.bad.trans h.bad, h'.erases.trans h.erases, h'.journalReplayMode.trans h.journalReplayMode,
    h.clock.trans h'.clock, fun area page hlt => (h'.data area page hlt).trans (h.data area page hlt)⟩

/-- Only the cache and the log are different. -/
theorem Quiet.of_cache (cache : List (Option Elem)) (log : List Event) : Quiet c d { d with cache := cache, log := log } :=
  ⟨rfl, rfl, rfl, rfl, le_rfl, fun _ _ _ => rfl⟩

theorem deleteSummary_quiet : Quiet c d (d.deleteSummary area) := by
  unfold deleteSummary
  split
  · exact .of_cache ..
  · exact .refl d

theorem loadElem_quiet (slot : Nat) : Quiet c d (d.loadElem c slot area) := by
  unfold loadElem
  dsimp only
  split
  · exact .of_cache ..
  · exact .of_cache ..

theorem writeAreasummary_quiet : Quiet c d (d.writeAreasummary c faults e).2 := by
  have hwrite : ∀ log, Quiet c d { d with
      nand := (d.nand.writePage faults (d.getPos c e.area) c.dataPagesPerArea (.summary e.entries)).2, log := log } := by
    refine fun log => ⟨rfl, rfl, rfl, rfl, Nat.le_succ _, fun area page hlt => ?_⟩
    by_cases harea : area = d.getPos c e.area
    · rw [harea, d.nand.writePage_flash, if_neg (Nat.ne_of_lt hlt)]
    · rw [d.nand.writePage_flash_ne faults _ _ harea]
  unfold writeAreasummary
  split_ifs
  · exact .refl d
  · exact .refl d
  · dsimp only
    split
    · exact hwrite _
    · exact hwrite d.log

theorem commitAndEraseElem_quiet : Quiet c d (d.commitAndEraseElem c faults e).2 := by
  have h := writeAreasummary_quiet faults (c := c) (d := d) e
  unfold commitAndEraseElem
  split
  · rename_i d' heq
    rw [heq] at h
    exact h.trans (.of_cache ..)
  · rename_i r d' _ heq
    rwa [heq] at h

theorem freeNextBestSummaryCacheEntry_quiet : Quiet c d (d.freeNextBestSummaryCacheEntry c faults).2 := by
  unfold freeNextBestSummaryCacheEntry
  split
  · exact .of_cache ..
  · split
    · exact commitAndEraseElem_quiet faults _
    · exact .refl d

theorem loadUnbufferedArea_quiet : Quiet c d (d.loadUnbufferedArea c faults area).2 := by
  have h := freeNextBestSummaryCacheEntry_quiet faults (c := c) (d := d)
  unfold loadUnbufferedArea
  split
  · exact loadElem_quiet area _
  · split
    · rename_i d' heq
      rwa [heq] at h
    · rename_i d' heq
      rw [heq] at h
      split
      · exact h.trans (loadElem_quiet area _)
      · exact h
    · rename_i heq
      rwa [heq] at h

theorem setSummaryStatus_quiet : Quiet c d (d.setSummaryStatus c faults area summary).2 := by
  have h := loadUnbufferedArea_quiet faults (c := c) (d := d) area
  unfold setSummaryStatus
  dsimp only
  split
  · exact .of_cache ..
  · split
    · rename_i d' heq
      rw [heq] at h
      exact h.trans (writeAreasummary_quiet faults _)
    · rename_i d' heq
      rw [heq] at h
      exact h.trans (.of_cache ..)
    · rename_i heq
      rwa [heq] at h

@[simp] theorem setSummaryStatus_sb : (d.setSummaryStatus c faults area summary).2.sb = d.sb :=
  (setSummaryStatus_quiet faults area summary).sb

@[simp] theorem setSummaryStatus_erases : (d.setSummaryStatus c faults area summary).2.nand.erases = d.nand.erases :=
  (setSummaryStatus_quiet faults area summary).erases

end Quiet

/-! ### `AreaManagement` -/

section AreaManagement
variable (type : AreaType)

@[simp] theorem initAreaAs_nand : (d.initAreaAs c area type).nand = d.nand := by
  unfold initAreaAs; simp only; split <;> simp
@[simp] theorem initAreaAs_cache : (d.initAreaAs c area type).cache = d.cache := by
  unfold initAreaAs; simp only; split <;> simp
@[simp] theorem closeArea_nand : (d.closeArea c area).nand = d.nand := by simp [closeArea]
@[simp] theorem closeArea_cache : (d.closeArea c area).cache = d.cache := by simp [closeArea]

@[simp] theorem retireArea_activeArea : (d.retireArea c area).sb.activeArea = d.sb.activeArea := by
  unfold retireArea; simp only [addEvent_sb, setType_activeArea]; split <;> simp
@[simp] theorem retireArea_cache : (d.retireArea c area).cache = d.cache := by
  unfold retireArea; simp only [addEvent_cache, setType_cache]; split <;> simp
@[simp] theorem retireArea_flash : (d.retireArea c area).nand.flash = d.nand.flash := by
  unfold retireArea; simp only [addEvent_nand, setType_nand, Nand.markAllBad_flash]; split <;> simp
@[simp] theorem retireArea_erases : (d.retireArea c area).nand.erases = d.nand.erases := by
  unfold retireArea; simp only [addEvent_nand, setType_nand, Nand.markAllBad_erases]; split <;> simp
@[simp] theorem retireArea_clock : (d.retireArea c area).nand.clock = d.nand.clock := by
  unfold retireArea; simp only [addEvent_nand, setType_nand, Nand.markAllBad_clock]; split <;> simp

end AreaManagement
/-! ### Types and statuses -/

def typeOf (d : Device P) (area : AreaPos) : AreaType := (d.sb.map area).type

def statusOf (d : Device P) (area : AreaPos) : AreaStatus := (d.sb.map area).status

section Roles
variable {c : Config} {d d' : Device P} (type : AreaType) (status : AreaStatus) (e : Event)

theorem typeOf_congr (h : d'.sb.map = d.sb.map) : d'.typeOf = d.typeOf := by
  unfold typeOf; rw [h]

theorem statusOf_congr (h : d'.sb.map = d.sb.map) : d'.statusOf = d.statusOf := by
  unfold statusOf; rw [h]

theorem getType_of_lt {area : AreaPos} (hlt : area < c.areasNo) : d.getType c area = d.typeOf area :=
  if_neg (Nat.not_le.mpr hlt)

theorem getStatus_of_lt {area : AreaPos} (hlt : area < c.areasNo) : d.getStatus c area = d.statusOf area :=
  if_neg (Nat.not_le.mpr hlt)

theorem typeOf_modify (f : Area → Area) (h : ∀ a, (f a).type = a.type) : (d.modify area f).typeOf = d.typeOf := by
  funext x
  by_cases hx : x = area
  · subst hx
    simp [typeOf, modify, h]
  · simp [typeOf, modify, hx]

theorem statusOf_modify (f : Area → Area) (h : ∀ a, (f a).status = a.status) : (d.modify area f).statusOf = d.statusOf := by
  funext x
  by_cases hx : x = area
  · subst hx
    simp [statusOf, modify, h]
  · simp [statusOf, modify, hx]

@[simp] theorem addEvent_typeOf : (d.addEvent e).typeOf = d.typeOf := rfl
@[simp] theorem addEvent_statusOf : (d.addEvent e).statusOf = d.statusOf := rfl

theorem setType_typeOf (hlt : area < c.areasNo) : (d.setType c area type).typeOf = Function.update d.typeOf area type := by
  rw [setType, if_neg (Nat.not_le.mpr hlt)]
  funext x
  by_cases hx : x = area
  · subst hx
    simp [typeOf, modify]
  · simp [typeOf, modify, addEvent, hx]

theorem setStatus_statusOf (hlt : area < c.areasNo) :
    (d.setStatus c area status).statusOf = Function.update d.statusOf area status := by
  rw [setStatus, if_neg (Nat.not_le.mpr hlt)]
  funext x
  by_cases hx : x = area
  · subst hx
    simp [statusOf, modify]
  · simp [statusOf, modify, addEvent, hx]

theorem setActiveArea_statusOf (htype : type ≠ .no) :
    (d.setActiveArea type area).statusOf = Function.update d.statusOf area .active := by
  rw [setActiveArea, if_neg htype]
  funext x
  by_cases hx : x = area
  · subst hx
    simp [statusOf, modify, addEvent]
  · simp [statusOf, modify, addEvent, hx]

@[simp] theorem setType_statusOf : (d.setType c area type).statusOf = d.statusOf := by
  unfold setType
  split
  · rfl
  · exact statusOf_modify area _ fun _ => rfl

@[simp] theorem setStatus_typeOf : (d.setStatus c area status).typeOf = d.typeOf := by
  unfold setStatus
  split
  · rfl
  · exact typeOf_modify area _ fun _ => rfl

@[simp] theorem setPos_typeOf : (d.setPos c area pos).typeOf = d.typeOf := by
  unfold setPos
  split
  · rfl
  · exact typeOf_modify area _ fun _ => rfl

@[simp] theorem setPos_statusOf : (d.setPos c area pos).statusOf = d.statusOf := by
  unfold setPos
  split
  · rfl
  · exact statusOf_modify area _ fun _ => rfl

@[simp] theorem setActiveArea_typeOf : (d.setActiveArea type area).typeOf = d.typeOf := by
  unfold setActiveArea
  split
  · rfl
  · exact typeOf_modify (d := d) area ({ · with status := .active }) fun _ => rfl

@[simp] theorem increaseErasecount_typeOf : (d.increaseErasecount c area).typeOf = d.typeOf := by
  unfold increaseErasecount
  split
  · rfl
  · exact typeOf_modify area _ fun _ => rfl

@[simp] theorem increaseErasecount_statusOf : (d.increaseErasecount c area).statusOf = d.statusOf := by
  unfold increaseErasecount
  split
  · rfl
  · exact statusOf_modify area _ fun _ => rfl

theorem setUsedAreas_map (num : Nat) : (d.setUsedAreas num).sb.map = d.sb.map := rfl

@[simp] theorem increaseUsedAreas_typeOf : d.increaseUsedAreas.typeOf = d.typeOf := typeOf_congr (setUsedAreas_map _)
@[simp] theorem increaseUsedAreas_statusOf : d.increaseUsedAreas.statusOf = d.statusOf :=
  statusOf_congr (setUsedAreas_map _)
@[simp] theorem decreaseUsedAreas_typeOf : d.decreaseUsedAreas.typeOf = d.typeOf := typeOf_congr (setUsedAreas_map _)
@[simp] theorem decreaseUsedAreas_statusOf : d.decreaseUsedAreas.statusOf = d.statusOf :=
  statusOf_congr (setUsedAreas_map _)

@[simp] theorem swapAreaPosition_typeOf : (d.swapAreaPosition c area pos).typeOf = d.typeOf := by
  unfold swapAreaPosition
  split
  · rfl
  · simp only [typeOf_modify, addEvent_typeOf, implies_true]

@[simp] theorem swapAreaPosition_statusOf : (d.swapAreaPosition c area pos).statusOf = d.statusOf := by
  unfold swapAreaPosition
  split
  · rfl
  · simp only [statusOf_modify, addEvent_statusOf, implies_true]

theorem initAreaAs_typeOf (hlt : area < c.areasNo) :
    (d.initAreaAs c area type).typeOf = Function.update d.typeOf area type := by
  unfold initAreaAs
  simp only [addEvent_typeOf, setActiveArea_typeOf]
  split <;> simp [setType_typeOf area type hlt]

theorem retireArea_typeOf (hlt : area < c.areasNo) :
    (d.retireArea c area).typeOf = Function.update d.typeOf area .retired := by
  unfold retireArea
  simp only [addEvent_typeOf]
  change (setType c _ area .retired).typeOf = _
  rw [setType_typeOf area .retired hlt]
  split <;> simp

end Roles
/-! ### Entries of other areas -/

section Others
variable {c : Config} {d : Device P} {area x : AreaPos} (type : AreaType) (status : AreaStatus)

theorem modify_map_ne (f : Area → Area) (h : x ≠ area) : (d.modify area f).sb.map x = d.sb.map x :=
  Function.update_of_ne h _ _

theorem setType_map_ne (h : x ≠ area) : (d.setType c area type).sb.map x = d.sb.map x := by
  unfold setType
  split
  · rfl
  · exact modify_map_ne _ h

theorem setStatus_map_ne (h : x ≠ area) : (d.setStatus c area status).sb.map x = d.sb.map x := by
  unfold setStatus
  split
  · rfl
  · exact modify_map_ne _ h

theorem setPos_map_ne (pos : AreaPos) (h : x ≠ area) : (d.setPos c area pos).sb.map x = d.sb.map x := by
  unfold setPos
  split
  · rfl
  · exact modify_map_ne _ h

theorem increaseErasecount_map_ne (h : x ≠ area) : (d.increaseErasecount c area).sb.map x = d.sb.map x := by
  unfold increaseErasecount
  split
  · rfl
  · exact modify_map_ne _ h

theorem setActiveArea_map_ne (h : x ≠ area) : (d.setActiveArea type area).sb.map x = d.sb.map x := by
  unfold setActiveArea
  split
  · rfl
  · exact modify_map_ne (d := d) ({ · with status := .active }) h

theorem initAreaAs_map_ne (h : x ≠ area) : (d.initAreaAs c area type).sb.map x = d.sb.map x := by
  unfold initAreaAs
  simp only [addEvent_sb]
  rw [setActiveArea_map_ne type h]
  split
  · exact setType_map_ne type h
  · exact setType_map_ne type h

theorem closeArea_map_ne (h : x ≠ area) (h₀ : x ≠ 0) : (d.closeArea c area).sb.map x = d.sb.map x := by
  unfold closeArea
  simp only [addEvent_sb]
  rw [setActiveArea_map_ne _ h₀]
  exact setStatus_map_ne .closed h

theorem retireArea_map_ne (h : x ≠ area) : (d.retireArea c area).sb.map x = d.sb.map x := by
  unfold retireArea
  simp only [addEvent_sb]
  rw [setType_map_ne .retired h]
  split
  · exact setStatus_map_ne .closed h
  · exact setStatus_map_ne .closed h

end Others
end Device
end Paffs.Areas
