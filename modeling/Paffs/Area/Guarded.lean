import Paffs.Area.Buffer
import Paffs.Area.Loading

/-! The places without a summary: that of the garbage buffer, and that of the first area, which stands for a buffer that
was given up. -/
namespace Paffs.Areas
variable {P : Type} {c : Config} (faults : Faults P) {d d' : Device P} {area g : AreaPos}

namespace Device

/-- There is no summary behind the data pages of a place. -/
def Bare (c : Config) (n : Nand P) (place : AreaPos) : Prop := ∀ s, n.flash place c.dataPagesPerArea ≠ .summary s

/-- An area that holds no pages, and that nobody writes a summary for. -/
structure Guarded (c : Config) (d : Device P) (g : AreaPos) : Prop where
  lt : g < c.areasNo
  statusOf_eq : d.statusOf g = .active
  no_pages : ¬ (d.typeOf g = .data ∨ d.typeOf g = .index)
  bare : Bare c d.nand (d.positionOf g)

/-- What a collection relies on. -/
structure Ready (c : Config) (d : Device P) : Prop where
  bijOn : Set.BijOn d.positionOf (Set.Iio c.areasNo) (Set.Iio c.areasNo)
  live : d.journalReplayMode = false
  first : d.Guarded c 0
  buffer : d.Guarded c d.buffer

/-- What leaves the places and the guarded areas alone. -/
structure Respects (c : Config) (d d' : Device P) : Prop where
  positionOf_eq : d'.positionOf = d.positionOf
  replay_eq : d'.journalReplayMode = d.journalReplayMode
  buffer_eq : d'.buffer = d.buffer
  guarded : ∀ g, d.Guarded c g → d'.Guarded c g

theorem Guarded.congr (h : d.Guarded c g) (hpos : d'.positionOf = d.positionOf) (htype : d'.typeOf g = d.typeOf g)
    (hstatus : d'.statusOf g = .active)
    (hflash : d'.nand.flash (d.positionOf g) c.dataPagesPerArea = d.nand.flash (d.positionOf g) c.dataPagesPerArea) :
    d'.Guarded c g := by
  refine ⟨h.lt, hstatus, by rw [htype]; exact h.no_pages, fun s => ?_⟩
  rw [hpos, hflash]
  exact h.bare s

namespace Respects

theorem refl (d : Device P) : Respects c d d := ⟨rfl, rfl, rfl, fun _ h => h⟩

theorem trans {d'' : Device P} (h : Respects c d d') (h' : Respects c d' d'') : Respects c d d'' :=
  ⟨h'.positionOf_eq.trans h.positionOf_eq, h'.replay_eq.trans h.replay_eq, h'.buffer_eq.trans h.buffer_eq,
    fun g hg => h'.guarded g (h.guarded g hg)⟩

theorem ready (h : Respects c d d') (hd : d.Ready c) : d'.Ready c :=
  ⟨h.positionOf_eq ▸ hd.bijOn, h.replay_eq.trans hd.live, h.guarded 0 hd.first, h.buffer_eq ▸ h.guarded _ hd.buffer⟩

/-- The map and the summaries of guarded areas stay as they are. -/
theorem of_sb (hsb : d'.sb = d.sb) (hreplay : d'.journalReplayMode = d.journalReplayMode)
    (hflash : ∀ g, d.Guarded c g →
      d'.nand.flash (d.positionOf g) c.dataPagesPerArea = d.nand.flash (d.positionOf g) c.dataPagesPerArea) : Respects c d d' := by
  have hmap : d'.sb.map = d.sb.map := by rw [hsb]
  refine ⟨positionOf_congr hmap, hreplay, buffer_congr (by rw [hsb]), fun g hg => ?_⟩
  exact hg.congr (positionOf_congr hmap) (by rw [typeOf_congr hmap]) (by rw [statusOf_congr hmap]; exact hg.statusOf_eq) (hflash g hg)

/-- Only the cache and the log are different. -/
theorem of_cache (cache : List (Option Elem)) (log : List Event) : Respects c d { d with cache := cache, log := log } :=
  .of_sb rfl rfl fun _ _ => rfl

end Respects

/-! ### The summary cache -/

/-- An area that lies on no place of a guarded one. -/
def Aside (c : Config) (d : Device P) (area : AreaPos) : Prop := ∀ g, d.Guarded c g → d.positionOf g ≠ d.getPos c area

theorem Ready.aside (h : d.Ready c) (hlt : area < c.areasNo) (hno : ¬ d.Guarded c area) : d.Aside c area := by
  intro g hg heq
  rw [getPos_of_lt hlt] at heq
  have : g = area := h.bijOn.injOn hg.lt hlt heq
  exact hno (this ▸ hg)

theorem Ready.aside_of_pages (h : d.Ready c) (hlt : area < c.areasNo) (hpages : d.typeOf area = .data ∨ d.typeOf area = .index) :
    d.Aside c area := h.aside hlt fun hg => hg.no_pages hpages

theorem Ready.aside_of_status (h : d.Ready c) (hstatus : d.getStatus c area ≠ .active) : d.Aside c area := by
  have hlt : area < c.areasNo := by
    by_contra hge
    rw [getStatus, if_pos (Nat.not_lt.mp hge)] at hstatus
    exact hstatus rfl
  refine h.aside hlt fun hg => hstatus ?_
  rw [getStatus_of_lt hlt]
  exact hg.statusOf_eq

theorem Respects.aside (h : Respects c d d') (hpages : d.Aside c area) (hguarded : ∀ g, d'.Guarded c g → d.Guarded c g) :
    d'.Aside c area := by
  have hpos : d'.getPos c area = d.getPos c area := by
    unfold getPos
    split
    · rfl
    · exact congrFun h.positionOf_eq area
  intro g hg
  rw [h.positionOf_eq, hpos]
  exact hpages g (hguarded g hg)

theorem writeAreasummary_respects {e : Elem} (h : d.Aside c e.area) : Respects c d (d.writeAreasummary c faults e).2 := by
  have hwrite : ∀ log, Respects c d { d with
      nand := (d.nand.writePage faults (d.getPos c e.area) c.dataPagesPerArea (.summary e.entries)).2, log := log } := by
    refine fun log => .of_sb rfl rfl fun g hg => ?_
    exact congrFun (d.nand.writePage_flash_ne faults _ _ (h g hg)) _
  unfold writeAreasummary
  split_ifs
  · exact .refl d
  · exact .refl d
  · dsimp only
    split
    · exact hwrite _
    · exact hwrite d.log

theorem commitAndEraseElem_respects {e : Elem} (h : d.Aside c e.area) : Respects c d (d.commitAndEraseElem c faults e).2 := by
  have hwrite := writeAreasummary_respects faults h
  unfold commitAndEraseElem
  split
  · rename_i d' heq
    rw [heq] at hwrite
    exact hwrite.trans (.of_cache ..)
  · rename_i r d' _ heq
    rwa [heq] at hwrite

theorem freeNextBestSummaryCacheEntry_respects (h : d.Ready c) : Respects c d (d.freeNextBestSummaryCacheEntry c faults).2 := by
  unfold freeNextBestSummaryCacheEntry
  split
  · exact .of_cache ..
  · cases hfind : d.findUncommitted c with
    | some e => exact commitAndEraseElem_respects faults (h.aside_of_status (mem_of_findUncommitted hfind).2.2)
    | none => exact .refl d

theorem loadElem_respects (slot : Nat) (area : AreaPos) : Respects c d (d.loadElem c slot area) := by
  unfold loadElem
  dsimp only
  split
  · exact .of_cache ..
  · exact .of_cache ..

theorem loadUnbufferedArea_respects (h : d.Ready c) (area : AreaPos) : Respects c d (d.loadUnbufferedArea c faults area).2 := by
  have hfree := freeNextBestSummaryCacheEntry_respects faults h
  unfold loadUnbufferedArea
  split
  · exact loadElem_respects _ area
  · split
    · rename_i d' heq
      rwa [heq] at hfree
    · rename_i d' heq
      rw [heq] at hfree
      split
      · exact hfree.trans (loadElem_respects _ area)
      · exact hfree
    · rename_i heq
      rwa [heq] at hfree

/-- A summary for which there is no room is `noSpace`. -/
theorem loadUnbufferedArea_ne_notFound (d : Device P) (area : AreaPos) : (d.loadUnbufferedArea c faults area).1 ≠ .notFound := by
  unfold loadUnbufferedArea
  split
  · exact nofun
  · split
    · exact nofun
    · split
      · exact nofun
      · exact nofun
    · rename_i hne _ _
      rintro rfl
      exact hne rfl

theorem setSummaryStatus_respects (h : d.Ready c) (area : AreaPos) (summary : Summary) :
    Respects c d (d.setSummaryStatus c faults area summary).2 := by
  have hload := loadUnbufferedArea_respects faults h area
  have hne : (d.loadUnbufferedArea c faults area).1 ≠ .notFound := loadUnbufferedArea_ne_notFound faults d area
  unfold setSummaryStatus
  dsimp only
  split
  · exact .of_cache ..
  · split
    · rename_i heq
      rw [heq] at hne
      exact absurd rfl hne
    · rename_i d' heq
      rw [heq] at hload
      exact hload.trans (.of_cache ..)
    · rename_i heq
      rwa [heq] at hload

theorem getPageStatus_respects (h : d.Ready c) (area : AreaPos) (page : PageOffs) :
    Respects c d (d.getPageStatus c faults area page).2 := by
  have hload := loadUnbufferedArea_respects faults h area
  unfold getPageStatus
  split_ifs
  · exact .refl d
  · exact .refl d
  · split
    · rename_i d' heq
      rwa [heq] at hload
    · rename_i d' heq
      rw [heq] at hload
      split
      · exact hload
      · exact hload
    · rename_i heq
      rwa [heq] at hload

theorem setCachedStatus_respects {e : Elem} (h : d.Aside c e.area) (page : PageOffs) (state : SummaryEntry) :
    Respects c d (d.setCachedStatus c faults e page state).2 := by
  unfold setCachedStatus
  split
  · exact .refl d
  · dsimp only
    have hset : Respects c d ((d.addEvent (.setStatus e.area page state)).updateElem e.area (·.setStatus c page state)) :=
      .of_cache ..
    have harea : (e.setStatus c page state).area = e.area := by
      unfold Elem.setStatus
      dsimp only
      split_ifs <;> rfl
    have haside : ((d.addEvent (.setStatus e.area page state)).updateElem e.area (·.setStatus c page state)).Aside c
        (e.setStatus c page state).area := by
      rw [harea]
      exact hset.aside h fun g hg => hg.congr rfl rfl hg.statusOf_eq rfl
    have hwrite := hset.trans (writeAreasummary_respects faults haside)
    split
    · split
      · rename_i d' heq
        rw [heq] at hwrite
        exact hwrite.trans (.of_cache ..)
      · rename_i heq
        rwa [heq] at hwrite
    · exact hset

/-! ### The functions on areas -/

section Replay
variable (d : Device P) (area pos : AreaPos) (type : AreaType) (status : AreaStatus)

@[simp] theorem setType_replay : (d.setType c area type).journalReplayMode = d.journalReplayMode := by
  unfold setType; split <;> rfl
@[simp] theorem setStatus_replay : (d.setStatus c area status).journalReplayMode = d.journalReplayMode := by
  unfold setStatus; split <;> rfl
theorem addEvent_replay (e : Event) : (d.addEvent e).journalReplayMode = d.journalReplayMode := rfl
theorem setUsedAreas_replay (num : Nat) : (d.setUsedAreas num).journalReplayMode = d.journalReplayMode := rfl
theorem decreaseUsedAreas_replay : d.decreaseUsedAreas.journalReplayMode = d.journalReplayMode := setUsedAreas_replay ..
@[simp] theorem setActiveArea_replay : (d.setActiveArea type area).journalReplayMode = d.journalReplayMode := by
  unfold setActiveArea; split <;> rfl
@[simp] theorem increaseErasecount_replay : (d.increaseErasecount c area).journalReplayMode = d.journalReplayMode := by
  unfold increaseErasecount; split <;> rfl
@[simp] theorem setPos_replay : (d.setPos c area pos).journalReplayMode = d.journalReplayMode := by
  unfold setPos; split <;> rfl
@[simp] theorem swapAreaPosition_replay : (d.swapAreaPosition c area pos).journalReplayMode = d.journalReplayMode := by
  unfold swapAreaPosition; split <;> rfl
@[simp] theorem addEventUnless_replay (quiet : Bool) (e : Event) :
    (d.addEventUnless quiet e).journalReplayMode = d.journalReplayMode := by cases quiet <;> rfl
@[simp] theorem resetASWritten_replay : (d.resetASWritten area).journalReplayMode = d.journalReplayMode := by
  unfold resetASWritten; split <;> rfl
@[simp] theorem deleteSummary_replay : (d.deleteSummary area).journalReplayMode = d.journalReplayMode := by
  unfold deleteSummary; split <;> rfl
@[simp] theorem initAreaAs_replay : (d.initAreaAs c area type).journalReplayMode = d.journalReplayMode := by
  have hset := setType_replay (c := c) (d.addEvent (.initAreaAs area type)) area type
  unfold initAreaAs
  dsimp only
  split
  · exact (setActiveArea_replay ..).trans hset
  · exact (setActiveArea_replay ..).trans hset
@[simp] theorem closeArea_replay : (d.closeArea c area).journalReplayMode = d.journalReplayMode :=
  (setActiveArea_replay ..).trans (setStatus_replay ..)
@[simp] theorem retireArea_replay : (d.retireArea c area).journalReplayMode = d.journalReplayMode := by
  have hset := setStatus_replay (c := c) (d.addEvent (.retireArea area)) area .closed
  unfold retireArea
  dsimp only
  split
  · exact (setType_replay ..).trans hset
  · exact (setType_replay ..).trans hset
@[simp] theorem eraseOrRetire_replay : (d.eraseOrRetire c faults area).2.journalReplayMode = d.journalReplayMode := by
  unfold eraseOrRetire
  split
  · rfl
  · exact retireArea_replay ..
@[simp] theorem deleteAreaContents_replay (quiet : Bool) :
    (d.deleteAreaContents c faults area pos quiet).2.journalReplayMode = d.journalReplayMode := by
  unfold deleteAreaContents
  split_ifs
  · rfl
  · rfl
  · dsimp only
    simp only [addEventUnless_replay, deleteSummary_replay, resetASWritten_replay, increaseErasecount_replay, eraseOrRetire_replay]
@[simp] theorem deleteArea_replay : (d.deleteArea c faults area).2.journalReplayMode = d.journalReplayMode := by
  have hcontents := deleteAreaContents_replay faults (c := c) (d.addEvent (.deleteArea area)) area 0 true
  unfold deleteArea
  split_ifs
  · rfl
  · rfl
  · split
    · rename_i d' heq
      rw [heq] at hcontents
      rw [addEvent_replay, decreaseUsedAreas_replay, setType_replay, setStatus_replay]
      exact hcontents
    · rename_i heq
      rwa [heq] at hcontents

end Replay

/-- Other entries of the map, and other places. -/
theorem Respects.of_map_ne (hpos : d'.positionOf = d.positionOf) (hreplay : d'.journalReplayMode = d.journalReplayMode)
    (hbuffer : d'.buffer = d.buffer) (hmap : ∀ g, d.Guarded c g → d'.sb.map g = d.sb.map g)
    (hflash : ∀ g, d.Guarded c g → d'.nand.flash (d.positionOf g) = d.nand.flash (d.positionOf g)) : Respects c d d' := by
  refine ⟨hpos, hreplay, hbuffer, fun g hg => ?_⟩
  refine hg.congr hpos (congrArg Area.type (hmap g hg)) ?_ (congrFun (hflash g hg) _)
  exact (congrArg Area.status (hmap g hg)).trans hg.statusOf_eq

theorem Guarded.ne_of_pages (h : d.Guarded c g) (hpages : d.HoldsPages c area) : g ≠ area := by
  rintro rfl
  rw [HoldsPages, getType_of_lt h.lt] at hpages
  exact h.no_pages hpages

theorem lt_of_holdsPages (hpages : d.HoldsPages c area) : area < c.areasNo := by
  by_contra hge
  rw [HoldsPages, getType, if_pos (Nat.not_lt.mp hge)] at hpages
  rcases hpages with h | h <;> cases h

theorem Ready.initAreaAs (h : d.Ready c) (hzero : area ≠ 0) (hbuffer : area ≠ d.buffer) {type : AreaType}
    (htype : type ≠ .garbageBuffer) : (d.initAreaAs c area type).Ready c := by
  have hguarded : ∀ g, g ≠ area → d.Guarded c g → (d.initAreaAs c area type).Guarded c g := by
    intro g hne hg
    have hmap := initAreaAs_map_ne (c := c) (d := d) type hne
    exact hg.congr (initAreaAs_positionOf ..) (congrArg Area.type hmap) ((congrArg Area.status hmap).trans hg.statusOf_eq)
      (by rw [initAreaAs_nand])
  refine ⟨by rw [initAreaAs_positionOf]; exact h.bijOn, (initAreaAs_replay ..).trans h.live, hguarded 0 hzero.symm h.first, ?_⟩
  rw [initAreaAs_buffer htype]
  exact hguarded _ hbuffer.symm h.buffer

theorem Guarded.ne_of_empty (h : d.Guarded c g) (hempty : d.getStatus c area = .empty) : area ≠ g := by
  rintro rfl
  rw [getStatus_of_lt h.lt, h.statusOf_eq] at hempty
  cases hempty

/-- Closing an area makes the first one the active area of the type, and thereby active. -/
theorem closeArea_respects (hpages : d.HoldsPages c area) : Respects c d (d.closeArea c area) := by
  have hlt := lt_of_holdsPages hpages
  have htype : ((d.addEvent (.closeArea area)).setStatus c area .closed).getType c area = d.getType c area := by
    rw [getType_of_lt hlt, getType_of_lt hlt, setStatus_typeOf, addEvent_typeOf]
  have hno : d.getType c area ≠ .no ∧ d.getType c area ≠ .garbageBuffer := by
    rcases hpages with h | h <;> rw [h] <;> decide
  refine ⟨closeArea_positionOf area, closeArea_replay d area, ?_, fun g hg => ?_⟩
  · unfold closeArea
    change (Device.setActiveArea _ _ 0).buffer = _
    rw [htype, setActiveArea_buffer hno.2]
    exact buffer_congr (setStatus_activeArea ..)
  · have hne := hg.ne_of_pages hpages
    refine hg.congr (closeArea_positionOf area) ?_ ?_ (by rw [closeArea_nand])
    · simp [closeArea]
    · unfold closeArea
      simp only [addEvent_statusOf]
      rw [htype, setActiveArea_statusOf _ _ hno.1, Function.update_apply]
      split
      · rfl
      · rw [setStatus_statusOf area .closed hlt, Function.update_of_ne hne]
        exact hg.statusOf_eq

theorem retireArea_respects (harea : ¬ d.Guarded c area) : Respects c d (d.retireArea c area) := by
  have hne : ∀ g, d.Guarded c g → g ≠ area := by
    rintro g hg rfl
    exact harea hg
  exact .of_map_ne (retireArea_positionOf area) (retireArea_replay d area) (buffer_congr (retireArea_activeArea ..))
    (fun g hg => retireArea_map_ne (hne g hg)) fun g _ => by rw [retireArea_flash]

theorem deleteAreaContents_respects {swappedArea : AreaPos} (quiet : Bool) (harea : ¬ d.Guarded c area)
    (herased : ¬ d.Guarded c (erasedArea area swappedArea)) (haside : d.Aside c (erasedArea area swappedArea)) :
    Respects c d (d.deleteAreaContents c faults area swappedArea quiet).2 := by
  by_cases hrefused : area ≥ c.areasNo ∨ d.getType c area = .retired
  · rw [deleteAreaContents_refused faults _ _ hrefused]
    exact .refl d
  · rw [not_or, Nat.not_le] at hrefused
    obtain ⟨-, hpos, -, -, hactive⟩ := deleteAreaContents_spec faults area swappedArea quiet hrefused.1 hrefused.2
    obtain ⟨hflash, -, hmap, -⟩ := deleteAreaContents_frame faults swappedArea quiet hrefused.1 hrefused.2
    refine .of_map_ne hpos (deleteAreaContents_replay ..) (buffer_congr hactive) (fun g hg => hmap g ?_ ?_) fun g hg => ?_
    · rintro rfl
      exact harea hg
    · rintro rfl
      exact herased hg
    · exact hflash _ (haside g hg)

theorem deleteArea_respects (h : d.Ready c) (hpages : d.HoldsPages c area) : Respects c d (d.deleteArea c faults area).2 := by
  have hlt := lt_of_holdsPages hpages
  have htype : d.getType c area ≠ .retired := by
    rcases hpages with h | h <;> rw [h] <;> decide
  have hpages' := hpages
  rw [HoldsPages, getType_of_lt hlt] at hpages'
  obtain ⟨hflash, -, hmap⟩ := deleteArea_frame faults hlt htype
  exact .of_map_ne (deleteArea_positionOf faults area) (deleteArea_replay ..) (buffer_congr (deleteArea_activeArea faults area))
    (fun g hg => hmap g (hg.ne_of_pages hpages)) fun g hg => hflash _ (h.aside_of_pages hlt hpages' g hg)

theorem movePages_summary (src dst place : AreaPos) (summary : Summary) {pages : List PageOffs} {page : PageOffs}
    (hpage : page ∉ pages) (n : Nand P) : (movePages faults src dst summary pages n).2.flash place page = n.flash place page := by
  induction pages generalizing n with
  | nil => rfl
  | cons p pages ih =>
    rw [List.mem_cons, not_or] at hpage
    rw [movePages]
    split
    · refine (ih hpage.2 _).trans ?_
      by_cases hplace : place = dst
      · subst hplace
        rw [n.writePage_flash, if_neg hpage.1]
      · rw [n.writePage_flash_ne faults _ _ hplace]
    · exact ih hpage.2 n

/-- Only data pages are moved. -/
theorem moveValidDataToNewArea_respects (srcArea dstArea : AreaPos) (summary : Summary) :
    Respects c d (d.moveValidDataToNewArea c faults srcArea dstArea summary).2 :=
  .of_sb rfl rfl fun g _ => movePages_summary faults _ _ _ _ (by simp) d.nand

end Device
end Paffs.Areas
