import Paffs.Area.Placement
import Paffs.Area.PageStatus

/-! The garbage buffer over whole runs. -/
namespace Paffs.Areas
variable {P : Type} {c : Config} (faults : Faults P) {d d' : Device P}

namespace Device

def buffer (d : Device P) : AreaPos := d.getActiveArea .garbageBuffer

/-- The data pages of a place are erased. -/
def Erased (c : Config) (n : Nand P) (place : AreaPos) : Prop := ∀ page < c.dataPagesPerArea, n.flash place page = .blank

/-- The garbage buffer is an area of its own. -/
structure Reserved (c : Config) (d : Device P) : Prop where
  placed : d.Placed c
  lt : d.buffer < c.areasNo
  ne_zero : d.buffer ≠ 0
  typeOf_eq : d.typeOf d.buffer = .garbageBuffer
  statusOf_eq : d.statusOf d.buffer = .active

/-- It is erased too. -/
structure Buffered (c : Config) (d : Device P) : Prop where
  reserved : d.Reserved c
  erased : Erased c d.nand (d.positionOf d.buffer)

theorem Reserved.congr (h : d.Reserved c) (hplaced : d'.Placed c) (hbuffer : d'.buffer = d.buffer)
    (htype : d'.typeOf d.buffer = d.typeOf d.buffer) (hstatus : d'.statusOf d.buffer = d.statusOf d.buffer) :
    d'.Reserved c where
  placed := hplaced
  lt := hbuffer ▸ h.lt
  ne_zero := hbuffer ▸ h.ne_zero
  typeOf_eq := by rw [hbuffer, htype, h.typeOf_eq]
  statusOf_eq := by rw [hbuffer, hstatus, h.statusOf_eq]

/-- What is done elsewhere leaves the buffer alone. -/
theorem Buffered.congr (h : d.Buffered c) (hpos : d'.positionOf = d.positionOf) (hbuffer : d'.buffer = d.buffer)
    (hmap : d'.sb.map d.buffer = d.sb.map d.buffer)
    (hflash : ∀ page < c.dataPagesPerArea,
      d'.nand.flash (d.positionOf d.buffer) page = d.nand.flash (d.positionOf d.buffer) page) : d'.Buffered c where
  reserved := h.reserved.congr (h.reserved.placed.congr hpos) hbuffer (congrArg Area.type hmap) (congrArg Area.status hmap)
  erased page hpage := by
    rw [hpos, hbuffer, hflash page hpage]
    exact h.erased page hpage

theorem buffer_congr (h : d'.sb.activeArea = d.sb.activeArea) : d'.buffer = d.buffer := getActiveArea_congr h _

theorem setActiveArea_buffer {type : AreaType} {area : AreaPos} (h : type ≠ .garbageBuffer) :
    (d.setActiveArea type area).buffer = d.buffer := by
  by_cases htype : type = .no
  · rw [setActiveArea, if_pos htype]
  · change (d.setActiveArea type area).sb.activeArea .garbageBuffer = d.sb.activeArea .garbageBuffer
    rw [setActiveArea_activeArea d area type htype, Function.update_of_ne h.symm]

theorem initAreaAs_buffer {type : AreaType} {area : AreaPos} (h : type ≠ .garbageBuffer) :
    (d.initAreaAs c area type).buffer = d.buffer := by
  unfold initAreaAs
  change (setActiveArea _ type area).buffer = _
  rw [setActiveArea_buffer h]
  split
  · exact buffer_congr (setType_activeArea ..)
  · exact buffer_congr (setType_activeArea ..)

theorem Buffered.initAreaAs (h : d.Buffered c) {area : AreaPos} {type : AreaType} (harea : area ≠ d.buffer)
    (htype : type ≠ .garbageBuffer) : (d.initAreaAs c area type).Buffered c :=
  h.congr (initAreaAs_positionOf area type) (initAreaAs_buffer htype) (initAreaAs_map_ne type harea.symm)
    fun page _ => by rw [initAreaAs_nand]

theorem Buffered.closeArea (h : d.Buffered c) {area : AreaPos} (htype : d.getType c area ≠ .garbageBuffer) :
    (d.closeArea c area).Buffered c := by
  have hne : d.buffer ≠ area := by
    rintro rfl
    rw [getType_of_lt h.reserved.lt, h.reserved.typeOf_eq] at htype
    exact htype rfl
  have hsame : ((d.addEvent (.closeArea area)).setStatus c area .closed).getType c area = d.getType c area := by
    unfold getType
    split
    · rfl
    · exact congrFun (setStatus_typeOf area .closed) area
  have hbuffer : (d.closeArea c area).buffer = d.buffer := by
    unfold Device.closeArea
    change (Device.setActiveArea _ _ 0).buffer = _
    rw [setActiveArea_buffer (hsame ▸ htype)]
    exact buffer_congr (setStatus_activeArea ..)
  exact h.congr (closeArea_positionOf area) hbuffer (closeArea_map_ne hne h.reserved.ne_zero) fun page _ => by
    rw [closeArea_nand]

theorem Buffered.retireArea (h : d.Buffered c) {area : AreaPos} (harea : area ≠ d.buffer) :
    (d.retireArea c area).Buffered c :=
  h.congr (retireArea_positionOf area) (buffer_congr (retireArea_activeArea ..)) (retireArea_map_ne harea.symm)
    fun page _ => by rw [retireArea_flash]

theorem Reserved.position_ne (h : d.Reserved c) {area : AreaPos} (harea : area ≠ d.buffer) :
    d.positionOf d.buffer ≠ d.getPos c area := by
  rw [h.placed.getPos_eq]
  split
  · exact fun heq => h.ne_zero (h.placed.bijOn.injOn h.lt c.areas_pos heq)
  · exact fun heq => harea (h.placed.bijOn.injOn h.lt (Nat.not_le.mp ‹_›) heq).symm

theorem Buffered.deleteAreaContents (h : d.Buffered c) {area swappedArea : AreaPos} (harea : area ≠ d.buffer)
    (herased : erasedArea area swappedArea ≠ d.buffer) (quiet : Bool) :
    (d.deleteAreaContents c faults area swappedArea quiet).2.Buffered c := by
  by_cases hrefused : area ≥ c.areasNo ∨ d.getType c area = .retired
  · rwa [deleteAreaContents_refused faults _ _ hrefused]
  · rw [not_or, Nat.not_le] at hrefused
    obtain ⟨-, hpos, -, -, hactive⟩ := deleteAreaContents_spec faults area swappedArea quiet hrefused.1 hrefused.2
    obtain ⟨hflash, -, hmap, -⟩ := deleteAreaContents_frame faults swappedArea quiet hrefused.1 hrefused.2
    exact h.congr hpos (buffer_congr hactive) (hmap _ harea.symm herased.symm) fun page _ => by
      rw [hflash _ (h.reserved.position_ne herased)]

theorem deleteArea_positionOf (area : AreaPos) : (d.deleteArea c faults area).2.positionOf = d.positionOf := by
  by_cases hrefused : area ≥ c.areasNo ∨ d.getType c area = .retired
  · rw [deleteArea_refused faults hrefused]
  · rw [not_or, Nat.not_le] at hrefused
    obtain ⟨-, hpos, -⟩ := deleteArea_spec faults (c := c) (d := d) area
    obtain ⟨-, hcontents, -⟩ :=
      deleteAreaContents_spec faults (d := d.addEvent (.deleteArea area)) area 0 true hrefused.1 hrefused.2
    exact hpos.trans hcontents

theorem Buffered.deleteArea (h : d.Buffered c) {area : AreaPos} (harea : area ≠ d.buffer) :
    (d.deleteArea c faults area).2.Buffered c := by
  by_cases hrefused : area ≥ c.areasNo ∨ d.getType c area = .retired
  · rwa [deleteArea_refused faults hrefused]
  · rw [not_or, Nat.not_le] at hrefused
    obtain ⟨hflash, -, hmap⟩ := deleteArea_frame faults hrefused.1 hrefused.2
    exact h.congr (deleteArea_positionOf faults area) (buffer_congr (deleteArea_activeArea faults area))
      (hmap _ harea.symm) fun page _ => by rw [hflash _ (h.reserved.position_ne harea)]

/-! ### Collections -/

theorem Buffered.quiet (h : d.Buffered c) (hquiet : Quiet c d d') : d'.Buffered c :=
  h.congr (positionOf_congr (by rw [hquiet.sb])) (buffer_congr (by rw [hquiet.sb])) (by rw [hquiet.sb]) (hquiet.data _)

/-- The swap gives the buffer the place of the area that is collected. -/
theorem Reserved.swap (h : d.Reserved c) {area : AreaPos} (hlt : area < c.areasNo) (hne : area ≠ 0) :
    (d.swapAreaPosition c area d.buffer).Reserved c ∧
      (d.swapAreaPosition c area d.buffer).buffer = d.buffer ∧
      (d.swapAreaPosition c area d.buffer).positionOf d.buffer = d.positionOf area := by
  have hbuffer : (d.swapAreaPosition c area d.buffer).buffer = d.buffer := buffer_congr (swapAreaPosition_activeArea ..)
  refine ⟨h.congr (h.placed.swap hne h.ne_zero) hbuffer (congrFun (swapAreaPosition_typeOf area d.buffer) _)
    (congrFun (swapAreaPosition_statusOf area d.buffer) _), hbuffer, ?_⟩
  rw [swapAreaPosition_positionOf area d.buffer hlt h.lt, Function.comp_apply, Equiv.swap_apply_right]

/-- The place of the buffer is erased, after a swap the one that was collected. -/
theorem Reserved.eraseBuffer (h : d.Reserved c) {area : AreaPos} (hlt : area < c.areasNo) (hbuffer : area ≠ d.buffer)
    (htype : d.typeOf area ≠ .retired) (hproceeds : d.nand.Proceeds faults c.blocksPerArea) :
    (d.deleteAreaContents c faults area d.buffer false).1 = .ok ∧
      (d.deleteAreaContents c faults area d.buffer false).2.buffer = d.buffer ∧
      (d.deleteAreaContents c faults area d.buffer false).2.Buffered c := by
  have htype' : d.getType c area ≠ .retired := by rwa [getType_of_lt hlt]
  have herased : erasedArea area d.buffer = d.buffer := if_neg h.ne_zero
  obtain ⟨hok, hpos, -, -, hactive⟩ := deleteAreaContents_spec faults area d.buffer false hlt htype'
  obtain ⟨-, hblank, -, hmap⟩ := deleteAreaContents_frame faults d.buffer false hlt htype'
  rw [herased, getPos_of_lt h.lt] at hblank
  have hdone := hok.mpr hproceeds
  refine ⟨hdone, buffer_congr hactive, ?_, fun page hpage => ?_⟩
  · exact h.congr (h.placed.deleteAreaContents faults ..) (buffer_congr hactive)
      (congrArg Area.type (hmap hdone _ hbuffer.symm)) (congrArg Area.status (hmap hdone _ hbuffer.symm))
  · rw [hpos, buffer_congr hactive]
    exact hblank hdone page (c.dataPages_lt_total hpage.le)

theorem Reserved.clearOldPlace (h : d.Reserved c) (fav : Candidate) (hlt : fav.area < c.areasNo)
    (hbuffer : fav.area ≠ d.buffer) (htype : d.typeOf fav.area ≠ .retired)
    (hproceeds : d.nand.Proceeds faults c.blocksPerArea) :
    (d.clearOldPlace c faults fav).2.Buffered c ∧ (d.clearOldPlace c faults fav).2.buffer = d.buffer := by
  obtain ⟨hok, hsame, hbuffered⟩ := h.eraseBuffer faults hlt hbuffer htype hproceeds
  have hpair : d.deleteAreaContents c faults fav.area (d.getActiveArea .garbageBuffer) false =
      (.ok, (d.deleteAreaContents c faults fav.area d.buffer false).2) := Prod.ext hok rfl
  rw [Device.clearOldPlace, hpair]
  dsimp only
  rw [if_pos rfl]
  exact ⟨hbuffered.quiet (setSummaryStatus_quiet faults ..), (buffer_congr (by rw [setSummaryStatus_sb])).trans hsame⟩

/-- How a collection ends, with the erasure of the old place still to come where valid data was moved. -/
theorem Reserved.finishCollection (h : d.Reserved c) {target : AreaType} {fav : Candidate} (hlt : fav.area < c.areasNo)
    (hne : fav.area ≠ 0) (hbuffer : fav.area ≠ d.buffer) (htarget : target ≠ .garbageBuffer)
    (hvalid : fav.containsValidData = true → d.typeOf fav.area ≠ .retired ∧ d.nand.Proceeds faults c.blocksPerArea)
    (hfree : fav.containsValidData = false → Erased c d.nand (d.positionOf fav.area)) :
    (d.finishCollection c faults target fav).2.Buffered c := by
  obtain ⟨hreserved, hsame, hplace⟩ := h.swap hlt hne
  have hend : ∀ {d' : Device P}, d'.Buffered c → d'.buffer = d.buffer →
      ((if target = .unset then d' else d'.initAreaAs c fav.area target).addEvent (.checkpoint .garbage)).Buffered c := by
    intro d' h' hb
    split
    · exact h'.congr rfl rfl rfl fun _ _ => rfl
    · exact (h'.initAreaAs (hb ▸ hbuffer) htarget).congr rfl rfl rfl fun _ _ => rfl
  unfold Device.finishCollection
  cases hcontains : fav.containsValidData with
  | true =>
    obtain ⟨hclear, hclear'⟩ := hreserved.clearOldPlace faults fav hlt (by rwa [hsame])
      (by rw [swapAreaPosition_typeOf]; exact (hvalid hcontains).1)
      (by rw [swapAreaPosition_nand]; exact (hvalid hcontains).2)
    simp only [if_true]
    split
    · exact hclear
    · exact hend hclear (hclear'.trans hsame)
  | false =>
    have hswapped : (d.swapAreaPosition c fav.area d.buffer).Buffered c := by
      refine ⟨hreserved, ?_⟩
      rw [hsame, hplace, swapAreaPosition_nand]
      exact hfree hcontains
    simp only [Bool.false_eq_true, if_false, ne_eq, not_true]
    exact hend hswapped hsame

theorem Reserved.ne_of_isCollectable (h : d.Reserved c) {area : AreaPos} (hcollectable : d.isCollectable c area = true) :
    area ≠ d.buffer ∧ d.typeOf area ≠ .retired := by
  obtain ⟨-, htype⟩ := (isCollectable_iff (lt_of_isCollectable hcollectable)).mp hcollectable
  constructor
  · rintro rfl
    rw [h.typeOf_eq] at htype
    exact htype.elim (by decide) (by decide)
  · intro hretired
    rw [hretired] at htype
    exact htype.elim (by decide) (by decide)

/-! ### The conditions -/

variable (c) in
/-- A collection that looks for an area in this state moves its valid data without a failure and erases its old place. -/
def MovesAll (target : AreaType) (d : Device P) : Prop :=
  let fav := d.findNextBestArea c target
  fav.area = 0 ∨ fav.containsValidData = false ∨
    d.nand.Proceeds faults (countPages c .used fav.summary + c.blocksPerArea)

variable (c) in
/-- The same for a hard commit. -/
def HardMovesAll (order : List AreaPos) (d : Device P) : Prop :=
  ∀ fav ∈ d.favouriteArea c order, countPages c .used fav.2.entries = 0 ∨
    d.nand.Proceeds faults (countPages c .used fav.2.entries + c.blocksPerArea)

/-- The area is one of those that hold pages. -/
def HoldsPages (c : Config) (d : Device P) (area : AreaPos) : Prop := d.getType c area = .data ∨ d.getType c area = .index

/-- What the callers of the operations see to: areas become active when they are empty, only areas with pages are closed
or deleted, and nobody else writes to the place of the buffer. -/
def Called (c : Config) : Op P → Device P → Prop
  | .initAreaAs area type, d => d.getStatus c area = .empty ∧ (type = .data ∨ type = .index)
  | .closeArea area, d => d.HoldsPages c area
  | .retireArea area, d => d.HoldsPages c area
  | .deleteArea area, d => d.HoldsPages c area
  | .deleteAreaContents area swappedArea, d => d.HoldsPages c area ∧ d.HoldsPages c (erasedArea area swappedArea)
  | .collectGarbage target, _ => target = .data ∨ target = .index ∨ target = .unset
  | .commitAreaSummaryHard _, _ => True
  | .pages flash _ _ _, d =>
    ∀ page < c.dataPagesPerArea, flash (d.getPos c d.buffer) page = d.nand.flash (d.getPos c d.buffer) page

/-- No copy into the buffer and no erasure of an old place fails. -/
def KeepsBuffer (c : Config) (faults : Faults P) : Op P → Device P → Prop
  | .collectGarbage target, d => ∀ s ∈ d.rounds c faults (c.areasNo + 1) target, MovesAll c faults target s
  | .commitAreaSummaryHard order, d => HardMovesAll c faults order d
  | _, _ => True

theorem Reserved.ne_of_holdsPages (h : d.Reserved c) {area : AreaPos} (hpages : d.HoldsPages c area) : area ≠ d.buffer := by
  rintro rfl
  rw [HoldsPages, getType_of_lt h.lt, h.typeOf_eq] at hpages
  exact hpages.elim (by decide) (by decide)

theorem Reserved.ne_of_empty (h : d.Reserved c) {area : AreaPos} (hempty : d.getStatus c area = .empty) :
    area ≠ d.buffer := by
  rintro rfl
  rw [getStatus_of_lt h.lt, h.statusOf_eq] at hempty
  cases hempty

theorem moveValidDataToNewArea_reserved (h : d.Reserved c) (src dst : AreaPos) (summary : Summary) :
    (d.moveValidDataToNewArea c faults src dst summary).2.Reserved c :=
  h.congr (h.placed.congr rfl) rfl rfl rfl

theorem deleteArea_erased {area : AreaPos} (hlt : area < c.areasNo) (hok : (d.deleteArea c faults area).1 = .ok) :
    Erased c (d.deleteArea c faults area).2.nand ((d.deleteArea c faults area).2.positionOf area) := by
  by_cases hrefused : area ≥ c.areasNo ∨ d.getType c area = .retired
  · rw [deleteArea_refused faults hrefused] at hok
    cases hok
  · rw [not_or] at hrefused
    obtain ⟨-, hblank, -⟩ := deleteArea_frame faults hlt hrefused.2
    intro page hpage
    rw [deleteArea_positionOf, ← getPos_of_lt hlt]
    exact hblank hok page (c.dataPages_lt_total hpage.le)

/-- All states in which a collection looks for an area have a buffer, and so has the one it ends in. -/
theorem collectRounds_buffered {target : AreaType} (htarget : target ≠ .garbageBuffer) (k : Nat) (h : d.Buffered c)
    (hrounds : ∀ s ∈ d.rounds c faults k target, MovesAll c faults target s) :
    (d.collectRounds c faults k target).2.Buffered c := by
  apply collectRounds_induction c faults (Buffered c) (MovesAll c faults target) (fun r => r.2.Buffered c)
    (fun _ h => h) (fun _ h _ => h) ?_ ?_ k h hrounds
  · intro d h hmeets hfav hvalid _
    have hsound := findNextBestArea_sound target hfav
    obtain ⟨hbuffer, htype⟩ := h.reserved.ne_of_isCollectable hsound.collectable
    have hproceeds : d.nand.Proceeds faults (countPages c .used (d.findNextBestArea c target).summary + c.blocksPerArea) := by
      simpa [MovesAll, hfav, hvalid] using hmeets
    obtain ⟨hcopy, herase⟩ := d.nand.proceeds_add faults _ _ _ (moveValidDataToNewArea_clock c faults d
      (d.findNextBestArea c target).area (d.getActiveArea .garbageBuffer) _) hproceeds
    dsimp only
    rw [if_pos ((moveValidDataToNewArea_ok ..).mpr hcopy)]
    exact (moveValidDataToNewArea_reserved faults h.reserved ..).finishCollection faults hsound.lt hfav hbuffer htarget
      (fun _ => ⟨htype, herase⟩) fun hfree => absurd (hvalid.symm.trans hfree) (by decide)
  · intro d h _ hfav hvalid
    have hsound := findNextBestArea_sound target hfav
    obtain ⟨hbuffer, -⟩ := h.reserved.ne_of_isCollectable hsound.collectable
    have hdeleted := h.deleteArea faults hbuffer
    dsimp only
    split
    · rename_i hok
      refine hdeleted.reserved.finishCollection faults hsound.lt hfav ?_ htarget
        (fun hcontains => absurd (hcontains.symm.trans hvalid) (by decide))
        fun _ => deleteArea_erased faults hsound.lt hok
      rwa [buffer_congr (deleteArea_activeArea faults _)]
    · exact hdeleted

theorem rounds_buffered {target : AreaType} (k : Nat) (h : d.Buffered c) :
    ∀ s ∈ d.rounds c faults k target, s.Buffered c := by
  induction k generalizing d with
  | zero => exact fun s hs => by cases hs
  | succ k ih =>
    intro s hs
    rw [rounds] at hs
    rcases List.mem_cons.mp hs with rfl | hs
    · exact h
    · split_ifs at hs with hstop
      · cases hs
      · rw [not_or] at hstop
        obtain ⟨hbuffer, -⟩ := h.reserved.ne_of_isCollectable (findNextBestArea_sound target hstop.1).collectable
        have hdeleted := h.deleteArea faults hbuffer
        split at hs
        · cases hs
        · rename_i r d' _ heq
          rw [heq] at hdeleted
          exact ih hdeleted s hs

theorem movePages_unused (src dst : AreaPos) {summary : Summary} {pages : List PageOffs}
    (h : ∀ page ∈ pages, summary page ≠ .used) (n : Nand P) : movePages faults src dst summary pages n = (true, n) := by
  induction pages with
  | nil => rfl
  | cons page pages ih =>
    rw [movePages, if_neg (h page List.mem_cons_self)]
    exact ih fun page hpage => h page (List.mem_cons_of_mem _ hpage)

theorem commitAreaSummaryHard_buffered (order : List AreaPos) (h : d.Buffered c) (hmoves : HardMovesAll c faults order d) :
    (d.commitAreaSummaryHard c faults order).2.Buffered c := by
  cases hfav : d.favouriteArea c order with
  | none =>
    rw [commitAreaSummaryHard, hfav]
    exact h
  | some fav =>
    obtain ⟨area, e⟩ := fav
    have hne : area ≠ 0 := favouriteArea_ne_zero hfav
    have hcollectable := (favouriteArea_sound hfav).2
    have hlt := lt_of_isCollectable hcollectable
    obtain ⟨hbuffer, htype⟩ := h.reserved.ne_of_isCollectable hcollectable
    rw [commitAreaSummaryHard, hfav]
    dsimp only
    by_cases hused : countPages c .used e.entries = 0
    · have hmove : d.moveValidDataToNewArea c faults area (d.getActiveArea .garbageBuffer) e.entries =
          (true, d.addEvent (.moveValidData area)) := by
        have hpages := movePages_unused faults (d.getPos c area) (d.getPos c (d.getActiveArea .garbageBuffer))
          (fun page hpage => countPages_eq_zero.mp hused page (List.mem_range.mp hpage)) d.nand
        rw [moveValidDataToNewArea]
        simp only [addEvent_nand, getPos_congr (addEvent_sb d _), hpages]
        rfl
      simp only [hmove, if_pos hused]
      have hsame : (d.addEvent (.moveValidData area)).Buffered c := h.congr rfl rfl rfl fun _ _ => rfl
      exact hsame.deleteArea faults hbuffer
    · have hproceeds : d.nand.Proceeds faults (countPages c .used e.entries + c.blocksPerArea) := by
        simpa [hused] using hmoves (area, e) hfav
      obtain ⟨hcopy, herase⟩ := d.nand.proceeds_add faults _ _ _ (moveValidDataToNewArea_clock c faults d area
        (d.getActiveArea .garbageBuffer) _) hproceeds
      have hpair : d.moveValidDataToNewArea c faults area (d.getActiveArea .garbageBuffer) e.entries =
          (true, (d.moveValidDataToNewArea c faults area d.buffer e.entries).2) :=
        Prod.ext ((moveValidDataToNewArea_ok ..).mpr hcopy) rfl
      have hreserved := moveValidDataToNewArea_reserved faults h.reserved area d.buffer e.entries
      obtain ⟨hswapped, hsame, -⟩ := hreserved.swap hlt hne
      obtain ⟨-, -, hbuffered⟩ := hswapped.eraseBuffer faults hlt (by rwa [hsame]) (by rwa [swapAreaPosition_typeOf])
        (by rwa [swapAreaPosition_nand])
      rw [hpair]
      dsimp only
      rw [if_neg hused]
      rw [hsame] at hbuffered
      exact hbuffered.quiet (setSummaryStatus_quiet faults ..)

theorem step_buffered (h : d.Buffered c) (op : Op P) (hcalled : Called c op d) (hop : KeepsBuffer c faults op d) :
    (d.step c faults op).Buffered c := by
  cases op with
  | initAreaAs area type =>
    exact h.initAreaAs (h.reserved.ne_of_empty hcalled.1) (by rcases hcalled.2 with rfl | rfl <;> decide)
  | closeArea area =>
    exact h.closeArea (by rcases hcalled with htype | htype <;> rw [htype] <;> decide)
  | retireArea area => exact h.retireArea (h.reserved.ne_of_holdsPages hcalled)
  | deleteArea area => exact h.deleteArea faults (h.reserved.ne_of_holdsPages hcalled)
  | deleteAreaContents area swappedArea =>
    exact h.deleteAreaContents faults (h.reserved.ne_of_holdsPages hcalled.1) (h.reserved.ne_of_holdsPages hcalled.2) false
  | collectGarbage target =>
    exact collectRounds_buffered faults (by rcases hcalled with rfl | rfl | rfl <;> decide) _ h hop
  | commitAreaSummaryHard order => exact commitAreaSummaryHard_buffered faults order h hop
  | pages flash writes cache log =>
    exact h.congr rfl rfl rfl fun page hpage => by
      have hsame := hcalled page hpage
      rwa [getPos_of_lt h.reserved.lt] at hsame

/-! ### Formatting -/

/-- What is known of the buffer while areas are handed out, with those below `k` done. -/
structure Handed (c : Config) (k : Nat) (d : Device P) (had : Had) : Prop where
  first : k = 0 → had.superblock = false
  none : had.garbageBuffer = false → d.buffer = 0
  lt : had.garbageBuffer = true → d.buffer < k
  ne_zero : had.garbageBuffer = true → d.buffer ≠ 0
  typeOf_eq : had.garbageBuffer = true → d.typeOf d.buffer = .garbageBuffer
  statusOf_eq : had.garbageBuffer = true → d.statusOf d.buffer = .active
  erased : had.garbageBuffer = true → Erased c d.nand d.buffer

/-- What is done with area `k`, as long as it does not become the buffer. -/
theorem Handed.congr {k : Nat} {had had' : Had} (h : Handed c k d had) (hfirst : k = 0 → had'.superblock = false)
    (hhad : had'.garbageBuffer = had.garbageBuffer) (hbuffer : d'.buffer = d.buffer)
    (hmap : ∀ x, x ≠ k → x ≠ 0 → d'.sb.map x = d.sb.map x)
    (hflash : ∀ place ≠ k, d'.nand.flash place = d.nand.flash place) : Handed c k d' had' := by
  have hentry : had'.garbageBuffer = true → d'.sb.map d.buffer = d.sb.map d.buffer := fun hg =>
    hmap _ (Nat.ne_of_lt (h.lt (hhad ▸ hg))) (h.ne_zero (hhad ▸ hg))
  constructor
  · exact hfirst
  · intro hg
    rw [hbuffer, h.none (hhad ▸ hg)]
  · intro hg
    rw [hbuffer]
    exact h.lt (hhad ▸ hg)
  · intro hg
    rw [hbuffer]
    exact h.ne_zero (hhad ▸ hg)
  · intro hg
    rw [hbuffer, ← h.typeOf_eq (hhad ▸ hg)]
    exact congrArg Area.type (hentry hg)
  · intro hg
    rw [hbuffer, ← h.statusOf_eq (hhad ▸ hg)]
    exact congrArg Area.status (hentry hg)
  · intro hg page hpage
    rw [hbuffer, hflash _ (Nat.ne_of_lt (h.lt (hhad ▸ hg)))]
    exact h.erased (hhad ▸ hg) page hpage

theorem Handed.next {k : Nat} {had had' : Had} (h : Handed c k d had) (hhad : had'.garbageBuffer = had.garbageBuffer)
    (hbuffer : d'.buffer = d.buffer) (hmap : ∀ x, x ≠ k → x ≠ 0 → d'.sb.map x = d.sb.map x)
    (hflash : ∀ place ≠ k, d'.nand.flash place = d.nand.flash place) : Handed c (k + 1) d' had' := by
  have hsame : Handed c k d' had := h.congr h.first rfl hbuffer hmap hflash
  exact ⟨fun hk => absurd hk (Nat.succ_ne_zero k), fun hg => hsame.none (hhad ▸ hg),
    fun hg => Nat.lt_succ_of_lt (hsame.lt (hhad ▸ hg)), fun hg => hsame.ne_zero (hhad ▸ hg),
    fun hg => hsame.typeOf_eq (hhad ▸ hg), fun hg => hsame.statusOf_eq (hhad ▸ hg), fun hg => hsame.erased (hhad ▸ hg)⟩

theorem retireListed_buffer (list : List Nat) : (d.retireListed c list).2.buffer = d.buffer := by
  induction list generalizing d with
  | nil => rfl
  | cons block list ih =>
    rw [retireListed]
    split_ifs
    · rfl
    · rfl
    · rw [ih]
      exact (buffer_congr (retireArea_activeArea ..)).trans (buffer_congr (setPos_activeArea ..))
    · exact ih

/-- An area that is not retired after the erasure is erased. -/
theorem eraseAtFormat_spec {area : AreaPos} (hlt : area < c.areasNo) : let d' := d.eraseAtFormat c faults area
    d'.buffer = d.buffer ∧ (∀ x ≠ area, d'.sb.map x = d.sb.map x) ∧
      (∀ place ≠ area, d'.nand.flash place = d.nand.flash place) ∧
      (d'.getType c area ≠ .retired → Erased c d'.nand area) := by
  have hother : ∀ place ≠ area, (d.nand.eraseArea c faults area).2.flash place = d.nand.flash place :=
    fun place h => d.nand.eraseArea_flash_ne faults h
  have htype : ∀ n : Nand P, ((({ d with nand := n } : Device P).retireArea c area).increaseErasecount c area).getType c area =
      .retired := by
    intro n
    rw [getType_of_lt hlt, increaseErasecount_typeOf, retireArea_typeOf area hlt, Function.update_self]
  unfold eraseAtFormat
  dsimp only
  split
  · rename_i hok
    refine ⟨buffer_congr (increaseErasecount_activeArea ..), fun x hx => increaseErasecount_map_ne hx, fun place hplace => ?_,
      fun _ page hpage => ?_⟩
    · rw [increaseErasecount_nand]
      exact hother place hplace
    · rw [increaseErasecount_nand]
      exact d.nand.eraseArea_blank faults hok (c.dataPages_lt_total hpage.le)
  · refine ⟨(buffer_congr (increaseErasecount_activeArea ..)).trans (buffer_congr (retireArea_activeArea ..)),
      fun x hx => ?_, fun place hplace => ?_, fun h => absurd (htype _) h⟩
    · rw [increaseErasecount_map_ne hx, retireArea_map_ne hx]
    · rw [increaseErasecount_nand, retireArea_flash]
      exact hother place hplace

theorem Handed.assignArea {k : Nat} {had : Had} (h : Handed c k d had) (hlt : k < c.areasNo)
    (herased : (had.superblock && had.garbageBuffer) = false → Erased c d.nand k) :
    Handed c (k + 1) (d.assignArea c had k).1 (d.assignArea c had k).2 := by
  unfold Device.assignArea
  split_ifs with hsuper hjournal hgarbage
  · refine h.next rfl ?_ (fun x hx h₀ => ?_) fun place _ => by simp
    · rw [setActiveArea_buffer (by decide), initAreaAs_buffer (by decide)]
    · rw [setActiveArea_map_ne _ h₀, initAreaAs_map_ne _ hx]
  · exact h.next rfl (initAreaAs_buffer (by decide)) (fun x hx _ => initAreaAs_map_ne _ hx) fun place _ => by simp
  · have hsuper' : had.superblock = true := by simpa using hsuper
    have hgarbage' : had.garbageBuffer = false := by simpa using hgarbage
    have hk : k ≠ 0 := fun hk => by simp [h.first hk] at hsuper
    have hbuffer : (d.initAreaAs c k .garbageBuffer).buffer = k := by
      unfold Device.initAreaAs
      change (Device.setActiveArea _ .garbageBuffer k).sb.activeArea .garbageBuffer = k
      rw [setActiveArea_activeArea _ k .garbageBuffer (by decide), Function.update_self]
    constructor
    · exact fun hk => absurd hk (Nat.succ_ne_zero k)
    · exact fun hg => by cases hg
    · exact fun _ => by rw [hbuffer]; exact Nat.lt_succ_self k
    · exact fun _ => by rwa [hbuffer]
    · exact fun _ => by rw [hbuffer, initAreaAs_typeOf k _ hlt, Function.update_self]
    · intro _
      rw [hbuffer]
      unfold Device.initAreaAs
      simp only [addEvent_statusOf]
      rw [setActiveArea_statusOf k .garbageBuffer (by decide), Function.update_self]
    · intro _ page hpage
      rw [hbuffer, initAreaAs_nand]
      exact herased (by simp [hgarbage']) page hpage
  · exact h.next rfl (buffer_congr (setType_activeArea ..)) (fun x hx _ => setType_map_ne _ hx) fun place _ => by simp

theorem formatArea_handed (complete : Bool) {k : Nat} {had : Had} (hlt : k < c.areasNo) (h : Handed c k d had) :
    Handed c (k + 1) (formatArea c faults complete (d, had) k).1 (formatArea c faults complete (d, had) k).2 := by
  rw [formatArea]
  dsimp only
  split
  · exact h.next rfl rfl (fun _ _ _ => rfl) fun _ _ => rfl
  · have hset : Handed c k ((d.setStatus c k .empty).setPos c k k) had := by
      refine h.congr h.first rfl ?_ (fun x hx _ => ?_) fun place _ => ?_
      · exact buffer_congr ((setPos_activeArea ..).trans (setStatus_activeArea ..))
      · rw [setPos_map_ne k hx, setStatus_map_ne .empty hx]
      · rw [setPos_nand, setStatus_nand]
    obtain ⟨hbuffer, hmap, hflash, herased⟩ :=
      eraseAtFormat_spec faults (d := (d.setStatus c k .empty).setPos c k k) hlt
    have herase : Handed c k (((d.setStatus c k .empty).setPos c k k).eraseAtFormat c faults k) had :=
      hset.congr h.first rfl hbuffer (fun x hx _ => hmap x hx) hflash
    split_ifs with hcond hbad hretired
    · exact hset.next rfl (buffer_congr (retireArea_activeArea ..)) (fun x hx _ => retireArea_map_ne hx) fun place _ => by
        rw [retireArea_flash]
    · exact herase.next rfl rfl (fun _ _ _ => rfl) fun _ _ => rfl
    · exact herase.assignArea hlt fun _ => herased hretired
    · exact hset.assignArea hlt fun hhad => absurd (.inr (by simp [hhad])) hcond

/-- A formatted device with a garbage buffer. -/
theorem format_buffered {complete : Bool} {list : List Nat} {flash : AreaPos → PageOffs → Page P} {bad : Nat → Bool}
    (hformat : (initial c flash bad).format c faults list complete = (.ok, d)) (hbuffer : d.buffer ≠ 0) : d.Buffered c := by
  have hplaced := (format_placed faults hformat).1
  have hself : ∀ area < c.areasNo, d.positionOf area = area := fun area hlt =>
    (format_formatting faults (initial_formatting flash bad) hformat).placed area hlt (.inl hlt)
  have hloop : ∀ k ≤ c.areasNo, ∀ d : Device P, d.buffer = 0 →
      Handed c k ((List.range k).foldl (formatArea c faults complete) (d, ⟨0, false, false, false⟩)).1
        ((List.range k).foldl (formatArea c faults complete) (d, ⟨0, false, false, false⟩)).2 := by
    intro k hk d hd
    induction k with
    | zero => exact ⟨fun _ => rfl, fun _ => hd, nofun, nofun, nofun, nofun, nofun⟩
    | succ k ih =>
      rw [List.range_succ, List.foldl_concat]
      exact formatArea_handed faults complete (Nat.lt_of_succ_le hk) (ih (Nat.le_of_succ_le hk))
  have hlisted : ((initial c flash bad).retireListed c list).2.buffer = 0 := retireListed_buffer list
  rw [format] at hformat
  split at hformat
  · rename_i d₁ heq
    rw [heq] at hlisted
    cases hformat
    have hdone := hloop c.areasNo le_rfl d₁ hlisted
    have hgarbage : ((List.range c.areasNo).foldl (formatArea c faults complete) (d₁, ⟨0, false, false, false⟩)).2.garbageBuffer
        = true := by
      by_contra hg
      exact hbuffer (hdone.none (by simpa using hg))
    refine ⟨⟨hplaced, hdone.lt hgarbage, hdone.ne_zero hgarbage, hdone.typeOf_eq hgarbage, hdone.statusOf_eq hgarbage⟩,
      fun page hpage => ?_⟩
    exact (congrArg (fun place => Nand.flash _ place page) (hself _ (hdone.lt hgarbage))).trans
      (hdone.erased hgarbage page hpage)
  · rename_i r d₁ hne heq
    cases hformat
    exact absurd rfl hne

/-! ### Runs -/

/-- The buffer of this state is not area 0, is of its type, and its data pages are erased. -/
def Usable (c : Config) (d : Device P) : Prop :=
  d.buffer ≠ 0 ∧ d.getType c d.buffer = .garbageBuffer ∧ Erased c d.nand (d.getPos c d.buffer)

theorem Buffered.usable (h : d.Buffered c) : d.Usable c := by
  refine ⟨h.reserved.ne_zero, ?_, ?_⟩
  · rw [getType_of_lt h.reserved.lt, h.reserved.typeOf_eq]
  · rw [getPos_of_lt h.reserved.lt]
    exact h.erased

/-- In this state a collection starts with the area it has found. -/
def collects (c : Config) (target : AreaType) (d : Device P) : Bool :=
  let fav := d.findNextBestArea c target
  fav.area ≠ 0 ∧ ¬ (fav.containsValidData ∧ d.getActiveArea .garbageBuffer = 0)

/-- The states of a step in which `collectGarbage` or `commitAreaSummaryHard` starts to move, swap or erase. -/
def startsOf (c : Config) (faults : Faults P) (d : Device P) : Op P → List (Device P)
  | .collectGarbage target => (d.rounds c faults (c.areasNo + 1) target).filter (collects c target)
  | .commitAreaSummaryHard order => if (d.favouriteArea c order).isSome then [d] else []
  | _ => []

def starts (c : Config) (faults : Faults P) : Device P → List (Op P) → List (Device P)
  | _, [] => []
  | d, op :: ops => d.startsOf c faults op ++ starts c faults (d.step c faults op) ops

theorem startsOf_buffered (h : d.Buffered c) (op : Op P) : ∀ s ∈ d.startsOf c faults op, s.Buffered c := by
  intro s hs
  cases op with
  | collectGarbage target => exact rounds_buffered faults _ h s (List.mem_of_mem_filter hs)
  | commitAreaSummaryHard order =>
    rw [startsOf] at hs
    split at hs
    · rwa [List.mem_singleton.mp hs]
    · cases hs
  | _ => cases hs

theorem starts_buffered (ops : List (Op P)) (h : d.Buffered c) (hcalled : Along c faults (Called c) ops d)
    (hkeeps : Along c faults (KeepsBuffer c faults) ops d) : ∀ s ∈ d.starts c faults ops, s.Buffered c := by
  induction ops generalizing d with
  | nil => exact fun s hs => by cases hs
  | cons op ops ih =>
    intro s hs
    rcases List.mem_append.mp hs with hs | hs
    · exact startsOf_buffered faults h op s hs
    · exact ih (step_buffered faults h op hcalled.1 hkeeps.1) hcalled.2 hkeeps.2 s hs

theorem call_buffered (call : Call P) (h : d.Buffered c) (hcalled : Along c faults (Called c) (d.opsOf c faults call) d)
    (hkeeps : Along c faults (KeepsBuffer c faults) (d.opsOf c faults call) d) : (d.call c faults call).Buffered c := by
  have hops : (d.run c faults (d.opsOf c faults call)).Buffered c :=
    run_induction c faults (Buffered c) _ (fun d op h hop => step_buffered faults h op hop.1 hop.2) h
      (hcalled.and c faults hkeeps)
  exact hops.quiet (call_quiet faults call)

/-- All such states of a run of calls. -/
def callStarts (c : Config) (faults : Faults P) : Device P → List (Call P) → List (Device P)
  | _, [] => []
  | d, call :: calls => d.starts c faults (d.opsOf c faults call) ++ callStarts c faults (d.call c faults call) calls

/-- After formatting, as long as no copy into the buffer and no erasure of an old place fails: wherever a collection or
hard commit starts, it has a buffer of its own that is erased. -/
theorem starts_usable {flash : AreaPos → PageOffs → Page P} {bad : Nat → Bool} {list : List Nat} {complete : Bool}
    (hformat : (initial c flash bad).format c faults list complete = (.ok, d)) (hbuffer : d.buffer ≠ 0)
    (calls : List (Call P)) (hcalled : Through c faults (Called c) calls d)
    (hkeeps : Through c faults (KeepsBuffer c faults) calls d) : ∀ s ∈ d.callStarts c faults calls, s.Usable c := by
  have h := format_buffered faults hformat hbuffer
  clear hformat hbuffer
  induction calls generalizing d with
  | nil => exact fun s hs => by cases hs
  | cons call calls ih =>
    intro s hs
    rcases List.mem_append.mp hs with hs | hs
    · exact (starts_buffered faults _ h hcalled.1 hkeeps.1 s hs).usable
    · exact ih hcalled.2 hkeeps.2 (call_buffered faults call h hcalled.1 hkeeps.1) s hs

instance (target : AreaType) : Decidable (MovesAll c faults target d) :=
  inferInstanceAs (Decidable ((d.findNextBestArea c target).area = 0 ∨
    (d.findNextBestArea c target).containsValidData = false ∨
    d.nand.Proceeds faults (countPages c .used (d.findNextBestArea c target).summary + c.blocksPerArea)))

/-- An area is filled page by page, closed and collected. -/
def filled (area : AreaPos) (first : SummaryEntry) : List (Call Unit) :=
  [.area (.initAreaAs area .data), .setPageStatus [] area 0 first, .setPageStatus [] area 1 .dirty,
    .area (.closeArea area), .area (.collectGarbage .data)]

/-- Valid data is moved here. -/
theorem starts_usable_filled : ((formatted (failsAt [])).callStarts sixAreas (failsAt []) (filled 3 .used)).Forall
    (Usable sixAreas) := by
  rw [List.forall_iff_forall_mem]
  have hformat : (initial sixAreas (fun _ _ => .blank) fun _ => false).format sixAreas (failsAt []) [] true =
      (.ok, formatted (failsAt [])) := Prod.ext (by decide +kernel) rfl
  refine starts_usable (failsAt []) hformat (by decide +kernel) (filled 3 .used) ?_ ?_
  · exact ⟨⟨by unfold Called; decide +kernel, trivial⟩, trivial, trivial,
      ⟨by unfold Called HoldsPages; decide +kernel, trivial⟩, ⟨.inl rfl, trivial⟩, trivial⟩
  · exact ⟨⟨trivial, trivial⟩, trivial, trivial, ⟨trivial, trivial⟩, ⟨by unfold KeepsBuffer; decide +kernel, trivial⟩, trivial⟩

/-- The erasure after the move fails and the buffer is given up; the next collection takes area 0 for it. -/
theorem buffer_given_up : ¬ ∀ (P : Type) (c : Config) (faults : Faults P) (flash : AreaPos → PageOffs → Page P)
    (bad : Nat → Bool) (list : List Nat) (complete : Bool) (d : Device P),
    (initial c flash bad).format c faults list complete = (.ok, d) → d.buffer ≠ 0 → ∀ calls : List (Call P),
      Through c faults (Called c) calls d → ∀ s ∈ d.callStarts c faults calls, s.Usable c := by
  intro hall
  have husable := hall Unit sixAreas (failsAt [7]) (fun _ _ => .blank) (fun _ => false) [] true (formatted (failsAt [7]))
    (Prod.ext (by decide +kernel) rfl) (by decide +kernel)
    (filled 3 .used ++ .area (.closeArea 3) :: filled 4 .dirty)
    ⟨⟨by unfold Called; decide +kernel, trivial⟩, trivial, trivial,
      ⟨by unfold Called HoldsPages; decide +kernel, trivial⟩, ⟨.inl rfl, trivial⟩,
      ⟨by unfold Called HoldsPages; decide +kernel, trivial⟩, ⟨by unfold Called; decide +kernel, trivial⟩, trivial, trivial,
      ⟨by unfold Called HoldsPages; decide +kernel, trivial⟩, ⟨.inl rfl, trivial⟩, trivial⟩
  have hzero : ((formatted (failsAt [7])).callStarts sixAreas (failsAt [7])
      (filled 3 .used ++ .area (.closeArea 3) :: filled 4 .dirty)).any (fun s => s.buffer = 0) := by decide +kernel
  obtain ⟨s, hs, hs₀⟩ := List.any_eq_true.mp hzero
  exact (husable s hs).1 (of_decide_eq_true hs₀)

end Device
end Paffs.Areas
