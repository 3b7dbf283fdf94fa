import Paffs.Area.Placement

/-! Which area is taken for writing. -/
namespace Paffs.Areas
variable {P : Type} (c : Config) (faults : Faults P)

def minFreeAreas : Nat := 1

/-- `AreaType::retired` as a number. -/
def retiredNo : Nat := (Persistence.Enumeration.values : List AreaType).idxOf .retired

namespace Device

/-- The position of an area is compared with a type. -/
def isOffered (d : Device P) (area : AreaPos) : Bool := d.getStatus c area = .empty ∧ d.getPos c area ≠ retiredNo

def isUnworn (d : Device P) (area : AreaPos) : Bool :=
  d.sb.overallDeletions < c.areasNo * 2 ∨ d.getErasecount c area ≤ d.sb.overallDeletions / c.areasNo / 2

/-- It is never set to another value. -/
def secondBestAreasDeletions : Nat := 0

/-- The search among empty areas; `none` if it falls through. -/
def findEmptyArea (d : Device P) : List AreaPos → AreaPos → Option AreaPos
  | [], secondBestArea => if secondBestArea ≠ 0 then some secondBestArea else none
  | area :: rest, secondBestArea =>
    if d.isOffered c area then
      if d.isUnworn c area then some area
      else if d.getErasecount c area < secondBestAreasDeletions ∨ secondBestArea = 0 then findEmptyArea d rest area
      else findEmptyArea d rest secondBestArea
    else findEmptyArea d rest secondBestArea

/-- What `findWritableArea` does when no empty area is taken. -/
def collectForWriting (d : Device P) (areaType : AreaType) : Result × AreaPos × Device P :=
  let (r, d) := d.collectGarbage c faults areaType
  if r ≠ .ok then (r, 0, d)
  else if d.getActiveArea areaType ≠ 0 then
    if d.getStatus c (d.getActiveArea areaType) ≠ .active then (.bug, 0, d) else (.ok, d.getActiveArea areaType, d)
  else (.bug, 0, d)

/-- The first component is what `lasterr` is set to. -/
def findWritableArea (d : Device P) (areaType : AreaType) : Result × AreaPos × Device P :=
  if d.getActiveArea areaType ≠ 0 then (.ok, d.getActiveArea areaType, d)
  else if d.sb.usedAreas < c.areasNo - minFreeAreas then
    match d.findEmptyArea c (List.range c.areasNo) 0 with
    | some area => (.ok, area, d.initAreaAs c area areaType)
    | none => d.collectForWriting c faults areaType
  else d.collectForWriting c faults areaType

/-! ### What it is for -/

variable {c faults} {d : Device P} {area : AreaPos} {areaType : AreaType}

variable (c) in
/-- An empty area that may be handed out. -/
def Available (d : Device P) (area : AreaPos) : Prop :=
  area < c.areasNo ∧ d.statusOf area = .empty ∧ d.typeOf area ≠ .retired ∧ d.typeOf area ≠ .superblock ∧ area ≠ 0

variable (c faults) in
/-- The area returned was available and is active now. Where all that are available are worn, it is one of those that were
erased least. -/
structure Chooses (areaType : AreaType) (d : Device P) : Prop where
  available : d.Available c (d.findWritableArea c faults areaType).2.1
  status : (d.findWritableArea c faults areaType).2.2.statusOf (d.findWritableArea c faults areaType).2.1 = .active
  type : (d.findWritableArea c faults areaType).2.2.typeOf (d.findWritableArea c faults areaType).2.1 = areaType
  active : (d.findWritableArea c faults areaType).2.2.getActiveArea areaType = (d.findWritableArea c faults areaType).2.1
  least : (∀ a, d.Available c a → d.isUnworn c a = false) →
    ∀ a, d.Available c a → d.erasecountOf (d.findWritableArea c faults areaType).2.1 ≤ d.erasecountOf a

variable (c faults) in
/-- Whenever an empty area may be taken, a good one is. -/
def ChoosesWell (areaType : AreaType) (d : Device P) : Prop :=
  d.getActiveArea areaType = 0 → d.sb.usedAreas < c.areasNo - minFreeAreas →
    (∃ a < c.areasNo, d.statusOf a = .empty ∧ d.typeOf a ≠ .retired) → Chooses c faults areaType d

variable (c) in
/-- Of the areas that are offered, the first that is not worn, or if all of them are worn, the first but area 0. -/
def Foremost (d : Device P) (area : AreaPos) : Prop :=
  area < c.areasNo ∧ d.isOffered c area ∧
    if d.isUnworn c area then ∀ a < area, d.isOffered c a → d.isUnworn c a = false
    else area ≠ 0 ∧ (∀ a < c.areasNo, d.isOffered c a → d.isUnworn c a = false) ∧ ∀ a < area, d.isOffered c a → a = 0

variable (c) in
/-- The area that comes first is a good one. -/
def Favourable (areaType : AreaType) (d : Device P) : Prop :=
  d.getActiveArea areaType = 0 → d.sb.usedAreas < c.areasNo - minFreeAreas →
    (∃ a < c.areasNo, d.statusOf a = .empty ∧ d.typeOf a ≠ .retired) →
      areaType ≠ .no ∧ ∃ area, d.Foremost c area ∧ d.Available c area ∧
        ((∀ a, d.Available c a → d.isUnworn c a = false) → ∀ a, d.Available c a → d.erasecountOf area ≤ d.erasecountOf a)

variable (c) in
/-- No empty area is said to hold data. -/
def Tidy (d : Device P) : Prop := ∀ a < c.areasNo, d.statusOf a = .empty → d.typeOf a ≠ .data ∧ d.typeOf a ≠ .index

/-! ### The search -/

theorem findEmptyArea_eq (areas : List AreaPos) (secondBestArea : AreaPos) :
    d.findEmptyArea c areas secondBestArea =
      match areas.find? fun a => d.isOffered c a && d.isUnworn c a with
      | some area => some area
      | none =>
        if secondBestArea ≠ 0 then some secondBestArea else areas.find? fun a => d.isOffered c a && a ≠ 0 := by
  induction areas generalizing secondBestArea with
  | nil => rfl
  | cons area rest ih =>
    rw [findEmptyArea]
    by_cases hoffered : d.isOffered c area
    swap
    · have hno : d.isOffered c area = false := by simpa using hoffered
      rw [if_neg hoffered, ih, List.find?_cons_of_neg (by simp [hno]), List.find?_cons_of_neg (by simp [hno])]
    rw [if_pos hoffered]
    by_cases hunworn : d.isUnworn c area
    · rw [if_pos hunworn, List.find?_cons_of_pos (by simp [hoffered, hunworn])]
    have hworn : d.isUnworn c area = false := by simpa using hunworn
    rw [if_neg hunworn, List.find?_cons_of_neg (by simp [hworn])]
    by_cases hsecond : secondBestArea = 0
    · rw [if_pos (.inr hsecond), ih, hsecond]
      by_cases harea : area = 0
      · rw [harea, List.find?_cons_of_neg (by simp)]
      · simp only [ne_eq, harea, not_false_eq_true, if_true, not_true_eq_false, if_false]
        rw [List.find?_cons_of_pos (by simp [hoffered, harea])]
    · have hnever : ¬(d.getErasecount c area < secondBestAreasDeletions ∨ secondBestArea = 0) :=
        not_or.mpr ⟨Nat.not_lt_zero _, hsecond⟩
      rw [if_neg hnever, ih, if_pos hsecond, if_pos hsecond]

/-- The search finds what comes first. -/
theorem findEmptyArea_iff : d.findEmptyArea c (List.range c.areasNo) 0 = some area ↔ d.Foremost c area := by
  rw [findEmptyArea_eq]
  cases hfind : (List.range c.areasNo).find? fun a => d.isOffered c a && d.isUnworn c a with
  | some best =>
    obtain ⟨hbest, hmem, hbefore⟩ := List.find?_range_eq_some.mp hfind
    have hlt := List.mem_range.mp hmem
    rw [Bool.and_eq_true] at hbest
    constructor
    · intro heq
      cases heq
      refine ⟨hlt, hbest.1, ?_⟩
      rw [if_pos hbest.2]
      intro a ha hoffered
      simpa [hoffered] using hbefore a ha
    · rintro ⟨-, hoffered, hfirst⟩
      split_ifs at hfirst with hunworn
      · rcases Nat.lt_trichotomy area best with h | h | h
        · have := hbefore area h
          simp [hoffered, hunworn] at this
        · rw [h]
        · have := hfirst best h hbest.1
          rw [hbest.2] at this
          cases this
      · have := hfirst.2.1 best hlt hbest.1
        rw [hbest.2] at this
        cases this
  | none =>
    have hworn : ∀ a < c.areasNo, d.isOffered c a → d.isUnworn c a = false := by
      intro a ha hoffered
      have := List.find?_eq_none.mp hfind a (List.mem_range.mpr ha)
      simpa [hoffered] using this
    simp only [ne_eq, not_true_eq_false, if_false]
    rw [List.find?_range_eq_some, List.mem_range]
    constructor
    · rintro ⟨hp, hlt, hbefore⟩
      obtain ⟨hoffered, hne⟩ : d.isOffered c area = true ∧ area ≠ 0 := by simpa using hp
      refine ⟨hlt, hoffered, ?_⟩
      rw [if_neg (by rw [hworn area hlt hoffered]; simp)]
      refine ⟨hne, hworn, fun a ha ha' => ?_⟩
      simpa [ha'] using hbefore a ha
    · rintro ⟨hlt, hoffered, hfirst⟩
      rw [if_neg (by rw [hworn area hlt hoffered]; simp)] at hfirst
      refine ⟨by simp [hoffered, hfirst.1], hlt, fun a ha => ?_⟩
      by_cases ha' : d.isOffered c a
      · simp [hfirst.2.2 a ha ha']
      · simp [ha']

/-! ### Empty areas that are taken -/

theorem initAreaAs_statusOf_self (htype : areaType ≠ .no) : (d.initAreaAs c area areaType).statusOf area = .active := by
  simp only [initAreaAs, addEvent_statusOf]
  rw [setActiveArea_statusOf _ _ htype, Function.update_self]

theorem initAreaAs_getActiveArea (htype : areaType ≠ .no) : (d.initAreaAs c area areaType).getActiveArea areaType = area := by
  rw [getActiveArea, if_neg htype]
  simp only [initAreaAs, addEvent_sb]
  rw [setActiveArea_activeArea _ area areaType htype, Function.update_self]

theorem findWritableArea_of_foremost (hactive : d.getActiveArea areaType = 0) (hused : d.sb.usedAreas < c.areasNo - minFreeAreas)
    (h : d.Foremost c area) : d.findWritableArea c faults areaType = (.ok, area, d.initAreaAs c area areaType) := by
  rw [findWritableArea, if_neg (not_not.mpr hactive), if_pos hused, findEmptyArea_iff.mpr h]

/-! ### Areas that are collected -/

/-- A deletion makes areas unset or retires them. -/
theorem deleteArea_typeOf (d : Device P) (area x : AreaPos) :
    (d.deleteArea c faults area).2.typeOf x = d.typeOf x ∨ (d.deleteArea c faults area).2.typeOf x = .retired ∨
      (d.deleteArea c faults area).2.typeOf x = .unset := by
  by_cases hrefused : area ≥ c.areasNo ∨ d.getType c area = .retired
  · rw [deleteArea_refused faults hrefused]
    exact .inl rfl
  rw [not_or, Nat.not_le] at hrefused
  obtain ⟨hlt, htype⟩ := hrefused
  have hcontents : ∀ d : Device P, d.getType c area ≠ .retired →
      (d.deleteAreaContents c faults area 0 true).2.typeOf x = d.typeOf x ∨
        (d.deleteAreaContents c faults area 0 true).2.typeOf x = .retired := by
    intro d htype
    unfold deleteAreaContents
    rw [if_neg (Nat.not_le.mpr hlt), if_neg htype]
    simp only [addEventUnless, if_true]
    rw [typeOf_congr (congrArg _ (deleteSummary_sb ..)), typeOf_congr (congrArg _ (resetASWritten_sb ..)),
      increaseErasecount_typeOf]
    unfold eraseOrRetire
    split
    · exact .inl rfl
    · rename_i nand _
      by_cases hx : x = area
      · subst hx
        exact .inr (congrFun (retireArea_typeOf (d := { d with nand := nand }) x hlt) x |>.trans (Function.update_self ..))
      · exact .inl (retireArea_typeOf_ne (d := { d with nand := nand }) hx)
  have hx := hcontents (d.addEvent (.deleteArea area)) htype
  unfold deleteArea
  rw [if_neg (Nat.not_le.mpr hlt), if_neg htype]
  split
  · rename_i d' heq
    rw [heq] at hx
    rw [addEvent_typeOf, decreaseUsedAreas_typeOf, setType_typeOf area .unset hlt, setStatus_typeOf, Function.update_apply]
    split_ifs
    · exact .inr (.inr rfl)
    · exact hx.imp_right .inl
  · rename_i r d' _ heq
    rw [heq] at hx
    exact hx.imp_right .inl

theorem deleteAreaContents_activeArea (d : Device P) (area swappedArea : AreaPos) (quiet : Bool) :
    (d.deleteAreaContents c faults area swappedArea quiet).2.sb.activeArea = d.sb.activeArea := by
  by_cases hrefused : area ≥ c.areasNo ∨ d.getType c area = .retired
  · rw [deleteAreaContents_refused faults swappedArea quiet hrefused]
  · rw [not_or, Nat.not_le] at hrefused
    exact (deleteAreaContents_spec faults area swappedArea quiet hrefused.1 hrefused.2).2.2.2.2

/-- What is collected becomes the active area, unless nothing is to be. -/
theorem finishCollection_getActiveArea {fav : Candidate} (hok : (d.finishCollection c faults areaType fav).1 = .ok) :
    (d.finishCollection c faults areaType fav).2.getActiveArea areaType = fav.area ∨
      (d.finishCollection c faults areaType fav).2.getActiveArea areaType = d.getActiveArea areaType := by
  by_cases hno : areaType = .no
  · subst hno
    exact .inr rfl
  have hclear : ∀ d : Device P, (d.clearOldPlace c faults fav).2.sb.activeArea .unset = d.sb.activeArea .unset := by
    intro d
    unfold clearOldPlace
    rw [setSummaryStatus_sb]
    split
    · rw [deleteAreaContents_activeArea]
    · rw [setActiveArea_activeArea _ _ _ (by decide), Function.update_of_ne (by decide), deleteAreaContents_activeArea]
  have hunset : ∀ d' : Device P, d'.sb.activeArea .unset = d.sb.activeArea .unset →
      d'.getActiveArea .unset = d.getActiveArea .unset := fun d' h => h
  unfold finishCollection at hok ⊢
  cases hvalid : fav.containsValidData with
  | true =>
    simp only [hvalid, if_true] at hok ⊢
    split_ifs at hok ⊢ with hr htype
    · exact absurd hok hr
    · subst htype
      exact .inr (hunset _ ((hclear _).trans (congrFun (swapAreaPosition_activeArea ..) _)))
    · exact .inl (initAreaAs_getActiveArea hno)
  | false =>
    simp only [Bool.false_eq_true, if_false, ne_eq, not_true]
    split_ifs with htype
    · subst htype
      exact .inr (hunset _ (congrFun (swapAreaPosition_activeArea ..) _))
    · exact .inl (initAreaAs_getActiveArea hno)

variable (c) in
/-- What is meant by data that may be collected. -/
def Holds (d : Device P) (area : AreaPos) : Prop := area < c.areasNo ∧ (d.typeOf area = .data ∨ d.typeOf area = .index)

/-- After a collection that did not fail an area is active that was one with data. -/
theorem collectGarbage_getActiveArea (hactive : d.getActiveArea areaType = 0)
    (hok : (d.collectGarbage c faults areaType).1 = .ok) :
    (d.collectGarbage c faults areaType).2.getActiveArea areaType = 0 ∨
      d.Holds c ((d.collectGarbage c faults areaType).2.getActiveArea areaType) := by
  refine collectRounds_induction c faults
    (fun s => s.getActiveArea areaType = 0 ∧ ∀ a, s.Holds c a → d.Holds c a) (fun _ => True)
    (fun r => r.1 = .ok → r.2.getActiveArea areaType = 0 ∨ d.Holds c (r.2.getActiveArea areaType))
    ?_ ?_ ?_ ?_ (c.areasNo + 1) ⟨hactive, fun _ h => h⟩ (fun _ _ => trivial) hok
  · intro s _ h
    cases h
  · intro s _ _ h
    cases h
  · intro s hs _ hfav _ _ fav r h
    have hcollectable := (findNextBestArea_sound areaType hfav).collectable
    have hlt := lt_of_isCollectable hcollectable
    have hholds : d.Holds c fav.area := hs.2 _ ⟨hlt, ((isCollectable_iff hlt).mp hcollectable).2⟩
    split_ifs at h ⊢ with hmoved
    rcases finishCollection_getActiveArea h with heq | heq
    · rw [heq]
      exact .inr hholds
    · rw [heq]
      exact .inl hs.1
  · intro s hs _ hfav _ fav r
    have hcollectable := (findNextBestArea_sound areaType hfav).collectable
    have hlt := lt_of_isCollectable hcollectable
    have hholds : d.Holds c fav.area := hs.2 _ ⟨hlt, ((isCollectable_iff hlt).mp hcollectable).2⟩
    have hunchanged : r.2.getActiveArea areaType = 0 := by
      rw [getActiveArea_congr (deleteArea_activeArea faults fav.area) areaType]
      exact hs.1
    split_ifs with hdeleted
    · intro h
      rcases finishCollection_getActiveArea h with heq | heq
      · rw [heq]
        exact .inr hholds
      · rw [heq]
        exact .inl hunchanged
    · refine ⟨hunchanged, fun a ha => hs.2 a ⟨ha.1, ?_⟩⟩
      have hdeleted : (s.deleteArea c faults fav.area).2.typeOf a = s.typeOf a ∨ _ := deleteArea_typeOf s fav.area a
      rcases hdeleted with h | h | h
      · rw [← h]
        exact ha.2
      · have := ha.2
        rw [h] at this
        rcases this with this | this <;> cases this
      · have := ha.2
        rw [h] at this
        rcases this with this | this <;> cases this

/-! ### The choice -/

theorem Foremost.offered (h : d.Foremost c area) : d.statusOf area = .empty := by
  have := h.2.1
  rw [isOffered, decide_eq_true_iff, getStatus_of_lt h.1] at this
  exact this.1

/-- What comes first is taken. -/
theorem Foremost.chooses (h : d.Foremost c area) (htype : areaType ≠ .no) (hactive : d.getActiveArea areaType = 0)
    (hused : d.sb.usedAreas < c.areasNo - minFreeAreas) (havailable : d.Available c area)
    (hleast : (∀ a, d.Available c a → d.isUnworn c a = false) →
      ∀ a, d.Available c a → d.erasecountOf area ≤ d.erasecountOf a) : Chooses c faults areaType d := by
  have hfound : d.findWritableArea c faults areaType = _ := findWritableArea_of_foremost hactive hused h
  constructor
  all_goals rw [hfound]
  · exact havailable
  · exact initAreaAs_statusOf_self htype
  · rw [initAreaAs_typeOf area areaType h.1, Function.update_self]
  · exact initAreaAs_getActiveArea htype
  · exact hleast

/-- An area that was collected held data before. -/
theorem collectForWriting_holds (hactive : d.getActiveArea areaType = 0)
    (hne : (d.collectForWriting c faults areaType).2.1 ≠ 0) : d.Holds c (d.collectForWriting c faults areaType).2.1 := by
  have hcollected : (d.collectGarbage c faults areaType).1 = .ok → _ := collectGarbage_getActiveArea hactive
  unfold collectForWriting at hne ⊢
  dsimp only at hne ⊢
  split_ifs at hne ⊢ with hr hzero hstatus
  all_goals first
    | exact absurd rfl hne
    | exact (hcollected (not_not.mp hr)).resolve_left hzero

/-- If the search falls through, no area that was available is chosen. -/
theorem not_chooses_of_none (htidy : d.Tidy c) (hactive : d.getActiveArea areaType = 0)
    (hused : d.sb.usedAreas < c.areasNo - minFreeAreas) (hnone : d.findEmptyArea c (List.range c.areasNo) 0 = none) :
    ¬ Chooses c faults areaType d := by
  intro h
  have hfound : d.findWritableArea c faults areaType = d.collectForWriting c faults areaType := by
    rw [findWritableArea, if_neg (not_not.mpr hactive), if_pos hused, hnone]
  obtain ⟨hlt, hempty, -, -, hne⟩ := h.available
  rw [hfound] at hlt hempty hne
  obtain ⟨-, hdata⟩ := collectForWriting_holds hactive hne
  obtain ⟨hnodata, hnoindex⟩ := htidy _ hlt hempty
  exact hdata.elim hnodata hnoindex

/-- An empty area that is not retired is taken well if and only if the first area the search accepts is a good one. -/
theorem choosesWell_iff (d : Device P) (areaType : AreaType) :
    (d.Favourable c areaType → ChoosesWell c faults areaType d) ∧
      (d.Tidy c → ChoosesWell c faults areaType d → d.Favourable c areaType) := by
  constructor
  · intro h hactive hused hempty
    obtain ⟨htype, area, hforemost, havailable, hleast⟩ := h hactive hused hempty
    exact hforemost.chooses htype hactive hused havailable hleast
  · intro htidy h hactive hused hempty
    have hchooses := h hactive hused hempty
    have htype : areaType ≠ .no := by
      intro hno
      subst hno
      have := hchooses.active
      exact hchooses.available.2.2.2.2 this.symm
    cases hfind : d.findEmptyArea c (List.range c.areasNo) 0 with
    | none => exact absurd hchooses (not_chooses_of_none htidy hactive hused hfind)
    | some area =>
      have hforemost := findEmptyArea_iff.mp hfind
      have hfound : d.findWritableArea c faults areaType = _ := findWritableArea_of_foremost hactive hused hforemost
      have havailable := hchooses.available
      have hleast := hchooses.least
      rw [hfound] at havailable hleast
      exact ⟨htype, area, hforemost, havailable, hleast⟩

/-- Of six areas the last three are empty, and all of these were erased more often than half the average. -/
def wornOut : Device Unit :=
  { initial sixAreas (fun _ _ => .blank) fun _ => false with
    sb := ⟨fun area => if area < 3 then ⟨if area = 0 then .superblock else .index, .active, 0, area⟩
      else ⟨.unset, .empty, 20 - area, area⟩, fun _ => 0, 3, 48⟩ }

/-- Had nothing been erased so far, the first of them would be right. -/
theorem choosesWell_unworn : let d := { wornOut with sb := { wornOut.sb with overallDeletions := 0 } }
    d.Tidy sixAreas ∧ d.Favourable sixAreas .data ∧ ChoosesWell sixAreas (failsAt []) .data d := by
  intro d
  have hfavourable : d.Favourable sixAreas .data := by
    refine fun _ _ _ => ⟨by decide, 3, ⟨by decide, by decide, ?_⟩, by unfold Available; decide, fun h => ?_⟩
    · rw [if_pos (by decide)]
      decide
    · exact absurd (h 3 (by unfold Available; decide)) (by decide)
  exact ⟨by unfold Tidy; decide, hfavourable, (choosesWell_iff d .data).1 hfavourable⟩

/-- The first of them is taken, and not the one that was erased least. -/
theorem worn_area_is_not_compared : ¬ ∀ (P : Type) (c : Config) (faults : Faults P) (areaType : AreaType) (d : Device P),
    areaType ≠ .no → d.Tidy c → ChoosesWell c faults areaType d := by
  intro hall
  have hwell := hall Unit sixAreas (failsAt []) .data wornOut (by decide) (by unfold Tidy; decide) (by decide) (by decide)
    ⟨3, by decide⟩
  have hforemost : wornOut.Foremost sixAreas 3 := by
    refine ⟨by decide, by decide, ?_⟩
    rw [if_neg (by decide)]
    decide
  have hleast := hwell.least (fun a h => ?_) 5 (by unfold Available; decide)
  · rw [findWritableArea_of_foremost (by decide) (by decide) hforemost] at hleast
    exact absurd hleast (by decide)
  · obtain ⟨hlt, hempty, -⟩ := h
    revert hempty
    exact (by decide : ∀ a < 6, wornOut.statusOf a = .empty → wornOut.isUnworn sixAreas a = false) a hlt

end Device
end Paffs.Areas
