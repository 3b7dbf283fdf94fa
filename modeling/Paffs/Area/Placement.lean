import Mathlib.Data.Set.Function
import Mathlib.Logic.Equiv.Set
import Paffs.Area.Flash

/-! Where the areas lie, and how often the places they lie on were erased. -/
namespace Paffs.Areas
variable {P : Type} {c : Config} (faults : Faults P) {d d' : Device P}

namespace Device

def positionOf (d : Device P) (area : AreaPos) : AreaPos := (d.sb.map area).position

def erasecountOf (d : Device P) (area : AreaPos) : Nat := (d.sb.map area).erasecount

/-- The areas lie on all places, each on one, and the first on the first. -/
structure Placed (c : Config) (d : Device P) : Prop where
  bijOn : Set.BijOn d.positionOf (Set.Iio c.areasNo) (Set.Iio c.areasNo)
  first : d.positionOf 0 = 0

/-- The counter of an area is that of the place it lies on, in 17 bits. -/
def Counted (c : Config) (d : Device P) : Prop :=
  ∀ area < c.areasNo, d.erasecountOf area = d.nand.erases (d.positionOf area) % 2 ^ 17

theorem Placed.congr (h : d.Placed c) (hpos : d'.positionOf = d.positionOf) : d'.Placed c :=
  ⟨hpos ▸ h.bijOn, hpos ▸ h.first⟩

theorem Counted.congr (h : d.Counted c) (hpos : d'.positionOf = d.positionOf) (hcount : d'.erasecountOf = d.erasecountOf)
    (herases : d'.nand.erases = d.nand.erases) : d'.Counted c := by
  intro area hlt
  rw [hpos, hcount, herases]
  exact h area hlt

theorem Placed.getPos_eq (h : d.Placed c) (area : AreaPos) :
    d.getPos c area = if area ≥ c.areasNo then d.positionOf 0 else d.positionOf area := by
  rw [h.first]
  rfl

theorem getPos_of_lt {area : AreaPos} (hlt : area < c.areasNo) : d.getPos c area = d.positionOf area :=
  if_neg (Nat.not_le.mpr hlt)

/-- Two addresses of areas that exist are never the same page of the flash. -/
theorem Placed.getPageNumber_injective (h : d.Placed c) {area area' : AreaPos} {page page' : PageOffs}
    (hlt : area < c.areasNo) (hlt' : area' < c.areasNo) (hpage : page < c.totalPagesPerArea)
    (hpage' : page' < c.totalPagesPerArea) (heq : d.getPageNumber c area page = d.getPageNumber c area' page') :
    area = area' ∧ page = page' := by
  have hnumber : ∀ {a p}, a < c.areasNo → p < c.totalPagesPerArea →
      d.getPageNumber c a p = d.positionOf a * c.totalPagesPerArea + p := by
    intro a p ha hp
    have hpos : d.positionOf a < c.areasNo := h.bijOn.mapsTo ha
    have hbound : (d.positionOf a + 1) * c.totalPagesPerArea ≤ c.areasNo * c.totalPagesPerArea :=
      Nat.mul_le_mul_right _ hpos
    rw [getPageNumber, if_neg (Nat.not_le.mpr ha), getPos_of_lt ha]
    rw [Nat.succ_mul] at hbound
    have hle : d.positionOf a * c.totalPagesPerArea + p ≤ c.areasNo * c.totalPagesPerArea :=
      (Nat.add_le_add_left hp.le _).trans hbound
    exact if_neg (Nat.not_lt.mpr hle)
  rw [hnumber hlt hpage, hnumber hlt' hpage'] at heq
  have hdiv := congrArg (· / c.totalPagesPerArea) heq
  have hmod := congrArg (· % c.totalPagesPerArea) heq
  have htotal : 0 < c.totalPagesPerArea := Nat.zero_lt_of_lt hpage
  simp only [Nat.mul_add_mod_self_right, Nat.mod_eq_of_lt hpage, Nat.mod_eq_of_lt hpage'] at hmod
  simp only [Nat.mul_comm _ c.totalPagesPerArea, Nat.mul_add_div htotal, Nat.div_eq_of_lt hpage, Nat.div_eq_of_lt hpage',
    Nat.add_zero] at hdiv
  exact ⟨h.bijOn.injOn hlt hlt' hdiv, hmod⟩

/-! ### What moves an area, and what counts -/

section Frame
variable (area pos : AreaPos) (type : AreaType) (status : AreaStatus) (e : Event)

theorem positionOf_congr (h : d'.sb.map = d.sb.map) : d'.positionOf = d.positionOf := by
  unfold positionOf; rw [h]

theorem erasecountOf_congr (h : d'.sb.map = d.sb.map) : d'.erasecountOf = d.erasecountOf := by
  unfold erasecountOf; rw [h]

theorem positionOf_modify (f : Area → Area) (h : ∀ a, (f a).position = a.position) :
    (d.modify area f).positionOf = d.positionOf := by
  funext x
  by_cases hx : x = area
  · subst hx
    simp [positionOf, modify, h]
  · simp [positionOf, modify, hx]

theorem erasecountOf_modify (f : Area → Area) (h : ∀ a, (f a).erasecount = a.erasecount) :
    (d.modify area f).erasecountOf = d.erasecountOf := by
  funext x
  by_cases hx : x = area
  · subst hx
    simp [erasecountOf, modify, h]
  · simp [erasecountOf, modify, hx]

@[simp] theorem addEvent_positionOf : (d.addEvent e).positionOf = d.positionOf := rfl
@[simp] theorem addEvent_erasecountOf : (d.addEvent e).erasecountOf = d.erasecountOf := rfl

@[simp] theorem setType_positionOf : (d.setType c area type).positionOf = d.positionOf := by
  unfold setType
  split
  · rfl
  · exact positionOf_modify area _ fun _ => rfl

@[simp] theorem setType_erasecountOf : (d.setType c area type).erasecountOf = d.erasecountOf := by
  unfold setType
  split
  · rfl
  · exact erasecountOf_modify area _ fun _ => rfl

@[simp] theorem setStatus_positionOf : (d.setStatus c area status).positionOf = d.positionOf := by
  unfold setStatus
  split
  · rfl
  · exact positionOf_modify area _ fun _ => rfl

@[simp] theorem setStatus_erasecountOf : (d.setStatus c area status).erasecountOf = d.erasecountOf := by
  unfold setStatus
  split
  · rfl
  · exact erasecountOf_modify area _ fun _ => rfl

@[simp] theorem setActiveArea_positionOf : (d.setActiveArea type area).positionOf = d.positionOf := by
  unfold setActiveArea
  split
  · rfl
  · exact positionOf_modify (d := d) area ({ · with status := .active }) fun _ => rfl

@[simp] theorem setActiveArea_erasecountOf : (d.setActiveArea type area).erasecountOf = d.erasecountOf := by
  unfold setActiveArea
  split
  · rfl
  · exact erasecountOf_modify (d := d) area ({ · with status := .active }) fun _ => rfl

@[simp] theorem increaseUsedAreas_positionOf : d.increaseUsedAreas.positionOf = d.positionOf :=
  positionOf_congr (setUsedAreas_map _)
@[simp] theorem increaseUsedAreas_erasecountOf : d.increaseUsedAreas.erasecountOf = d.erasecountOf :=
  erasecountOf_congr (setUsedAreas_map _)
@[simp] theorem decreaseUsedAreas_positionOf : d.decreaseUsedAreas.positionOf = d.positionOf :=
  positionOf_congr (setUsedAreas_map _)
@[simp] theorem decreaseUsedAreas_erasecountOf : d.decreaseUsedAreas.erasecountOf = d.erasecountOf :=
  erasecountOf_congr (setUsedAreas_map _)

@[simp] theorem increaseErasecount_positionOf : (d.increaseErasecount c area).positionOf = d.positionOf := by
  unfold increaseErasecount
  split
  · rfl
  · exact positionOf_modify area _ fun _ => rfl

theorem increaseErasecount_erasecountOf (hlt : area < c.areasNo) : (d.increaseErasecount c area).erasecountOf =
    Function.update d.erasecountOf area ((d.erasecountOf area + 1) % 2 ^ 17) := by
  rw [increaseErasecount, if_neg (Nat.not_le.mpr hlt)]
  funext x
  by_cases hx : x = area
  · subst hx
    simp [erasecountOf, modify, addEvent]
  · simp [erasecountOf, modify, addEvent, hx]

theorem swapAreaPosition_positionOf (ha : area < c.areasNo) (hb : pos < c.areasNo) :
    (d.swapAreaPosition c area pos).positionOf = d.positionOf ∘ Equiv.swap area pos := by
  rw [swapAreaPosition, if_neg (not_or.mpr ⟨Nat.not_le.mpr ha, Nat.not_le.mpr hb⟩)]
  funext x
  simp only [positionOf, modify, addEvent, Function.comp_apply, Equiv.swap_apply_def, Function.update_apply]
  split_ifs <;> simp_all

theorem swapAreaPosition_erasecountOf (ha : area < c.areasNo) (hb : pos < c.areasNo) :
    (d.swapAreaPosition c area pos).erasecountOf = d.erasecountOf ∘ Equiv.swap area pos := by
  rw [swapAreaPosition, if_neg (not_or.mpr ⟨Nat.not_le.mpr ha, Nat.not_le.mpr hb⟩)]
  funext x
  simp only [erasecountOf, modify, addEvent, Function.comp_apply, Equiv.swap_apply_def, Function.update_apply]
  split_ifs <;> simp_all

/-! ### `AreaManagement` -/

@[simp] theorem initAreaAs_positionOf : (d.initAreaAs c area type).positionOf = d.positionOf := by
  unfold initAreaAs; simp only; split <;> simp

@[simp] theorem initAreaAs_erasecountOf : (d.initAreaAs c area type).erasecountOf = d.erasecountOf := by
  unfold initAreaAs; simp only; split <;> simp

@[simp] theorem closeArea_positionOf : (d.closeArea c area).positionOf = d.positionOf := by simp [closeArea]

@[simp] theorem closeArea_erasecountOf : (d.closeArea c area).erasecountOf = d.erasecountOf := by simp [closeArea]

theorem positionOf_withNand (n : Nand P) : { d with nand := n }.positionOf = d.positionOf := rfl

@[simp] theorem retireArea_positionOf : (d.retireArea c area).positionOf = d.positionOf := by
  unfold retireArea
  simp only [addEvent_positionOf]
  rw [positionOf_withNand]
  split <;> simp

theorem erasecountOf_withNand (n : Nand P) : { d with nand := n }.erasecountOf = d.erasecountOf := rfl

@[simp] theorem retireArea_erasecountOf : (d.retireArea c area).erasecountOf = d.erasecountOf := by
  unfold retireArea
  simp only [addEvent_erasecountOf]
  rw [erasecountOf_withNand]
  split <;> simp

@[simp] theorem addEventUnless_positionOf (quiet : Bool) : (d.addEventUnless quiet e).positionOf = d.positionOf := by
  cases quiet <;> rfl

@[simp] theorem addEventUnless_erasecountOf (quiet : Bool) : (d.addEventUnless quiet e).erasecountOf = d.erasecountOf := by
  cases quiet <;> rfl

@[simp] theorem resetASWritten_positionOf : (d.resetASWritten area).positionOf = d.positionOf :=
  positionOf_congr (by rw [resetASWritten_sb])
@[simp] theorem resetASWritten_erasecountOf : (d.resetASWritten area).erasecountOf = d.erasecountOf :=
  erasecountOf_congr (by rw [resetASWritten_sb])
@[simp] theorem deleteSummary_positionOf : (d.deleteSummary area).positionOf = d.positionOf :=
  positionOf_congr (by rw [deleteSummary_sb])
@[simp] theorem deleteSummary_erasecountOf : (d.deleteSummary area).erasecountOf = d.erasecountOf :=
  erasecountOf_congr (by rw [deleteSummary_sb])
@[simp] theorem setSummaryStatus_positionOf (summary : Summary) :
    (d.setSummaryStatus c faults area summary).2.positionOf = d.positionOf :=
  positionOf_congr (by rw [setSummaryStatus_sb])
@[simp] theorem setSummaryStatus_erasecountOf (summary : Summary) :
    (d.setSummaryStatus c faults area summary).2.erasecountOf = d.erasecountOf :=
  erasecountOf_congr (by rw [setSummaryStatus_sb])

theorem eraseOrRetire_spec : let r := d.eraseOrRetire c faults area
    (r.1 = .ok ↔ d.nand.Proceeds faults c.blocksPerArea) ∧ r.2.positionOf = d.positionOf ∧
      r.2.erasecountOf = d.erasecountOf ∧ r.2.sb.activeArea = d.sb.activeArea ∧
      r.2.nand.erases = Function.update d.nand.erases (d.getPos c area) (d.nand.erases (d.getPos c area) + 1) := by
  rw [← Nand.eraseArea_ok c faults d.nand (d.getPos c area), ← Nand.eraseArea_erases c faults d.nand (d.getPos c area)]
  unfold eraseOrRetire
  split
  · rename_i nand h
    rw [h]
    exact ⟨by simp, rfl, rfl, rfl, rfl⟩
  · rename_i nand h
    rw [h]
    exact ⟨by simp, by simp [positionOf_withNand], by simp [erasecountOf_withNand], by simp, by simp⟩

/-- What an accepted call does to the map, the counters and the places. -/
theorem deleteAreaContents_spec (swappedArea : AreaPos) (quiet : Bool) (hlt : area < c.areasNo)
    (htype : d.getType c area ≠ .retired) :
    let r := d.deleteAreaContents c faults area swappedArea quiet
    let place := d.getPos c (erasedArea area swappedArea)
    (r.1 = .ok ↔ d.nand.Proceeds faults c.blocksPerArea) ∧ r.2.positionOf = d.positionOf ∧
      r.2.erasecountOf = Function.update d.erasecountOf area ((d.erasecountOf area + 1) % 2 ^ 17) ∧
      r.2.nand.erases = Function.update d.nand.erases place (d.nand.erases place + 1) ∧
      r.2.sb.activeArea = d.sb.activeArea := by
  have herase := eraseOrRetire_spec (c := c) faults
    (d := d.addEventUnless quiet (.deleteAreaContents area (erasedArea area swappedArea))) (erasedArea area swappedArea)
  simp only [getPos_congr (addEventUnless_sb d _ _)] at herase
  unfold deleteAreaContents
  rw [if_neg (Nat.not_le.mpr hlt), if_neg htype]
  simp only [addEventUnless_nand, addEventUnless_sb, addEventUnless_positionOf, addEventUnless_erasecountOf] at herase ⊢
  obtain ⟨hok, hpos, hcount, hactive, herases⟩ := herase
  refine ⟨hok, ?_, ?_, ?_, ?_⟩
  · simp [hpos]
  · simp [increaseErasecount_erasecountOf area hlt, hcount]
  · simp [herases]
  · simp [hactive]

end Frame

/-! ### One step of each -/

section Step
variable {area a b : AreaPos}

theorem swapAreaPosition_refused (h : ¬ (a < c.areasNo ∧ b < c.areasNo)) : d.swapAreaPosition c a b = d := by
  rw [swapAreaPosition, if_pos (by rw [ge_iff_le, ge_iff_le, ← Nat.not_lt, ← Nat.not_lt]; tauto)]

theorem Placed.swap (h : d.Placed c) (ha : a ≠ 0) (hb : b ≠ 0) : (d.swapAreaPosition c a b).Placed c := by
  by_cases hrange : a < c.areasNo ∧ b < c.areasNo
  · have hpos := swapAreaPosition_positionOf (d := d) a b hrange.1 hrange.2
    constructor
    · rw [hpos]
      exact h.bijOn.comp (Equiv.bijOn_swap hrange.1 hrange.2)
    · rw [hpos, Function.comp_apply, Equiv.swap_apply_of_ne_of_ne ha.symm hb.symm, h.first]
  · rwa [swapAreaPosition_refused hrange]

theorem Counted.swap (h : d.Counted c) : (d.swapAreaPosition c a b).Counted c := by
  by_cases hrange : a < c.areasNo ∧ b < c.areasNo
  · intro area hlt
    rw [swapAreaPosition_positionOf a b hrange.1 hrange.2, swapAreaPosition_erasecountOf a b hrange.1 hrange.2,
      swapAreaPosition_nand]
    exact h _ ((Equiv.bijOn_swap (s := Set.Iio c.areasNo) hrange.1 hrange.2).mapsTo hlt)
  · rwa [swapAreaPosition_refused hrange]

theorem Placed.deleteAreaContents (h : d.Placed c) (area swappedArea : AreaPos) (quiet : Bool) :
    (d.deleteAreaContents c faults area swappedArea quiet).2.Placed c := by
  by_cases hrefused : area ≥ c.areasNo ∨ d.getType c area = .retired
  · rwa [deleteAreaContents_refused faults _ _ hrefused]
  · rw [not_or, Nat.not_le] at hrefused
    exact h.congr (deleteAreaContents_spec faults area swappedArea quiet hrefused.1 hrefused.2).2.1

/-- The counter that is raised belongs to the place that is erased. -/
theorem Counted.deleteAreaContents (h : d.Counted c) (hplaced : d.Placed c) {swappedArea : AreaPos} (quiet : Bool)
    (hown : area ≥ c.areasNo ∨ d.getType c area = .retired ∨ erasedArea area swappedArea = area) :
    (d.deleteAreaContents c faults area swappedArea quiet).2.Counted c := by
  by_cases hrefused : area ≥ c.areasNo ∨ d.getType c area = .retired
  · rwa [deleteAreaContents_refused faults _ _ hrefused]
  · have herased : erasedArea area swappedArea = area := by tauto
    rw [not_or, Nat.not_le] at hrefused
    obtain ⟨hlt, htype⟩ := hrefused
    obtain ⟨-, hpos, hcount, herases, -⟩ := deleteAreaContents_spec faults area swappedArea quiet hlt htype
    intro x hx
    rw [hpos, hcount, herases, herased, getPos_of_lt hlt]
    by_cases hxa : x = area
    · subst hxa
      rw [Function.update_self, Function.update_self, h x hx, Nat.mod_add_mod]
    · have hne : d.positionOf x ≠ d.positionOf area := fun heq => hxa (hplaced.bijOn.injOn hx hlt heq)
      rw [Function.update_of_ne hxa, Function.update_of_ne hne, h x hx]

/-- What `deleteArea` leaves of the map and the places is what deleting the contents leaves. -/
theorem deleteArea_spec (area : AreaPos) : let r := d.deleteArea c faults area
    let r' := (d.addEvent (.deleteArea area)).deleteAreaContents c faults area 0 true
    r.1 = r'.1 ∧ r.2.positionOf = r'.2.positionOf ∧ r.2.erasecountOf = r'.2.erasecountOf ∧
      r.2.nand.erases = r'.2.nand.erases ∧ r.2.sb.activeArea = r'.2.sb.activeArea := by
  by_cases hrefused : area ≥ c.areasNo ∨ d.getType c area = .retired
  · have hcontents := deleteAreaContents_refused (d := d.addEvent (.deleteArea area)) faults 0 true hrefused
    rw [deleteArea_refused faults hrefused, hcontents]
    exact ⟨rfl, rfl, rfl, rfl, rfl⟩
  · rw [not_or] at hrefused
    unfold deleteArea
    rw [if_neg hrefused.1, if_neg hrefused.2]
    split
    · rename_i d' h
      rw [h]
      simp
    · rename_i r d' _ h
      rw [h]
      exact ⟨rfl, rfl, rfl, rfl, rfl⟩

theorem Placed.deleteArea (h : d.Placed c) (area : AreaPos) : (d.deleteArea c faults area).2.Placed c :=
  (Placed.deleteAreaContents faults (d := d.addEvent (.deleteArea area)) (h.congr rfl) area 0 true).congr (deleteArea_spec faults area).2.1

theorem Counted.deleteArea (h : d.Counted c) (hplaced : d.Placed c) (area : AreaPos) :
    (d.deleteArea c faults area).2.Counted c := by
  obtain ⟨-, hpos, hcount, herases, -⟩ := deleteArea_spec faults (c := c) (d := d) area
  exact (Counted.deleteAreaContents faults (d := d.addEvent (.deleteArea area)) h (hplaced.congr rfl) true
    (.inr (.inr rfl))).congr hpos hcount herases

theorem deleteArea_ok (h : (d.deleteArea c faults area).1 = .ok) : d.nand.Proceeds faults c.blocksPerArea := by
  by_cases hrefused : area ≥ c.areasNo ∨ d.getType c area = .retired
  · rw [deleteArea_refused faults hrefused] at h
    cases h
  · rw [not_or, Nat.not_le] at hrefused
    rw [(deleteArea_spec faults area).1] at h
    exact (deleteAreaContents_spec faults (d := d.addEvent (.deleteArea area)) area 0 true hrefused.1 hrefused.2).1.mp h

theorem deleteArea_activeArea (area : AreaPos) : (d.deleteArea c faults area).2.sb.activeArea = d.sb.activeArea := by
  by_cases hrefused : area ≥ c.areasNo ∨ d.getType c area = .retired
  · rw [deleteArea_refused faults hrefused]
  · rw [not_or, Nat.not_le] at hrefused
    obtain ⟨-, -, -, -, hactive⟩ := deleteArea_spec faults (c := c) (d := d) area
    obtain ⟨-, -, -, -, hcontents⟩ :=
      deleteAreaContents_spec faults (d := d.addEvent (.deleteArea area)) area 0 true hrefused.1 hrefused.2
    exact hactive.trans hcontents

/-! ### Collections -/

theorem moveValidDataToNewArea_sb (src dst : AreaPos) (summary : Summary) :
    (d.moveValidDataToNewArea c faults src dst summary).2.sb = d.sb := rfl

theorem movePages_erases (src dst : AreaPos) (summary : Summary) (pages : List PageOffs) (n : Nand P) :
    (movePages faults src dst summary pages n).2.erases = n.erases := by
  induction pages generalizing n with
  | nil => rfl
  | cons page pages ih =>
    rw [movePages]
    split
    · exact (ih _).trans (Nand.writePage_erases ..)
    · exact ih n

theorem moveValidDataToNewArea_frame {src dst : AreaPos} {summary : Summary} {ok : Bool}
    (h : d.moveValidDataToNewArea c faults src dst summary = (ok, d')) :
    d'.sb = d.sb ∧ d'.nand.erases = d.nand.erases := by
  obtain rfl : _ = d' := congrArg Prod.snd h
  exact ⟨rfl, movePages_erases faults ..⟩

theorem moveValidDataToNewArea_erases (src dst : AreaPos) (summary : Summary) :
    (d.moveValidDataToNewArea c faults src dst summary).2.nand.erases = d.nand.erases := movePages_erases ..

variable {target : AreaType} {fav : Candidate}

theorem clearOldPlace_spec (fav : Candidate) : let r := d.clearOldPlace c faults fav
    let d' := (d.deleteAreaContents c faults fav.area (d.getActiveArea .garbageBuffer) false).2
    r.2.positionOf = d'.positionOf ∧ r.2.erasecountOf = d'.erasecountOf ∧ r.2.nand.erases = d'.nand.erases := by
  unfold clearOldPlace
  simp only [setSummaryStatus_positionOf, setSummaryStatus_erasecountOf, setSummaryStatus_erases]
  split <;> simp

/-- Of the last part of a collection the swap and the erasure matter. -/
theorem finishCollection_spec (target : AreaType) (fav : Candidate) : let r := d.finishCollection c faults target fav
    let d' := d.swapAreaPosition c fav.area (d.getActiveArea .garbageBuffer)
    let d'' := if fav.containsValidData then
      (d'.deleteAreaContents c faults fav.area (d'.getActiveArea .garbageBuffer) false).2 else d'
    r.2.positionOf = d''.positionOf ∧ r.2.erasecountOf = d''.erasecountOf ∧ r.2.nand.erases = d''.nand.erases := by
  have hclear := clearOldPlace_spec faults (c := c)
    (d := d.swapAreaPosition c fav.area (d.getActiveArea .garbageBuffer)) fav
  unfold finishCollection
  cases hvalid : fav.containsValidData with
  | true =>
    simp only [if_true]
    split
    · exact hclear
    · split <;> simpa using hclear
  | false =>
    simp only [Bool.false_eq_true, if_false, ne_eq, not_true]
    split <;> simp

theorem Placed.finishCollection (h : d.Placed c) (hfav : fav.area ≠ 0) (hbuffer : d.getActiveArea .garbageBuffer ≠ 0) :
    (d.finishCollection c faults target fav).2.Placed c := by
  have hswap := h.swap hfav hbuffer
  refine Placed.congr ?_ (finishCollection_spec faults target fav).1
  split
  · exact hswap.deleteAreaContents faults ..
  · exact hswap

theorem Counted.finishCollection (h : d.Counted c) (hvalid : fav.containsValidData = false) :
    (d.finishCollection c faults target fav).2.Counted c := by
  obtain ⟨hpos, hcount, herases⟩ := finishCollection_spec (c := c) faults (d := d) target fav
  rw [hvalid] at hpos hcount herases
  exact h.swap.congr hpos hcount herases

end Step

/-! ### The conditions -/

theorem getActiveArea_congr (h : d'.sb.activeArea = d.sb.activeArea) (type : AreaType) :
    d'.getActiveArea type = d.getActiveArea type := by
  unfold getActiveArea; rw [h]

variable (c) in
/-- A collection that looks for an area in this state does not swap it with area 0. -/
def SwapsBuffer (target : AreaType) (d : Device P) : Prop :=
  let fav := d.findNextBestArea c target
  fav.area = 0 ∨ fav.containsValidData ∨ d.getActiveArea .garbageBuffer ≠ 0 ∨ ¬ d.nand.Proceeds faults c.blocksPerArea

variable (c) in
/-- A collection that looks for an area in this state moves no valid data to the end. -/
def MovesNothing (target : AreaType) (d : Device P) : Prop :=
  let fav := d.findNextBestArea c target
  fav.area = 0 ∨ fav.containsValidData = false ∨ d.getActiveArea .garbageBuffer = 0 ∨
    ¬ d.nand.Proceeds faults (countPages c .used fav.summary)

theorem collectRounds_placed (k : Nat) (target : AreaType) (h : d.Placed c)
    (hrounds : ∀ s ∈ d.rounds c faults k target, SwapsBuffer c faults target s) :
    (d.collectRounds c faults k target).2.Placed c := by
  apply collectRounds_induction c faults (Placed c) (SwapsBuffer c faults target) (fun r => r.2.Placed c) (fun _ h => h) (fun _ h _ => h) ?_ ?_ k h hrounds
  · intro d h _ hfav hvalid hbuffer
    dsimp only
    split
    · exact Placed.finishCollection faults (h.congr rfl) hfav hbuffer
    · exact h.congr rfl
  · intro d h hmeets hfav hvalid
    dsimp only
    split
    · rename_i hok
      refine Placed.finishCollection faults (h.deleteArea faults _) hfav ?_
      rw [getActiveArea_congr (deleteArea_activeArea faults _)]
      have hproceeds := deleteArea_ok faults hok
      simp only [SwapsBuffer, hfav, hvalid, hproceeds, not_true, or_false, false_or, Bool.false_eq_true] at hmeets
      exact hmeets
    · exact h.deleteArea faults _

theorem collectRounds_counted (k : Nat) (target : AreaType) (h : d.Counted c) (hplaced : d.Placed c)
    (hrounds : ∀ s ∈ d.rounds c faults k target, MovesNothing c faults target s) :
    (d.collectRounds c faults k target).2.Counted c := by
  apply collectRounds_induction c faults (fun d => d.Counted c ∧ d.Placed c) (MovesNothing c faults target)
    (fun r => r.2.Counted c) (fun _ h => h.1) (fun _ h _ => h.1) ?_ ?_ k ⟨h, hplaced⟩ hrounds
  · intro d h hmeets hfav hvalid hbuffer
    have hstops : ¬ d.nand.Proceeds faults (countPages c .used (d.findNextBestArea c target).summary) := by
      simpa [MovesNothing, hfav, hvalid, hbuffer] using hmeets
    rw [← moveValidDataToNewArea_ok c faults d (d.findNextBestArea c target).area (d.getActiveArea .garbageBuffer)] at hstops
    dsimp only
    rw [if_neg hstops]
    exact h.1.congr rfl rfl (moveValidDataToNewArea_erases faults ..)
  · intro d h _ _ hvalid
    dsimp only
    split
    · exact Counted.finishCollection faults (h.1.deleteArea faults h.2 _) hvalid
    · exact ⟨h.1.deleteArea faults h.2 _, h.2.deleteArea faults _⟩

variable (c) in
/-- The same for a hard commit. -/
def HardSwapsBuffer (order : List AreaPos) (d : Device P) : Prop :=
  ∀ fav ∈ d.favouriteArea c order, countPages c .used fav.2.entries = 0 ∨ d.getActiveArea .garbageBuffer ≠ 0 ∨
    ¬ d.nand.Proceeds faults (countPages c .used fav.2.entries)

variable (c) in
def HardMovesNothing (order : List AreaPos) (d : Device P) : Prop :=
  ∀ fav ∈ d.favouriteArea c order, countPages c .used fav.2.entries = 0 ∨
    ¬ d.nand.Proceeds faults (countPages c .used fav.2.entries)

theorem favouriteArea_ne_zero {order : List AreaPos} {fav : AreaPos × Elem} (h : fav ∈ d.favouriteArea c order) :
    fav.1 ≠ 0 := by
  have hfilter : ∀ o : Option (AreaPos × Elem), fav ∈ o.filter (·.1 ≠ 0) → fav.1 ≠ 0 := by
    intro o ho
    simpa using (Option.mem_filter_iff.mp ho).2
  rw [favouriteArea, Option.mem_def, Option.or_eq_some_iff] at h
  rcases h with h | ⟨-, h⟩
  · exact hfilter _ h
  · exact hfilter _ h

theorem commitAreaSummaryHard_placed (order : List AreaPos) (h : d.Placed c) (hswaps : HardSwapsBuffer c faults order d) :
    (d.commitAreaSummaryHard c faults order).2.Placed c := by
  unfold commitAreaSummaryHard
  split
  · exact h
  · rename_i area e hfav
    have hne : area ≠ 0 := favouriteArea_ne_zero hfav
    have hmoves := moveValidDataToNewArea_ok c faults d area (d.getActiveArea .garbageBuffer) e.entries
    dsimp only
    split
    · rename_i d' heq
      exact h.congr (positionOf_congr (by rw [(moveValidDataToNewArea_frame faults heq).1]))
    · rename_i d' heq
      have hmoved : d'.Placed c := h.congr (positionOf_congr (by rw [(moveValidDataToNewArea_frame faults heq).1]))
      split
      · exact hmoved.deleteArea faults _
      · rename_i hused
        have hproceeds : d.nand.Proceeds faults (countPages c .used e.entries) := hmoves.mp (by rw [heq])
        have hbuffer : d.getActiveArea .garbageBuffer ≠ 0 := by
          simpa [hused, hproceeds] using hswaps (area, e) hfav
        exact ((hmoved.swap hne hbuffer).deleteAreaContents faults ..).congr (setSummaryStatus_positionOf ..)

theorem commitAreaSummaryHard_counted (order : List AreaPos) (h : d.Counted c) (hplaced : d.Placed c)
    (hmoves : HardMovesNothing c faults order d) : (d.commitAreaSummaryHard c faults order).2.Counted c := by
  unfold commitAreaSummaryHard
  split
  · exact h
  · rename_i area e hfav
    dsimp only
    split
    · rename_i d' heq
      obtain ⟨hsb, herases⟩ := moveValidDataToNewArea_frame faults heq
      exact h.congr (positionOf_congr (by rw [hsb])) (erasecountOf_congr (by rw [hsb])) herases
    · rename_i d' heq
      obtain ⟨hsb, herases⟩ := moveValidDataToNewArea_frame faults heq
      have hpos : d'.positionOf = d.positionOf := positionOf_congr (by rw [hsb])
      have hproceeds : d.nand.Proceeds faults (countPages c .used e.entries) :=
        (moveValidDataToNewArea_ok c faults d area (d.getActiveArea .garbageBuffer) e.entries).mp (by rw [heq])
      have hused : countPages c .used e.entries = 0 := by
        simpa [hproceeds] using hmoves (area, e) hfav
      rw [if_pos hused]
      exact (h.congr hpos (erasecountOf_congr (by rw [hsb])) herases).deleteArea faults (hplaced.congr hpos) _

/-! ### Runs -/

/-- The step swaps, if it swaps, with a garbage buffer that is not area 0. -/
def KeepsFirst (c : Config) (faults : Faults P) : Op P → Device P → Prop
  | .collectGarbage target, d => ∀ s ∈ d.rounds c faults (c.areasNo + 1) target, SwapsBuffer c faults target s
  | .commitAreaSummaryHard order, d => HardSwapsBuffer c faults order d
  | _, _ => True

/-- The step erases no other place than that of the area it counts the erasure for. -/
def ErasesOwn (c : Config) (faults : Faults P) : Op P → Device P → Prop
  | .deleteAreaContents area swappedArea, d =>
    area ≥ c.areasNo ∨ d.getType c area = .retired ∨ erasedArea area swappedArea = area
  | .collectGarbage target, d => ∀ s ∈ d.rounds c faults (c.areasNo + 1) target, MovesNothing c faults target s
  | .commitAreaSummaryHard order, d => HardMovesNothing c faults order d
  | _, _ => True

theorem step_placed (h : d.Placed c) (op : Op P) (hop : KeepsFirst c faults op d) : (d.step c faults op).Placed c := by
  cases op with
  | initAreaAs area type => exact h.congr (initAreaAs_positionOf ..)
  | closeArea area => exact h.congr (closeArea_positionOf ..)
  | retireArea area => exact h.congr (retireArea_positionOf ..)
  | deleteArea area => exact h.deleteArea faults area
  | deleteAreaContents area swappedArea => exact h.deleteAreaContents faults ..
  | collectGarbage target => exact collectRounds_placed faults _ target h hop
  | commitAreaSummaryHard order => exact commitAreaSummaryHard_placed faults order h hop
  | pages flash writes cache log => exact h.congr rfl

theorem step_counted (h : d.Counted c) (hplaced : d.Placed c) (op : Op P) (hop : ErasesOwn c faults op d) :
    (d.step c faults op).Counted c := by
  cases op with
  | initAreaAs area type => exact h.congr (initAreaAs_positionOf ..) (initAreaAs_erasecountOf ..) (by simp [step])
  | closeArea area => exact h.congr (closeArea_positionOf ..) (closeArea_erasecountOf ..) (by simp [step])
  | retireArea area => exact h.congr (retireArea_positionOf ..) (retireArea_erasecountOf ..) (by simp [step])
  | deleteArea area => exact h.deleteArea faults hplaced area
  | deleteAreaContents area swappedArea => exact h.deleteAreaContents faults hplaced false hop
  | collectGarbage target => exact collectRounds_counted faults _ target h hplaced hop
  | commitAreaSummaryHard order => exact commitAreaSummaryHard_counted faults order h hplaced hop
  | pages flash writes cache log => exact h.congr rfl rfl rfl

/-! ### Formatting -/

theorem setPos_positionOf {area : AreaPos} (pos : AreaPos) (hlt : area < c.areasNo) :
    (d.setPos c area pos).positionOf = Function.update d.positionOf area pos := by
  rw [setPos, if_neg (Nat.not_le.mpr hlt)]
  funext x
  by_cases hx : x = area
  · subst hx
    simp [positionOf, modify]
  · simp [positionOf, modify, addEvent, hx]

@[simp] theorem setPos_erasecountOf (area pos : AreaPos) : (d.setPos c area pos).erasecountOf = d.erasecountOf := by
  unfold setPos
  split
  · rfl
  · exact erasecountOf_modify area _ fun _ => rfl

/-- What holds while areas are handed out, with those below `k` done. -/
structure Formatting (c : Config) (k : Nat) (d : Device P) : Prop where
  placed : ∀ area < c.areasNo, area < k ∨ d.typeOf area = .retired → d.positionOf area = area
  counted : ∀ area < c.areasNo, d.erasecountOf area = d.nand.erases area % 2 ^ 17

theorem initial_formatting (flash : AreaPos → PageOffs → Page P) (bad : Nat → Bool) :
    Formatting c 0 (initial c flash bad) := by
  constructor
  · intro area _ h
    rcases h with h | h
    · exact absurd h (Nat.not_lt_zero _)
    · cases h
  · intro area _
    rfl

/-- What is done with an area that lies on its own place. -/
theorem Formatting.congr {k : Nat} (h : Formatting c k d) {area : AreaPos} (harea : area < c.areasNo → d.positionOf area = area)
    (hpos : d'.positionOf = d.positionOf) (htype : ∀ x ≠ area, d'.typeOf x = d.typeOf x)
    (hcounted : ∀ x < c.areasNo, d'.erasecountOf x = d'.nand.erases x % 2 ^ 17) : Formatting c k d' := by
  refine ⟨fun x hlt hx => ?_, hcounted⟩
  rw [hpos]
  by_cases hxa : x = area
  · subst hxa
    exact harea hlt
  · rw [htype x hxa] at hx
    exact h.placed x hlt hx

theorem Formatting.setStatus {k : Nat} (h : Formatting c k d) (area : AreaPos) (status : AreaStatus) :
    Formatting c k (d.setStatus c area status) := by
  refine ⟨fun x hx hdone => ?_, fun x hx => ?_⟩
  · rw [setStatus_typeOf] at hdone
    rw [setStatus_positionOf]
    exact h.placed x hx hdone
  · rw [setStatus_erasecountOf, setStatus_nand]
    exact h.counted x hx

theorem Formatting.setPos {k : Nat} (h : Formatting c k d) (area : AreaPos) : Formatting c k (d.setPos c area area) := by
  by_cases hlt : area < c.areasNo
  · refine ⟨fun x hx hdone => ?_, fun x hx => ?_⟩
    · rw [setPos_positionOf area hlt, Function.update_apply]
      split
      · rename_i heq
        exact heq.symm
      · rw [setPos_typeOf] at hdone
        exact h.placed x hx hdone
    · rw [setPos_erasecountOf, setPos_nand]
      exact h.counted x hx
  · rwa [Device.setPos, if_pos (Nat.not_lt.mp hlt)]

theorem retireArea_typeOf_ne {area x : AreaPos} (hx : x ≠ area) : (d.retireArea c area).typeOf x = d.typeOf x := by
  by_cases hlt : area < c.areasNo
  · rw [retireArea_typeOf area hlt, Function.update_of_ne hx]
  · unfold retireArea
    simp only [addEvent_typeOf]
    change (setType c _ area .retired).typeOf x = _
    rw [setType, if_pos (Nat.not_lt.mp hlt)]
    split <;> simp

theorem Formatting.retireArea {k : Nat} (h : Formatting c k d) {area : AreaPos}
    (harea : area < c.areasNo → d.positionOf area = area) : Formatting c k (d.retireArea c area) := by
  refine h.congr harea (retireArea_positionOf area) (fun x hx => retireArea_typeOf_ne hx) fun x hx => ?_
  rw [retireArea_erasecountOf, retireArea_erases]
  exact h.counted x hx

theorem retireListed_formatting (list : List Nat) (h : Formatting c 0 d) : Formatting c 0 (d.retireListed c list).2 := by
  induction list generalizing d with
  | nil => exact h
  | cons block list ih =>
    rw [retireListed]
    split_ifs
    · exact h
    · exact h
    · refine ih ((h.setPos _).retireArea fun hlt => ?_)
      rw [setPos_positionOf _ hlt, Function.update_self]
    · exact ih h

theorem eraseAtFormat_positionOf (area : AreaPos) : (d.eraseAtFormat c faults area).positionOf = d.positionOf := by
  unfold eraseAtFormat
  simp only [increaseErasecount_positionOf]
  split
  · rfl
  · rw [retireArea_positionOf, positionOf_withNand]

theorem Formatting.eraseAtFormat {k : Nat} (h : Formatting c k d) {area : AreaPos} (hlt : area < c.areasNo)
    (harea : d.positionOf area = area) : Formatting c k (d.eraseAtFormat c faults area) := by
  have herases := Nand.eraseArea_erases c faults d.nand area
  have hfield : (d.eraseAtFormat c faults area).erasecountOf = Function.update d.erasecountOf area ((d.erasecountOf area + 1) % 2 ^ 17) ∧
      (d.eraseAtFormat c faults area).nand.erases = Function.update d.nand.erases area (d.nand.erases area + 1) ∧
      ∀ x ≠ area, (d.eraseAtFormat c faults area).typeOf x = d.typeOf x := by
    unfold Device.eraseAtFormat
    simp only [increaseErasecount_erasecountOf area hlt, increaseErasecount_nand, increaseErasecount_typeOf]
    split
    · exact ⟨rfl, herases, fun _ _ => rfl⟩
    · refine ⟨?_, ?_, fun x hx => ?_⟩
      · rw [retireArea_erasecountOf, erasecountOf_withNand]
      · rw [retireArea_erases]
        exact herases
      · rw [retireArea_typeOf_ne hx]
        rfl
  obtain ⟨hcount, herases', htype⟩ := hfield
  refine h.congr (fun _ => harea) (eraseAtFormat_positionOf faults area) htype fun x hx => ?_
  rw [hcount, herases']
  by_cases hxa : x = area
  · subst hxa
    rw [Function.update_self, Function.update_self, h.counted x hx, Nat.mod_add_mod]
  · rw [Function.update_of_ne hxa, Function.update_of_ne hxa, h.counted x hx]

theorem assignArea_frame (had : Had) {area : AreaPos} (hlt : area < c.areasNo) :
    (d.assignArea c had area).1.positionOf = d.positionOf ∧ (d.assignArea c had area).1.erasecountOf = d.erasecountOf ∧
      (d.assignArea c had area).1.nand = d.nand ∧ ∀ x ≠ area, (d.assignArea c had area).1.typeOf x = d.typeOf x := by
  unfold assignArea
  split_ifs
  all_goals refine ⟨by simp, by simp, by simp, fun x hx => ?_⟩
  · simp [initAreaAs_typeOf area _ hlt, hx]
  · simp [initAreaAs_typeOf area _ hlt, hx]
  · simp [initAreaAs_typeOf area _ hlt, hx]
  · simp [setType_typeOf area _ hlt, hx]

theorem Formatting.assignArea {k : Nat} (h : Formatting c k d) (had : Had) {area : AreaPos} (hlt : area < c.areasNo)
    (harea : d.positionOf area = area) : Formatting c k (d.assignArea c had area).1 := by
  obtain ⟨hpos, hcount, hnand, htype⟩ := assignArea_frame (d := d) had hlt
  refine h.congr (fun _ => harea) hpos htype fun x hx => ?_
  rw [hcount, hnand]
  exact h.counted x hx

theorem formatArea_formatting (complete : Bool) (had : Had) {k : Nat} (hlt : k < c.areasNo) (h : Formatting c k d) :
    Formatting c (k + 1) (formatArea c faults complete (d, had) k).1 := by
  have hnext : ∀ {d : Device P}, Formatting c k d → d.positionOf k = k → Formatting c (k + 1) d := by
    intro d h hk
    refine ⟨fun x hx hdone => ?_, h.counted⟩
    by_cases hxk : x = k
    · rw [hxk, hk]
    · exact h.placed x hx (hdone.imp_left fun hle => lt_of_le_of_ne (Nat.le_of_lt_succ hle) hxk)
  rw [formatArea]
  dsimp only
  split
  · rename_i hretired
    exact hnext h (h.placed k hlt (.inr (by rwa [getType_of_lt hlt] at hretired)))
  · have hset : Formatting c k ((d.setStatus c k .empty).setPos c k k) := (h.setStatus k .empty).setPos k
    have hk : ((d.setStatus c k .empty).setPos c k k).positionOf k = k := by
      rw [setPos_positionOf k hlt, Function.update_self]
    have hassign : ∀ {d : Device P}, Formatting c k d → d.positionOf k = k →
        Formatting c (k + 1) (d.assignArea c had k).1 := fun h hk =>
      hnext (h.assignArea had hlt hk) (by rw [(assignArea_frame had hlt).1, hk])
    have herase := eraseAtFormat_positionOf faults (c := c) (d := (d.setStatus c k .empty).setPos c k k) k
    split_ifs
    · exact hnext (hset.retireArea fun _ => hk) (by rw [retireArea_positionOf, hk])
    · exact hnext (hset.eraseAtFormat faults hlt hk) (by rw [herase, hk])
    · exact hassign (hset.eraseAtFormat faults hlt hk) (by rw [herase, hk])
    · exact hassign hset hk

theorem format_formatting {complete : Bool} {list : List Nat} (h : Formatting c 0 d)
    (hformat : d.format c faults list complete = (.ok, d')) : Formatting c c.areasNo d' := by
  have hloop : ∀ k ≤ c.areasNo, ∀ r : Device P × Had, Formatting c 0 r.1 →
      Formatting c k ((List.range k).foldl (formatArea c faults complete) r).1 := by
    intro k hk r hr
    induction k with
    | zero => exact hr
    | succ k ih =>
      rw [List.range_succ, List.foldl_concat]
      exact formatArea_formatting faults complete _ (Nat.lt_of_succ_le hk) (ih (Nat.le_of_succ_le hk))
  have hlisted := retireListed_formatting list h
  rw [format] at hformat
  split at hformat
  · rename_i d₁ heq
    rw [heq] at hlisted
    cases hformat
    have hdone := hloop c.areasNo le_rfl (d₁, ⟨0, false, false, false⟩) hlisted
    exact ⟨hdone.placed, hdone.counted⟩
  · rename_i r d₁ hne heq
    cases hformat
    exact absurd rfl hne

/-- A formatted device: each area on its own place. -/
theorem format_placed {complete : Bool} {list : List Nat} {flash : AreaPos → PageOffs → Page P} {bad : Nat → Bool}
    (hformat : (initial c flash bad).format c faults list complete = (.ok, d)) : d.Placed c ∧ d.Counted c := by
  have h := format_formatting faults (initial_formatting flash bad) hformat
  have hself : ∀ area < c.areasNo, d.positionOf area = area := fun area hlt => h.placed area hlt (.inl hlt)
  refine ⟨⟨(Set.bijOn_id _).congr fun area hlt => (hself area hlt).symm, hself 0 c.areas_pos⟩, fun area hlt => ?_⟩
  rw [hself area hlt]
  exact h.counted area hlt

/-! ### The run -/

/-- After formatting, whatever is done with areas: while no collection or hard commit swaps with area 0 the positions stay
a permutation that keeps area 0 in place, no two addresses are the same page, and while moreover every erasure is counted
for the area whose place is erased, the counters follow the places. -/
theorem run_placed {flash : AreaPos → PageOffs → Page P} {bad : Nat → Bool} {list : List Nat} {complete : Bool}
    (hformat : (initial c flash bad).format c faults list complete = (.ok, d)) (ops : List (Op P))
    (hfirst : Along c faults (KeepsFirst c faults) ops d) :
    (d.run c faults ops).Placed c ∧
      (∀ area < c.areasNo, ∀ area' < c.areasNo, ∀ page < c.totalPagesPerArea, ∀ page' < c.totalPagesPerArea,
        (d.run c faults ops).getPageNumber c area page = (d.run c faults ops).getPageNumber c area' page' →
        area = area' ∧ page = page') ∧
      (Along c faults (ErasesOwn c faults) ops d → (d.run c faults ops).Counted c) := by
  obtain ⟨hplaced, hcounted⟩ := format_placed faults hformat
  have hrun := run_induction c faults (Placed c) (KeepsFirst c faults) (fun d op h hop => step_placed faults h op hop)
    hplaced hfirst
  refine ⟨hrun, fun _ hlt _ hlt' _ hpage _ hpage' => hrun.getPageNumber_injective hlt hlt' hpage hpage', fun howns => ?_⟩
  have hboth := run_induction c faults (fun d => d.Placed c ∧ d.Counted c) _
    (fun d op h hop => ⟨step_placed faults h.1 op hop.1, step_counted faults h.2 h.1 op hop.2⟩)
    ⟨hplaced, hcounted⟩ (hfirst.and c faults howns)
  exact hboth.2

instance (target : AreaType) : Decidable (SwapsBuffer c faults target d) :=
  inferInstanceAs (Decidable ((d.findNextBestArea c target).area = 0 ∨ (d.findNextBestArea c target).containsValidData ∨
    d.getActiveArea .garbageBuffer ≠ 0 ∨ ¬ d.nand.Proceeds faults c.blocksPerArea))

instance (target : AreaType) : Decidable (MovesNothing c faults target d) :=
  inferInstanceAs (Decidable ((d.findNextBestArea c target).area = 0 ∨
    (d.findNextBestArea c target).containsValidData = false ∨ d.getActiveArea .garbageBuffer = 0 ∨
    ¬ d.nand.Proceeds faults (countPages c .used (d.findNextBestArea c target).summary)))

/-- Six areas of one block with two data pages each. -/
def sixAreas : Config where
  areasNo := 6
  blocksPerArea := 1
  pagesPerBlock := 3
  dataPagesPerArea := 2
  areaSummaryCacheSize := 2
  areaSummaryIsPacked := false
  superChainElems := 2
  useJournal := false
  areas_lt := by decide
  areas_pos := by decide
  summary_fits := by decide

/-- Only the writes and erases of these numbers fail. -/
def failsAt (clocks : List Nat) : Faults P := ⟨fun clock => clock ∉ clocks, fun _ _ => .blank⟩

def formatted (faults : Faults Unit) : Device Unit :=
  ((initial sixAreas (fun _ _ => .blank) fun _ => false).format sixAreas faults [] true).2

/-- An area is filled, closed and collected; `first` is the status of its first page, the other one is dirty. -/
def collected (area : AreaPos) (first : SummaryEntry) : List (Op Unit) :=
  [.initAreaAs area .data, .closeArea area,
    .pages (fun _ _ => .blank) 0
      [some ⟨area, fun page => if page = 0 then first else .dirty, true, false, false, 1⟩, none] [],
    .collectGarbage .data]

/-- Without valid data in the area that is collected the counters are right. -/
theorem run_placed_collected : ((formatted (failsAt [])).run sixAreas (failsAt []) (collected 3 .dirty)).Placed sixAreas ∧
    ((formatted (failsAt [])).run sixAreas (failsAt []) (collected 3 .dirty)).Counted sixAreas := by
  have hformat : (initial sixAreas (fun _ _ => .blank) fun _ => false).format sixAreas (failsAt []) [] true =
      (.ok, formatted (failsAt [])) := Prod.ext (by decide +kernel) rfl
  have hfirst : Along sixAreas (failsAt []) (KeepsFirst sixAreas (failsAt [])) (collected 3 .dirty) (formatted (failsAt [])) :=
    ⟨trivial, trivial, trivial, by unfold KeepsFirst; decide +kernel, trivial⟩
  obtain ⟨hplaced, -, hcounted⟩ := run_placed (failsAt []) hformat (collected 3 .dirty) hfirst
  exact ⟨hplaced, hcounted ⟨trivial, trivial, trivial, by unfold ErasesOwn; decide +kernel, trivial⟩⟩

/-- The area had valid data: the erasure is counted for the place that was the buffer's. -/
theorem counters_do_not_follow : ¬ ∀ (P : Type) (c : Config) (faults : Faults P) (flash : AreaPos → PageOffs → Page P)
    (bad : Nat → Bool) (list : List Nat) (complete : Bool) (d : Device P),
    (initial c flash bad).format c faults list complete = (.ok, d) → ∀ ops : List (Op P),
      (d.run c faults ops).Placed c ∧ (d.run c faults ops).Counted c := by
  intro hall
  have hcounted := (hall Unit sixAreas (failsAt []) (fun _ _ => .blank) (fun _ => false) [] true (formatted (failsAt []))
    (Prod.ext (by decide +kernel) rfl) (collected 3 .used)).2 3 (by decide)
  exact absurd hcounted (by decide +kernel)

/-- The erasure failed, which retired the buffer; the next collection moves area 0. -/
theorem first_area_moves : let d := formatted (failsAt [7])
    (d.run sixAreas (failsAt [7]) (collected 3 .used ++ .closeArea 3 :: collected 4 .dirty)).positionOf 0 = 4 := by
  decide +kernel

end Device
end Paffs.Areas
