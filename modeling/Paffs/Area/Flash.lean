import Paffs.Area.Operations

/-! Which pages the functions on areas write and erase. -/
namespace Paffs.Areas
variable {P : Type} {c : Config} (faults : Faults P)

namespace Nand
variable (n : Nand P)

theorem eraseBlocks_flash_ne {area area' : AreaPos} (i k : Nat) (h : area' ≠ area) :
    (eraseBlocks c faults area i k n).2.flash area' = n.flash area' := by
  induction k generalizing i n with
  | zero => rfl
  | succ k ih =>
    have hblock : (n.eraseBlock c faults area i).2.flash area' = n.flash area' := Function.update_of_ne h _ _
    rw [eraseBlocks]
    split
    · rename_i n' heq
      rw [ih]
      rwa [heq] at hblock
    · rename_i n' heq
      rwa [heq] at hblock

/-- An erasure that goes through leaves the blocks before it as they are. -/
theorem eraseBlocks_flash {area : AreaPos} {i k : Nat} (h : (eraseBlocks c faults area i k n).1 = true) (page : Nat) :
    (eraseBlocks c faults area i k n).2.flash area page =
      if i ≤ page / c.pagesPerBlock ∧ page / c.pagesPerBlock < i + k then .blank else n.flash area page := by
  induction k generalizing i n with
  | zero =>
    have hnone : ¬ (i ≤ page / c.pagesPerBlock ∧ page / c.pagesPerBlock < i + 0) := by omega
    rw [if_neg hnone]
    rfl
  | succ k ih =>
    rw [eraseBlocks] at h ⊢
    split at h
    · rename_i n' heq
      obtain ⟨hok, hn'⟩ := Prod.mk.inj heq
      have hblock : n'.flash area page = if page / c.pagesPerBlock = i then .blank else n.flash area page := by
        rw [← hn']
        simp only [Function.update_self, hok, if_true]
      rw [ih n' h, hblock]
      split_ifs <;> first | rfl | omega
    · cases h

theorem eraseArea_flash_ne {area area' : AreaPos} (h : area' ≠ area) :
    (n.eraseArea c faults area).2.flash area' = n.flash area' :=
  eraseBlocks_flash_ne faults _ 0 c.blocksPerArea h

theorem eraseArea_blank {area : AreaPos} (h : (n.eraseArea c faults area).1 = true) {page : PageOffs}
    (hpage : page < c.totalPagesPerArea) : (n.eraseArea c faults area).2.flash area page = .blank := by
  have hblock : page / c.pagesPerBlock < c.blocksPerArea :=
    Nat.div_lt_of_lt_mul (by rwa [Nat.mul_comm])
  rw [eraseArea, eraseBlocks_flash faults _ h, if_pos ⟨Nat.zero_le _, by rwa [Nat.zero_add]⟩]

end Nand

theorem Config.dataPages_lt_total (c : Config) {page : PageOffs} (h : page ≤ c.dataPagesPerArea) :
    page < c.totalPagesPerArea := lt_of_le_of_lt h c.summary_fits

namespace Device
variable (d : Device P)

theorem movePages_flash_ne {src dst area : AreaPos} (summary : Summary) (pages : List PageOffs) (n : Nand P)
    (h : area ≠ dst) : (movePages faults src dst summary pages n).2.flash area = n.flash area := by
  induction pages generalizing n with
  | nil => rfl
  | cons page pages ih =>
    rw [movePages]
    split
    · exact (ih _).trans (n.writePage_flash_ne faults page _ h)
    · exact ih n

theorem movePages_flash {src dst : AreaPos} (summary : Summary) {pages : List PageOffs} (hpages : pages.Nodup) (n : Nand P)
    (h : src ≠ dst) (hok : (movePages faults src dst summary pages n).1) (page : PageOffs) :
    (movePages faults src dst summary pages n).2.flash dst page =
      if page ∈ pages ∧ summary page = .used then n.flash src page else n.flash dst page := by
  induction pages generalizing n with
  | nil => simp [movePages]
  | cons p pages ih =>
    rw [List.nodup_cons] at hpages
    rw [movePages] at hok ⊢
    split at hok
    · rename_i hused
      simp only [Bool.and_eq_true] at hok
      rw [if_pos hused]
      dsimp only
      rw [ih hpages.2 _ hok.2, n.writePage_flash_ne faults p _ h, n.writePage_flash]
      have hsucceeds : faults.succeeds n.clock = true := hok.1
      by_cases hpp : page = p
      · subst hpp
        simp [hpages.1, hused, hsucceeds]
      · simp [hpp]
    · rename_i hused
      rw [if_neg hused, ih hpages.2 n hok]
      by_cases hpp : page = p
      · subst hpp
        simp [hused]
      · simp [hpp]

/-! ### Deleting the contents of an area -/

section Delete
variable {d : Device P} {area : AreaPos}

theorem getPos_congr {d' : Device P} (h : d'.sb = d.sb) (area : AreaPos) : d'.getPos c area = d.getPos c area := by
  unfold getPos; rw [h]

theorem eraseOrRetire_flash (area : AreaPos) : let r := d.eraseOrRetire c faults area
    (∀ place ≠ d.getPos c area, r.2.nand.flash place = d.nand.flash place) ∧
      (r.1 = .ok → ∀ page < c.totalPagesPerArea, r.2.nand.flash (d.getPos c area) page = .blank) := by
  have hother : ∀ place ≠ d.getPos c area, (d.nand.eraseArea c faults (d.getPos c area)).2.flash place = d.nand.flash place :=
    fun place h => d.nand.eraseArea_flash_ne faults h
  have hblank : (d.nand.eraseArea c faults (d.getPos c area)).1 = true → ∀ page < c.totalPagesPerArea,
      (d.nand.eraseArea c faults (d.getPos c area)).2.flash (d.getPos c area) page = .blank :=
    fun h page hpage => d.nand.eraseArea_blank faults h hpage
  unfold eraseOrRetire
  split
  · rename_i n h
    rw [h] at hother hblank
    exact ⟨hother, fun _ => hblank rfl⟩
  · rename_i n h
    rw [h] at hother
    refine ⟨fun place hplace => ?_, fun hok => by cases hok⟩
    rw [retireArea_flash]
    exact hother place hplace

theorem eraseOrRetire_map (area : AreaPos) : let r := d.eraseOrRetire c faults area
    (∀ x ≠ area, r.2.sb.map x = d.sb.map x) ∧ (r.1 = .ok → r.2.sb = d.sb) := by
  unfold eraseOrRetire
  split
  · exact ⟨fun _ _ => rfl, fun _ => rfl⟩
  · refine ⟨fun x hx => ?_, fun hok => by cases hok⟩
    exact retireArea_map_ne hx

/-- The pages an accepted call erases, and the entries of the map it leaves alone. -/
theorem deleteAreaContents_frame (swappedArea : AreaPos) (quiet : Bool) (hlt : area < c.areasNo)
    (htype : d.getType c area ≠ .retired) :
    let r := d.deleteAreaContents c faults area swappedArea quiet
    let place := d.getPos c (erasedArea area swappedArea)
    (∀ place' ≠ place, r.2.nand.flash place' = d.nand.flash place') ∧
      (r.1 = .ok → ∀ page < c.totalPagesPerArea, r.2.nand.flash place page = .blank) ∧
      (∀ x ≠ area, x ≠ erasedArea area swappedArea → r.2.sb.map x = d.sb.map x) ∧
      (r.1 = .ok → ∀ x ≠ area, r.2.sb.map x = d.sb.map x) := by
  have hflash := eraseOrRetire_flash faults (c := c)
    (d := d.addEventUnless quiet (.deleteAreaContents area (erasedArea area swappedArea))) (erasedArea area swappedArea)
  have hmap := eraseOrRetire_map faults (c := c)
    (d := d.addEventUnless quiet (.deleteAreaContents area (erasedArea area swappedArea))) (erasedArea area swappedArea)
  simp only [getPos_congr (addEventUnless_sb d _ _), addEventUnless_nand, addEventUnless_sb] at hflash hmap
  unfold deleteAreaContents
  rw [if_neg (Nat.not_le.mpr hlt), if_neg htype]
  simp only [addEventUnless_nand, addEventUnless_sb, deleteSummary_nand, deleteSummary_sb, resetASWritten_nand,
    resetASWritten_sb, increaseErasecount_nand]
  refine ⟨hflash.1, hflash.2, fun x hx hx' => ?_, fun hok x hx => ?_⟩
  · rw [increaseErasecount_map_ne hx, hmap.1 x hx']
  · rw [increaseErasecount_map_ne hx, hmap.2 hok]

theorem deleteAreaContents_refused (swappedArea : AreaPos) (quiet : Bool)
    (h : area ≥ c.areasNo ∨ d.getType c area = .retired) :
    d.deleteAreaContents c faults area swappedArea quiet = (.bug, d) := by
  unfold deleteAreaContents
  split
  · rfl
  · rw [if_pos (by tauto)]

theorem deleteArea_refused (h : area ≥ c.areasNo ∨ d.getType c area = .retired) :
    d.deleteArea c faults area = (.bug, d) := by
  unfold deleteArea
  split
  · rfl
  · rw [if_pos (by tauto)]

/-- The same for the deletion of an area. -/
theorem deleteArea_frame (hlt : area < c.areasNo) (htype : d.getType c area ≠ .retired) :
    let r := d.deleteArea c faults area
    (∀ place ≠ d.getPos c area, r.2.nand.flash place = d.nand.flash place) ∧
      (r.1 = .ok → ∀ page < c.totalPagesPerArea, r.2.nand.flash (d.getPos c area) page = .blank) ∧
      (∀ x ≠ area, r.2.sb.map x = d.sb.map x) := by
  obtain ⟨hother, hblank, hmap, -⟩ := deleteAreaContents_frame faults (d := d.addEvent (.deleteArea area)) 0 true
    hlt htype
  have herased : erasedArea area 0 = area := rfl
  rw [herased, getPos_congr (addEvent_sb d _)] at hother hblank
  rw [herased] at hmap
  unfold deleteArea
  rw [if_neg (Nat.not_le.mpr hlt), if_neg htype]
  split
  · rename_i d' heq
    rw [heq] at hother hblank hmap
    simp only [addEvent_nand, decreaseUsedAreas_nand, setType_nand, setStatus_nand]
    refine ⟨hother, fun _ => hblank rfl, fun x hx => ?_⟩
    change ((d'.setStatus c area .empty).setType c area .unset).sb.map x = _
    rw [setType_map_ne .unset hx, setStatus_map_ne .empty hx]
    exact hmap x hx hx
  · rename_i r d' _ heq
    rw [heq] at hother hblank hmap
    exact ⟨hother, hblank, fun x hx => hmap x hx hx⟩

end Delete

end Device
end Paffs.Areas
