import Paffs.Area.Guarded
import Paffs.Area.DirtyCount
import Paffs.Area.NextBestArea

/-! What a collection is good for: it comes to an end, and the area it gives has a free page. -/
namespace Paffs.Areas
variable {P : Type} {c : Config} (faults : Faults P) {d d' : Device P} {area : AreaPos} {target : AreaType}

namespace Device

/-! ### It ends -/

/-- The areas that may be collected. -/
def holders (c : Config) (d : Device P) : Finset AreaPos :=
  (Finset.range c.areasNo).filter fun a => d.typeOf a = .data ∨ d.typeOf a = .index

theorem eraseOrRetire_typeOf (hlt : area < c.areasNo) (hfail : (d.eraseOrRetire c faults area).1 ≠ .ok) :
    (d.eraseOrRetire c faults area).2.typeOf area = .retired := by
  unfold eraseOrRetire at hfail ⊢
  split at hfail
  · exact absurd rfl hfail
  · rw [retireArea_typeOf area hlt, Function.update_self]

/-- An area that cannot be erased is retired. -/
theorem deleteArea_failed (hpages : d.HoldsPages c area) (hfail : (d.deleteArea c faults area).1 ≠ .ok) :
    (d.deleteArea c faults area).2.typeOf area = .retired := by
  have hlt := lt_of_holdsPages hpages
  have htype : d.getType c area ≠ .retired := by
    rcases hpages with h | h <;> rw [h] <;> decide
  have hcontents : ((d.addEvent (.deleteArea area)).deleteAreaContents c faults area 0 true).1 ≠ .ok →
      ((d.addEvent (.deleteArea area)).deleteAreaContents c faults area 0 true).2.typeOf area = .retired := by
    have hgetType : (d.addEvent (.deleteArea area)).getType c area ≠ .retired := htype
    unfold deleteAreaContents
    rw [if_neg (Nat.not_le.mpr hlt), if_neg hgetType]
    dsimp only
    intro hfail
    rw [typeOf_congr (congrArg Superblock.map (addEventUnless_sb ..)), typeOf_congr (congrArg Superblock.map (deleteSummary_sb ..)),
      typeOf_congr (congrArg Superblock.map (resetASWritten_sb ..)), increaseErasecount_typeOf]
    exact eraseOrRetire_typeOf faults hlt hfail
  unfold deleteArea at hfail ⊢
  rw [if_neg (Nat.not_le.mpr hlt), if_neg htype] at hfail ⊢
  split at hfail
  · exact absurd rfl hfail
  · rename_i r d' hne heq
    rw [heq] at hcontents
    exact hcontents hfail

theorem card_holders_deleteArea (hpages : d.HoldsPages c area) (hfail : (d.deleteArea c faults area).1 ≠ .ok) :
    ((d.deleteArea c faults area).2.holders c).card < (d.holders c).card := by
  have hlt := lt_of_holdsPages hpages
  have htype : d.getType c area ≠ .retired := by
    rcases hpages with h | h <;> rw [h] <;> decide
  have hretired := deleteArea_failed faults hpages hfail
  obtain ⟨-, -, hmap⟩ := deleteArea_frame faults hlt htype
  refine Finset.card_lt_card (Finset.ssubset_iff_of_subset ?_ |>.mpr ⟨area, ?_, ?_⟩)
  · intro a ha
    obtain ⟨halt, hpages⟩ := Finset.mem_filter.mp ha
    refine Finset.mem_filter.mpr ⟨halt, ?_⟩
    have hne : a ≠ area := by
      rintro rfl
      rw [hretired] at hpages
      rcases hpages with h | h <;> cases h
    have hsame : (d.deleteArea c faults area).2.typeOf a = d.typeOf a := congrArg Area.type (hmap a hne)
    rwa [hsame] at hpages
  · rw [HoldsPages, getType_of_lt hlt] at hpages
    exact Finset.mem_filter.mpr ⟨Finset.mem_range.mpr hlt, hpages⟩
  · intro hmem
    obtain ⟨-, h⟩ := Finset.mem_filter.mp hmem
    rw [hretired] at h
    rcases h with h | h <;> cases h

theorem loadUnbufferedArea_ne_fail (d : Device P) (area : AreaPos) : (d.loadUnbufferedArea c faults area).1 ≠ .fail := by
  have hfree : (d.freeNextBestSummaryCacheEntry c faults).1 ≠ .fail := by
    unfold freeNextBestSummaryCacheEntry
    split
    · exact nofun
    · split
      · rename_i e _
        have hwrite : (d.writeAreasummary c faults e).1 ≠ .fail := by
          unfold writeAreasummary
          split_ifs
          · exact nofun
          · exact nofun
          · dsimp only
            split <;> exact nofun
        unfold commitAndEraseElem
        split
        · exact nofun
        · rename_i heq
          rwa [heq] at hwrite
      · exact nofun
  unfold loadUnbufferedArea
  split
  · exact nofun
  · split
    · exact nofun
    · split <;> exact nofun
    · rename_i heq
      rwa [heq] at hfree

theorem finishCollection_ne_fail (d : Device P) (fav : Candidate) : (d.finishCollection c faults target fav).1 ≠ .fail := by
  have hset : ∀ (d : Device P) (area : AreaPos) (summary : Summary), (d.setSummaryStatus c faults area summary).1 ≠ .fail := by
    intro d area summary
    have hload := loadUnbufferedArea_ne_fail faults (c := c) d area
    unfold setSummaryStatus
    dsimp only
    split
    · exact nofun
    · split
      · exact nofun
      · exact nofun
      · rename_i heq
        rwa [heq] at hload
  unfold finishCollection
  dsimp only
  cases hvalid : fav.containsValidData with
  | true =>
    simp only [if_true]
    split
    · exact hset _ _ _
    · exact nofun
  | false => exact nofun

theorem holdsPages_of_isCollectable (h : d.isCollectable c area = true) : d.HoldsPages c area := by
  have hlt := lt_of_isCollectable h
  rw [HoldsPages, getType_of_lt hlt]
  exact ((isCollectable_iff hlt).mp h).2

/-- Each further round has one area less to collect. -/
theorem collectRounds_ends (k : Nat) (h : (d.holders c).card < k) : (d.collectRounds c faults k target).1 ≠ .fail ∧
    ∀ k', k ≤ k' → d.collectRounds c faults k' target = d.collectRounds c faults k target := by
  induction k generalizing d with
  | zero => cases h
  | succ k ih =>
    have hrest : (d.findNextBestArea c target).area ≠ 0 →
        (d.deleteArea c faults (d.findNextBestArea c target).area).1 ≠ .ok →
        ((d.deleteArea c faults (d.findNextBestArea c target).area).2.holders c).card < k := by
      intro hfav hfail
      have hpages := holdsPages_of_isCollectable (findNextBestArea_sound target hfav).collectable
      exact lt_of_lt_of_le (card_holders_deleteArea faults hpages hfail) (Nat.le_of_lt_succ h)
    constructor
    · rw [collectRounds]
      split_ifs with hnone hvalid
      · intro hfail
        cases hfail
      · split
        · exact finishCollection_ne_fail faults _ _
        · intro hfail
          cases hfail
      · rw [not_or] at hnone
        split
        · exact finishCollection_ne_fail faults _ _
        · rename_i r d' hne heq
          refine (ih ?_).1
          have := hrest hnone.1
          rw [heq] at this
          exact this hne
    · intro k' hk'
      obtain ⟨k', rfl⟩ : ∃ m, k' = m + 1 := ⟨k' - 1, by omega⟩
      rw [collectRounds, collectRounds]
      split_ifs with hnone hvalid
      · rfl
      · rfl
      · rw [not_or] at hnone
        split
        · rfl
        · rename_i r d' hne heq
          refine (ih ?_).2 k' (Nat.le_of_succ_le_succ hk')
          have := hrest hnone.1
          rw [heq] at this
          exact this hne

theorem card_holders_le (d : Device P) : (d.holders c).card ≤ c.areasNo :=
  (Finset.card_filter_le _ _).trans (Finset.card_range _).le

/-- The source calls itself without a bound; whatever fails, as many rounds as there are areas and one more are enough. -/
theorem collectGarbage_ends (d : Device P) (target : AreaType) (k : Nat) :
    (d.collectGarbage c faults target).1 ≠ .fail ∧
      d.collectRounds c faults (c.areasNo + 1 + k) target = d.collectGarbage c faults target := by
  obtain ⟨hend, hsame⟩ := collectRounds_ends faults (c.areasNo + 1) (Nat.lt_succ_of_le d.card_holders_le)
  exact ⟨hend, hsame _ (Nat.le_add_right _ _)⟩

end Device
end Paffs.Areas
