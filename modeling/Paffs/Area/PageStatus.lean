import Paffs.Area.Operations

/-! The statuses of single pages; room for a summary that has to be loaded may be made by garbage collection. The device
is not read only. -/
namespace Paffs.Areas
variable {P : Type} (c : Config) (faults : Faults P)

namespace Device

/-- The slot may have been emptied in the meantime. -/
def commitAndEraseSlot (d : Device P) (pos : Nat) : Result × Device P :=
  match (d.cache[pos]?).join with
  | some e => d.commitAndEraseElem c faults e
  | none => (.ok, d)

def getSummaryElemPos (d : Device P) (area : AreaPos) : Nat :=
  d.cache.findIdx fun slot => slot.any (·.area = area)

/-- What follows the collection; `commitAreaSummaryHard` gives back the slot its favourite had. -/
def commitAfterCollection (order : List AreaPos) (d : Device P) : Result × Device P :=
  match d.findUncommitted c with
  | some e => d.commitAndEraseElem c faults e
  | none =>
    let pos := (d.favouriteArea c order).map fun fav => d.getSummaryElemPos fav.1
    match d.commitAreaSummaryHard c faults order with
    | (.ok, d) =>
      match pos with
      | some pos => d.commitAndEraseSlot c faults pos
      | none => (.notFound, d)
    | (r, d) => (r, d)

/-- `freeNextBestSummaryCacheEntry` when it is urgent. -/
def freeNextBestUrgent (order : List AreaPos) (d : Device P) : Result × Device P :=
  match d.freeNextBestSummaryCacheEntry c faults with
  | (.notFound, d) =>
    let (r, d) := d.collectGarbage c faults .unset
    if r = .ok ∧ d.findNextFreeCacheEntry.isSome then (.ok, d) else d.commitAfterCollection c faults order
  | (r, d) => (r, d)

/-- `loadUnbufferedArea` when it is urgent. -/
def loadUnbufferedAreaUrgent (order : List AreaPos) (d : Device P) (area : AreaPos) : Result × Device P :=
  match d.findNextFreeCacheEntry with
  | some pos => (.ok, d.loadElem c pos area)
  | none =>
    match d.freeNextBestUrgent c faults order with
    | (.ok, d) =>
      match d.findNextFreeCacheEntry with
      | some pos => (.ok, d.loadElem c pos area)
      | none => (.bug, d)
    | (r, d) => (r, d)

/-- The summary is cached; a complete one is written. -/
def setCachedStatus (d : Device P) (e : Elem) (page : PageOffs) (state : SummaryEntry) : Result × Device P :=
  if e.getStatus c page = state then (.ok, d)
  else
    let d := (d.addEvent (.setStatus e.area page state)).updateElem e.area (·.setStatus c page state)
    let e := e.setStatus c page state
    if !d.journalReplayMode ∧ state = .dirty ∧ e.dirtyPages = c.dataPagesPerArea ∧ !e.isAreaSummaryWritten then
      match d.writeAreasummary c faults e with
      | (.ok, d) => (.ok, d.updateElem e.area ({ · with isAreaSummaryWritten := true, isDirty := false }))
      | (r, d) => (r, d)
    else (.ok, d)

def setPageStatus (order : List AreaPos) (d : Device P) (area : AreaPos) (page : PageOffs) (state : SummaryEntry) :
    Result × Device P :=
  if area = 0 then (.bug, d)
  else if page > c.dataPagesPerArea then (.invalidInput, d)
  else
    let (r, d) := if d.existsSummaryElem area then (.ok, d) else d.loadUnbufferedAreaUrgent c faults order area
    if r ≠ .ok then (r, d)
    else if d.getType c area = .unset then (.bug, d)
    else
      match d.findElem area with
      | some e => d.setCachedStatus c faults e page state
      | none => (.bug, d)

/-- `AreaSummaryElem::getStatus` -/
def statusAt (summary : Summary) (page : PageOffs) : SummaryEntry :=
  if page ≥ c.dataPagesPerArea then .error else summary page

/-- Where there is no room for the summary it is read without being cached. -/
def getPageStatus (d : Device P) (area : AreaPos) (page : PageOffs) : (Result × SummaryEntry) × Device P :=
  if page > c.dataPagesPerArea then ((.invalidInput, .error), d)
  else if d.existsSummaryElem area then ((.ok, statusAt c (d.getSummaryStatus c area) page), d)
  else
    match d.loadUnbufferedArea c faults area with
    | (.ok, d) => ((.ok, statusAt c (d.getSummaryStatus c area) page), d)
    | (.noSpace, d) =>
      match d.readAreasummary c area with
      | some summary => ((.ok, statusAt c summary page), d)
      | none => ((.ok, .free), d)
    | (r, d) => ((r, .error), d)

/-! ### As runs of the operations on areas -/

/-- The operations on areas that make room for a summary. -/
def roomOps (order : List AreaPos) (d : Device P) : List (Op P) :=
  match d.freeNextBestSummaryCacheEntry c faults with
  | (.notFound, d) =>
    let (r, d) := d.collectGarbage c faults .unset
    if (r = .ok ∧ d.findNextFreeCacheEntry.isSome) ∨ (d.findUncommitted c).isSome then [.collectGarbage .unset]
    else [.collectGarbage .unset, .commitAreaSummaryHard order]
  | _ => []

/-- The same for the status of a page. -/
def statusOps (order : List AreaPos) (d : Device P) (area : AreaPos) (page : PageOffs) : List (Op P) :=
  if area = 0 ∨ page > c.dataPagesPerArea ∨ d.existsSummaryElem area ∨ d.findNextFreeCacheEntry.isSome then []
  else d.roomOps c faults order

section Quiet
variable {c : Config} {d d' : Device P} (order : List AreaPos) (area : AreaPos) (page : PageOffs) (state : SummaryEntry)

theorem freeNextBestSummaryCacheEntry_notFound (h : (d.freeNextBestSummaryCacheEntry c faults).1 = .notFound) :
    d.freeNextBestSummaryCacheEntry c faults = (.notFound, d) := by
  have hcommit : ∀ e : Elem, (d.commitAndEraseElem c faults e).1 ≠ .notFound := by
    intro e
    unfold commitAndEraseElem writeAreasummary
    split_ifs
    · simp
    · simp
    · cases hwrite : faults.succeeds d.nand.clock
      · simp [Nand.writePage, hwrite]
      · simp [Nand.writePage, hwrite]
  unfold freeNextBestSummaryCacheEntry at h ⊢
  split_ifs at h ⊢
  split
  · rename_i e heq
    rw [heq] at h
    exact absurd h (hcommit e)
  · rfl

theorem commitAndEraseSlot_quiet (pos : Nat) : Quiet c d (d.commitAndEraseSlot c faults pos).2 := by
  unfold commitAndEraseSlot
  split
  · exact commitAndEraseElem_quiet faults _
  · exact .refl d

theorem setCachedStatus_quiet (e : Elem) : Quiet c d (d.setCachedStatus c faults e page state).2 := by
  unfold setCachedStatus
  split
  · exact .refl d
  · dsimp only
    have hset : Quiet c d ((d.addEvent (.setStatus e.area page state)).updateElem e.area (·.setStatus c page state)) :=
      .of_cache ..
    have hwrite := hset.trans (writeAreasummary_quiet faults (e.setStatus c page state))
    split
    · split
      · rename_i d' heq
        rw [heq] at hwrite
        exact hwrite.trans (.of_cache ..)
      · rename_i r d' _ heq
        rwa [heq] at hwrite
    · exact hset

theorem getPageStatus_quiet : Quiet c d (d.getPageStatus c faults area page).2 := by
  have hload := loadUnbufferedArea_quiet faults (c := c) (d := d) area
  unfold getPageStatus
  split_ifs
  · exact .refl d
  · exact .refl d
  · split
    · rename_i d' heq
      rwa [heq] at hload
    · rename_i d' heq
      rw [heq] at hload
      split
      · exact hload
      · exact hload
    · rename_i r d' _ _ heq
      rwa [heq] at hload

theorem commitAfterCollection_quiet :
    Quiet c (d.run c faults (if (d.findUncommitted c).isSome then [] else [.commitAreaSummaryHard order]))
      (d.commitAfterCollection c faults order).2 := by
  unfold commitAfterCollection
  cases hfound : d.findUncommitted c with
  | some e => exact commitAndEraseElem_quiet faults e
  | none =>
    change Quiet c (d.commitAreaSummaryHard c faults order).2 _
    dsimp only
    split
    · rename_i d' hcommit
      rw [hcommit]
      split
      · exact commitAndEraseSlot_quiet faults _
      · exact .refl d'
    · rename_i r d' _ hcommit
      rw [hcommit]
      exact .refl d'

/-- Making room comes down to its operations on areas, with something quiet behind them. -/
theorem freeNextBestUrgent_quiet :
    Quiet c (d.run c faults (d.roomOps c faults order)) (d.freeNextBestUrgent c faults order).2 := by
  have hfree := freeNextBestSummaryCacheEntry_quiet faults (c := c) (d := d)
  unfold roomOps freeNextBestUrgent
  by_cases hnone : (d.freeNextBestSummaryCacheEntry c faults).1 = .notFound
  · rw [freeNextBestSummaryCacheEntry_notFound faults hnone]
    have hrun : ∀ ops, d.run c faults (.collectGarbage .unset :: ops) = (d.collectGarbage c faults .unset).2.run c faults ops :=
      fun ops => rfl
    have hcommit := commitAfterCollection_quiet faults (c := c) (d := (d.collectGarbage c faults .unset).2) order
    dsimp only
    by_cases hroom : (d.collectGarbage c faults .unset).1 = .ok ∧
        (d.collectGarbage c faults .unset).2.findNextFreeCacheEntry.isSome = true
    · rw [if_pos (.inl hroom), if_pos hroom, hrun]
      exact .refl _
    · rw [if_neg hroom]
      split_ifs at hcommit with huncommitted
      · rw [if_pos (.inr huncommitted), hrun]
        exact hcommit
      · rw [if_neg (not_or.mpr ⟨hroom, huncommitted⟩), hrun]
        exact hcommit
  · split
    · rename_i d' heq
      exact absurd (congrArg Prod.fst heq) hnone
    · split
      · rename_i d' heq
        exact absurd (congrArg Prod.fst heq) hnone
      · rename_i r d' _ heq
        rw [heq] at hfree
        exact hfree

theorem loadUnbufferedAreaUrgent_quiet (hfull : d.findNextFreeCacheEntry = none) :
    Quiet c (d.run c faults (d.roomOps c faults order)) (d.loadUnbufferedAreaUrgent c faults order area).2 := by
  have hfree := freeNextBestUrgent_quiet faults (c := c) (d := d) order
  unfold loadUnbufferedAreaUrgent
  rw [hfull]
  dsimp only
  split
  · rename_i d' heq
    rw [heq] at hfree
    split
    · exact hfree.trans (loadElem_quiet area _)
    · exact hfree
  · rename_i r d' _ heq
    rwa [heq] at hfree

theorem setPageStatus_quiet : Quiet c (d.run c faults (d.statusOps c faults order area page))
    (d.setPageStatus c faults order area page state).2 := by
  have hload : ¬ (area = 0 ∨ page > c.dataPagesPerArea) →
      Quiet c (d.run c faults (d.statusOps c faults order area page))
        (if d.existsSummaryElem area then (.ok, d) else d.loadUnbufferedAreaUrgent c faults order area : Result × Device P).2 := by
    intro hcond
    rw [not_or] at hcond
    unfold statusOps
    split_ifs with h₁ h₂ h₂
    · exact .refl d
    · cases hfree : d.findNextFreeCacheEntry with
      | none => simp [hcond, h₂, hfree] at h₁
      | some pos =>
        rw [loadUnbufferedAreaUrgent, hfree]
        exact loadElem_quiet area pos
    · exact absurd (.inr (.inr (.inl h₂))) h₁
    · refine loadUnbufferedAreaUrgent_quiet faults order area ?_
      simpa using (not_or.mp (not_or.mp (not_or.mp h₁).2).2).2
  unfold setPageStatus
  by_cases hzero : area = 0
  · rw [if_pos hzero, statusOps, if_pos (.inl hzero)]
    exact .refl d
  · by_cases hpage : page > c.dataPagesPerArea
    · rw [if_neg hzero, if_pos hpage, statusOps, if_pos (.inr (.inl hpage))]
      exact .refl d
    · have h := hload (not_or.mpr ⟨hzero, hpage⟩)
      rw [if_neg hzero, if_neg hpage]
      generalize (if d.existsSummaryElem area then (.ok, d) else d.loadUnbufferedAreaUrgent c faults order area :
        Result × Device P) = r at h ⊢
      dsimp only
      split
      · exact h
      · split
        · exact h
        · split
          · exact h.trans (setCachedStatus_quiet faults page state _)
          · exact h

end Quiet
end Device

/-! ### Calls -/

/-- What others call: the operations on areas, and those on the statuses of pages. -/
inductive Call (P : Type) where
  | area (op : Op P)
  | setPageStatus (order : List AreaPos) (area : AreaPos) (page : PageOffs) (state : SummaryEntry)
  | getPageStatus (area : AreaPos) (page : PageOffs)

namespace Device

def call (d : Device P) : Call P → Device P
  | .area op => d.step c faults op
  | .setPageStatus order area page state => (d.setPageStatus c faults order area page state).2
  | .getPageStatus area page => (d.getPageStatus c faults area page).2

/-- The operations on areas a call comes down to. -/
def opsOf (d : Device P) : Call P → List (Op P)
  | .area op => [op]
  | .setPageStatus order area page _ => d.statusOps c faults order area page
  | .getPageStatus _ _ => []

theorem call_quiet {c : Config} {d : Device P} (call : Call P) :
    Quiet c (d.run c faults (d.opsOf c faults call)) (d.call c faults call) := by
  cases call with
  | area op => exact .refl _
  | setPageStatus order area page state => exact setPageStatus_quiet faults order area page state
  | getPageStatus area page => exact getPageStatus_quiet faults area page

/-- Every operation of every call meets a condition. -/
def Through (Meets : Op P → Device P → Prop) : List (Call P) → Device P → Prop
  | [], _ => True
  | call :: calls, d => Along c faults Meets (d.opsOf c faults call) d ∧ Through Meets calls (d.call c faults call)

end Device
end Paffs.Areas
