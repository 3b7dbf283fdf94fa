import Paffs.Area.Placement

/-! Reading summaries from flash where pages may not be readable. -/
namespace Paffs.Areas
variable {P : Type} (c : Config)

/-- What the driver answers when a page of a physical area is read. -/
abbrev Reads := AreaPos → PageOffs → Result

/-- Nothing but 0xFF. -/
def Page.isBlank : Page P → Bool
  | .blank => true
  | _ => false

def succeeded (corrected : Bool) : Result := if corrected then .biterrorCorrected else .ok

namespace Device
variable (reads : Reads)

/-- The loop of `readAreasummary` over the pages of a packed summary; those it does not say are dirty are looked at. -/
def readPages (d : Device P) (place : AreaPos) (s : Summary) : List PageOffs → Bool → Summary → Result × Summary
  | [], corrected, elem => (succeeded corrected, elem)
  | i :: rest, corrected, elem =>
    if i < c.areaSummarySizePacked ∧ s i ≠ .dirty then
      let r := reads place i
      if r ≠ .ok ∧ r ≠ .biterrorCorrected then (r, elem)
      else
        let status : SummaryEntry := if (d.nand.flash place i).isBlank then .free else .used
        readPages d place s rest (corrected || r = .biterrorCorrected) (Function.update elem i status)
    else readPages d place s rest corrected (Function.update elem i .dirty)

/-- `readAreasummary` with what it leaves in the list it is given. -/
def readAreasummaryInto (d : Device P) (area : AreaPos) (elem : Summary) : Result × Summary :=
  let place := d.getPos c area
  let r := reads place c.dataPagesPerArea
  if r ≠ .ok ∧ r ≠ .biterrorCorrected then (r, elem)
  else
    match d.nand.flash place c.dataPagesPerArea with
    | .summary s =>
      if c.areaSummaryIsPacked then d.readPages c reads place s (List.range c.dataPagesPerArea) (r = .biterrorCorrected) elem
      else (succeeded (r = .biterrorCorrected), s)
    | _ => (.notFound, elem)

/-- `getSummaryStatus` with its result. -/
def readSummaryStatus (d : Device P) (area : AreaPos) : Result × Summary :=
  match d.findElem area with
  | some e => (.ok, e.entries)
  | none =>
    let (r, list) := d.readAreasummaryInto c reads area fun _ => .free
    (if r = .notFound then .ok else r, list)

variable {c} {d : Device P}

theorem readPages_congr {reads : Reads} {d' : Device P} {place : AreaPos} (hflash : d'.nand.flash place = d.nand.flash place)
    (s : Summary) (pages : List PageOffs) (corrected : Bool) (elem : Summary) :
    d'.readPages c reads place s pages corrected elem = d.readPages c reads place s pages corrected elem := by
  induction pages generalizing corrected elem with
  | nil => rfl
  | cons i rest ih => simp only [readPages, hflash, ih]

/-- What is read of an area depends on the place it lies on. -/
theorem readAreasummaryInto_congr {reads : Reads} {d' : Device P} {area : AreaPos} (hpos : d'.getPos c area = d.getPos c area)
    (hflash : d'.nand.flash (d.getPos c area) = d.nand.flash (d.getPos c area)) :
    d'.readAreasummaryInto c reads area = d.readAreasummaryInto c reads area := by
  funext elem
  unfold readAreasummaryInto
  simp only [hpos, hflash, readPages_congr hflash]

/-- A loop that comes to its end has recovered the summary. -/
theorem readPages_recovered {reads : Reads} {place : AreaPos} {s elem : Summary} {pages : List PageOffs} {corrected : Bool}
    (hread : (d.readPages c reads place s pages corrected elem).1 = .ok ∨
      (d.readPages c reads place s pages corrected elem).1 = .biterrorCorrected) (page : PageOffs) :
    (d.readPages c reads place s pages corrected elem).2 page =
      if page ∈ pages then recovered true c.areaSummarySizePacked s (fun page => (d.nand.flash place page).isBlank) page
      else elem page := by
  induction pages generalizing corrected elem with
  | nil => simp [readPages]
  | cons i rest ih =>
    rw [readPages] at hread ⊢
    by_cases hbit : i < c.areaSummarySizePacked ∧ s i ≠ .dirty
    · have hnot : ¬(c.areaSummarySizePacked ≤ i ∨ s i = .dirty) := not_or.mpr ⟨Nat.not_le.mpr hbit.1, hbit.2⟩
      rw [if_pos hbit] at hread ⊢
      by_cases herror : reads place i ≠ .ok ∧ reads place i ≠ .biterrorCorrected
      · rw [if_pos herror] at hread
        exact absurd hread (not_or.mpr herror)
      rw [if_neg herror] at hread ⊢
      rw [ih hread]
      by_cases hpage : page = i
      · subst hpage
        simp only [List.mem_cons, true_or, if_true, Function.update_self, recovered, if_neg hnot, ite_self]
      · simp only [List.mem_cons, hpage, false_or, Function.update_of_ne, ne_eq, not_false_eq_true]
    · rw [if_neg hbit] at hread ⊢
      rw [ih hread]
      by_cases hpage : page = i
      · subst hpage
        have hdirty : c.areaSummarySizePacked ≤ page ∨ s page = .dirty := by
          rw [Decidable.not_and_iff_or_not, Nat.not_lt, not_not] at hbit
          exact hbit
        simp only [List.mem_cons, true_or, if_true, Function.update_self, recovered, if_pos hdirty, ite_self]
      · simp only [List.mem_cons, hpage, false_or, Function.update_of_ne, ne_eq, not_false_eq_true]

theorem readPages_ne_notFound {reads : Reads} (hreads : ∀ place page, reads place page ≠ .notFound) {place : AreaPos}
    {s elem : Summary} {pages : List PageOffs} {corrected : Bool} :
    (d.readPages c reads place s pages corrected elem).1 ≠ .notFound := by
  induction pages generalizing corrected elem with
  | nil => cases corrected <;> simp [readPages, succeeded]
  | cons i rest ih =>
    rw [readPages]
    dsimp only
    split_ifs
    · exact hreads place i
    all_goals exact ih

/-- Where a summary can be read it is the one that is there. -/
theorem readSummaryStatus_eq {reads : Reads} {area : AreaPos} (hreads : ∀ place page, reads place page ≠ .notFound)
    (hread : (d.readSummaryStatus c reads area).1 = .ok ∨ (d.readSummaryStatus c reads area).1 = .biterrorCorrected)
    {page : PageOffs} (hpage : page < c.dataPagesPerArea) :
    (d.readSummaryStatus c reads area).2 page = d.getSummaryStatus c area page := by
  unfold readSummaryStatus getSummaryStatus at *
  cases hfind : d.findElem area with
  | some e => rfl
  | none =>
    simp only [hfind] at hread ⊢
    unfold readAreasummaryInto readAreasummary at *
    dsimp only at hread ⊢
    by_cases herror : reads (d.getPos c area) c.dataPagesPerArea ≠ .ok ∧
        reads (d.getPos c area) c.dataPagesPerArea ≠ .biterrorCorrected
    · rw [if_pos herror, if_neg (hreads _ _)] at hread
      exact absurd hread (not_or.mpr herror)
    rw [if_neg herror] at hread ⊢
    cases hflash : d.nand.flash (d.getPos c area) c.dataPagesPerArea with
    | summary s =>
      simp only [hflash, Option.getD_some] at hread ⊢
      cases hpacked : c.areaSummaryIsPacked with
      | true =>
        simp only [hpacked, if_true] at hread ⊢
        rw [if_neg (readPages_ne_notFound hreads)] at hread
        rw [readPages_recovered hread, if_pos (List.mem_range.mpr hpage)]
        rfl
      | false => rfl
    | _ => rfl

end Device
end Paffs.Areas
