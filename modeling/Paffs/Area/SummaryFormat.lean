import Paffs.Area.SummaryCache
import Paffs.Common.BitList

/-! The bytes of an area summary on flash. -/
namespace Paffs.SummaryFormat
open Bytes
open Areas (AreaPos PageOffs Summary SummaryEntry)
open Areas.Device (recovered)

abbrev PageAbs := Nat

/-- The constants of `config.hpp`. -/
structure Constants where
  dataBytesPerPage : Nat
  oobBytesPerPage : Nat
  pagesPerBlock : Nat
  blocksTotal : Nat
  blocksPerArea : Nat

namespace Constants
variable (g : Constants)

def totalBytesPerPage : Nat := (g.dataBytesPerPage + g.oobBytesPerPage) % 2 ^ 16
def areasNo : Nat := g.blocksTotal / g.blocksPerArea
def totalPagesPerArea : Nat := g.blocksPerArea * g.pagesPerBlock % 2 ^ 16

-- `ceil` gets a `float`, which tells these quotients from whole numbers
def oobPagesPerArea : Nat := (g.totalPagesPerArea + (8 * g.dataBytesPerPage - 1)) / (8 * g.dataBytesPerPage)
def dataPagesPerArea : Nat := g.totalPagesPerArea - g.oobPagesPerArea
def areaSummarySizePacked : Nat := 1 + (g.dataPagesPerArea + 7) / 8
def areaSummaryIsPacked : Bool := g.areaSummarySizePacked * 2 > g.dataBytesPerPage
def areaSummarySizeUnpacked : Nat := 1 + (g.dataPagesPerArea + 3) / 4

end Constants

/-- What the compiler accepts. -/
structure Geometry extends Constants where
  dataBytesPerPage_lt : dataBytesPerPage < 2 ^ 16
  oobBytesPerPage_lt : oobBytesPerPage < 2 ^ 8
  pagesPerBlock_lt : pagesPerBlock < 2 ^ 16
  blocksTotal_lt : blocksTotal < 2 ^ 16
  blocksPerArea_lt : blocksPerArea < 2 ^ 8
  two_blocks : 2 ≤ blocksPerArea
  eight_blocks : 8 ≤ blocksTotal
  summary_fits : toConstants.areaSummarySizePacked ≤ dataBytesPerPage
  stack : ¬ (toConstants.areaSummaryIsPacked ∧ toConstants.areaSummarySizePacked > 2048)

/-- `Device::initializeDevice` on a device that is not mounted. -/
def Geometry.initializeDevice (g : Geometry) : Result :=
  if g.areasNo < (Persistence.Enumeration.values : List Areas.AreaType).idxOf .no - 2 then .invalidInput
  else if g.blocksPerArea < 2 then .invalidInput
  else if g.dataPagesPerArea > g.dataBytesPerPage * 8 then .invalidInput
  else if g.blocksTotal % g.blocksPerArea ≠ 0 then .invalidInput
  else .ok

/-! ### Summaries in memory -/

def valueOf : SummaryEntry → Byte
  | .free => 0
  | .used => 1
  | .dirty => 2
  | .error => 3

def statusOf (value : Byte) : SummaryEntry :=
  match value.toNat with
  | 0 => .free
  | 1 => .used
  | 2 => .dirty
  | _ => .error

/-- An `AreaSummaryElem` that is used. -/
structure AreaSummaryElem where
  area : AreaPos
  entries : Memory
  isDirty : Bool
  isAreaSummaryWritten : Bool

section Format
variable (g : Geometry)

def getStatus (page : PageOffs) (list : Memory) : SummaryEntry :=
  if page ≥ g.dataPagesPerArea then .error else statusOf (TwoBitList.getValue page list)

def setStatus (page : PageOffs) (value : SummaryEntry) (list : Memory) : Memory :=
  if page ≥ g.dataPagesPerArea then list else TwoBitList.setValue page (valueOf value) list

def AreaSummaryElem.getStatus (e : AreaSummaryElem) (page : PageOffs) : SummaryEntry := SummaryFormat.getStatus g page e.entries

/-! ### Pages -/

/-- The driver: what its calls return, and what it stores behind the bytes that it is given. -/
structure Driver where
  writes : PageAbs → Result
  reads : PageAbs → Result
  padding : PageAbs → Memory

/-- `committed` are the `Commit` events of the journal. -/
structure Dev where
  flash : PageAbs → Memory
  pos : AreaPos → AreaPos
  journalReplayMode : Bool
  committed : List AreaPos

namespace Dev
variable (driver : Driver) (d : Dev)

def getPageNumber (area : AreaPos) (page : PageOffs) : PageAbs := d.pos area * g.totalPagesPerArea + page

def writePage (page : PageAbs) (data : Memory) (dataLen : Nat) : Result × Dev :=
  if dataLen > g.totalBytesPerPage then (.fail, d)
  else if driver.writes page ≠ .ok then (driver.writes page, d)
  else (.ok, { d with flash := Function.update d.flash page fun i => if i < dataLen then data i else driver.padding page i })

/-- No byte of the page differs from an erased one. -/
def erased (page : PageAbs) : Bool := (List.range g.totalBytesPerPage).all fun i => d.flash page i = 0xFF

/-! ### The summary of an area -/

/-- A bit for each page that is not dirty. -/
def packedSummary (e : AreaSummaryElem) : Memory :=
  (List.range g.dataPagesPerArea).foldl
    (fun list j => if e.getStatus g j ≠ .dirty then BitList.setBit g.dataPagesPerArea j list else list) fun _ => 0

/-- `verify` is the trace option that looks at the page first. -/
def writeAreasummary (verify : Bool) (e : AreaSummaryElem) : Result × AreaSummaryElem × Dev :=
  if e.isAreaSummaryWritten then (.bug, e, d)
  else if d.journalReplayMode then (.bug, e, d)
  else if g.areaSummaryIsPacked ∧ BitList.byteUsage g.dataPagesPerArea ≠ g.areaSummarySizePacked - 1 then (.bug, e, d)
  else
    let summary := if g.areaSummaryIsPacked then packedSummary g e else e.entries
    let page := d.getPageNumber g e.area g.dataPagesPerArea
    let btw := if g.areaSummaryIsPacked then g.areaSummarySizePacked else g.areaSummarySizeUnpacked
    if verify ∧ !d.erased g page then (.bug, e, d)
    else
      let writebuf : Memory := fun i => if i = 0 then 0 else summary (i - 1)
      match d.writePage g driver page writebuf btw with
      | (.ok, d) =>
        (.ok, { e with isAreaSummaryWritten := true, isDirty := false }, { d with committed := d.committed ++ [e.area] })
      | (r, d) => (r, e, d)

def succeeded (corrected : Bool) : Result := if corrected then .biterrorCorrected else .ok

/-- The pages one after the other; those that are not said to be dirty are looked at. -/
def readPages (area : AreaPos) (summary : Memory) : List PageOffs → Bool → Memory → Result × Memory
  | [], corrected, elem => (succeeded corrected, elem)
  | i :: pages, corrected, elem =>
    -- the list has as many elements as the summary has bytes
    if BitList.getBit g.areaSummarySizePacked i summary then
      let page := d.getPageNumber g area i
      let r := driver.reads page
      if r ≠ .ok ∧ r ≠ .biterrorCorrected then (r, elem)
      else
        readPages area summary pages (corrected || r = .biterrorCorrected) (setStatus g i (if d.erased g page then .free else .used) elem)
    else readPages area summary pages corrected (setStatus g i .dirty elem)

/-- `elem` is the list that is filled. -/
def readAreasummary (area : AreaPos) (elem : Memory) : Result × Memory :=
  let basePage := d.getPageNumber g area g.dataPagesPerArea
  let r := driver.reads basePage
  if r ≠ .ok ∧ r ≠ .biterrorCorrected then (r, elem)
  else
    let readbuf := d.flash basePage
    if readbuf 0 ≠ 0 then (.notFound, elem)
    else if g.areaSummaryIsPacked then
      readPages g driver d area (fun b => readbuf (b + 1)) (List.range g.dataPagesPerArea) (r = .biterrorCorrected) elem
    else (succeeded (r = .biterrorCorrected), fun b => if b < g.areaSummarySizeUnpacked - 1 then readbuf (b + 1) else elem b)

end Dev
end Format

/-! ### Statuses in a list -/

section Statuses
variable {g : Geometry} {page page' : PageOffs} {value : SummaryEntry} {list list' : Memory}

theorem statusOf_valueOf (value : SummaryEntry) : statusOf (valueOf value) = value := by cases value <;> rfl

theorem valueOf_lt (value : SummaryEntry) : (valueOf value).toNat < 4 := by cases value <;> decide

theorem getStatus_setStatus_self (h : page < g.dataPagesPerArea) : getStatus g page (setStatus g page value list) = value := by
  rw [getStatus, setStatus, if_neg (Nat.not_le.mpr h), if_neg (Nat.not_le.mpr h), TwoBitList.getValue_setValue_self (valueOf_lt value),
    statusOf_valueOf]

theorem getStatus_setStatus_of_ne (hne : page' ≠ page) : getStatus g page' (setStatus g page value list) = getStatus g page' list := by
  unfold getStatus setStatus
  by_cases h : page ≥ g.dataPagesPerArea
  · rw [if_pos h]
  · rw [if_neg h, TwoBitList.getValue_setValue_of_ne (valueOf_lt value) hne]

theorem getStatus_congr (h : list (page / 4) = list' (page / 4)) : getStatus g page list = getStatus g page list' := by
  rw [getStatus, getStatus, TwoBitList.getValue_congr h]

end Statuses
/-! ### A summary that is read back -/

namespace Dev
variable {g : Geometry} {driver : Driver} {d d' : Dev} {e e' : AreaSummaryElem} {area : AreaPos} {page : PageOffs}

theorem isSet_foldl (p : PageOffs → Prop) [DecidablePred p] (k : Nat) (pages : List PageOffs) (hpages : ∀ j ∈ pages, j < k) (list : Memory)
    (i : PageOffs) : (pages.foldl (fun list j => if p j then BitList.setBit k j list else list) list (i / 8)).getLsbD (i % 8) =
      ((list (i / 8)).getLsbD (i % 8) || decide (i ∈ pages ∧ p i)) := by
  induction pages generalizing list with
  | nil => simp
  | cons j pages ih =>
    rw [List.foldl_cons, ih fun j' hj' => hpages j' (List.mem_cons_of_mem _ hj')]
    by_cases hp : p j
    · rw [if_pos hp, BitList.getLsbD_setBit (hpages j List.mem_cons_self), Bool.or_assoc]
      by_cases hi : i = j
      · subst hi
        simp [hp]
      · simp [hi]
    · rw [if_neg hp]
      by_cases hi : i = j
      · subst hi
        simp [hp]
      · simp [hi]

/-- The writer's list says which pages are dirty. -/
theorem getLsbD_packedSummary (h : page < g.dataPagesPerArea) :
    (packedSummary g e (page / 8)).getLsbD (page % 8) = decide (e.getStatus g page ≠ .dirty) := by
  rw [packedSummary, isSet_foldl _ _ _ (fun j hj => List.mem_range.mp hj)]
  simp [h]

/-- The reader's list ends earlier. -/
theorem getBit_packedSummary (h : page < g.dataPagesPerArea) :
    BitList.getBit g.areaSummarySizePacked page (packedSummary g e) =
      decide (page < g.areaSummarySizePacked ∧ e.getStatus g page ≠ .dirty) := by
  by_cases hin : page < g.areaSummarySizePacked
  · rw [BitList.getBit_eq hin, getLsbD_packedSummary h]
    simp [hin]
  · rw [BitList.getBit_of_le (Nat.le_of_not_lt hin)]
    simp [hin]

/-- The driver reads the pages of the area, if need be after a correction. -/
def Readable (g : Geometry) (driver : Driver) (d : Dev) (area : AreaPos) : Prop :=
  ∀ page ≤ g.dataPagesPerArea, driver.reads (d.getPageNumber g area page) = .ok ∨ driver.reads (d.getPageNumber g area page) = .biterrorCorrected

theorem succeeded_or (corrected : Bool) : succeeded corrected = .ok ∨ succeeded corrected = .biterrorCorrected := by
  cases corrected
  · exact .inl rfl
  · exact .inr rfl

def statusRead (g : Geometry) (d : Dev) (area : AreaPos) (summary : Memory) (page : PageOffs) : SummaryEntry :=
  if BitList.getBit g.areaSummarySizePacked page summary then
    if d.erased g (d.getPageNumber g area page) then .free else .used
  else .dirty

theorem readPages_spec (hread : Readable g driver d area) (summary : Memory) (pages : List PageOffs) (hpages : ∀ i ∈ pages, i < g.dataPagesPerArea)
    (hnodup : pages.Nodup) (corrected : Bool) (elem : Memory) :
    ((readPages g driver d area summary pages corrected elem).1 = .ok ∨
      (readPages g driver d area summary pages corrected elem).1 = .biterrorCorrected) ∧
    ∀ i, getStatus g i (readPages g driver d area summary pages corrected elem).2 =
      if i ∈ pages then statusRead g d area summary i else getStatus g i elem := by
  induction pages generalizing corrected elem with
  | nil => exact ⟨succeeded_or corrected, fun i => by simp [readPages]⟩
  | cons j pages ih =>
    have hj := hpages j List.mem_cons_self
    obtain ⟨hnot, hnodup⟩ := List.nodup_cons.mp hnodup
    have hstep (corrected' : Bool) : readPages g driver d area summary (j :: pages) corrected elem =
        readPages g driver d area summary pages
          (if BitList.getBit g.areaSummarySizePacked j summary then
            corrected || driver.reads (d.getPageNumber g area j) = .biterrorCorrected else corrected)
          (setStatus g j (statusRead g d area summary j) elem) := by
      rw [readPages, statusRead]
      by_cases hbit : BitList.getBit g.areaSummarySizePacked j summary
      · have hfine : ¬ (driver.reads (d.getPageNumber g area j) ≠ .ok ∧ driver.reads (d.getPageNumber g area j) ≠ .biterrorCorrected) := by
          rcases hread j hj.le with hr | hr
          · exact fun hand => hand.1 hr
          · exact fun hand => hand.2 hr
        rw [if_pos hbit, if_pos hbit, if_pos hbit]
        exact if_neg hfine
      · rw [if_neg hbit, if_neg hbit, if_neg hbit]
    obtain ⟨hresult, hstatus⟩ := ih (fun i hi => hpages i (List.mem_cons_of_mem _ hi)) hnodup _
      (setStatus g j (statusRead g d area summary j) elem)
    rw [hstep corrected]
    refine ⟨hresult, fun i => ?_⟩
    rw [hstatus]
    by_cases hi : i = j
    · rw [hi, if_neg hnot, if_pos List.mem_cons_self, getStatus_setStatus_self hj]
    · rw [getStatus_setStatus_of_ne hi]
      simp [hi]

/-! ### The write -/

/-- The sizes that the writer compares agree, so packing is never refused. -/
theorem byteUsage_eq (g : Geometry) : BitList.byteUsage g.dataPagesPerArea = g.areaSummarySizePacked - 1 := by
  rw [Constants.areaSummarySizePacked, Nat.add_sub_cancel_left]
  rfl

def stored (g : Geometry) (e : AreaSummaryElem) : Memory := if g.areaSummaryIsPacked then packedSummary g e else e.entries

def btw (g : Geometry) : Nat := if g.areaSummaryIsPacked then g.areaSummarySizePacked else g.areaSummarySizeUnpacked

/-- Either format fits in the data bytes of a page. -/
theorem btw_le (g : Geometry) : btw g ≤ g.dataBytesPerPage := by
  have hfits := g.summary_fits
  unfold btw
  split
  · exact hfits
  · rename_i hpacked
    have hsmall : g.areaSummarySizePacked * 2 ≤ g.dataBytesPerPage := by
      simpa [Constants.areaSummaryIsPacked] using hpacked
    unfold Constants.areaSummarySizeUnpacked
    unfold Constants.areaSummarySizePacked at hsmall
    omega

/-- The device with the summary on its page. -/
def written (g : Geometry) (driver : Driver) (d : Dev) (e : AreaSummaryElem) : Dev where
  flash := Function.update d.flash (d.getPageNumber g e.area g.dataPagesPerArea) fun i =>
    if i < btw g then (if i = 0 then 0 else stored g e (i - 1)) else driver.padding (d.getPageNumber g e.area g.dataPagesPerArea) i
  pos := d.pos
  journalReplayMode := d.journalReplayMode
  committed := d.committed ++ [e.area]

theorem writeAreasummary_ok {verify : Bool} (h : (d.writeAreasummary g driver verify e).1 = .ok) :
    (d.writeAreasummary g driver verify e).2.2 = written g driver d e := by
  unfold writeAreasummary at h ⊢
  by_cases hwritten : e.isAreaSummaryWritten
  · rw [if_pos hwritten] at h
    cases h
  · by_cases hreplay : d.journalReplayMode
    · rw [if_neg hwritten, if_pos hreplay] at h
      cases h
    · have hsize : ¬ (g.areaSummaryIsPacked ∧ BitList.byteUsage g.dataPagesPerArea ≠ g.areaSummarySizePacked - 1) :=
        fun hand => hand.2 (byteUsage_eq g)
      rw [if_neg hwritten, if_neg hreplay, if_neg hsize] at h ⊢
      dsimp only at h ⊢
      by_cases hverify : verify ∧ !d.erased g (d.getPageNumber g e.area g.dataPagesPerArea)
      · rw [if_pos hverify] at h
        cases h
      · rw [if_neg hverify] at h ⊢
        unfold writePage at h ⊢
        by_cases hlen : btw g > g.totalBytesPerPage
        · rw [btw] at hlen
          rw [if_pos hlen] at h
          cases h
        · rw [btw] at hlen
          rw [if_neg hlen] at h ⊢
          by_cases hok : driver.writes (d.getPageNumber g e.area g.dataPagesPerArea) = .ok
          · rw [if_neg (not_not_intro hok)]
            rfl
          · rw [if_pos hok] at h
            generalize driver.writes (d.getPageNumber g e.area g.dataPagesPerArea) = r at h hok
            cases r <;> first | exact absurd rfl hok | cases h

theorem btw_pos (g : Geometry) : 0 < btw g := by
  unfold btw Constants.areaSummarySizePacked Constants.areaSummarySizeUnpacked
  split <;> omega

theorem written_page (g : Geometry) (driver : Driver) (d : Dev) (e : AreaSummaryElem) :
    (written g driver d e).flash (d.getPageNumber g e.area g.dataPagesPerArea) = fun i =>
      if i < btw g then (if i = 0 then 0 else stored g e (i - 1)) else driver.padding (d.getPageNumber g e.area g.dataPagesPerArea) i :=
  Function.update_self ..

theorem written_head (g : Geometry) (driver : Driver) (d : Dev) (e : AreaSummaryElem) :
    (written g driver d e).flash (d.getPageNumber g e.area g.dataPagesPerArea) 0 = 0 := by
  rw [written_page]
  exact (if_pos (btw_pos g)).trans (if_pos rfl)

theorem written_byte {b : Nat} (h : b + 1 < btw g) :
    (written g driver d e).flash (d.getPageNumber g e.area g.dataPagesPerArea) (b + 1) = stored g e b := by
  rw [written_page]
  exact (if_pos h).trans (if_neg (Nat.succ_ne_zero b))

/-- The data pages are as before. -/
theorem erased_written (h : page < g.dataPagesPerArea) :
    (written g driver d e).erased g (d.getPageNumber g e.area page) = d.erased g (d.getPageNumber g e.area page) := by
  have hne : d.getPageNumber g e.area page ≠ d.getPageNumber g e.area g.dataPagesPerArea := fun heq =>
    h.ne (Nat.add_left_cancel heq)
  have hpage : (written g driver d e).flash (d.getPageNumber g e.area page) = d.flash (d.getPageNumber g e.area page) :=
    Function.update_of_ne hne ..
  rw [erased, erased, hpage]

theorem fine_of_readable (h : Readable g driver d area) (hpage : page ≤ g.dataPagesPerArea) :
    ¬ (driver.reads (d.getPageNumber g area page) ≠ .ok ∧ driver.reads (d.getPageNumber g area page) ≠ .biterrorCorrected) := by
  rcases h page hpage with hr | hr
  · exact fun hand => hand.1 hr
  · exact fun hand => hand.2 hr

/-- What is read back, in either format. -/
theorem readAreasummary_written (hread : Readable g driver d e.area) (elem : Memory) :
    (((written g driver d e).readAreasummary g driver e.area elem).1 = .ok ∨
      ((written g driver d e).readAreasummary g driver e.area elem).1 = .biterrorCorrected) ∧
    ∀ page < g.dataPagesPerArea, getStatus g page ((written g driver d e).readAreasummary g driver e.area elem).2 =
      recovered g.areaSummaryIsPacked g.areaSummarySizePacked (e.getStatus g) (fun i => d.erased g (d.getPageNumber g e.area i)) page := by
  unfold readAreasummary
  dsimp only
  rw [show getPageNumber g (written g driver d e) e.area g.dataPagesPerArea = d.getPageNumber g e.area g.dataPagesPerArea from rfl,
    if_neg (fine_of_readable hread le_rfl), written_head, if_neg (not_not_intro rfl)]
  by_cases hpacked : g.areaSummaryIsPacked
  · rw [if_pos hpacked]
    have hbtw : btw g = g.areaSummarySizePacked := if_pos hpacked
    obtain ⟨hresult, hstatus⟩ := readPages_spec (d := written g driver d e) hread
      (fun b => (written g driver d e).flash (d.getPageNumber g e.area g.dataPagesPerArea) (b + 1)) (List.range g.dataPagesPerArea)
      (fun i hi => List.mem_range.mp hi) List.nodup_range (driver.reads (d.getPageNumber g e.area g.dataPagesPerArea) = .biterrorCorrected) elem
    refine ⟨hresult, fun page hpage => ?_⟩
    have hbit : BitList.getBit g.areaSummarySizePacked page
        (fun b => (written g driver d e).flash (d.getPageNumber g e.area g.dataPagesPerArea) (b + 1)) =
          BitList.getBit g.areaSummarySizePacked page (packedSummary g e) := by
      refine BitList.getBit_congr ((written_byte ?_).trans (congrFun (if_pos hpacked) _))
      rw [hbtw, Constants.areaSummarySizePacked]
      omega
    rw [hstatus, if_pos (List.mem_range.mpr hpage), statusRead, hbit, getBit_packedSummary hpage, recovered, if_pos hpacked]
    by_cases hlost : g.areaSummarySizePacked ≤ page ∨ e.getStatus g page = .dirty
    · rw [if_pos hlost, if_neg]
      rw [decide_eq_true_iff]
      exact fun hand => hlost.elim (Nat.not_le.mpr hand.1) hand.2
    · rw [not_or, Nat.not_le] at hlost
      rw [if_neg (not_or.mpr ⟨Nat.not_le.mpr hlost.1, hlost.2⟩), if_pos (decide_eq_true hlost)]
      exact congrArg (fun b : Bool => if b then SummaryEntry.free else .used) (erased_written hpage)
  · rw [if_neg hpacked]
    have hbtw : btw g = g.areaSummarySizeUnpacked := if_neg hpacked
    refine ⟨succeeded_or _, fun page hpage => ?_⟩
    have hin : page / 4 < g.areaSummarySizeUnpacked - 1 := by
      rw [Constants.areaSummarySizeUnpacked]
      omega
    rw [recovered, if_neg hpacked, AreaSummaryElem.getStatus]
    refine getStatus_congr ((if_pos hin).trans ?_)
    rw [written_byte (by rw [hbtw]; omega), stored, if_neg hpacked]

/-- The list has the summary's statuses, as far as the format keeps them. -/
def GivesBack (g : Geometry) (d : Dev) (e : AreaSummaryElem) (list : Memory) : Prop :=
  ∀ page < g.dataPagesPerArea,
    if g.areaSummaryIsPacked then
      (getStatus g page list = .dirty ↔ e.getStatus g page = .dirty) ∧
        (e.getStatus g page ≠ .dirty → getStatus g page list = if d.erased g (d.getPageNumber g e.area page) then .free else .used)
    else getStatus g page list = e.getStatus g page

/-- A read succeeds, whatever the list held before, and gives back the summary. -/
def RoundTrips (g : Geometry) (driver : Driver) (d : Dev) (e : AreaSummaryElem) : Prop :=
  ∀ elem, ((d.readAreasummary g driver e.area elem).1 = .ok ∨ (d.readAreasummary g driver e.area elem).1 = .biterrorCorrected) ∧
    GivesBack g d e (d.readAreasummary g driver e.area elem).2

theorem givesBack_recovered_iff {list : Memory} (hlist : ∀ page < g.dataPagesPerArea, getStatus g page list =
    recovered g.areaSummaryIsPacked g.areaSummarySizePacked (e.getStatus g) (fun i => d.erased g (d.getPageNumber g e.area i)) page) :
    GivesBack g (written g driver d e) e list ↔
      (g.areaSummaryIsPacked → ∀ page < g.dataPagesPerArea, g.areaSummarySizePacked ≤ page → e.getStatus g page = .dirty) := by
  have hnumber (page : PageOffs) : (written g driver d e).getPageNumber g e.area page = d.getPageNumber g e.area page := rfl
  have hne (blank : Bool) : (if blank then SummaryEntry.free else .used) ≠ .dirty := by cases blank <;> decide
  unfold GivesBack
  by_cases hpacked : g.areaSummaryIsPacked
  · simp only [hpacked, if_true, true_imp_iff]
    refine forall₂_congr fun page hpage => ?_
    rw [hnumber, erased_written hpage, hlist page hpage, recovered, if_pos hpacked]
    by_cases hdirty : e.getStatus g page = .dirty
    · rw [if_pos (.inr hdirty)]
      simp [hdirty]
    · by_cases hlost : g.areaSummarySizePacked ≤ page
      · rw [if_pos (.inl hlost)]
        simp [hdirty, hlost]
      · rw [if_neg (not_or.mpr ⟨hlost, hdirty⟩)]
        simp [hdirty, hlost, hne]
  · simp only [hpacked, Bool.false_eq_true, if_false, false_imp_iff, iff_true]
    intro page hpage
    rw [hlist page hpage, recovered, if_neg hpacked]

/-- When a summary that was written is read back as it was. -/
theorem roundTrips_iff {verify : Bool} (h : (d.writeAreasummary g driver verify e).1 = .ok) (hread : Readable g driver d e.area) :
    RoundTrips g driver (d.writeAreasummary g driver verify e).2.2 e ↔
      (g.areaSummaryIsPacked → ∀ page < g.dataPagesPerArea, g.areaSummarySizePacked ≤ page → e.getStatus g page = .dirty) := by
  rw [writeAreasummary_ok h]
  constructor
  · intro hback
    obtain ⟨-, hgives⟩ := hback fun _ => 0
    exact (givesBack_recovered_iff (readAreasummary_written hread _).2).mp hgives
  · intro hcond elem
    obtain ⟨hresult, hlist⟩ := readAreasummary_written hread elem
    exact ⟨hresult, (givesBack_recovered_iff hlist).mpr hcond⟩

/-! ### Two geometries -/

/-- Pages of 4096 bytes, 256 of them in an area. -/
def smallAreas : Geometry where
  dataBytesPerPage := 4096
  oobBytesPerPage := 128
  pagesPerBlock := 64
  blocksTotal := 4096
  blocksPerArea := 4
  dataBytesPerPage_lt := by decide
  oobBytesPerPage_lt := by decide
  pagesPerBlock_lt := by decide
  blocksTotal_lt := by decide
  blocksPerArea_lt := by decide
  two_blocks := Nat.le_add_left 2 2
  eight_blocks := by decide
  summary_fits := by decide
  stack := by decide

/-- Pages of 512 bytes, 2048 of them in an area. -/
def largeAreas : Geometry where
  dataBytesPerPage := 512
  oobBytesPerPage := 16
  pagesPerBlock := 64
  blocksTotal := 160
  blocksPerArea := 32
  dataBytesPerPage_lt := by decide
  oobBytesPerPage_lt := by decide
  pagesPerBlock_lt := by decide
  blocksTotal_lt := by decide
  blocksPerArea_lt := by decide
  two_blocks := Nat.le_add_left 2 30
  eight_blocks := by decide
  summary_fits := by decide
  stack := by decide

def faultless : Driver := ⟨fun _ => .ok, fun _ => .ok, fun _ _ => 0xFF⟩

def blank : Dev := ⟨fun _ _ => 0xFF, id, false, []⟩

/-- The summary of an area that nothing was written to. -/
def allFree : AreaSummaryElem := ⟨1, fun _ => 0, true, false⟩

theorem readable_faultless (g : Geometry) (d : Dev) (area : AreaPos) : Readable g faultless d area := fun _ _ => .inl rfl

theorem roundTrips_iff_smallAreas : RoundTrips smallAreas faultless (blank.writeAreasummary smallAreas faultless false allFree).2.2 allFree := by
  have hok : (blank.writeAreasummary smallAreas faultless false allFree).1 = .ok := by decide +kernel
  have hread : Readable smallAreas faultless blank allFree.area := readable_faultless smallAreas blank allFree.area
  refine (roundTrips_iff hok hread).mpr fun hpacked => absurd hpacked ?_
  decide +kernel

/-- Where the summary is packed the pages behind the reader's list become dirty. -/
theorem packed_summary_becomes_dirty : ¬ ∀ (g : Geometry), g.initializeDevice = .ok → ∀ (driver : Driver) (d : Dev) (verify : Bool)
    (e : AreaSummaryElem), (d.writeAreasummary g driver verify e).1 = .ok → Readable g driver d e.area →
      RoundTrips g driver (d.writeAreasummary g driver verify e).2.2 e := by
  intro hall
  have hok : (blank.writeAreasummary largeAreas faultless false allFree).1 = .ok := by decide +kernel
  have hback := hall largeAreas (by decide +kernel) faultless blank false allFree hok (readable_faultless largeAreas blank 1)
  rw [writeAreasummary_ok hok] at hback
  have hlist := (readAreasummary_written (readable_faultless largeAreas blank 1) (e := allFree) fun _ => 0).2
  have hdirty := (givesBack_recovered_iff hlist).mp (hback _).2 (by decide +kernel) 300 (by decide +kernel) (by decide +kernel)
  exact absurd hdirty (by decide +kernel)

end Dev
end Paffs.SummaryFormat
