import Paffs.Common.Types
import Paffs.Area.Device

/-! The cache of area summaries, without the ways that need garbage collection. -/
namespace Paffs.Areas
variable {P : Type} (c : Config) (faults : Faults P)

namespace Elem

/-- An element that was just enabled; a cleared list is all `free`. -/
def fresh (area : AreaPos) : Elem := ⟨area, fun _ => .free, false, false, false, 0⟩

def getStatus (e : Elem) (page : PageOffs) : SummaryEntry := if page ≥ c.dataPagesPerArea then .error else e.entries page

def setStatus (e : Elem) (page : PageOffs) (value : SummaryEntry) : Elem :=
  let e := if e.getStatus c page ≠ value then { e with isDirty := true, isLoadedFromSuperPage := false } else e
  let e := if page ≥ c.dataPagesPerArea then e else { e with entries := Function.update e.entries page value }
  if value = .dirty then { e with dirtyPages := e.dirtyPages + 1 } else e

/-- `packStatusArray` -/
def setAll (e : Elem) (summary : Summary) : Elem :=
  (List.range c.dataPagesPerArea).foldl (fun e i => e.setStatus c i (summary i)) e

end Elem

def countPages (status : SummaryEntry) (summary : Summary) : Nat :=
  (List.range c.dataPagesPerArea).countP (summary · = status)

namespace Device

/-! ### The slots -/

def findElem (d : Device P) (area : AreaPos) : Option Elem := d.cache.reduceOption.find? (·.area = area)

def existsSummaryElem (d : Device P) (area : AreaPos) : Bool := (d.findElem area).isSome

def updateElem (d : Device P) (area : AreaPos) (f : Elem → Elem) : Device P :=
  { d with cache := d.cache.map (Option.map fun e => if e.area = area then f e else e) }

def removeSummaryElem (d : Device P) (area : AreaPos) : Device P :=
  { d with cache := d.cache.map fun slot => slot.filter (·.area ≠ area) }

def findNextFreeCacheEntry (d : Device P) : Option Nat := d.cache.findIdx? Option.isNone

def enableSummaryElem (d : Device P) (pos : Nat) (area : AreaPos) : Device P :=
  { d with cache := d.cache.set pos (some (.fresh area)) }

/-! ### Summaries on flash -/

/-- What a summary on flash says of the pages. A packed summary keeps only which pages are dirty, the others are looked at,
and the bit list it is read with has as many elements as the summary has bytes. -/
def recovered (areaSummaryIsPacked : Bool) (areaSummarySizePacked : Nat) (s : Summary) (blank : PageOffs → Bool) : Summary :=
  fun page =>
    if areaSummaryIsPacked then
      if areaSummarySizePacked ≤ page ∨ s page = .dirty then .dirty
      else if blank page then .free
      else .used
    else s page

/-- The page behind the data pages of an area; `none` is `notFound`. -/
def readAreasummary (d : Device P) (area : AreaPos) : Option Summary :=
  match d.nand.flash (d.getPos c area) c.dataPagesPerArea with
  | .summary s =>
    some (recovered c.areaSummaryIsPacked c.areaSummarySizePacked s fun page =>
      match d.nand.flash (d.getPos c area) page with
      | .blank => true
      | _ => false)
  | _ => none

/-- The element is marked as written and clean by the caller, where it stays in the cache. -/
def writeAreasummary (d : Device P) (e : Elem) : Result × Device P :=
  if e.isAreaSummaryWritten then (.bug, d)
  else if d.journalReplayMode then (.bug, d)
  else
    let (ok, nand) := d.nand.writePage faults (d.getPos c e.area) c.dataPagesPerArea (.summary e.entries)
    let d := { d with nand := nand }
    if ok then (.ok, d.addEvent (.commit e.area)) else (.badFlash, d)

def commitAndEraseElem (d : Device P) (e : Elem) : Result × Device P :=
  match d.writeAreasummary c faults e with
  | (.ok, d) => (.ok, d.removeSummaryElem e.area)
  | (r, d) => (r, d)

/-! ### Making room -/

def isUnchanged (d : Device P) (e : Elem) : Bool :=
  !(e.isDirty || e.isLoadedFromSuperPage) || d.getStatus c e.area = .empty

/-- Unchanged elements are dropped. -/
def dropUnchanged (d : Device P) : Device P :=
  { d with cache := d.cache.map fun slot => slot.filter fun e => !d.isUnchanged c e }

def countUnusedPages (e : Elem) : Nat := c.dataPagesPerArea - countPages c .used e.entries

/-- The element without a written summary that has the most unused pages; of several the last. -/
def findUncommitted (d : Device P) : Option Elem :=
  d.cache.reduceOption.foldl (fun fav e =>
    if !e.isAreaSummaryWritten ∧ d.getStatus c e.area ≠ .active ∧ countUnusedPages c e ≥ (fav.map (countUnusedPages c)).getD 0
    then some e else fav) none

/-- `freeNextBestSummaryCacheEntry`, as far as it goes when it is not urgent. -/
def freeNextBestSummaryCacheEntry (d : Device P) : Result × Device P :=
  if d.cache.reduceOption.any (d.isUnchanged c) then (.ok, d.dropUnchanged c)
  else
    match d.findUncommitted c with
    | some e => d.commitAndEraseElem c faults e
    | none => (.notFound, d)

/-- The element is filled from flash; `pos` is a free slot. -/
def loadElem (d : Device P) (pos : Nat) (area : AreaPos) : Device P :=
  let d := d.enableSummaryElem pos area
  match d.readAreasummary c area with
  | some s => d.updateElem area fun e =>
    { e with entries := s, isAreaSummaryWritten := true, isDirty := false, dirtyPages := countPages c .dirty s }
  | none => d

/-- `loadUnbufferedArea` when it is not urgent. -/
def loadUnbufferedArea (d : Device P) (area : AreaPos) : Result × Device P :=
  match d.findNextFreeCacheEntry with
  | some pos => (.ok, d.loadElem c pos area)
  | none =>
    match d.freeNextBestSummaryCacheEntry c faults with
    | (.notFound, d) => (.noSpace, d)
    | (.ok, d) =>
      match d.findNextFreeCacheEntry with
      | some pos => (.ok, d.loadElem c pos area)
      | none => (.bug, d)
    | (r, d) => (r, d)

/-! ### For garbage collection and area management -/

def getSummaryStatus (d : Device P) (area : AreaPos) : Summary :=
  match d.findElem area with
  | some e => e.entries
  | none => (d.readAreasummary c area).getD fun _ => .free

def setSummaryStatus (d : Device P) (area : AreaPos) (summary : Summary) : Result × Device P :=
  let pack (d : Device P) : Result × Device P :=
    let d := d.updateElem area (·.setAll c summary)
    (.ok, d.addEvent (.setStatusBlock area (d.getSummaryStatus c area)))
  if d.existsSummaryElem area then pack d
  else
    match d.loadUnbufferedArea c faults area with
    | (.notFound, d) =>
      let tmp := (Elem.fresh (d.getActiveArea .garbageBuffer)).setAll c summary
      (.ok, (d.writeAreasummary c faults tmp).2)
    | (.ok, d) => pack d
    | (r, d) => (r, d)

def deleteSummary (d : Device P) (area : AreaPos) : Device P :=
  if d.existsSummaryElem area then (d.addEvent (.remove area)).removeSummaryElem area else d

def shouldClearArea (d : Device P) (area : AreaPos) : Bool :=
  match d.findElem area with
  | some e => e.isAreaSummaryWritten && e.isDirty
  | none => false

def wasAreaSummaryWritten (d : Device P) (area : AreaPos) : Bool :=
  match d.findElem area with
  | some e => e.isAreaSummaryWritten
  | none => d.getStatus c area ≠ .empty

def resetASWritten (d : Device P) (area : AreaPos) : Device P :=
  if d.existsSummaryElem area then
    (d.addEvent (.reset area)).updateElem area ({ · with isAreaSummaryWritten := false })
  else d

end Device
end Paffs.Areas
