import Paffs.Area.SummaryCache

/-! What is done with whole areas: `AreaManagement`, and the two who move the contents of one to another. -/
namespace Paffs.Areas
variable {P : Type} (c : Config) (faults : Faults P)

namespace Device

def initAreaAs (d : Device P) (area : AreaPos) (type : AreaType) : Device P :=
  let d := d.addEvent (.initAreaAs area type)
  let d := d.setType c area type
  let d := if d.getStatus c area = .empty then d.increaseUsedAreas else d
  let d := d.setActiveArea type area
  d.addEvent (.checkpoint .areaMgmt)

def closeArea (d : Device P) (area : AreaPos) : Device P :=
  let d := d.addEvent (.closeArea area)
  let d := d.setStatus c area .closed
  let d := d.setActiveArea (d.getType c area) 0
  d.addEvent (.checkpoint .areaMgmt)

def retireArea (d : Device P) (area : AreaPos) : Device P :=
  let d := d.addEvent (.retireArea area)
  let d := d.setStatus c area .closed
  let d := if d.getType c area = .unset then d.increaseUsedAreas else d
  let d := d.setType c area .retired
  let d := { d with nand := d.nand.markAllBad c (d.getPos c area) }
  d.addEvent (.checkpoint .areaMgmt)

/-- The blocks behind an area are erased up to the first that cannot be. -/
def eraseOrRetire (d : Device P) (area : AreaPos) : Result × Device P :=
  match d.nand.eraseArea c faults (d.getPos c area) with
  | (true, nand) => (.ok, { d with nand := nand })
  | (false, nand) => (.badFlash, { d with nand := nand }.retireArea c area)

def addEventUnless (d : Device P) (noJournalLogging : Bool) (e : Event) : Device P :=
  if noJournalLogging then d else d.addEvent e

/-- The area whose blocks `deleteAreaContents` erases. -/
def erasedArea (area swappedArea : AreaPos) : AreaPos := if swappedArea = 0 then area else swappedArea

def deleteAreaContents (d : Device P) (area swappedArea : AreaPos) (noJournalLogging : Bool) : Result × Device P :=
  if area ≥ c.areasNo then (.bug, d)
  else if d.getType c area = .retired then (.bug, d)
  else
    let swappedArea := erasedArea area swappedArea
    let d := d.addEventUnless noJournalLogging (.deleteAreaContents area swappedArea)
    let (r, d) := d.eraseOrRetire c faults swappedArea
    let d := d.increaseErasecount c area
    let d := d.resetASWritten area
    let d := d.deleteSummary area
    (r, d.addEventUnless noJournalLogging (.checkpoint .areaMgmt))

def deleteArea (d : Device P) (area : AreaPos) : Result × Device P :=
  if area ≥ c.areasNo then (.bug, d)
  else if d.getType c area = .retired then (.bug, d)
  else
    match (d.addEvent (.deleteArea area)).deleteAreaContents c faults area 0 true with
    | (.ok, d) =>
      let d := d.setStatus c area .empty
      let d := d.setType c area .unset
      let d := d.decreaseUsedAreas
      (.ok, d.addEvent (.checkpoint .areaMgmt))
    | (r, d) => (r, d)

/-! ### `GarbageCollection` -/

/-- The area to collect so far. -/
structure Candidate where
  area : AreaPos
  dirtyPages : Nat
  erases : Nat
  containsValidData : Bool
  summary : Summary

def isCollectable (d : Device P) (area : AreaPos) : Bool :=
  d.getStatus c area ≠ .active ∧ (d.getType c area = .data ∨ d.getType c area = .index)

/-- Whether area `i` is better than the favourite when areas of type `target` are looked for. -/
def isBetter (d : Device P) (fav : Candidate) (i : AreaPos) (dirtyPages : Nat) : Bool :=
  dirtyPages > fav.dirtyPages ∨ (dirtyPages ≠ 0 ∧ dirtyPages = fav.dirtyPages ∧ d.getErasecount c i < fav.erases) ∨
    (dirtyPages ≠ 0 ∧ dirtyPages = fav.dirtyPages ∧ d.wasAreaSummaryWritten c i)

def findLoop (d : Device P) (target : AreaType) : List AreaPos → Candidate → Candidate
  | [], fav => fav
  | i :: rest, fav =>
    if d.isCollectable c i then
      let curr := d.getSummaryStatus c i
      let dirtyPages := countPages c .dirty curr
      let usedPages := countPages c .used curr
      if target ≠ .unset then
        if dirtyPages = c.dataPagesPerArea ∧ (d.sb.overallDeletions < c.areasNo ∨
            d.getErasecount c i < d.sb.overallDeletions / c.areasNo) then
          { fav with area := i, containsValidData := false, summary := curr }
        else if d.getType c i ≠ target then findLoop d target rest fav
        else if d.isBetter c fav i dirtyPages then
          findLoop d target rest ⟨i, dirtyPages, d.getErasecount c i, usedPages > 0, curr⟩
        else findLoop d target rest fav
      else if d.shouldClearArea i ∧ dirtyPages ≥ fav.dirtyPages then
        findLoop d target rest { fav with area := i, dirtyPages := dirtyPages, containsValidData := usedPages > 0, summary := curr }
      else findLoop d target rest fav
    else findLoop d target rest fav

def findNextBestArea (d : Device P) (target : AreaType) : Candidate :=
  d.findLoop c target (List.range c.areasNo) ⟨0, 0, 2 ^ 32 - 1, false, fun _ => .error⟩

/-- `used` pages are copied from `src` to `dst`, which are physical areas; a failure does not stop it. -/
def movePages (src dst : AreaPos) (summary : Summary) : List PageOffs → Nand P → Bool × Nand P
  | [], n => (true, n)
  | page :: rest, n =>
    if summary page = .used then
      let (ok, n) := n.writePage faults dst page (n.flash src page)
      let (all, n) := movePages src dst summary rest n
      (ok && all, n)
    else movePages src dst summary rest n

/-- The statuses that are left after the move. -/
def moved (summary : Summary) : Summary := fun page => if summary page = .used then .used else .free

def moveValidDataToNewArea (d : Device P) (srcArea dstArea : AreaPos) (summary : Summary) : Bool × Device P :=
  let d := d.addEvent (.moveValidData srcArea)
  let (ok, nand) := movePages faults (d.getPos c srcArea) (d.getPos c dstArea) summary (List.range c.dataPagesPerArea) d.nand
  (ok, { d with nand := nand })

/-- The place valid data was moved from is erased, now that the buffer has it. -/
def clearOldPlace (d : Device P) (fav : Candidate) : Result × Device P :=
  let (r, d) := d.deleteAreaContents c faults fav.area (d.getActiveArea .garbageBuffer) false
  let d := if r = .ok then d else d.setActiveArea .garbageBuffer 0
  d.setSummaryStatus c faults fav.area (moved fav.summary)

/-- What follows the move or the deletion: swap, erase the old place, new summary, new role. -/
def finishCollection (d : Device P) (targetType : AreaType) (fav : Candidate) : Result × Device P :=
  let d := d.swapAreaPosition c fav.area (d.getActiveArea .garbageBuffer)
  let (r, d) := if fav.containsValidData then d.clearOldPlace c faults fav else (.ok, d)
  if r ≠ .ok then (r, d)
  else
    let d := if targetType = .unset then d else d.initAreaAs c fav.area targetType
    (.ok, d.addEvent (.checkpoint .garbage))

/-- The source calls itself when an area without valid data cannot be erased; each such area is retired, so that
`areasNo` rounds are enough. -/
def collectRounds : Nat → Device P → AreaType → Result × Device P
  | 0, d, _ => (.fail, d)
  | rounds + 1, d, targetType =>
    let fav := d.findNextBestArea c targetType
    if fav.area = 0 ∨ (fav.containsValidData ∧ d.getActiveArea .garbageBuffer = 0) then (.noSpace, d)
    else if fav.containsValidData then
      match d.moveValidDataToNewArea c faults fav.area (d.getActiveArea .garbageBuffer) fav.summary with
      | (true, d) => d.finishCollection c faults targetType fav
      | (false, d) => (.badFlash, d)
    else
      match d.deleteArea c faults fav.area with
      | (.ok, d) => d.finishCollection c faults targetType fav
      | (_, d) => collectRounds rounds d targetType

def collectGarbage (d : Device P) (targetType : AreaType) : Result × Device P :=
  collectRounds c faults (c.areasNo + 1) d targetType

/-! ### `SummaryCache::commitAreaSummaryHard` -/

/-- The favourite so far, and the next area of the cache. -/
def hardStep (d : Device P) (desperate : Bool) (fav : Option (AreaPos × Elem)) (area : AreaPos) : Option (AreaPos × Elem) :=
  match d.findElem area with
  | none => fav
  | some e =>
    if (e.isDirty ∨ desperate) ∧ e.isAreaSummaryWritten ∧ d.isCollectable c area ∧
      countPages c .dirty e.entries ≥ (fav.map fun f => countPages c .dirty f.2.entries).getD 0
    then some (area, e) else fav

/-- `order` is the order in which the hash map of the cache is gone through. Area 0 stands for none. -/
def hardCandidate (d : Device P) (order : List AreaPos) (desperate : Bool) : Option (AreaPos × Elem) :=
  (order.foldl (d.hardStep c desperate) none).filter (·.1 ≠ 0)

/-- Where no element is dirty the search is repeated for clean ones. -/
def favouriteArea (d : Device P) (order : List AreaPos) : Option (AreaPos × Elem) :=
  (d.hardCandidate c order false).or (d.hardCandidate c order true)

def commitAreaSummaryHard (d : Device P) (order : List AreaPos) : Result × Device P :=
  match d.favouriteArea c order with
  | none => (.bug, d)
  | some (area, e) =>
    let buffer := d.getActiveArea .garbageBuffer
    match d.moveValidDataToNewArea c faults area buffer e.entries with
    | (false, d) => (.badFlash, d)
    | (true, d) =>
      if countPages c .used e.entries = 0 then (.ok, (d.deleteArea c faults area).2)
      else
        let d := d.swapAreaPosition c area buffer
        let d := (d.deleteAreaContents c faults area buffer false).2
        (.ok, (d.setSummaryStatus c faults area (moved e.entries)).2)

end Device
end Paffs.Areas
