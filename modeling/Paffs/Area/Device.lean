import Mathlib.Data.Nat.Notation
import Mathlib.Logic.Function.Basic
import Mathlib.Data.List.Basic
import Paffs.Persistence.Entry

/-! The areas of a device: the area map the superblock keeps, the flash behind it, and the cached summaries. -/
namespace Paffs.Areas
export Persistence (AreaType AreaStatus SummaryEntry)

abbrev AreaPos := Nat
abbrev PageOffs := Nat

/-- What a device is compiled for; the last pages of an area hold its summary. -/
structure Config where
  areasNo : Nat
  blocksPerArea : Nat
  pagesPerBlock : Nat
  dataPagesPerArea : Nat
  areaSummaryCacheSize : Nat
  areaSummaryIsPacked : Bool
  superChainElems : Nat
  useJournal : Bool
  areas_lt : areasNo < 2 ^ 16
  areas_pos : 0 < areasNo
  summary_fits : dataPagesPerArea < blocksPerArea * pagesPerBlock

def Config.totalPagesPerArea (c : Config) : Nat := c.blocksPerArea * c.pagesPerBlock

def Config.areaSummarySizePacked (c : Config) : Nat := 1 + (c.dataPagesPerArea + 7) / 8

/-- An entry of the area map. -/
structure Area where
  type : AreaType
  status : AreaStatus
  erasecount : Nat
  position : AreaPos

/-- The status of each data page of an area. -/
abbrev Summary := PageOffs → SummaryEntry

/-- A page is erased, holds data, or holds the summary of its area. -/
inductive Page (P : Type) where
  | blank
  | data (content : P)
  | summary (status : Summary)

/-- Entries of the journal, as far as areas are concerned. -/
inductive Event where
  | type (area : AreaPos) (type : AreaType)
  | status (area : AreaPos) (status : AreaStatus)
  | increaseErasecount (area : AreaPos)
  | position (area pos : AreaPos)
  | swap (a b : AreaPos)
  | activeArea (type : AreaType) (area : AreaPos)
  | usedAreas (usedAreas : AreaPos)
  | initAreaAs (area : AreaPos) (type : AreaType)
  | closeArea (area : AreaPos)
  | retireArea (area : AreaPos)
  | deleteAreaContents (area swappedArea : AreaPos)
  | deleteArea (area : AreaPos)
  | moveValidData (source : AreaPos)
  | commit (area : AreaPos)
  | remove (area : AreaPos)
  | reset (area : AreaPos)
  | setStatus (area : AreaPos) (page : PageOffs) (status : SummaryEntry)
  | setStatusBlock (area : AreaPos) (status : Summary)
  | checkpoint (target : Persistence.Topic)

/-- `AreaSummaryElem` -/
structure Elem where
  area : AreaPos
  entries : Summary
  isDirty : Bool
  isAreaSummaryWritten : Bool
  isLoadedFromSuperPage : Bool
  dirtyPages : Nat

/-- What `Superblock` keeps of the areas. -/
structure Superblock where
  map : AreaPos → Area
  activeArea : AreaType → AreaPos
  usedAreas : Nat
  overallDeletions : Nat

/-- Which of the writes and erases to come succeed, and what a failed one leaves on a page. -/
structure Faults (P : Type) where
  succeeds : Nat → Bool
  leaves : Nat → PageOffs → Page P

/-- The flash goes by physical area. `erases` counts the erasures of whole areas; no function reads it. -/
structure Nand (P : Type) where
  flash : AreaPos → PageOffs → Page P
  bad : Nat → Bool
  clock : Nat
  erases : AreaPos → Nat

structure Device (P : Type) where
  sb : Superblock
  nand : Nand P
  cache : List (Option Elem)
  journalReplayMode : Bool
  log : List Event

variable {P : Type} (c : Config) (faults : Faults P)

namespace Device

def addEvent (d : Device P) (e : Event) : Device P := { d with log := d.log ++ [e] }

/-! ### `Superblock` -/

def modify (d : Device P) (area : AreaPos) (f : Area → Area) : Device P :=
  { d with sb := { d.sb with map := Function.update d.sb.map area (f (d.sb.map area)) } }

def getType (d : Device P) (area : AreaPos) : AreaType := if area ≥ c.areasNo then .no else (d.sb.map area).type

def getStatus (d : Device P) (area : AreaPos) : AreaStatus := if area ≥ c.areasNo then .active else (d.sb.map area).status

def getErasecount (d : Device P) (area : AreaPos) : Nat := if area ≥ c.areasNo then 0 else (d.sb.map area).erasecount

def getPos (d : Device P) (area : AreaPos) : AreaPos := if area ≥ c.areasNo then 0 else (d.sb.map area).position

def setType (d : Device P) (area : AreaPos) (type : AreaType) : Device P :=
  if area ≥ c.areasNo then d else (d.addEvent (.type area type)).modify area ({ · with type := type })

def setStatus (d : Device P) (area : AreaPos) (status : AreaStatus) : Device P :=
  if area ≥ c.areasNo then d else (d.addEvent (.status area status)).modify area ({ · with status := status })

/-- The counter of an area has 17 bits, the one of all areas 64. -/
def increaseErasecount (d : Device P) (area : AreaPos) : Device P :=
  if area ≥ c.areasNo then d
  else
    let d := { d with sb := { d.sb with overallDeletions := (d.sb.overallDeletions + 1) % 2 ^ 64 } }
    (d.addEvent (.increaseErasecount area)).modify area fun a => { a with erasecount := (a.erasecount + 1) % 2 ^ 17 }

def setPos (d : Device P) (area : AreaPos) (pos : AreaPos) : Device P :=
  if area ≥ c.areasNo then d else (d.addEvent (.position area pos)).modify area ({ · with position := pos })

def getActiveArea (d : Device P) (type : AreaType) : AreaPos := if type = .no then 0 else d.sb.activeArea type

def setActiveArea (d : Device P) (type : AreaType) (pos : AreaPos) : Device P :=
  if type = .no then d
  else
    let d := (d.modify pos ({ · with status := .active })).addEvent (.activeArea type pos)
    { d with sb := { d.sb with activeArea := Function.update d.sb.activeArea type pos } }

def setUsedAreas (d : Device P) (num : Nat) : Device P :=
  let d := d.addEvent (.usedAreas num)
  { d with sb := { d.sb with usedAreas := num } }

def increaseUsedAreas (d : Device P) : Device P := d.setUsedAreas ((d.sb.usedAreas + 1) % 2 ^ 16)

def decreaseUsedAreas (d : Device P) : Device P := d.setUsedAreas ((d.sb.usedAreas + (2 ^ 16 - 1)) % 2 ^ 16)

def swapAreaPosition (d : Device P) (a b : AreaPos) : Device P :=
  if a ≥ c.areasNo ∨ b ≥ c.areasNo then d
  else
    let d := d.addEvent (.swap a b)
    let tmp := d.sb.map a
    let d := d.modify a fun x => { x with position := (d.sb.map b).position, erasecount := (d.sb.map b).erasecount }
    d.modify b ({ · with position := tmp.position, erasecount := tmp.erasecount })

/-- The page of the flash behind page `page` of area `area`. -/
def getPageNumber (d : Device P) (area : AreaPos) (page : PageOffs) : Nat :=
  if area ≥ c.areasNo then 0
  else
    let page := d.getPos c area * c.totalPagesPerArea + page
    if page > c.areasNo * c.totalPagesPerArea then 0 else page

end Device

/-! ### The driver -/

namespace Nand

def setPage (n : Nand P) (area : AreaPos) (page : PageOffs) (x : Page P) : Nand P :=
  { n with flash := Function.update n.flash area (Function.update (n.flash area) page x) }

/-- The page and area are physical. -/
def writePage (n : Nand P) (area : AreaPos) (page : PageOffs) (x : Page P) : Bool × Nand P :=
  let ok := faults.succeeds n.clock
  (ok, { n.setPage area page (if ok then x else faults.leaves n.clock page) with clock := n.clock + 1 })

/-- Block `i` of a physical area. -/
def eraseBlock (n : Nand P) (area : AreaPos) (i : Nat) : Bool × Nand P :=
  let ok := faults.succeeds n.clock
  let erased : PageOffs → Page P := fun page =>
    if page / c.pagesPerBlock = i then (if ok then .blank else faults.leaves n.clock page) else n.flash area page
  (ok, { n with flash := Function.update n.flash area erased, clock := n.clock + 1 })

/-- The blocks from `i` on, `k` of them; stops at the first that fails. -/
def eraseBlocks (area : AreaPos) : Nat → Nat → Nand P → Bool × Nand P
  | _, 0, n => (true, n)
  | i, k + 1, n =>
    match n.eraseBlock c faults area i with
    | (true, n) => eraseBlocks area (i + 1) k n
    | (false, n) => (false, n)

def eraseArea (n : Nand P) (area : AreaPos) : Bool × Nand P :=
  eraseBlocks c faults area 0 c.blocksPerArea { n with erases := Function.update n.erases area (n.erases area + 1) }

def markBad (n : Nand P) (block : Nat) : Nand P := { n with bad := Function.update n.bad block true }

/-- All blocks of a physical area that are not marked. -/
def markAllBad (n : Nand P) (area : AreaPos) : Nand P :=
  (List.range c.blocksPerArea).foldl (fun n block =>
    if n.bad (area * c.blocksPerArea + block) then n else n.markBad (area * c.blocksPerArea + block)) n

end Nand
end Paffs.Areas
