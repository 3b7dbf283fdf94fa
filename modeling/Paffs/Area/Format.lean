import Paffs.Area.AreaManagement

/-! Formatting, as far as it hands out the areas; the journal is off meanwhile. The root directory and the first
superblock are written with the operations of a running device. -/
namespace Paffs.Areas
variable {P : Type} (c : Config) (faults : Faults P)

/-- Which areas were handed out. -/
structure Had where
  superblocks : Nat
  superblock : Bool
  journal : Bool
  garbageBuffer : Bool

namespace Device

/-- A device nothing is known of; its area map is cleared. -/
def initial (flash : AreaPos → PageOffs → Page P) (bad : Nat → Bool) : Device P where
  sb := ⟨fun _ => ⟨.unset, .closed, 0, 0⟩, fun _ => 0, 0, 0⟩
  nand := ⟨flash, bad, 0, fun _ => 0⟩
  cache := List.replicate c.areaSummaryCacheSize none
  journalReplayMode := false
  log := []

/-- The areas of the blocks that are given as bad. -/
def retireListed : List Nat → Device P → Result × Device P
  | [], d => (.ok, d)
  | block :: rest, d =>
    let area := block / c.blocksPerArea
    if block > c.areasNo * c.blocksPerArea then (.invalidInput, d)
    else if area = 0 then (.fail, d)
    else if d.getType c area ≠ .retired then retireListed rest ((d.setPos c area area).retireArea c area)
    else retireListed rest d

def anyBlockInAreaBad (d : Device P) (area : AreaPos) : Bool :=
  (List.range c.blocksPerArea).any fun block => d.nand.bad (area * c.blocksPerArea + block)

/-- The blocks are those of the position that goes by the area's number. -/
def eraseAtFormat (d : Device P) (area : AreaPos) : Device P :=
  let (ok, nand) := d.nand.eraseArea c faults area
  let d := { d with nand := nand }
  let d := if ok then d else d.retireArea c area
  d.increaseErasecount c area

def assignArea (d : Device P) (had : Had) (area : AreaPos) : Device P × Had :=
  if !had.superblock then
    ((d.initAreaAs c area .superblock).setActiveArea .superblock 0,
      { had with superblocks := had.superblocks + 1, superblock := had.superblocks + 1 = c.superChainElems })
  else if c.useJournal && !had.journal then (d.initAreaAs c area .journal, { had with journal := true })
  else if !had.garbageBuffer then (d.initAreaAs c area .garbageBuffer, { had with garbageBuffer := true })
  else (d.setType c area .unset, had)

def formatArea (complete : Bool) (r : Device P × Had) (area : AreaPos) : Device P × Had :=
  let (d, had) := r
  if d.getType c area = .retired then (d, had)
  else
    let d := (d.setStatus c area .empty).setPos c area area
    if (complete ∨ area ≤ c.superChainElems + 4) ∨ !(had.superblock && had.garbageBuffer) then
      if d.anyBlockInAreaBad c area then (d.retireArea c area, had)
      else
        let d := d.eraseAtFormat c faults area
        if d.getType c area = .retired then (d, had) else d.assignArea c had area
    else d.assignArea c had area

def format (d : Device P) (badBlockList : List Nat) (complete : Bool) : Result × Device P :=
  match d.retireListed c badBlockList with
  | (.ok, d) =>
    let (d, _) := (List.range c.areasNo).foldl (formatArea c faults complete) (d, ⟨0, false, false, false⟩)
    (.ok, { d with log := [] })
  | (r, d) => (r, d)

end Device
end Paffs.Areas
