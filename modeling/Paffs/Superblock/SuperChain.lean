import Paffs.Superblock.Chain
import Paffs.Superblock.RoundTrip

/-! The super chain: an anchor, jump pads and the super index, each of which names the area of the next. -/
namespace Paffs.Superblock
open Bytes (Memory Word)

variable (g : Geometry) (d : Driver)

/-- An element of the path: where its most recent entry lies, and what was read of it. -/
abbrev Link := Addr × Recent

def readPath (flash : Flash) : Nat → Nat → Nat → Result × List Link
  | 0, _, _ => (.ok, [])
  | n + 1, i, area =>
    match readMostRecentEntryInArea g d flash area (Word.ofNat 2 0) (Word.ofNat 2 0) with
    | (.ok, some (addr, e)) =>
      if 0 < i ∧ extractLogicalArea addr = 0 then (.fail, [])
      else
        match readPath flash n (i + 1) e.next.toNat with
        | (.ok, path) => (.ok, (addr, e) :: path)
        | (r, _) => (r, [])
    | (r, _) => (r, [])

/-- The anchor is in area 0. -/
def getPathToMostRecentSuperIndex (flash : Flash) (jumpPadNo : Nat) : Result × List Link := readPath g d flash (jumpPadNo + 2) 0 0

/-! ### Reading an index -/

namespace Area

/-- `AreaType::superblock` -/
def superblock : Nat := 1

/-- `AreaStatus::active` -/
def active : Nat := 1

def withType (a : Area) (type : Nat) : Area := Word.ofNat 12 (a.toNat - a.type + type)
def withStatus (a : Area) (status : Nat) : Area := Word.ofNat 12 (a.toNat - a.status * 2 ^ 8 + status * 2 ^ 8)

end Area

namespace SuperIndex
variable {c : Config} (index : SuperIndex c)

/-- A cached area has data or an index. `none` when an element behind an array is read. -/
def summaryTyped (i : Fin 2) : Option Bool :=
  let pos := index.areaSummaryPositions i
  if pos.toNat = 0 then some true
  else if h : pos.toNat < c.areasNo then
    let area := index.areaMap ⟨pos.toNat, h⟩
    some (area.type = 4 ∨ area.type = 3)
  else none

def mapPlausible : Option Bool :=
  if h : 0 < c.areasNo then
    let first := index.areaMap ⟨0, h⟩
    if first.position ≠ 0 ∨ first.type ≠ Area.superblock then some false
    else
      match index.summaryTyped ⟨0, Nat.two_pos⟩, index.summaryTyped ⟨1, Nat.one_lt_two⟩ with
      | some true, some true =>
        if ∃ i, (index.areaMap i).position > c.areasNo ∨ (index.areaMap i).type ≥ typesNo ∨ (index.areaMap i).status > empty then
          some false
        else if h : extractLogicalArea index.rootNode < c.areasNo then
          some ((index.areaMap ⟨extractLogicalArea index.rootNode, h⟩).type = 3)
        else none
      | some true, r => r
      | r, _ => r
  else none

end SuperIndex

/-- The areas that elements came from and went to, the last element first. -/
def relocate {c : Config} : List Link → (Fin c.areasNo → Area) → Option (Fin c.areasNo → Area)
  | [], areaMap => some areaMap
  | (addr, e) :: links, areaMap => do
    let areaMap ← relocate links areaMap
    if e.logPrev.toNat = 0 then some areaMap
    else if h : e.logPrev.toNat < c.areasNo then
      let logNew := ((List.finRange c.areasNo).find? fun a => (areaMap a).position = extractLogicalArea addr).getD
        ⟨0, Nat.zero_lt_of_lt h⟩
      let left := Function.update areaMap ⟨e.logPrev.toNat, h⟩ ((areaMap ⟨e.logPrev.toNat, h⟩).withStatus empty)
      some (Function.update left logNew (((left logNew).withStatus Area.active).withType Area.superblock))
    else none

/-- What is looked at and changed once the index is read. -/
def checkSuperIndex {c : Config} (path : List Link) (index : SuperIndex c) : Option (Result × SuperIndex c) :=
  match index.mapPlausible with
  | none => none
  | some false => some (.fail, index)
  | some true =>
    if path.head?.any fun link => link.2.logPrev.toNat ≠ 0 then some (.fail, index)
    else (relocate path index.areaMap).map fun areaMap => (.ok, { index with areaMap := areaMap })

/-- `param` is an anchor with the parameters and the version of this device. -/
def readSuperIndex (c : Config) (param : Memory) (flash : Flash) (jumpPadNo : Nat) (entry : SuperIndex c) :
    Option (Result × SuperIndex c) :=
  match getPathToMostRecentSuperIndex g d flash jumpPadNo with
  | (.ok, path) =>
    match path.head?, path.getLast? with
    | some (anchor, _), some (addr, last) =>
      if last.outIndex = emptySerial then some (.bug, entry)
      else
        let r := d.readPage (getPageNumberFromDirect g anchor)
        if r ≠ .ok ∧ r ≠ .biterrorCorrected then some (r, entry)
        else if (flash (getPageNumberFromDirect g anchor)).read 8 29 ≠ param.read 8 29 then some (.fail, entry)
        else
          match readSuperPageIndex c d.readPage flash (getPageNumberFromDirect g addr) entry with
          | some (.ok, index) => checkSuperIndex path index
          | r => r
    | _, _ => some (.bug, entry)
  | (r, _) => some (r, entry)

/-! ### The entries -/

theorem serial_of_fields (m : Memory) (no : SerialNo) (logPrev next : AreaPos) :
    (((m.writeWord 0 4 no).writeWord 4 2 logPrev).writeWord 6 2 next).readWord 0 4 = no := by
  rw [Memory.readWord_writeWord_of_disjoint (.inl (by decide)), Memory.readWord_writeWord_of_disjoint (.inl (by decide)),
    Memory.readWord_writeWord_self]

/-- An entry on one page that names an area. Anchors have the parameters of the device behind it. -/
def linkEntry (rest : Memory) (next : AreaPos) : Entry where
  isPlausible := true
  needed := 1
  needed_pos := Nat.one_pos
  page logPrev no _ := ((rest.writeWord 0 4 no).writeWord 4 2 logPrev).writeWord 6 2 next
  serial logPrev no _ := serial_of_fields rest no logPrev next

def anchorEntry (param : Memory) (jumpPadArea : AreaPos) : Entry := linkEntry param jumpPadArea
def jumpPadEntry (nextArea : AreaPos) : Entry := linkEntry (fun _ => 0xFF) nextArea

/-- The index is written with the serial number it gets; its plausibility is looked at before. -/
def indexEntry (c : Config) (index : SuperIndex c) : Entry where
  isPlausible := index.isPlausible = some true
  needed := neededPages c index.getNeededBytes
  needed_pos := neededPages_pos
  page logPrev no k :=
    pageContent no (SuperIndex.serializeToBuffer { index with no := no, logPrev := logPrev } fun _ => 0).2
      (k * (c.dataBytesPerPage - 4)) (bytesOnPage c (k * (c.dataBytesPerPage - 4)) index.getNeededBytes)
  serial _ _ _ := pageContent_serial _ _ _ _

/-! ### The commit -/

/-- What the area map is asked for: the empty area that is taken for an element, and the logical number of a place. -/
structure Places where
  findBestNextFreeArea : Nat → Flash → Option Nat
  logical : Nat → AreaPos

/-- The entries written so far, the uppermost one first, and whether the element above has to be written too. -/
structure Progress where
  written : List Written
  goOn : Bool

variable (places : Places) (createNew testmode : Bool) (param : Memory) (index : Entry)

/-- The elements from the `i`-th one on, which are written from the last one up. -/
def commitFrom (flash : Flash) : Nat → List Link → Result × Progress × Flash
  | _, [] => (.ok, ⟨[], false⟩, flash)
  | i, [(addr, e)] =>
    let area := extractLogicalArea addr
    match insertNewEntry g d flash area (places.findBestNextFreeArea i flash) (places.logical area) addr
        (Word.ofNat 4 (e.outIndex.toNat + 1)) index with
    | (.ok, some w, flash) => (.ok, ⟨[w], createNew || testmode || w.area ≠ area⟩, flash)
    | (r, _, flash) => (r, ⟨[], false⟩, flash)
  | i, (addr, e) :: link :: rest =>
    match commitFrom flash (i + 1) (link :: rest) with
    | (.ok, ⟨next :: written, true⟩, flash) =>
      let area := extractLogicalArea addr
      -- the anchor stays in its area
      let free := if i = 0 then none else places.findBestNextFreeArea i flash
      let entry := if i = 0 then anchorEntry param (Word.ofNat 2 next.area) else jumpPadEntry (Word.ofNat 2 next.area)
      match insertNewEntry g d flash area free (places.logical area) addr (Word.ofNat 4 (e.outIndex.toNat + 1)) entry with
      | (.ok, some w, flash) => (.ok, ⟨w :: next :: written, createNew || w.area ≠ area⟩, flash)
      | (r, _, flash) => (r, ⟨next :: written, false⟩, flash)
    | p => p

/-- The path of a new chain leads to the first pages of its areas, and its serial numbers start with 1. -/
def firstPath (areas : List Nat) : List Link :=
  areas.map fun area => (combineAddress area 0, ⟨0, Word.ofNat 4 0, false, Word.ofNat 2 0, Word.ofNat 2 0⟩)

/-- `path` is what was read last. -/
def commitSuperIndex (asDirty mRootnodeDirty : Bool) (path : List Link) (flash : Flash) : Result × Progress × Flash :=
  if ¬ asDirty ∧ ¬ mRootnodeDirty then (.ok, ⟨[], false⟩, flash)
  else commitFrom g d places createNew testmode param index flash 0 path

end Paffs.Superblock
