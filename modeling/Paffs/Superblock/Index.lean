import Paffs.Common.Types
import Paffs.Lib.Layout

/-! The super index, and the pages it is written to. -/
namespace Paffs.Superblock
open Bytes (Byte Memory Word Member Reader next nextAll toBytes slots endOf)

abbrev AreaPos := Word 2
abbrev Addr := Word 4
abbrev SerialNo := Word 4
abbrev PageAbs := Nat

def emptySerial : SerialNo := Word.ofNat 4 (2 ^ 32 - 1)

structure Config where
  dataBytesPerPage : Nat
  areasNo : Nat
  dataPagesPerArea : Nat
  serial_lt : 4 < dataBytesPerPage
  pages_pos : 0 < dataPagesPerArea
  /-- The index with two summaries is counted in 16 bits. -/
  index_lt : 34 + 12 * areasNo + 2 * ((dataPagesPerArea + 3) / 4) < 2 ^ 16

/-- An `Area` as it lies in memory, its padding included: type, status, 17 bits of erase count in a word, position. -/
abbrev Area := Word 12

namespace Area

def type (a : Area) : Nat := a.toNat % 2 ^ 8
def status (a : Area) : Nat := a.toNat / 2 ^ 8 % 2 ^ 8
def erasecount (a : Area) : Nat := a.toNat / 2 ^ 32 % 2 ^ 17
def position (a : Area) : Nat := a.toNat / 2 ^ 64 % 2 ^ 16

end Area

/-- `AreaType::no`, the number of the types; `index` is 3 and `data` is 4. -/
abbrev typesNo : Nat := 7

/-- `AreaStatus::empty` -/
def empty : Nat := 2

variable (c : Config)

/-- `TwoBitList<dataPagesPerArea>::byteUsage` -/
def byteUsage : Nat := (c.dataPagesPerArea + 3) / 4

@[ext] structure SuperIndex where
  no : SerialNo
  logPrev : AreaPos
  rootNode : Addr
  usedAreas : AreaPos
  areaMap : Fin c.areasNo → Area
  activeArea : Fin typesNo → AreaPos
  overallDeletions : Word 8
  areaSummaryPositions : Fin 2 → AreaPos
  summaries : Fin 2 → Word (byteUsage c)

/-- The serial number is not counted. -/
def neededFor (numberOfAreaSummaries : Nat) : Nat :=
  if numberOfAreaSummaries ≤ 2 then
    2 + 4 + 2 + 12 * c.areasNo + 2 * typesNo + 8 + 2 * 2 + byteUsage c * numberOfAreaSummaries
  else 0

/-- Each page begins with the serial number. -/
def neededPages (neededBytes : Nat) : Nat := (neededBytes + (c.dataBytesPerPage - 4) - 1) / (c.dataBytesPerPage - 4)

namespace SuperIndex
variable {c} (index : SuperIndex c)

def isPresent (i : Fin 2) : Bool := 0 < (index.areaSummaryPositions i).toNat

def getNeededBytes : Nat := neededFor c ((List.finRange 2).countP index.isPresent)

/-- An active area has its summary in the index. -/
def activePresent (type : Fin typesNo) : Bool :=
  (index.activeArea type).toNat = 0 ∨ ∃ i, index.areaSummaryPositions i = index.activeArea type

/-- `none` when an element behind an array is read. -/
def positionPlausible (i : Fin 2) : Option Bool :=
  let pos := index.areaSummaryPositions i
  if pos.toNat = 0 then some true
  else if pos.toNat > c.areasNo then some false
  else if h : pos.toNat < c.areasNo then
    let area := index.areaMap ⟨pos.toNat, h⟩
    if h : area.type < typesNo then some (pos = index.activeArea ⟨area.type, h⟩ ∨ area.status ≠ empty) else none
  else none

def countsPlausible : Bool :=
  (List.finRange c.areasNo).countP (fun i => (index.areaMap i).status ≠ empty) % 2 ^ 16 = index.usedAreas.toNat ∧
    ((List.finRange c.areasNo).map fun i => (index.areaMap i).erasecount).sum % 2 ^ 64 = index.overallDeletions.toNat

def isPlausible : Option Bool :=
  if !index.activePresent 4 || !index.activePresent 3 then some false
  else
    match index.positionPlausible 0, index.positionPlausible 1 with
    | some true, some true => some index.countsPlausible
    | some true, r => r
    | r, _ => r

/-! ### The buffer -/

/-- What lies before the summaries, without gaps. -/
def header : List Member :=
  [⟨2, 1, index.logPrev⟩, ⟨4, 1, index.rootNode⟩, ⟨2, 1, index.usedAreas⟩] ++ List.ofFn (fun i => ⟨12, 1, index.areaMap i⟩) ++
    List.ofFn (fun i => ⟨2, 1, index.activeArea i⟩) ++ [⟨8, 1, index.overallDeletions⟩] ++
    List.ofFn (fun i => ⟨2, 1, index.areaSummaryPositions i⟩)

def members : List Member :=
  index.header ++ ((List.finRange 2).filter index.isPresent).map fun i => ⟨byteUsage c, 1, index.summaries i⟩

def serializeToBuffer (buf : Memory) : Result × Memory :=
  (if endOf 0 (slots index.members) ≠ index.getNeededBytes then .bug else .ok, buf.store 0 index.members)

/-- The summaries that are there, one after the other. -/
def readSummaries (buf : Memory) (positions : Fin 2 → AreaPos) :
    List (Fin 2) → Nat → (Nat → Word (byteUsage c)) → Reader (Nat × (Nat → Word (byteUsage c)))
  | [], asCount, summaries => pure (asCount, summaries)
  | i :: is, asCount, summaries =>
    if (positions i).toNat ≤ 0 then readSummaries buf positions is asCount summaries
    else do
      let summary ← next buf (byteUsage c) 1
      readSummaries buf positions is (asCount + 1) (Function.update summaries asCount summary)

/-- The members of the object that is filled. -/
def deserialize (buf : Memory) : Reader (Nat × SuperIndex c) := do
  let logPrev ← next buf 2 1
  let rootNode ← next buf 4 1
  let usedAreas ← next buf 2 1
  let areaMap ← nextAll buf 12 1 c.areasNo
  let activeArea ← nextAll buf 2 1 typesNo
  let overallDeletions ← next buf 8 1
  let areaSummaryPositions ← nextAll buf 2 1 2
  let (asCount, summaries) ← readSummaries buf areaSummaryPositions (List.finRange 2) 0
    fun i => if h : i < 2 then index.summaries ⟨i, h⟩ else Word.ofNat _ 0
  pure (asCount, ⟨index.no, logPrev, rootNode, usedAreas, areaMap, activeArea, overallDeletions, areaSummaryPositions,
    fun i => summaries i⟩)

def deserializeFromBuffer (buf : Memory) : Result × SuperIndex c :=
  match (index.deserialize buf).run 0 with
  | some ((asCount, index), pointer) => (if pointer ≠ neededFor c asCount then .bug else .ok, index)
  | none => (.bug, index)

end SuperIndex

/-! ### The pages -/

abbrev Flash := PageAbs → Memory

/-- How much of the index goes to a page. -/
def bytesOnPage (pointer neededBytes : Nat) : Nat :=
  if pointer + c.dataBytesPerPage - 4 < neededBytes then c.dataBytesPerPage - 4 else neededBytes - pointer

/-- The rest of the page stays erased. -/
def pageContent (no : SerialNo) (buf : Memory) (pointer btw : Nat) : Memory :=
  Memory.write (fun _ => 0xFF) 0 (toBytes 4 no.toNat ++ buf.read pointer btw)

def writePages (outcome : PageAbs → Result) (pageStart : PageAbs) (no : SerialNo) (buf : Memory) (neededBytes : Nat) :
    Nat → Nat → Nat → Flash → Result × Flash
  | 0, _, _, flash => (.ok, flash)
  | k + 1, page, pointer, flash =>
    let btw := bytesOnPage c pointer neededBytes
    match outcome (pageStart + page) with
    | .ok =>
      writePages outcome pageStart no buf neededBytes k (page + 1) (pointer + btw)
        (Function.update flash (pageStart + page) (pageContent no buf pointer btw))
    | r => (r, flash)

def writeSuperPageIndex (readOnly : Bool) (outcome : PageAbs → Result) (pageStart : PageAbs) (entry : SuperIndex c)
    (flash : Flash) : Option (Result × Flash) :=
  if readOnly then some (.bug, flash)
  else
    match entry.isPlausible with
    | none => none
    | some false => some (.bug, flash)
    | some true =>
      match entry.serializeToBuffer fun _ => 0 with
      | (.ok, buf) =>
        some (writePages c outcome pageStart entry.no buf entry.getNeededBytes (neededPages c entry.getNeededBytes) 0 0 flash)
      | (r, _) => some (r, flash)

/-- The serial number found, and the buffer; or the result on the way out. -/
def readPages (status : PageAbs → Result) (flash : Flash) (pageBase : PageAbs) (neededBytes : Nat) :
    Nat → Nat → Nat → SerialNo → Memory → Except (Result × SerialNo) (SerialNo × Memory)
  | 0, _, _, no, buf => .ok (no, buf)
  | k + 1, page, pointer, no, buf =>
    let btr := bytesOnPage c pointer neededBytes
    match status (pageBase + page) with
    | .ok =>
      let localSerialTmp := (flash (pageBase + page)).readWord 0 4
      if localSerialTmp = emptySerial then .error (.bug, no)
      else if no ≠ emptySerial ∧ localSerialTmp ≠ no then .error (.bug, no)
      else
        readPages status flash pageBase neededBytes k (page + 1) (pointer + btr) (if no = emptySerial then localSerialTmp else no)
          (buf.write pointer ((flash (pageBase + page)).read 4 btr))
    -- a corrected page ends the reading
    | .biterrorCorrected => .error (.ok, no)
    | r => .error (r, no)

/-- With the area map. `status` is what the driver says of each page. -/
def readSuperPageIndex (status : PageAbs → Result) (flash : Flash) (pageBase : PageAbs) (entry : SuperIndex c) :
    Option (Result × SuperIndex c) :=
  match readPages c status flash pageBase (neededFor c 2) (neededPages c (neededFor c 2)) 0 0 emptySerial fun _ => 0 with
  | .error (r, no) => some (r, { entry with no := no })
  | .ok (no, buf) =>
    match { entry with no := no }.deserializeFromBuffer buf with
    | (.ok, entry) =>
      match entry.isPlausible with
      | none => none
      | some false => some (.fail, entry)
      | some true => some (.ok, entry)
    | (r, entry) => some (r, entry)

end Paffs.Superblock
