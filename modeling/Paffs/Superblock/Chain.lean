import Paffs.Superblock.Index

/-! The elements of the super chain: where an entry is written, and where the most recent one is looked for. -/
namespace Paffs.Superblock
open Bytes (Memory Word)

/-- The constants of a configuration. The pages of an area are counted in 16 bits, and it is divided by their number. -/
structure Geometry where
  dataBytesPerPage : Nat
  pagesPerBlock : Nat
  blocksTotal : Nat
  blocksPerArea : Nat
  dataBytesPerPage_lt : dataBytesPerPage < 2 ^ 16
  pagesPerBlock_lt : pagesPerBlock < 2 ^ 16
  blocksTotal_lt : blocksTotal < 2 ^ 16
  blocksPerArea_lt : blocksPerArea < 2 ^ 8
  total_pos : 0 < blocksPerArea * pagesPerBlock % 2 ^ 16

namespace Geometry
variable (g : Geometry)

def areasNo : Nat := g.blocksTotal / g.blocksPerArea
def totalPagesPerArea : Nat := g.blocksPerArea * g.pagesPerBlock % 2 ^ 16
def oobPagesPerArea : Nat := (g.totalPagesPerArea + (8 * g.dataBytesPerPage - 1)) / (8 * g.dataBytesPerPage)
def dataPagesPerArea : Nat := g.totalPagesPerArea - g.oobPagesPerArea

def initializeDevice (mounted : Bool) : Result :=
  if mounted then .alrMounted
  else if g.areasNo < typesNo - 2 then .invalidInput
  else if g.blocksPerArea < 2 then .invalidInput
  else if g.dataPagesPerArea > g.dataBytesPerPage * 8 then .invalidInput
  else if g.blocksTotal % g.blocksPerArea ≠ 0 then .invalidInput
  else .ok

/-- The page meant, counted without bound. -/
def absolute (area block page : Nat) : Nat := area * g.totalPagesPerArea + block * g.pagesPerBlock + page

end Geometry

/-- What the driver answers. -/
structure Driver where
  readPage : PageAbs → Result
  writePage : PageAbs → Result
  eraseBlock : Nat → Result

/-! ### Addresses -/

def combineAddress (logicalArea page : Nat) : Addr := Word.ofNat 4 (page % 2 ^ 16 + 2 ^ 16 * (logicalArea % 2 ^ 16))
def extractLogicalArea (addr : Addr) : Nat := addr.toNat / 2 ^ 16
def extractPageOffs (addr : Addr) : Nat := addr.toNat % 2 ^ 16

variable (g : Geometry)

def getPageNumberFromDirect (addr : Addr) : PageAbs :=
  let page := (extractLogicalArea addr * g.totalPagesPerArea + extractPageOffs addr) % 2 ^ 32
  if page > g.areasNo * g.totalPagesPerArea then 0 else page

def getBlockNumberFromDirect (addr : Addr) : Nat :=
  (extractLogicalArea addr * g.blocksPerArea + extractPageOffs addr / g.pagesPerBlock) % 2 ^ 16

/-! ### The first free page -/

def serialOn (flash : Flash) (page : PageAbs) : SerialNo := (flash page).readWord 0 4

variable (d : Driver) (flash : Flash)

/-- The start of the free pages in a row, how many they are, and the pages read so far. -/
structure Search where
  outPos : Nat
  inARow : Nat
  reads : List PageAbs

def freeInBlock (pageOffs requiredPages : Nat) : Nat → Nat → Search → Result × Search
  | 0, _, s => (.notFound, s)
  | n + 1, i, s =>
    let page := i + pageOffs
    let s := { s with reads := s.reads ++ [page] }
    let r := d.readPage page
    if r ≠ .ok ∧ r ≠ .biterrorCorrected then (r, s)
    else if serialOn flash page ≠ emptySerial then
      freeInBlock pageOffs requiredPages n (i + 1) (if s.inARow ≠ 0 then { s with outPos := 0, inARow := 0 } else s)
    else
      let s := if s.inARow = 0 then { s with outPos := i } else s
      let s := { s with inARow := s.inARow + 1 }
      if s.inARow = requiredPages then (.ok, s) else freeInBlock pageOffs requiredPages n (i + 1) s

/-- `pageOffs` is a variable of 16 bits. -/
def findFirstFreeEntryInBlock (area block requiredPages : Nat) : Result × Search :=
  let pageOffs := g.pagesPerBlock * (area * g.blocksPerArea + block) % 2 ^ 16
  freeInBlock d flash pageOffs requiredPages g.pagesPerBlock 0 ⟨0, 0, []⟩

def freeInArea (area requiredPages : Nat) : Nat → Nat → Result × Nat
  | 0, _ => (.ok, 0)
  | n + 1, block =>
    match findFirstFreeEntryInBlock g d flash area block requiredPages with
    | (.notFound, _) =>
      if block + 1 = g.blocksPerArea then (.notFound, 0)
      else
        let (r, s) := findFirstFreeEntryInBlock g d flash area (block + 1) requiredPages
        (r, ((block + 1) * g.pagesPerBlock + s.outPos) % 2 ^ 16)
    | (.ok, s) =>
      -- entries, and room behind them
      if s.outPos ≠ 0 then (.ok, (block * g.pagesPerBlock + s.outPos) % 2 ^ 16) else freeInArea area requiredPages n (block + 1)
    | (r, _) => (r, 0)

def findFirstFreeEntryInArea (area requiredPages : Nat) : Result × Nat := freeInArea g d flash area requiredPages g.blocksPerArea 0

/-! ### The most recent entry -/

/-- What is handed out, and whether the serial number found last was zero. -/
structure Recent where
  outPos : Nat
  outIndex : SerialNo
  overflow : Bool
  logPrev : AreaPos
  next : AreaPos

def recentInBlock (basePage : PageAbs) : Nat → Nat → Recent → Result × Recent
  | 0, _, e => (.ok, e)
  | n + 1, page, e =>
    let abs := (page + basePage) % 2 ^ 32
    let r := d.readPage abs
    if r ≠ .ok ∧ r ≠ .biterrorCorrected then (r, e)
    else
      let no := serialOn flash abs
      if no = emptySerial then (if e.outIndex.toNat ≠ 0 ∨ e.overflow then .ok else .notFound, e)
      else if no.toNat > e.outIndex.toNat ∨ no.toNat = 0 then
        recentInBlock basePage n (page + 1)
          { outPos := abs % 2 ^ 16, outIndex := no, overflow := no.toNat = 0
            logPrev := (flash abs).readWord 4 2, next := (flash abs).readWord 6 2 }
      else recentInBlock basePage n (page + 1) e

/-- `logPrev` and `next` are as the caller left them until an entry is found. -/
def readMostRecentEntryInBlock (area block : Nat) (logPrev next : AreaPos) : Result × Recent :=
  let basePage := g.pagesPerBlock * (block + area * g.blocksPerArea) % 2 ^ 32
  recentInBlock d flash basePage g.pagesPerBlock 0 ⟨0, Word.ofNat 4 0, false, logPrev, next⟩

def recentInArea (area : Nat) (logPrev next : AreaPos) : Nat → Nat → Result × Option (Addr × Recent)
  | 0, _ => (.notFound, none)
  | n + 1, i =>
    match readMostRecentEntryInBlock g d flash area i logPrev next with
    | (.ok, e) => (.ok, some (combineAddress (e.outPos / g.totalPagesPerArea) (e.outPos % g.totalPagesPerArea), e))
    | (.notFound, e) => recentInArea area e.logPrev e.next n (i + 1)
    | (r, _) => (r, none)

def readMostRecentEntryInArea (area : Nat) (logPrev next : AreaPos) : Result × Option (Addr × Recent) :=
  recentInArea g d flash area logPrev next g.blocksPerArea 0

/-! ### A new entry -/

/-- An anchor, a jump pad or a super index. Its pages carry the serial number that it gets, and the logical area that was left
for this one, or 0. A super index may be refused. -/
structure Entry where
  isPlausible : Bool
  needed : Nat
  needed_pos : 0 < needed
  page : AreaPos → SerialNo → Nat → Memory
  serial : ∀ logPrev no k, (page logPrev no k).readWord 0 4 = no

/-- Where an entry was written. -/
structure Written where
  area : Nat
  page : Nat
  logPrev : AreaPos
  no : SerialNo
  entry : Entry

/-- What is on the pages of an entry. -/
def Written.content (w : Written) : Nat → Memory := w.entry.page w.logPrev w.no

def eraseBlock (block : Nat) : Flash := fun p => if p / g.pagesPerBlock = block then fun _ => 0xFF else flash p

/-- The serial number starts anew in a new block, and the old block is deleted. -/
def handleBlockOverflow (newPage : PageAbs) (prev : Addr) (no : SerialNo) : Result × SerialNo × Flash :=
  let newblock := newPage / g.pagesPerBlock % 2 ^ 16
  if newblock ≠ getBlockNumberFromDirect g prev then
    match d.eraseBlock (getBlockNumberFromDirect g prev) with
    | .ok => (.ok, Word.ofNat 4 0, eraseBlock g flash (getBlockNumberFromDirect g prev))
    | r => (r, Word.ofNat 4 0, flash)
  else (.ok, no, flash)

def writeEntry (pageStart : PageAbs) (content : Nat → Memory) : Nat → Nat → Flash → Result × Flash
  | 0, _, flash => (.ok, flash)
  | n + 1, k, flash =>
    match d.writePage (pageStart + k) with
    | .ok => writeEntry pageStart content n (k + 1) (Function.update flash (pageStart + k) (content k))
    | r => (r, flash)

/-- The end of an insertion, when its place is known. -/
def insertAt (area page : Nat) (logPrev : AreaPos) (prev : Addr) (no : SerialNo) (entry : Entry) :
    Result × Option Written × Flash :=
  let pageStart := (area * g.totalPagesPerArea + page) % 2 ^ 32
  match handleBlockOverflow g d flash pageStart prev no with
  | (.ok, no, flash) =>
    if ¬ entry.isPlausible then (.bug, none, flash)
    else
      match writeEntry d pageStart (entry.page logPrev no) entry.needed 0 flash with
      | (.ok, flash) => (.ok, some ⟨area, page, logPrev, no, entry⟩, flash)
      | (r, flash) => (r, none, flash)
  | (r, _, flash) => (r, none, flash)

/-- `insertNewAnchorEntry`, `insertNewJumpPadEntry` and `insertNewSuperIndex`. `prev` is the physical address of the entry
before, whose logical area is `left`, and `free` the place of the area that `findBestNextFreeArea` gives, if it is another one. -/
def insertNewEntry (directArea : Nat) (free : Option Nat) (left : AreaPos) (prev : Addr) (no : SerialNo) (entry : Entry) :
    Result × Option Written × Flash :=
  match findFirstFreeEntryInArea g d flash directArea entry.needed with
  | (.notFound, _) =>
    match free with
    | some area => insertAt g d flash area 0 left prev no entry
    | none => insertAt g d flash directArea 0 (Word.ofNat 2 0) prev no entry
  | (.ok, page) => insertAt g d flash directArea page (Word.ofNat 2 0) prev no entry
  | (r, _) => (r, none, flash)

end Paffs.Superblock
