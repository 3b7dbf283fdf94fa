import Paffs.Common.Types
import Paffs.Lib.Bytes

/-! The data of one inode: written, read and truncated page by page. -/
namespace Paffs.DataIO
open Bytes (Byte Memory)

structure Config where
  dataBytesPerPage : Nat
  maxPagesPerWrite : Nat
  page_ge : 2 ≤ dataBytesPerPage
  max_lt : maxPagesPerWrite + 1 < 2 ^ 16
  write_fits : (maxPagesPerWrite + 1) * dataBytesPerPage < 2 ^ 31

theorem Config.page_pos (c : Config) : 0 < c.dataBytesPerPage := Nat.lt_of_lt_of_le Nat.two_pos c.page_ge

/-- The other parts of the device. `findFreePage` is `findWritableArea` and `findFirstFreePage` together, `outcome` the result
of what is asked of the driver, of the areas and of the tree, one after the other. Pages can be read and their statuses set. -/
structure Env where
  findFreePage : Nat → (Addr → Bool) → Except Result Addr
  outcome : Nat → Result
  addressable : Nat
  addressable_pos : 0 < addressable
  free : ∀ {n used a}, findFreePage n used = .ok a → a ≠ 0 ∧ used a = false
  failed : ∀ {n used r}, findFreePage n used = .error r → r ≠ .ok

/-- `page` is what the address cache holds for the inode, `replaced` the list of the page state machine, new page first. -/
structure State where
  size : Nat
  reservedPages : Nat
  page : PageNo → Addr
  flash : Addr → Memory
  used : Addr → Bool
  replaced : List (Addr × Addr)
  clock : Nat

variable (c : Config) (env : Env)

namespace State

def tick (s : State) : State := { s with clock := s.clock + 1 }

/-- The new page is marked as used. -/
def replacePage (s : State) (neu old : Addr) : Result × State :=
  if s.replaced.length = c.maxPagesPerWrite then (.lowMem, s)
  else (.ok, { s with replaced := s.replaced ++ [(neu, old)], used := if neu = 0 then s.used else Function.update s.used neu true })

def invalidateOldPages (s : State) : State :=
  { s with used := fun a => s.used a && !(s.replaced.any fun r => r.2 = a && a ≠ 0), replaced := [] }

/-! ### Writing -/

/-- What the page buffer holds before the data is put in, and how much of it is written. -/
def pageBuffer (s : State) (pageFrom page offs btw filesize : Nat) (oldAddr : Addr) : Memory × Nat :=
  if offs > 0 ∨ (btw + offs < c.dataBytesPerPage ∧ page * c.dataBytesPerPage + btw < filesize) then
    let btr :=
      if (pageFrom + 1 + page) * c.dataBytesPerPage % 2 ^ 32 > filesize then
        if filesize > (pageFrom + page) * c.dataBytesPerPage then filesize - (pageFrom + page) * c.dataBytesPerPage else 0
      else c.dataBytesPerPage
    (if oldAddr ≠ 0 then s.flash oldAddr else fun _ => 0, max btr (offs + btw))
  else (fun _ => 0xFF, btw)

/-- A page of the flash behind `total` bytes of the buffer stays erased. -/
def written (buf : Memory) (total : Nat) : Memory := fun i => if i < total then buf i else 0xFF

/-- How many bytes of the data go to a page. -/
def bytesToWrite (offs bytes bytesWritten : Nat) : Nat :=
  if (bytes - bytesWritten + offs) % 2 ^ 32 > c.dataBytesPerPage then c.dataBytesPerPage - offs else bytes - bytesWritten

/-- What is written to a page. -/
def pageContent (s : State) (pageFrom page offs bytes filesize bytesWritten : Nat) (data : Memory) (oldAddr : Addr) : Memory :=
  let btw := bytesToWrite c offs bytes bytesWritten
  let buf := s.pageBuffer c pageFrom page offs btw filesize oldAddr
  written (buf.1.write offs (data.read bytesWritten btw)) buf.2

def storePage (s : State) (page : PageNo) (newAddress : Addr) (content : Memory) : State :=
  { s with
    flash := Function.update s.flash newAddress content
    page := Function.update s.page page newAddress
    reservedPages := if s.page page = 0 then (s.reservedPages + 1) % 2 ^ 16 else s.reservedPages }

/-- One round of `writePageData`, for page `pageFrom + page` of the file. -/
def writePage (s : State) (pageFrom page offs bytes filesize bytesWritten : Nat) (data : Memory) : (Result × Nat) × State :=
  match env.findFreePage s.clock s.used with
  | .error r => ((r, bytesWritten), s)
  | .ok newAddress =>
    if page + pageFrom ≥ env.addressable then ((.tooBig, bytesWritten), s)
    else
      let oldAddr := s.page (page + pageFrom)
      let s := (s.replacePage c newAddress oldAddr).2
      let content := s.pageContent c pageFrom page offs bytes filesize bytesWritten data oldAddr
      let bytesWritten := bytesWritten + bytesToWrite c offs bytes bytesWritten
      match env.outcome s.clock with
      | .ok => ((env.outcome (s.clock + 1), bytesWritten), (s.storePage (page + pageFrom) newAddress content).tick.tick)
      | r => ((r, bytesWritten), s.tick)

/-- The offset counts for the first page only. -/
def writePageData (pageFrom bytes filesize : Nat) (data : Memory) : Nat → Nat → Nat → Nat → State → (Result × Nat) × State
  | 0, _, _, bytesWritten, s => ((.ok, bytesWritten), s)
  | k + 1, page, offs, bytesWritten, s =>
    match s.writePage c env pageFrom page offs bytes filesize bytesWritten data with
    | ((.ok, bytesWritten), s) => writePageData pageFrom bytes filesize data k (page + 1) 0 bytesWritten s
    | r => r

def lastPage (end_ : Nat) : Nat := if end_ % c.dataBytesPerPage = 0 then end_ / c.dataBytesPerPage - 1 else end_ / c.dataBytesPerPage

/-- The number of the pages behind the first one, unsigned. -/
@[irreducible] def pagesBehind (offs end_ : Nat) : Nat := (lastPage c end_ + 2 ^ 32 - offs / c.dataBytesPerPage) % 2 ^ 32

/-- The new size makes the write valid. -/
def finishWrite (offs : Nat) : (Result × Nat) × State → (Result × Nat) × State
  | ((.ok, bytesWritten), s) =>
    let s := { s with size := max s.size ((bytesWritten + offs) % 2 ^ 32) }
    match env.outcome s.clock with
    | .ok => ((.ok, bytesWritten), s.tick.invalidateOldPages)
    | r => ((r, bytesWritten), s.tick)
  | r => r

def writeInodeData (s : State) (offs bytes : Nat) (data : Memory) : (Result × Nat) × State :=
  let end_ := (offs + bytes) % 2 ^ 32
  if end_ = 0 then ((.invalidInput, 0), s)
  else if pagesBehind c offs end_ > c.maxPagesPerWrite then ((.tooBig, 0), s)
  else
    finishWrite env offs (writePageData c env (offs / c.dataBytesPerPage) bytes s.size data (pagesBehind c offs end_ + 1) 0
      (offs % c.dataBytesPerPage) 0 s)

/-! ### Reading -/

/-- Pages that are not written read as zero. -/
def readPage (s : State) (page : PageNo) : Memory := if s.page page = 0 then fun _ => 0 else s.flash (s.page page)

def readPageData (s : State) (bytes : Nat) : Nat → PageNo → Nat → List Byte → Result × List Byte
  | 0, _, _, data => (.ok, data)
  | k + 1, page, offs, data =>
    if page ≥ env.addressable then (.tooBig, data)
    else
      let btr := min (bytes + offs - data.length) c.dataBytesPerPage
      readPageData s bytes k (page + 1) 0 (data ++ (s.readPage page).read offs (btr - offs))

/-- The last page, which wraps around for an empty range. -/
@[irreducible] def toPage (end_ : Nat) : Nat :=
  if end_ % c.dataBytesPerPage = 0 then (end_ / c.dataBytesPerPage + (2 ^ 32 - 1)) % 2 ^ 32 else end_ / c.dataBytesPerPage

/-- The counter of the loop over the pages has 16 bits. -/
@[irreducible] def lastRound (pageFrom toPage : Nat) : Nat := (toPage - pageFrom) % 2 ^ 16

/-- `none` when the loop never gets past the last page, and no page is out of range. -/
def readInodeData (s : State) (offs bytes : Nat) : Option (Result × List Byte) :=
  if (offs + bytes) % 2 ^ 32 = 0 then some (.invalidInput, [])
  else
    let bytes := if (offs + bytes) % 2 ^ 32 > s.size then s.size - offs else bytes
    let pageFrom := offs / c.dataBytesPerPage
    let toPage := toPage c ((offs + bytes) % 2 ^ 32)
    if toPage < pageFrom then some (.bug, [])
    else if lastRound pageFrom toPage = 2 ^ 16 - 1 ∧ pageFrom + (2 ^ 16 - 1) < env.addressable then none
    else some (s.readPageData c env bytes (lastRound pageFrom toPage + 1) pageFrom (offs % c.dataBytesPerPage) [])

/-! ### Truncating -/

def unmapPage (s : State) (page : PageNo) : State :=
  { s with page := Function.update s.page page 0, reservedPages := (s.reservedPages + (2 ^ 16 - 1)) % 2 ^ 16 }

/-- The result of `replacePage` is not looked at. -/
def deletePage (s : State) (page : PageNo) : Result × State :=
  if page ≥ env.addressable then (.tooBig, s)
  else if s.page page = 0 then (.ok, s)
  else if !s.used (s.page page) then (.bug, s)
  else
    let s := (s.replacePage c 0 (s.page page)).2
    match env.outcome s.clock with
    | .ok => (.ok, (s.unmapPage page).tick)
    | r => (r, s.tick)

def deletePages : List PageNo → State → Result × State
  | [], s => (.ok, s)
  | page :: rest, s =>
    match s.deletePage c env page with
    | (.ok, s) => deletePages rest s
    | r => r

/-- From the last page back to the first that is not needed. -/
def deleteInodeData (s : State) (offs : Nat) : Result × State :=
  if s.size = offs then (.ok, s)
  else if s.size < offs then (.invalidInput, s)
  else
    let pageFrom := offs / c.dataBytesPerPage + if offs % c.dataBytesPerPage ≠ 0 then 1 else 0
    let toPage := lastPage c s.size
    let pages := if pageFrom ≤ toPage ∧ s.reservedPages ≠ 0 then (List.range' pageFrom (toPage - pageFrom + 1)).reverse else []
    match deletePages c env pages s with
    | (.ok, s) => (.ok, { s with size := offs }.invalidateOldPages)
    | r => r

end State
end Paffs.DataIO
