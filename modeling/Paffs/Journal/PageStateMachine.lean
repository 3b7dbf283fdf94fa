import Paffs.Common.Types

/-! The journal entries of page replacing topics, and the state machine that decides after a power
loss whether the pages written last are kept or given back. -/
namespace Paffs.Journal

inductive Topic where
  | tree | dataIo | pac
  deriving DecidableEq, Repr

inductive SummaryEntry where
  | free | used | dirty
  deriving DecidableEq, Repr

abbrev Statuses := Addr → SummaryEntry

/-- One position of `newPageList`, `oldPageList` and `position`. A new address of 0 stands for a
page that is only given up, an old one of 0 for a page that replaces none. -/
structure Replacement where
  neu : Addr
  old : Addr
  nod : InodeNo
  pos : PageNo
  deriving DecidableEq, Repr

inductive Pagestate where
  | replacePage (neu old : Addr)
  | replacePagePos (neu old : Addr) (nod : InodeNo) (pos : PageNo)
  | success
  | invalidateOldPages
  deriving DecidableEq, Repr

inductive JournalEntry where
  | pagestate (target : Topic) (entry : Pagestate)
  | setStatus (addr : Addr) (status : SummaryEntry)
  | rootnode (addr : Addr)
  | update (no : InodeNo)
  | newInodeSize (inodeNo : InodeNo) (filesize : Nat)
  | setAddress (inodeNo : InodeNo) (page : PageNo) (addr : Addr)
  | checkpoint (target : Topic)
  deriving DecidableEq, Repr

inductive JournalState where
  | ok | invalid | recover
  deriving DecidableEq, Repr

/-- The lists up to `pageListHWM`. -/
structure PageStateMachine where
  list : List Replacement
  currentInode : InodeNo
  journalState : JournalState
  deriving DecidableEq, Repr

def PageStateMachine.clear : PageStateMachine := ⟨[], 0, .ok⟩

/-- The template parameters; positions are kept iff `maxPositions` equals `maxPages`. -/
structure Params where
  topic : Topic
  maxPages : Nat
  withPosition : Bool

/-- What a state machine works on: the page statuses in RAM, what was logged so far, and the
addresses of the file's pages. -/
structure World where
  sm : PageStateMachine
  statuses : Statuses
  log : List JournalEntry
  mapping : PageNo → Addr

/-- `replacePagePos` where positions are kept, else `replacePage`. -/
def Replacement.entry (p : Params) (r : Replacement) : Pagestate :=
  if p.withPosition then .replacePagePos r.neu r.old r.nod r.pos else .replacePage r.neu r.old

namespace World

def addEvent (e : JournalEntry) (w : World) : World := { w with log := w.log ++ [e] }

/-- Of the addresses handed around only 0 lies in area 0. -/
def setPageStatus (addr : Addr) (state : SummaryEntry) (w : World) : Result × World :=
  if addr = 0 then (.bug, w)
  else if w.statuses addr = state then (.ok, w)
  else (.ok, { w.addEvent (.setStatus addr state) with statuses := Function.update w.statuses addr state })

/-- Sets every page of a list but 0; what goes wrong is only printed. -/
def setAll (state : SummaryEntry) : List Addr → World → World
  | [], w => w
  | addr :: addrs, w => setAll state addrs (if addr = 0 then w else (w.setPageStatus addr state).2)

variable (p : Params)

def replacePage (r : Replacement) (w : World) : Result × World :=
  if w.sm.list.length = p.maxPages then (.lowMem, w)
  else
    let w := { w.addEvent (.pagestate p.topic (r.entry p)) with sm := { w.sm with list := w.sm.list ++ [r] } }
    if r.neu ≠ 0 then w.setPageStatus r.neu .used else (.ok, w)

def clear (w : World) : World := { w with sm := .clear }

def invalidateOldPages (w : World) : World :=
  let old := w.sm.list.map Replacement.old
  let w := setAll .dirty old w
  clear (if old.any (· ≠ 0) then w.addEvent (.pagestate p.topic .invalidateOldPages) else w)

/-- What the lists say the addresses were; a later position is set later. -/
def resetAddresses (list : List Replacement) (mapping : PageNo → Addr) : PageNo → Addr :=
  list.foldl (fun m r => Function.update m r.pos r.old) mapping

/-- The first result is the state the machine was in. -/
def signalEndOfLog (w : World) : JournalState × World :=
  match w.sm.journalState with
  | .ok => (.ok, w.clear)
  | .invalid =>
    let list := w.sm.list
    let w := setAll .dirty (list.map Replacement.neu) w
    let w := if p.withPosition then { w with mapping := resetAddresses list w.mapping } else w
    (.invalid, (w.addEvent (.pagestate p.topic .invalidateOldPages)).clear)
  | .recover =>
    let w := setAll .dirty (w.sm.list.map Replacement.old) w
    (.recover, (w.addEvent (.pagestate p.topic .invalidateOldPages)).clear)

end World

namespace PageStateMachine

/-- A position is kept only by entries that have one. -/
def append (sm : PageStateMachine) (r : Replacement) : PageStateMachine := { sm with list := sm.list ++ [r] }

def processEntry (sm : PageStateMachine) (entry : Pagestate) : Result × PageStateMachine :=
  match sm.journalState, entry with
  | .ok, .replacePagePos neu old nod pos =>
    (.ok, { sm.append ⟨neu, old, nod, pos⟩ with currentInode := nod, journalState := .invalid })
  | .ok, .replacePage neu old => (.ok, { sm.append ⟨neu, old, 0, 0⟩ with journalState := .invalid })
  | .ok, .success => (.ok, sm)
  | .ok, .invalidateOldPages => (.bug, sm)
  | .invalid, .replacePagePos neu old nod pos => (.ok, sm.append ⟨neu, old, nod, pos⟩)
  | .invalid, .replacePage neu old => (.ok, sm.append ⟨neu, old, 0, 0⟩)
  | .invalid, .success => (.ok, { sm with journalState := .recover })
  | .invalid, .invalidateOldPages => (.bug, sm)
  | .recover, .invalidateOldPages => (.ok, clear)
  | .recover, _ => (.bug, sm)

end PageStateMachine
end Paffs.Journal
