import Paffs.Persistence.Mram
import Paffs.Persistence.View

/-! The journal: which entries it stores, and to whom it hands them when the log is replayed. -/
namespace Paffs.Persistence
variable {n : Nat}

def Topic.isRegistered : Topic → Bool
  | .invalid | .checkpoint | .pagestate => false
  | _ => true

/-- The members of `Journal::topics` that are not `nullptr`. -/
def topics : List Topic := Enumeration.values.filter Topic.isRegistered

namespace Entry

def topic : Entry n → Topic
  | .checkpoint _ => .checkpoint
  | .pagestate .. => .pagestate
  | .superblock _ => .superblock
  | .areaMgmt .. => .areaMgmt
  | .moveValidData _ => .garbage
  | .summaryCache .. => .summaryCache
  | .btree _ => .tree
  | .setAddress .. => .pac
  | .newInodeSize .. => .dataIo
  | .device _ => .device

/-- The `target` of `addEvent` and `applyJournalEntries`. -/
def target : Entry n → Topic
  | .pagestate target _ => target
  | e => e.topic

end Entry

/-- An entry that somebody is there to process. -/
abbrev Event (n : Nat) := { e : Entry n // e.topic ≠ .checkpoint → e.target.isRegistered }

structure JournalEntryPosition where
  addr : Nat
  offs : Nat

namespace JournalEntryPosition

/-- `operator<`; the source compares the offset with the other's address. -/
def lt (p q : JournalEntryPosition) : Bool := if p.addr = q.addr then p.offs < q.addr else p.addr < q.addr

def ge (p q : JournalEntryPosition) : Bool := !p.lt q

end JournalEntryPosition

/-- The log and its pointer: what was read or written last, and what is read next. -/
structure LogPersistence (n : Nat) where
  passed : List (Entry n)
  ahead : List (Entry n)

namespace LogPersistence
variable (c : MramConfig) (p : LogPersistence n)

def curr : Nat := 4 + (p.passed.map countedSize).sum

/-- The union's first member is `mram.offs` under the name `flash.addr`. -/
def tell : JournalEntryPosition := ⟨p.curr, 0⟩

def rewind : LogPersistence n := ⟨[], p.passed ++ p.ahead⟩

def clear : LogPersistence n := ⟨[], []⟩

def isLowMem : Bool := c.mramSize.toNat ≠ 0 ∧ c.mramSize.toNat - p.curr < c.reservedLogsize

/-- The high water mark moves to the pointer, so what was ahead is lost. -/
def appendEntry (e : Entry n) : Result × LogPersistence n :=
  if p.curr + sizeofMax n > c.mramSize.toNat then (.noSpace, p)
  else
    let p' : LogPersistence n := ⟨p.passed ++ [e], []⟩
    (if p'.isLowMem c then .lowMem else .ok, p')

/-- `none` is `notFound`. -/
def readNextElem : Option (Entry n × LogPersistence n) :=
  match p.ahead with
  | [] => none
  | e :: ahead => some (e, ⟨p.passed ++ [e], ahead⟩)

end LogPersistence

/-- `added` is kept for the specification: every event since `clear` that was accepted while the journal was
enabled, suppressed checkpoints included. -/
structure Journal (n : Nat) where
  persistence : LogPersistence n
  uncheckpointedChanges : Topic → Bool
  disabled : Bool
  added : List (Entry n)

namespace Journal
variable (c : MramConfig) (j : Journal n)

def setAllRegistered (bits : Topic → Bool) : Topic → Bool := fun t => t.isRegistered || bits t

/-- The constructor, with an untouched log. -/
def construct : Journal n := ⟨LogPersistence.clear, setAllRegistered fun _ => false, false, []⟩

def store (e : Entry n) : Result × Journal n :=
  let (r, persistence) := j.persistence.appendEntry c e
  if r = .noSpace then (r, j)
  else
    let bits := match e with
      | .checkpoint target => Function.update j.uncheckpointedChanges target false
      | e => Function.update j.uncheckpointedChanges e.target true
    (r, { j with persistence := persistence, uncheckpointedChanges := bits, added := j.added ++ [e] })

def addEvent (e : Entry n) : Result × Journal n :=
  if j.disabled ∨ c.mramSize.toNat = 0 then (.ok, j)
  else
    match e with
    | .checkpoint target =>
      if j.uncheckpointedChanges target then j.store c e
      else (if j.persistence.isLowMem c then .lowMem else .ok, { j with added := j.added ++ [e] })
    | e => j.store c e

def clear : Journal n where
  persistence := if c.mramSize.toNat = 0 then j.persistence else LogPersistence.clear
  uncheckpointedChanges := setAllRegistered j.uncheckpointedChanges
  disabled := false
  added := []

end Journal

/-! ### Replay -/

/-- What a callback of a topic does: calls of `addEvent`, each going on with its result. -/
inductive Calls (n : Nat) (W : Type) where
  | done (world : W)
  | addEvent (e : Event n) (next : Result → Calls n W)

/-- The callbacks of the topics over the state `W` of the device. -/
structure Workers (n : Nat) (W : Type) where
  resetState : Topic → W → W
  isInterestedIn : Topic → Entry n → W → Bool
  preScan : Topic → Entry n → JournalEntryPosition → W → Calls n W
  processEntry : Topic → Entry n → JournalEntryPosition → W → Calls n W
  signalEndOfLog : Topic → W → Calls n W

/-- `handed` is kept for the specification: the calls of `processEntry` in the last `processBuffer`. -/
structure System (n : Nat) (W : Type) where
  journal : Journal n
  world : W
  handed : List (Topic × Entry n)

namespace System
variable {W : Type} (c : MramConfig) (workers : Workers n W)

def tell (s : System n W) : JournalEntryPosition := s.journal.persistence.tell

def setPersistence (s : System n W) (p : LogPersistence n) : System n W :=
  { s with journal := { s.journal with persistence := p } }

def call : Calls n W → System n W → System n W
  | .done world, s => { s with world := world }
  | .addEvent e next, s =>
    let (r, journal) := s.journal.addEvent c e.1
    call (next r) { s with journal := journal }

def isTopicValid (t : Topic) : Bool := t ≠ .invalid ∧ (t = .pagestate ∨ t.isRegistered)

def preScanElem (e : Entry n) (s : System n W) : System n W :=
  topics.foldl (fun s t =>
    if t = e.topic ∨ workers.isInterestedIn t e s.world then call c (workers.preScan t e s.tell s.world) s else s) s

/-- The positions behind each topic's last checkpoint; `fail` when the fuel runs out. -/
def preScanLoop : Nat → System n W → (Topic → JournalEntryPosition) → Result × System n W × (Topic → JournalEntryPosition)
  | 0, s, first => (.fail, s, first)
  | fuel + 1, s, first =>
    match s.journal.persistence.readNextElem with
    | none => (.ok, s, first)
    | some (e, p) =>
      let s := s.setPersistence p
      match e with
      | .checkpoint target => preScanLoop fuel s (Function.update first target s.tell)
      | .pagestate .. => preScanLoop fuel s first
      | e =>
        if isTopicValid e.topic then preScanLoop fuel (preScanElem c workers e s) first else (.bug, s, first)

def processEntry (t : Topic) (e : Entry n) (s : System n W) : System n W :=
  let s' := call c (workers.processEntry t e s.tell s.world) s
  { s' with handed := s'.handed ++ [(t, e)] }

/-- One element for its target, then for every other topic that wants it. -/
def applyElem (first : Topic → JournalEntryPosition) (e : Entry n) (s : System n W) : System n W :=
  let s := if s.tell.ge (first e.target) then processEntry c workers e.target e s else s
  topics.foldl (fun s t =>
    if t ≠ e.target ∧ workers.isInterestedIn t e s.world ∧ s.tell.ge (first t) then processEntry c workers t e s else s) s

def applyLoop (first : Topic → JournalEntryPosition) : Nat → System n W → Result × System n W
  | 0, s => (.fail, s)
  | fuel + 1, s =>
    match s.journal.persistence.readNextElem with
    | none => (.ok, s)
    | some (e, p) =>
      let s := s.setPersistence p
      match e with
      | .checkpoint _ => applyLoop first fuel s
      | .pagestate target entry =>
        if isTopicValid target then applyLoop first fuel (applyElem c workers first (.pagestate target entry) s)
        else (.bug, s)
      | e => applyLoop first fuel (applyElem c workers first e s)

def applyJournalEntries (first : Topic → JournalEntryPosition) (s : System n W) : Result × System n W :=
  let s := s.setPersistence s.journal.persistence.rewind
  match applyLoop c workers first (s.journal.persistence.ahead.length + 1) s with
  | (.ok, s) =>
    let s := { s with journal := { s.journal with disabled := false } }
    (.ok, topics.foldl (fun s t => call c (workers.signalEndOfLog t s.world) s) s)
  | (r, s) => (r, s)

/-- Both passes, from the start of a log that is not empty. -/
def replay (fuel : Nat) (s : System n W) : Result × System n W :=
  match preScanLoop c workers fuel s fun _ => s.tell with
  | (.ok, s, first) => applyJournalEntries c workers first s
  | (r, s, _) => (r, s)

def processBuffer (s : System n W) : Result × System n W :=
  let s := { s with handed := [] }
  if c.mramSize.toNat = 0 then (.ok, s)
  else
    let s := { s with world := topics.foldl (fun w t => workers.resetState t w) s.world }
    let s := s.setPersistence s.journal.persistence.rewind
    match s.journal.persistence.ahead with
    | [] => (.ok, s)
    | _ :: rest =>
      -- the source reads the first element before it enters the loop of the first pass
      replay c workers (rest.length + 2) { s with journal := { s.journal with disabled := true } }

/-! ### Runs -/

inductive Op (n : Nat) (W : Type) where
  | addEvent (e : Event n)
  | clear
  | processBuffer
  /-- What the device does between calls of the journal. -/
  | work (f : W → W)

def step (s : System n W) : Op n W → System n W
  | .addEvent e => { s with journal := (s.journal.addEvent c e.1).2 }
  | .clear => { s with journal := s.journal.clear c }
  | .processBuffer => (processBuffer c workers s).2
  | .work f => { s with world := f s.world }

/-- A new journal whose log is cleared first. -/
def start (w : W) : System n W := ⟨Journal.construct.clear c, w, []⟩

def run (w : W) (ops : List (Op n W)) : System n W := ops.foldl (step c workers) (start c w)

end System
end Paffs.Persistence
