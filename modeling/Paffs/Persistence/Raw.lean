import Paffs.Persistence.Journal

/-! The replay of a log of arbitrary bytes, with every use of an array at an index that the log names. -/
namespace Paffs.Persistence.Raw
open Bytes Bytes.Memory

/-- The driver of the log's memory. What a read leaves in the buffer is fixed where the device has bytes. -/
structure Driver (c : MramConfig) where
  State : Type
  content : State → Memory
  readMRAM : State → (startByte dataLen : Nat) → (data : Memory) → Memory
  writeMRAM : State → (startByte : Nat) → (data : List Byte) → State
  readMRAM_inside : ∀ m a len data i, a + len ≤ c.mramSize.toNat → i < len → readMRAM m a len data i = content m (a + i)

/-- A driver that refuses what is not inside, with a sum of 32 bits. -/
def officeModel2Artix7 {c : MramConfig} : Driver c where
  State := Memory
  content m := m
  readMRAM m startByte dataLen data :=
    if (startByte + dataLen) % 2 ^ 32 > c.mramSize.toNat then data
    else fun i => if i < dataLen then m (startByte + i) else data i
  writeMRAM m startByte data :=
    if (startByte + data.length) % 2 ^ 32 > c.mramSize.toNat then m else m.write startByte data
  readMRAM_inside m a len data i hinside hi := by
    have hsize : c.mramSize.toNat < 2 ^ 32 := c.mramSize.toNat_lt
    rw [Nat.mod_eq_of_lt (hinside.trans_lt hsize), if_neg (Nat.not_lt.mpr hinside)]
    exact if_pos hi

/-! ### Fields of an entry -/

def numberOfTopics : Nat := 11

def checkpoint : Nat := 1
def pagestate : Nat := 2

/-- `entry.base.topic` -/
def topic (entry : Memory) : Nat := (entry.readWord 0 1).toNat

/-- `entry.checkpoint.target` and `entry.pagestate.target` -/
def target (entry : Memory) : Nat := (entry.readWord 1 1).toNat

/-- `topics[t] != nullptr` -/
def isRegistered (t : Nat) : Bool := ((Enumeration.values : List Topic)[t]?).any Topic.isRegistered

/-- The loops over `topics`, which skip `nullptr`. -/
def registered : List Nat := (List.range numberOfTopics).filter isRegistered

/-- `journalEntry::Max()` -/
def cleared : Memory := fun _ => 0

/-- A use of one of the two arrays at a topic or a target that an entry names. -/
inductive Use where
  /-- `firstUncheckpointedEntry[t]` -/
  | position (t : Nat)
  /-- `topics[t] != nullptr` -/
  | compare (t : Nat)
  /-- `topics[t]->` -/
  | call (t : Nat)
  deriving DecidableEq, Repr

/-- The state is lost when the program does what C++ leaves undefined. -/
inductive Outcome (α : Type) where
  | running
  | undefined
  | done (x : α)

def Outcome.bind {α β : Type} : Outcome α → (α → Outcome β) → Outcome β
  | .running, _ => .running
  | .undefined, _ => .undefined
  | .done x, f => f x

/-! ### The log and the journal -/

/-- `uses` is kept for the specification. -/
structure System {c : MramConfig} (d : Driver c) (W : Type) where
  mram : d.State
  curr : Nat
  uncheckpointedChanges : Nat → Bool
  disabled : Bool
  world : W
  uses : List Use

/-- What a callback of a topic does: calls of `addEvent`, each going on with its result. -/
inductive Calls (W : Type) where
  | done (world : W)
  | addEvent (entry : Memory) (next : Result → Calls W)

structure Workers (W : Type) where
  resetState : Nat → W → W
  isInterestedIn : Nat → Memory → W → Bool
  preScan : Nat → Memory → JournalEntryPosition → W → Calls W
  processEntry : Nat → Memory → JournalEntryPosition → W → Calls W
  signalEndOfLog : Nat → W → Calls W

section Log
variable {c : MramConfig} (d : Driver c) (m : d.State)

-- the high water mark is inside, so nothing is left of the uninitialised variable
def hwm : Nat := ((d.readMRAM m 0 4 cleared).readWord 0 4).toNat

/-- The entry behind `curr`; `entry` is the object it is read into. -/
def readNextElem (curr : Nat) (entry : Memory) : Except Result (Memory × Nat) :=
  if hwm d m = 2 ^ 32 - 1 ∨ curr ≥ hwm d m then .error .notFound
  else
    let entry := d.readMRAM m curr (sizeofMax c.byteUsage) entry
    let size := getSizeFromJE c.byteUsage entry
    if size = 0 then .error .fail else .ok (entry, (curr + size) % 2 ^ 32)

end Log

namespace System
variable {c : MramConfig} {d : Driver c} {W : Type} (workers : Workers W) (s : System d W)

def use (u : Use) : System d W := { s with uses := s.uses ++ [u] }

def tell : JournalEntryPosition := ⟨s.curr, 0⟩

def isLowMem : Bool := c.mramSize.toNat ≠ 0 ∧ (c.mramSize.toNat + 2 ^ 32 - s.curr) % 2 ^ 32 < c.reservedLogsize

def appendEntry (entry : Memory) : Result × System d W :=
  if s.curr + sizeofMax c.byteUsage > c.mramSize.toNat then (.noSpace, s)
  else
    let size := getSizeFromJE c.byteUsage entry
    let curr := (s.curr + size) % 2 ^ 32
    let mram := d.writeMRAM (d.writeMRAM s.mram s.curr (entry.read 0 size)) 0 (toBytes 4 curr)
    let s' := { s with mram := mram, curr := curr }
    (if s'.isLowMem then .lowMem else .ok, s')

def addEvent (entry : Memory) : Result × System d W :=
  if s.disabled ∨ c.mramSize.toNat = 0 then (.ok, s)
  else if topic entry ≠ checkpoint ∨ s.uncheckpointedChanges (target entry) then
    let (r, s') := s.appendEntry entry
    if r = .noSpace then (r, s)
    else
      let bits :=
        if topic entry = checkpoint then Function.update s.uncheckpointedChanges (target entry) false
        else Function.update s.uncheckpointedChanges (if topic entry = pagestate then target entry else topic entry) true
      (r, { s' with uncheckpointedChanges := bits })
  else (if s.isLowMem then .lowMem else .ok, s)

def call : Calls W → System d W → System d W
  | .done world, s => { s with world := world }
  | .addEvent entry next, s =>
    let (r, s) := s.addEvent entry
    call (next r) s

/-! ### The first pass -/

/-- `topics` ends before `numberOfTopics`. -/
def isTopicValid (t : Nat) (s : System d W) : Outcome (Bool × System d W) :=
  if t > 0 ∧ t ≤ numberOfTopics then
    if t = pagestate then .done (true, s)
    else if t < numberOfTopics then .done (isRegistered t, s.use (.compare t))
    else .undefined
  else .done (false, s)

def preScan (entry : Memory) (s : System d W) : System d W :=
  registered.foldl (fun s t =>
    if t = topic entry ∨ workers.isInterestedIn t entry s.world then call (workers.preScan t entry s.tell s.world) s else s) s

abbrev Positions := Nat → JournalEntryPosition

def preScanElem (entry : Memory) (s : System d W) (first : Positions) : Outcome (Result × System d W × Positions) :=
  if topic entry = checkpoint then
    -- the target is not checked
    if target entry < numberOfTopics then
      .done (.ok, s.use (.position (target entry)), Function.update first (target entry) s.tell)
    else .undefined
  else if topic entry = pagestate then .done (.ok, s, first)
  else
    (s.isTopicValid (topic entry)).bind fun (valid, s) =>
      if valid then .done (.ok, preScan workers entry s, first) else .done (.bug, s, first)

/-- `do .. while`, so that an entry has been read before. -/
def preScanLoop : Nat → System d W → (entry : Memory) → Positions → Outcome (Result × System d W × Positions)
  | 0, _, _, _ => .running
  | fuel + 1, s, entry, first =>
    (preScanElem workers entry s first).bind fun (r, s, first) =>
      if r ≠ .ok then .done (r, s, first)
      else
        match readNextElem d s.mram s.curr entry with
        | .error .notFound => .done (.ok, s, first)
        | .error r => .done (r, s, first)
        | .ok (entry, curr) => preScanLoop fuel { s with curr := curr } entry first

/-! ### The second pass -/

def processEntry (t : Nat) (entry : Memory) (s : System d W) : System d W :=
  call (workers.processEntry t entry s.tell s.world) s

/-- The element for its target, then for every other topic that wants it. -/
def dispatch (first : Positions) (entry : Memory) (t : Nat) (s : System d W) : Outcome (Result × System d W) :=
  if t < numberOfTopics then
    let s := s.use (.position t)
    let processed : Outcome (System d W) :=
      if s.tell.ge (first t) then
        if isRegistered t then .done (processEntry workers t entry (s.use (.call t))) else .undefined
      else .done s
    processed.bind fun s =>
      .done (.ok, registered.foldl (fun s u =>
        if u ≠ t ∧ workers.isInterestedIn u entry s.world ∧ s.tell.ge (first u) then processEntry workers u entry s else s) s)
  else .undefined

def applyElem (first : Positions) (entry : Memory) (s : System d W) : Outcome (Result × System d W) :=
  if topic entry = checkpoint then .done (.ok, s)
  else if topic entry = pagestate then
    (s.isTopicValid (target entry)).bind fun (valid, s) =>
      if valid then dispatch workers first entry (target entry) s else .done (.bug, s)
  else dispatch workers first entry (topic entry) s

/-- Every element is read into a new object. -/
def applyLoop (first : Positions) : Nat → System d W → Outcome (Result × System d W)
  | 0, _ => .running
  | fuel + 1, s =>
    match readNextElem d s.mram s.curr cleared with
    | .error .notFound => .done (.ok, s)
    | .error r => .done (r, s)
    | .ok (entry, curr) =>
      (applyElem workers first entry { s with curr := curr }).bind fun (r, s) =>
        if r ≠ .ok then .done (r, s) else applyLoop first fuel s

def rewind : System d W := { s with curr := MramPersistence.sizeofPageAbs }

def applyJournalEntries (first : Positions) (fuel : Nat) (s : System d W) : Outcome (Result × System d W) :=
  (applyLoop workers first fuel s.rewind).bind fun (r, s) =>
    if r ≠ .ok then .done (r, s)
    else .done (.ok, registered.foldl (fun s t => call (workers.signalEndOfLog t s.world) s) { s with disabled := false })

/-- The two numbers limit the passes. -/
def processBuffer (scans applies : Nat) (s : System d W) : Outcome (Result × System d W) :=
  let s := { s with uses := [] }
  if c.mramSize.toNat = 0 then .done (.ok, s)
  else
    let s := { s with world := registered.foldl (fun w t => workers.resetState t w) s.world }.rewind
    match readNextElem d s.mram s.curr cleared with
    | .error .notFound => .done (.ok, s)
    | .error r => .done (r, s)
    | .ok (entry, curr) =>
      (preScanLoop workers scans { s with curr := curr, disabled := true } entry fun _ => s.tell).bind fun (r, s, first) =>
        if r ≠ .ok then .done (r, s) else applyJournalEntries workers first applies s

end System
end Paffs.Persistence.Raw
