import Paffs.Journal.Success

/-! What the page address cache works on: flash pages with address lists, page statuses, the inodes in the
tree, and its page state machine. -/
namespace Paffs.AddressCache
open Journal

/-- `Addr[addrsPerPage]` -/
abbrev AddrList (n : Nat) := Fin n → Addr

/-- What reaches the flash or the journal, in order; `store` is the journal's tree update. -/
inductive Event (n : Nat) where
  | entry (e : JournalEntry)
  | write (addr : Addr) (list : AddrList n)
  | store (inode : Inode)

/-- The tree is the map it stands for. -/
structure Device (n : Nat) where
  readOnly : Bool
  statuses : Statuses
  flash : Addr → AddrList n
  tree : InodeNo → Option Inode
  statemachine : PageStateMachine
  events : List (Event n)

/-- `findWritableArea` and `findFirstFreePage`: a page that is not in use; a dirty one if its area had to be
collected first. -/
structure Areas (n : Nat) where
  findWritablePage : Device n → Option Addr
  unused : ∀ {d a}, findWritablePage d = some a → a ≠ 0 ∧ d.statuses a ≠ .used

/-- The second action only if the first one went well. -/
def andThen {σ : Type*} (x : Result × σ) (f : σ → Result × σ) : Result × σ := if x.1 = .ok then f x.2 else x

theorem andThen_ok {σ : Type*} (s : σ) (f : σ → Result × σ) : andThen (.ok, s) f = f s := rfl

theorem ok_of_andThen {σ : Type*} {x : Result × σ} {f : σ → Result × σ} (h : (andThen x f).1 = .ok) :
    ∃ s, x = (.ok, s) ∧ (f s).1 = .ok := by
  obtain ⟨r, s⟩ := x
  by_cases hr : r = .ok
  · subst hr
    exact ⟨s, rfl, h⟩
  · rw [andThen, if_neg hr] at h
    exact (hr h).elim

namespace Device
variable {n : Nat}

def addEvent (e : Event n) (d : Device n) : Device n := { d with events := d.events ++ [e] }

/-- An action on the page statuses or on the state machine. -/
def act (f : World → Result × World) (d : Device n) : Result × Device n :=
  let (r, w) := f ⟨d.statemachine, d.statuses, [], fun _ => 0⟩
  (r, { d with statemachine := w.sm, statuses := w.statuses, events := d.events ++ w.log.map .entry })

def setPageStatus (addr : Addr) (state : SummaryEntry) : Device n → Result × Device n := act (World.setPageStatus addr state)

def replacePage (neu old : Addr) : Device n → Result × Device n :=
  act (World.replacePage Judging.pac.params ⟨neu, old, 0, 0⟩)

/-- Its result is `ok` in any case. -/
def invalidateOldPages (d : Device n) : Device n :=
  (d.act fun w => (.ok, w.invalidateOldPages Judging.pac.params)).2

def getMinSpaceLeft (d : Device n) : Nat := Judging.pac.params.maxPages - d.statemachine.list.length

def updateExistingInode (inode : Inode) (d : Device n) : Result × Device n :=
  if (d.tree inode.no).isSome then
    (.ok, { d.addEvent (.store inode) with tree := Function.update d.tree inode.no (some inode) })
  else (.notFound, d)

/-- Address 0 stands for a list that was not used yet. All others lie in index areas. -/
def readAddrList (d : Device n) (source : Addr) : AddrList n := if source = 0 then fun _ => 0 else d.flash source

/-- The second component is where the list went. -/
def writeAddrList (areas : Areas n) (source : Addr) (list : AddrList n) (d : Device n) : Result × Addr × Device n :=
  match areas.findWritablePage d with
  | none => (.noSpace, source, d)
  | some neu =>
    let (r, d) := d.replacePage neu source
    if r ≠ .ok then (r, source, d)
    else (.ok, neu, { d.addEvent (.write neu list) with flash := Function.update d.flash neu list })

end Device
end Paffs.AddressCache
