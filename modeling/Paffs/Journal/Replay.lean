import Paffs.Lib.Writes
import Paffs.Journal.PageStateMachine

/-! What a run of the state machine writes to the log, and what replaying a log does. -/
namespace Paffs.Journal
open Writes

namespace JournalEntry

def statusWrite? : JournalEntry → Option (Addr × SummaryEntry)
  | .setStatus addr status => some (addr, status)
  | _ => none

/-- What an entry is to the state machine of a topic. To the tree, a new root node means success. -/
def pagestate? (p : Params) : JournalEntry → Option Pagestate
  | .pagestate target e => if target = p.topic then some e else none
  | .rootnode _ => if p.topic = .tree then some .success else none
  | _ => none

/-- An entry is for the summary cache or for a state machine, never for both. -/
theorem statusWrite_of_pagestate {p : Params} {e : JournalEntry} {a : Pagestate} (h : e.pagestate? p = some a) :
    e.statusWrite? = none := by
  cases e with
  | setStatus addr status => cases h
  | _ => rfl

end JournalEntry

def Pagestate.replacement? : Pagestate → Option Replacement
  | .replacePage neu old => some ⟨neu, old, 0, 0⟩
  | .replacePagePos neu old nod pos => some ⟨neu, old, nod, pos⟩
  | _ => none

/-- The replacements a log tells of. -/
def recorded (p : Params) (log : List JournalEntry) : List Replacement :=
  (log.filterMap (JournalEntry.pagestate? p)).filterMap Pagestate.replacement?

/-! ### Replaying -/

structure Replay where
  sm : PageStateMachine
  statuses : Statuses
  /-- No entry was refused, and the lists did not grow beyond their arrays. -/
  sound : Bool

namespace Replay
variable (p : Params)

def feed (s : Replay) (e : Pagestate) : Replay :=
  let (r, sm) := s.sm.processEntry e
  { s with sm, sound := s.sound && r = .ok && sm.list.length ≤ p.maxPages }

/-- The summary cache and the state machine each take their entries. -/
def step (s : Replay) (e : JournalEntry) : Replay :=
  let s := match e.statusWrite? with
    | some (addr, status) => { s with statuses := Function.update s.statuses addr status }
    | none => s
  match e.pagestate? p with
  | some e => s.feed p e
  | none => s

def run (log : List JournalEntry) (s : Replay) : Replay := log.foldl (step p) s

/-- The state at the start of a replay. -/
def start (statuses : Statuses) : Replay := ⟨.clear, statuses, true⟩

/-- The file system as the end of the log finds it, whatever addresses the file has by then. -/
def world (s : Replay) (mapping : PageNo → Addr) : World := ⟨s.sm, s.statuses, [], mapping⟩

def feedAll (es : List Pagestate) (s : Replay) : Replay := es.foldl (feed p) s

variable {p}

theorem run_append (A B : List JournalEntry) (s : Replay) : run p (A ++ B) s = run p B (run p A s) :=
  List.foldl_append

private theorem feedAll_statuses (es : List Pagestate) (s : Replay) : (feedAll p es s).statuses = s.statuses := by
  induction es generalizing s with
  | nil => rfl
  | cons e es ih => exact ih (s.feed p e)

private theorem feedAll_with_statuses (es : List Pagestate) (s : Replay) (σ : Statuses) :
    feedAll p es { s with statuses := σ } = { feedAll p es s with statuses := σ } := by
  induction es generalizing s with
  | nil => rfl
  | cons e es ih => exact ih (s.feed p e)

private theorem step_eq (s : Replay) (e : JournalEntry) : step p s e =
    { feedAll p (e.pagestate? p).toList s with statuses := apply e.statusWrite?.toList s.statuses } := by
  cases e with
  | setStatus addr status => rfl
  | pagestate target e => by_cases h : target = p.topic <;> simp [step, JournalEntry.pagestate?, h] <;> rfl
  | rootnode addr => by_cases h : p.topic = .tree <;> simp [step, JournalEntry.pagestate?, h] <;> rfl
  | update no | newInodeSize inodeNo filesize | setAddress inodeNo page addr | checkpoint target => rfl

/-- Entries of both kinds do not interfere. -/
theorem run_eq (log : List JournalEntry) (s : Replay) : run p log s =
    { feedAll p (log.filterMap (JournalEntry.pagestate? p)) s with
      statuses := apply (log.filterMap JournalEntry.statusWrite?) s.statuses } := by
  induction log generalizing s with
  | nil => rfl
  | cons e log ih =>
    have hlog : e :: log = [e] ++ log := rfl
    change run p log (step p s e) = _
    rw [ih, step_eq, hlog, List.filterMap_append, List.filterMap_append, apply_append]
    have happ : ∀ es : List Pagestate, feedAll p ((e.pagestate? p).toList ++ es) s =
        feedAll p es (feedAll p (e.pagestate? p).toList s) := fun es => List.foldl_append
    rw [feedAll_with_statuses]
    cases h : e.pagestate? p <;> cases h' : e.statusWrite? <;> simp [h, h', feedAll]

/-- The state machine does not look at the statuses. -/
theorem run_with_statuses (log : List JournalEntry) (s : Replay) (σ τ : Statuses) :
    { run p log { s with statuses := σ } with statuses := τ } = { run p log s with statuses := τ } := by
  rw [run_eq, run_eq, feedAll_with_statuses]

theorem eq_start {s : Replay} {σ : Statuses} (hsm : s.sm = .clear) (hσ : s.statuses = σ) (hs : s.sound) :
    s = start σ := by
  obtain ⟨sm, statuses, sound⟩ := s
  simp_all [start]

theorem run_statuses (log : List JournalEntry) (s : Replay) :
    (run p log s).statuses = apply (log.filterMap JournalEntry.statusWrite?) s.statuses := by
  rw [run_eq]

theorem run_sm (log : List JournalEntry) (s : Replay) :
    (run p log s).sm = (feedAll p (log.filterMap (JournalEntry.pagestate? p)) s).sm := by
  rw [run_eq]

theorem run_sound (log : List JournalEntry) (s : Replay) :
    (run p log s).sound = (feedAll p (log.filterMap (JournalEntry.pagestate? p)) s).sound := by
  rw [run_eq]

end Replay

/-- What the lists keep of a replacement. -/
def Replacement.kept (p : Params) (r : Replacement) : Replacement :=
  if p.withPosition then r else ⟨r.neu, r.old, 0, 0⟩

section Kept
variable (p : Params) (r : Replacement)

@[simp] theorem Replacement.kept_neu : (r.kept p).neu = r.neu := by
  unfold Replacement.kept
  split <;> rfl

@[simp] theorem Replacement.kept_old : (r.kept p).old = r.old := by
  unfold Replacement.kept
  split <;> rfl

@[simp] theorem Replacement.entry_replacement : (r.entry p).replacement? = some (r.kept p) := by
  unfold Replacement.kept Replacement.entry
  split <;> rfl

end Kept

namespace Replay
variable {p : Params}

theorem feed_replacement {s : Replay} (hs : s.sm.journalState ≠ .recover) (hlen : s.sm.list.length < p.maxPages)
    (r : Replacement) : (s.feed p (r.entry p)).sm.list = s.sm.list ++ [r.kept p] ∧
      (s.feed p (r.entry p)).sm.journalState = .invalid ∧ (s.feed p (r.entry p)).sound = s.sound := by
  have hfit : s.sm.list.length + 1 ≤ p.maxPages := hlen
  cases hp : p.withPosition <;> cases hst : s.sm.journalState <;>
    simp_all [feed, Replacement.entry, Replacement.kept, PageStateMachine.processEntry, PageStateMachine.append]

/-- The machine keeps every replacement it is told of, until it sees a success. -/
theorem feedAll_replacements {s : Replay} {rs : List Replacement} (hs : s.sm.journalState ≠ .recover)
    (hlen : s.sm.list.length + rs.length ≤ p.maxPages) :
    (feedAll p (rs.map (Replacement.entry p)) s).sm.list = s.sm.list ++ rs.map (Replacement.kept p) ∧
      (feedAll p (rs.map (Replacement.entry p)) s).sm.journalState =
        (if rs = [] then s.sm.journalState else .invalid) ∧
      (feedAll p (rs.map (Replacement.entry p)) s).sound = s.sound := by
  induction rs generalizing s with
  | nil => simp [feedAll]
  | cons r rs ih =>
    rw [List.length_cons] at hlen
    have hroom : s.sm.list.length < p.maxPages := by omega
    obtain ⟨hlist, hstate, hsound⟩ := feed_replacement hs hroom r
    have hnext := @ih (s.feed p (r.entry p)) (by simp [hstate]) (by rw [hlist]; simp; omega)
    have hstep : feedAll p ((r :: rs).map (Replacement.entry p)) s =
        feedAll p (rs.map (Replacement.entry p)) (s.feed p (r.entry p)) := rfl
    rw [hstep, hnext.1, hnext.2.1, hnext.2.2, hlist, hstate, hsound]
    simp

end Replay

/-! ### Running -/

/-- The pages of a list of addresses, 0 being none. -/
def pages (addrs : List Addr) : List Addr := addrs.filter (· ≠ 0)

def news (rs : List Replacement) : List Addr := pages (rs.map Replacement.neu)
def olds (rs : List Replacement) : List Addr := pages (rs.map Replacement.old)

@[simp] theorem news_nil : news [] = [] := rfl
@[simp] theorem olds_nil : olds [] = [] := rfl

def statusEntries (ws : List (Addr × SummaryEntry)) : List JournalEntry := ws.map fun w => .setStatus w.1 w.2

@[simp] theorem statusEntries_writes (ws : List (Addr × SummaryEntry)) :
    (statusEntries ws).filterMap JournalEntry.statusWrite? = ws := by
  induction ws with
  | nil => rfl
  | cons w ws ih => simpa [statusEntries, JournalEntry.statusWrite?] using ih

@[simp] theorem statusEntries_pagestates (p : Params) (ws : List (Addr × SummaryEntry)) :
    (statusEntries ws).filterMap (JournalEntry.pagestate? p) = [] := by
  induction ws with
  | nil => rfl
  | cons w ws ih => exact ih

namespace World
variable {p : Params}

theorem setAll_eq (state : SummaryEntry) (addrs : List Addr) (w : World) : setAll state addrs w =
    { w with statuses := mark state (pages addrs) w.statuses
             log := w.log ++ statusEntries (changes state (pages addrs) w.statuses) } := by
  induction addrs generalizing w with
  | nil => simp [setAll, pages, changes, statusEntries]
  | cons addr addrs ih =>
    rw [setAll, ih]
    by_cases h0 : addr = 0
    · simp [h0, pages]
    · have hpages : pages (addr :: addrs) = addr :: pages addrs := by simp [pages, h0]
      rw [hpages, mark_cons, changes]
      by_cases hst : w.statuses addr = state
      · have hsame : Function.update w.statuses addr state = w.statuses := by rw [← hst, Function.update_eq_self]
        simp [setPageStatus, h0, hst, hsame]
      · simp [setPageStatus, h0, hst, addEvent, statusEntries]

def replaceAll (p : Params) (rs : List Replacement) (w : World) : World :=
  rs.foldl (fun w r => (w.replacePage p r).2) w

/-- What replacing pages writes to the log. -/
def replaceLog (p : Params) : Statuses → List Replacement → List JournalEntry
  | _, [] => []
  | σ, r :: rs => .pagestate p.topic (r.entry p) :: statusEntries (changes .used (news [r]) σ) ++
      replaceLog p (mark .used (news [r]) σ) rs

theorem news_cons (r : Replacement) (rs : List Replacement) : news (r :: rs) = news [r] ++ news rs := by
  rw [news, news, news, pages, pages, pages, ← List.filter_append]
  rfl

theorem replacePage_eq {w : World} (hlen : w.sm.list.length ≠ p.maxPages) (r : Replacement) :
    w.replacePage p r = (.ok,
      { w with sm := { w.sm with list := w.sm.list ++ [r] }
               statuses := mark .used (news [r]) w.statuses
               log := w.log ++ .pagestate p.topic (r.entry p) ::
                 statusEntries (changes .used (news [r]) w.statuses) }) := by
  by_cases h0 : r.neu = 0
  · simp [replacePage, hlen, h0, news, pages, addEvent, changes, statusEntries]
  · have hnews : news [r] = [r.neu] := by simp [news, pages, h0]
    rw [hnews, mark_cons, mark_nil]
    by_cases hst : w.statuses r.neu = .used
    · have hsame : Function.update w.statuses r.neu .used = w.statuses := by rw [← hst, Function.update_eq_self]
      simp [replacePage, hlen, h0, setPageStatus, addEvent, hst, hsame, changes, statusEntries]
    · simp [replacePage, hlen, h0, setPageStatus, addEvent, hst, changes, statusEntries]

theorem replaceAll_eq {rs : List Replacement} {w : World} (hlen : w.sm.list.length + rs.length ≤ p.maxPages) :
    replaceAll p rs w =
      { w with sm := { w.sm with list := w.sm.list ++ rs }
               statuses := mark .used (news rs) w.statuses
               log := w.log ++ replaceLog p w.statuses rs } := by
  induction rs generalizing w with
  | nil => simp [replaceAll, news, pages, replaceLog]
  | cons r rs ih =>
    rw [List.length_cons] at hlen
    have hstep : replaceAll p (r :: rs) w = replaceAll p rs (w.replacePage p r).2 := rfl
    rw [hstep, replacePage_eq (by omega), ih (by simp; omega), replaceLog, news_cons r rs, mark_append]
    simp

theorem invalidateOldPages_eq (w : World) : w.invalidateOldPages p =
    { w with sm := .clear
             statuses := mark .dirty (olds w.sm.list) w.statuses
             log := w.log ++ statusEntries (changes .dirty (olds w.sm.list) w.statuses) ++
               (if olds w.sm.list = [] then [] else [.pagestate p.topic .invalidateOldPages]) } := by
  have hany : (w.sm.list.map Replacement.old).any (· ≠ 0) ↔ olds w.sm.list ≠ [] := by
    simp [olds, pages, List.filter_eq_nil_iff]
  simp only [invalidateOldPages, setAll_eq]
  change clear (if _ then _ else _) = _
  by_cases h : olds w.sm.list = []
  · rw [if_neg (by rw [hany]; simp [h]), if_pos h]
    simp [clear, olds]
  · rw [if_pos (by rw [hany]; exact h), if_neg h]
    simp [clear, olds, addEvent]

/-! ### The end of the log -/

theorem signalEndOfLog_ok {w : World} (h : w.sm.journalState = .ok) : w.signalEndOfLog p = (.ok, w.clear) := by
  simp [signalEndOfLog, h]

theorem signalEndOfLog_invalid {w : World} (h : w.sm.journalState = .invalid) : w.signalEndOfLog p = (.invalid,
    { sm := .clear
      statuses := mark .dirty (news w.sm.list) w.statuses
      log := w.log ++ statusEntries (changes .dirty (news w.sm.list) w.statuses) ++
        [.pagestate p.topic .invalidateOldPages]
      mapping := if p.withPosition then resetAddresses w.sm.list w.mapping else w.mapping }) := by
  simp only [signalEndOfLog, h, setAll_eq]
  split <;> rfl

theorem signalEndOfLog_recover {w : World} (h : w.sm.journalState = .recover) : w.signalEndOfLog p = (.recover,
    { sm := .clear
      statuses := mark .dirty (olds w.sm.list) w.statuses
      log := w.log ++ statusEntries (changes .dirty (olds w.sm.list) w.statuses) ++
        [.pagestate p.topic .invalidateOldPages]
      mapping := w.mapping }) := by
  simp only [signalEndOfLog, h, setAll_eq]
  rfl

end World

@[simp] theorem news_kept (p : Params) (rs : List Replacement) : news (rs.map (Replacement.kept p)) = news rs := by
  simp [news, Function.comp_def]

@[simp] theorem olds_kept (p : Params) (rs : List Replacement) : olds (rs.map (Replacement.kept p)) = olds rs := by
  simp [olds, Function.comp_def]

theorem news_take_subset {rs : List Replacement} (k : Nat) {a : Addr} (h : a ∈ news (rs.take k)) : a ∈ news rs := by
  have hsub : (news (rs.take k)).Sublist (news rs) := ((List.take_sublist k rs).map _).filter _
  exact hsub.subset h

end Paffs.Journal
