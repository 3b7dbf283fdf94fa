import Paffs.Journal.Replay

/-! A transaction that is cut anywhere in its log is, after replay, either done or undone. -/
namespace Paffs.Journal
open Writes

namespace World
variable (p : Params)

/-- Pages are replaced, then the topic's success element is logged, then the old pages are given up. -/
def transaction (success : JournalEntry) (rs : List Replacement) (w : World) : World :=
  (((w.replaceAll p rs).addEvent success).invalidateOldPages p).clear

/-- An empty state machine at the start of its log. -/
def fresh (statuses : Statuses) (mapping : PageNo → Addr) : World := ⟨.clear, statuses, [], mapping⟩

end World

/-- The state after a log was replayed up to its end. -/
def recover (p : Params) (statuses : Statuses) (log : List JournalEntry) (mapping : PageNo → Addr) :
    JournalState × World :=
  ((Replay.run p log (.start statuses)).world mapping).signalEndOfLog p

variable {p : Params}

/-! ### The log of a transaction -/

/-- What is written once the pages are replaced. -/
def closingLog (p : Params) (success : JournalEntry) (σ : Statuses) (rs : List Replacement) : List JournalEntry :=
  success :: statusEntries (changes .dirty (olds rs) σ) ++
    (if olds rs = [] then [] else [.pagestate p.topic .invalidateOldPages])

theorem transaction_eq {w : World} (hsm : w.sm = .clear) {rs : List Replacement} (hlen : rs.length ≤ p.maxPages)
    (success : JournalEntry) : w.transaction p success rs =
    { w with statuses := mark .dirty (olds rs) (mark .used (news rs) w.statuses)
             log := w.log ++ World.replaceLog p w.statuses rs ++
               closingLog p success (mark .used (news rs) w.statuses) rs } := by
  have hfit : w.sm.list.length + rs.length ≤ p.maxPages := by simpa [hsm, PageStateMachine.clear] using hlen
  rw [World.transaction, World.replaceAll_eq hfit, World.invalidateOldPages_eq]
  simp [World.addEvent, World.clear, closingLog, hsm, PageStateMachine.clear]

section Cut
variable {σ : Statuses} {rs : List Replacement} {P : List JournalEntry}

/-- Cut while pages are being replaced: the first replacements are recorded, and nothing but their new
pages was touched. -/
theorem replaceLog_cut (h : P <+: World.replaceLog p σ rs) : ∃ k,
    P.filterMap (JournalEntry.pagestate? p) = (rs.take k).map (Replacement.entry p) ∧
      ∀ w ∈ P.filterMap JournalEntry.statusWrite?, w.1 ∈ news (rs.take k) ∧ w.2 = .used := by
  induction rs generalizing σ P with
  | nil =>
    obtain rfl := List.prefix_nil.1 h
    exact ⟨0, rfl, by simp⟩
  | cons r rs ih =>
    rw [World.replaceLog, List.cons_append, List.prefix_cons_iff] at h
    rcases h with rfl | ⟨Q, rfl, hQ⟩
    · exact ⟨0, rfl, by simp⟩
    have hentry : JournalEntry.pagestate? p (.pagestate p.topic (r.entry p)) = some (r.entry p) := if_pos rfl
    have hstatus : JournalEntry.statusWrite? (.pagestate p.topic (r.entry p)) = none := rfl
    rw [List.filterMap_cons_some hentry, List.filterMap_cons_none hstatus]
    rcases prefix_append_cases hQ with hQ | ⟨Q', rfl, hQ'⟩
    · refine ⟨1, ?_, fun w hw => ?_⟩
      · have hnone : Q.filterMap (JournalEntry.pagestate? p) = [] :=
          List.prefix_nil.1 (statusEntries_pagestates p _ ▸ hQ.filterMap _)
        simp [hnone]
      · have hmem := (hQ.filterMap _).subset hw
        rw [statusEntries_writes] at hmem
        exact mem_changes hmem
    · obtain ⟨k, hk, hw⟩ := ih hQ'
      refine ⟨k + 1, ?_, fun w hmem => ?_⟩
      · simp [hk]
      · rw [List.take_succ_cons, World.news_cons, List.mem_append]
        rw [List.filterMap_append, List.mem_append, statusEntries_writes] at hmem
        rcases hmem with hmem | hmem
        · exact ⟨.inl (mem_changes hmem).1, (mem_changes hmem).2⟩
        · exact ⟨.inr (hw w hmem).1, (hw w hmem).2⟩

theorem recorded_of_pagestates {rs : List Replacement}
    (h : P.filterMap (JournalEntry.pagestate? p) = rs.map (Replacement.entry p)) :
    recorded p P = rs.map (Replacement.kept p) := by
  rw [recorded, h, List.filterMap_map]
  induction rs with
  | nil => rfl
  | cons r rs ih => simp

/-- What the state machine makes of a log that was cut while pages were being replaced. -/
theorem run_replaceLog (h : P <+: World.replaceLog p σ rs) (hlen : rs.length ≤ p.maxPages) : ∃ k,
    recorded p P = (rs.take k).map (Replacement.kept p) ∧
      (Replay.run p P (.start σ)).sm.list = recorded p P ∧
      (Replay.run p P (.start σ)).sm.journalState = (if recorded p P = [] then .ok else .invalid) ∧
      (Replay.run p P (.start σ)).sound ∧
      mark .dirty (news (rs.take k)) (Replay.run p P (.start σ)).statuses = mark .dirty (news (rs.take k)) σ := by
  obtain ⟨k, hk, hw⟩ := replaceLog_cut h
  have hfit : (rs.take k).length ≤ p.maxPages := by rw [List.length_take]; omega
  obtain ⟨hlist, hstate, hsound⟩ := @Replay.feedAll_replacements p (.start σ) (rs.take k)
    (by simp [Replay.start, PageStateMachine.clear]) (by simpa [Replay.start, PageStateMachine.clear] using hfit)
  rw [← hk, ← Replay.run_sm] at hlist hstate
  rw [← hk, ← Replay.run_sound] at hsound
  have hrec := recorded_of_pagestates hk
  refine ⟨k, hrec, by rw [hlist, hrec]; rfl, ?_, by rw [hsound]; rfl, ?_⟩
  · rw [hstate, hrec]
    simp [Replay.start, PageStateMachine.clear]
  · rw [Replay.run_statuses]
    exact mark_apply (fun w hmem => (hw w hmem).1) σ

theorem replaceLog_writes (σ : Statuses) (rs : List Replacement) :
    apply ((World.replaceLog p σ rs).filterMap JournalEntry.statusWrite?) σ = mark .used (news rs) σ := by
  induction rs generalizing σ with
  | nil => simp [World.replaceLog, news, pages]
  | cons r rs ih =>
    have hstatus : JournalEntry.statusWrite? (.pagestate p.topic (r.entry p)) = none := rfl
    rw [World.replaceLog, List.cons_append, List.filterMap_cons_none hstatus, List.filterMap_append,
      statusEntries_writes, apply_append, apply_changes, ih, World.news_cons r rs, mark_append]

theorem replaceLog_pagestates (σ : Statuses) (rs : List Replacement) :
    (World.replaceLog p σ rs).filterMap (JournalEntry.pagestate? p) = rs.map (Replacement.entry p) := by
  induction rs generalizing σ with
  | nil => rfl
  | cons r rs ih =>
    have hentry : JournalEntry.pagestate? p (.pagestate p.topic (r.entry p)) = some (r.entry p) := if_pos rfl
    rw [World.replaceLog, List.cons_append, List.filterMap_cons_some hentry, List.filterMap_append,
      statusEntries_pagestates, ih, List.map_cons, List.nil_append]

/-- Cut after the success element: the state machine either has the old pages still to give up,
or finds them all given up. -/
theorem run_closing {s : Replay} {success : JournalEntry} {Q : List JournalEntry}
    (hQ : Q <+: closingLog p success s.statuses rs) (hne : Q ≠ [])
    (hsucc : success.pagestate? p = some .success) (hstate : s.sm.journalState = .invalid)
    (hlen : s.sm.list.length ≤ p.maxPages) (hsound : s.sound) :
    (Replay.run p Q s).sound ∧
      mark .dirty (olds rs) (Replay.run p Q s).statuses = mark .dirty (olds rs) s.statuses ∧
      ((Replay.run p Q s).sm = { s.sm with journalState := .recover } ∨
        (Replay.run p Q s).sm = .clear ∧ (Replay.run p Q s).statuses = mark .dirty (olds rs) s.statuses) := by
  have hstatus := JournalEntry.statusWrite_of_pagestate hsucc
  have hstep : Replay.step p s success = { s with sm := { s.sm with journalState := .recover } } := by
    simp [Replay.step, hstatus, hsucc, Replay.feed, PageStateMachine.processEntry, hstate, hsound, hlen]
  rw [closingLog, List.cons_append, List.prefix_cons_iff] at hQ
  obtain ⟨T, rfl, hT⟩ := hQ.resolve_left hne
  have hrun : Replay.run p (success :: T) s = Replay.run p T (Replay.step p s success) := rfl
  rw [hrun, hstep]
  have hmark : ∀ Q' : List JournalEntry, Q' <+: statusEntries (changes .dirty (olds rs) s.statuses) →
      Q'.filterMap (JournalEntry.pagestate? p) = [] ∧
        ∀ w ∈ Q'.filterMap JournalEntry.statusWrite?, w.1 ∈ olds rs := by
    intro Q' hQ'
    refine ⟨List.prefix_nil.1 (statusEntries_pagestates p _ ▸ hQ'.filterMap _), fun w hw => ?_⟩
    have hmem := (hQ'.filterMap _).subset hw
    rw [statusEntries_writes] at hmem
    exact (mem_changes hmem).1
  rcases prefix_append_cases hT with hT | ⟨Q', rfl, hQ'⟩
  · obtain ⟨hnone, hw⟩ := hmark T hT
    rw [Replay.run_eq, hnone]
    exact ⟨hsound, mark_apply hw _, .inl rfl⟩
  · obtain ⟨hnone, hw⟩ := hmark _ (List.prefix_refl _)
    rw [Replay.run_append, Replay.run_eq (statusEntries _), hnone, statusEntries_writes, apply_changes]
    have hagain : mark .dirty (olds rs) (mark .dirty (olds rs) s.statuses) = mark .dirty (olds rs) s.statuses := by
      funext a
      by_cases ha : a ∈ olds rs <;> simp [mark, ha]
    split at hQ'
    · obtain rfl := List.prefix_nil.1 hQ'
      exact ⟨hsound, hagain, .inl rfl⟩
    · rcases List.prefix_cons_iff.1 hQ' with rfl | ⟨Q'', rfl, hQ''⟩
      · exact ⟨hsound, hagain, .inl rfl⟩
      · obtain rfl := List.prefix_nil.1 hQ''
        simp [Replay.run, Replay.step, JournalEntry.statusWrite?, JournalEntry.pagestate?, Replay.feed,
          Replay.feedAll, PageStateMachine.processEntry, hsound, hagain, PageStateMachine.clear]

theorem not_mem_replaceLog (h : P <+: World.replaceLog p σ rs) {success : JournalEntry}
    (hsucc : success.pagestate? p = some .success) : success ∉ P := by
  intro hmem
  obtain ⟨k, hk, -⟩ := replaceLog_cut h
  have hin : Pagestate.success ∈ P.filterMap (JournalEntry.pagestate? p) := List.mem_filterMap.2 ⟨_, hmem, hsucc⟩
  rw [hk] at hin
  obtain ⟨r, -, hr⟩ := List.mem_map.1 hin
  have hentry := Replacement.entry_replacement p r
  rw [hr] at hentry
  cases hentry

/-! ### The two outcomes -/

/-- Undone: what was recorded is given back. -/
theorem recover_replacing (h : P <+: World.replaceLog p σ rs) (hlen : rs.length ≤ p.maxPages) (μ : PageNo → Addr) :
    (recover p σ P μ).2.statuses = mark .dirty (news (recorded p P)) σ ∧
      (recover p σ P μ).2.mapping =
        if p.withPosition then World.resetAddresses (recorded p P) μ else μ := by
  obtain ⟨k, hrec, hlist, hstate, -, hmark⟩ := run_replaceLog h hlen
  have hnews : news (recorded p P) = news (rs.take k) := by rw [hrec, news_kept]
  by_cases hnil : recorded p P = []
  · have hok : ((Replay.run p P (.start σ)).world μ).sm.journalState = .ok := by
      rw [Replay.world, hstate, if_pos hnil]
    rw [← hnews, hnil] at hmark
    rw [recover, World.signalEndOfLog_ok hok, hnil]
    refine ⟨?_, by simp [World.clear, World.resetAddresses, Replay.world]⟩
    change (Replay.run p P (.start σ)).statuses = _
    simpa [news, pages] using hmark
  · have hinv : ((Replay.run p P (.start σ)).world μ).sm.journalState = .invalid := by
      rw [Replay.world, hstate, if_neg hnil]
    rw [recover, World.signalEndOfLog_invalid hinv]
    simp only [Replay.world, hlist, and_true]
    rw [hnews, hmark]

/-- What the state machine makes of a log that was cut after its success element. -/
theorem run_closed {success : JournalEntry} {Q : List JournalEntry}
    (hQ : Q <+: closingLog p success (mark .used (news rs) σ) rs) (hne : Q ≠ [])
    (hsucc : success.pagestate? p = some .success) (hlen : rs.length ≤ p.maxPages) :
    (Replay.run p (World.replaceLog p σ rs ++ Q) (.start σ)).sound ∧
      mark .dirty (olds rs) (Replay.run p (World.replaceLog p σ rs ++ Q) (.start σ)).statuses =
        mark .dirty (olds rs) (mark .used (news rs) σ) ∧
      ((Replay.run p (World.replaceLog p σ rs ++ Q) (.start σ)).sm.journalState = .recover ∧
          olds (Replay.run p (World.replaceLog p σ rs ++ Q) (.start σ)).sm.list = olds rs ∨
        (Replay.run p (World.replaceLog p σ rs ++ Q) (.start σ)).sm = .clear ∧
          (Replay.run p (World.replaceLog p σ rs ++ Q) (.start σ)).statuses =
            mark .dirty (olds rs) (mark .used (news rs) σ)) := by
  have hfit : (Replay.start σ).sm.list.length + rs.length ≤ p.maxPages := by
    simpa [Replay.start, PageStateMachine.clear] using hlen
  obtain ⟨hlist, hstate, hsound⟩ := @Replay.feedAll_replacements p (.start σ) rs
    (by simp [Replay.start, PageStateMachine.clear]) hfit
  rw [← replaceLog_pagestates σ rs, ← Replay.run_sm] at hlist hstate
  rw [← replaceLog_pagestates σ rs, ← Replay.run_sound] at hsound
  have hstat : (Replay.run p (World.replaceLog p σ rs) (.start σ)).statuses = mark .used (news rs) σ := by
    rw [Replay.run_statuses]
    exact replaceLog_writes σ rs
  rw [Replay.run_append]
  by_cases hnil : rs = []
  · subst hnil
    obtain ⟨T, rfl, hT⟩ := (List.prefix_cons_iff.1 hQ).resolve_left hne
    obtain rfl : T = [] := by simpa [changes, statusEntries] using hT
    have hrun : Replay.run p [success] (.start σ) = .start σ := by
      have hstatus := JournalEntry.statusWrite_of_pagestate hsucc
      simp [Replay.run, Replay.step, hstatus, hsucc, Replay.feed, Replay.start, PageStateMachine.processEntry,
        PageStateMachine.clear]
    have hnone : Replay.run p (World.replaceLog p σ []) (.start σ) = .start σ := rfl
    rw [hnone, hrun]
    exact ⟨rfl, by simp [Replay.start], .inr ⟨rfl, by simp [Replay.start]⟩⟩
  · rw [if_neg hnil] at hstate
    have hroom : (Replay.run p (World.replaceLog p σ rs) (.start σ)).sm.list.length ≤ p.maxPages := by
      rw [hlist]
      simpa [Replay.start, PageStateMachine.clear] using hlen
    obtain ⟨hs, hmark, hsm⟩ := run_closing (by rw [hstat]; exact hQ) hne hsucc hstate hroom hsound
    rw [hstat] at hmark hsm
    refine ⟨hs, hmark, hsm.imp_left fun h => ?_⟩
    rw [h]
    refine ⟨rfl, ?_⟩
    rw [hlist]
    simp [Replay.start, PageStateMachine.clear]

/-- Done: the new pages are used and the old ones given up. -/
theorem recover_closing {success : JournalEntry} {Q : List JournalEntry}
    (hQ : Q <+: closingLog p success (mark .used (news rs) σ) rs) (hne : Q ≠ [])
    (hsucc : success.pagestate? p = some .success) (hlen : rs.length ≤ p.maxPages) (μ : PageNo → Addr) :
    (recover p σ (World.replaceLog p σ rs ++ Q) μ).2.statuses = mark .dirty (olds rs) (mark .used (news rs) σ) ∧
      (recover p σ (World.replaceLog p σ rs ++ Q) μ).2.mapping = μ := by
  obtain ⟨-, hmark, ⟨hstate, hlist⟩ | ⟨hsm, hdone⟩⟩ := run_closed hQ hne hsucc hlen
  · rw [recover, World.signalEndOfLog_recover hstate]
    simp only [Replay.world, hlist, and_true]
    exact hmark
  · rw [recover, World.signalEndOfLog_ok (by simp [Replay.world, hsm, PageStateMachine.clear])]
    simp only [World.clear, Replay.world, and_true]
    exact hdone

end Cut

theorem resetAddresses_eq (list : List Replacement) (μ : PageNo → Addr) :
    World.resetAddresses list μ = apply (list.map fun r => (r.pos, r.old)) μ := by
  rw [World.resetAddresses, apply, List.foldl_map]

/-- The last old address recorded for a position is its address again, every other one stays. -/
theorem resetAddresses_spec (list : List Replacement) (μ : PageNo → Addr) :
    (∀ A r B, list = A ++ r :: B → (∀ x ∈ B, x.pos ≠ r.pos) → World.resetAddresses list μ r.pos = r.old) ∧
      ∀ pos, (∀ r ∈ list, r.pos ≠ pos) → World.resetAddresses list μ pos = μ pos := by
  constructor
  · rintro A r B rfl hB
    rw [resetAddresses_eq, List.map_append, List.map_cons]
    refine apply_last _ _ fun w hw => ?_
    obtain ⟨x, hx, rfl⟩ := List.mem_map.1 hw
    exact hB x hx
  · intro pos hpos
    rw [resetAddresses_eq]
    refine apply_of_not_mem fun w hw => ?_
    obtain ⟨x, hx, rfl⟩ := List.mem_map.1 hw
    exact hpos x hx

theorem mem_news {rs : List Replacement} {r : Replacement} (hr : r ∈ rs) (h0 : r.neu ≠ 0) : r.neu ∈ news rs := by
  simp only [news, pages, List.mem_filter, List.mem_map]
  exact ⟨⟨r, hr, rfl⟩, by simpa using h0⟩

theorem mem_olds {rs : List Replacement} {r : Replacement} (hr : r ∈ rs) (h0 : r.old ≠ 0) : r.old ∈ olds rs := by
  simp only [olds, pages, List.mem_filter, List.mem_map]
  exact ⟨⟨r, hr, rfl⟩, by simpa using h0⟩

/-- Whatever part of its log was written, a transaction is done if its success element was, else undone.
A page that it wrote and replaced again is given up in both cases. -/
theorem transaction_atomic {p : Params} {success : JournalEntry} (hsucc : success.pagestate? p = some .success)
    {rs : List Replacement} (hlen : rs.length ≤ p.maxPages) (σ : Statuses) (μ μ' : PageNo → Addr)
    {P : List JournalEntry} (hP : P <+: ((World.fresh σ μ).transaction p success rs).log) :
    (Replay.run p P (.start σ)).sound ∧
    (success ∈ P →
      (∀ r ∈ rs, r.old ≠ 0 → (recover p σ P μ').2.statuses r.old = .dirty) ∧
      (∀ r ∈ rs, r.neu ≠ 0 → r.neu ∉ olds rs → (recover p σ P μ').2.statuses r.neu = .used) ∧
      (∀ a, a ∉ olds rs → a ∉ news rs → (recover p σ P μ').2.statuses a = σ a) ∧
      (recover p σ P μ').2.mapping = μ') ∧
    (success ∉ P →
      (∀ r ∈ recorded p P, r.neu ≠ 0 → (recover p σ P μ').2.statuses r.neu = .dirty) ∧
      (∀ a, a ∉ news (recorded p P) → (recover p σ P μ').2.statuses a = σ a) ∧
      (p.withPosition → ∀ A r B, recorded p P = A ++ r :: B → (∀ x ∈ B, x.pos ≠ r.pos) →
        (recover p σ P μ').2.mapping r.pos = r.old) ∧
      ∀ pos, (∀ r ∈ recorded p P, r.pos ≠ pos) → (recover p σ P μ').2.mapping pos = μ' pos) := by
  rw [transaction_eq rfl hlen] at hP
  change P <+: World.replaceLog p σ rs ++ closingLog p success (mark .used (news rs) σ) rs at hP
  by_cases hin : P <+: World.replaceLog p σ rs
  · have hout := not_mem_replaceLog hin hsucc
    obtain ⟨-, -, -, -, hsound, -⟩ := run_replaceLog hin hlen
    obtain ⟨hst, hmap⟩ := recover_replacing hin hlen μ'
    obtain ⟨hlast, hother⟩ := resetAddresses_spec (recorded p P) μ'
    refine ⟨hsound, fun h => (hout h).elim, fun _ => ⟨fun r hr h0 => ?_, fun a ha => ?_, fun hp => ?_, fun pos hpos => ?_⟩⟩
    · rw [hst, mark_of_mem _ (mem_news hr h0)]
    · rw [hst, mark_of_not_mem _ ha]
    · rw [hmap, if_pos hp]
      exact hlast
    · rw [hmap]
      split
      · exact hother pos hpos
      · rfl
  · obtain ⟨Q, rfl, hQ⟩ := (prefix_append_cases hP).resolve_left hin
    have hne : Q ≠ [] := by
      rintro rfl
      exact hin (by rw [List.append_nil])
    obtain ⟨hsound, -, -⟩ := run_closed hQ hne hsucc hlen
    obtain ⟨hst, hmap⟩ := recover_closing hQ hne hsucc hlen μ'
    have hmem : success ∈ World.replaceLog p σ rs ++ Q := by
      obtain ⟨T, rfl, -⟩ := (List.prefix_cons_iff.1 hQ).resolve_left hne
      simp
    refine ⟨hsound, fun _ => ⟨fun r hr h0 => ?_, fun r hr h0 hold => ?_, fun a hold hnew => ?_, hmap⟩,
      fun h => (h hmem).elim⟩
    · rw [hst, mark_of_mem _ (mem_olds hr h0)]
    · rw [hst, mark_of_not_mem _ hold, mark_of_mem _ (mem_news hr h0)]
    · rw [hst, mark_of_not_mem _ hold, mark_of_not_mem _ hnew]

/-- The second of two replacements is cut off. -/
theorem transaction_atomic_cut :
    (recover ⟨.dataIo, 256, true⟩ (fun a => if a = 5 then .used else .free)
      [.pagestate .dataIo (.replacePagePos 10 5 1 3), .setStatus 10 .used] (fun _ => 10)).2.statuses 10 = .dirty := by
  have hsucc : (JournalEntry.pagestate .dataIo .success).pagestate? ⟨.dataIo, 256, true⟩ = some .success := rfl
  have hlen : [(⟨10, 5, 1, 3⟩ : Replacement), ⟨11, 0, 1, 4⟩].length ≤ 256 := by decide
  have h := transaction_atomic hsucc hlen (fun a => if a = 5 then .used else .free) (fun _ => 0) (fun _ => 10)
    (P := [.pagestate .dataIo (.replacePagePos 10 5 1 3), .setStatus 10 .used]) (by decide)
  exact (h.2.2 (by decide)).1 ⟨10, 5, 1, 3⟩ (by decide) (by decide)

/-- The two outcomes without regard to pages that are both new and old, or to positions written twice. -/
def PlainOutcome (p : Params) (success : JournalEntry) (rs : List Replacement) (σ : Statuses) (P : List JournalEntry)
    (μ : PageNo → Addr) : Prop :=
  if success ∈ P then
    ∀ r ∈ rs, (r.neu ≠ 0 → (recover p σ P μ).2.statuses r.neu = .used) ∧
      (r.old ≠ 0 → (recover p σ P μ).2.statuses r.old = .dirty)
  else
    ∀ r ∈ recorded p P, (r.neu ≠ 0 → (recover p σ P μ).2.statuses r.neu = .dirty) ∧
      (r.old ≠ 0 → (recover p σ P μ).2.statuses r.old = .used) ∧
      (p.withPosition → (recover p σ P μ).2.mapping r.pos = r.old)

instance (p : Params) (success : JournalEntry) (rs : List Replacement) (σ : Statuses) (P : List JournalEntry)
    (μ : PageNo → Addr) : Decidable (PlainOutcome p success rs σ P μ) := by
  unfold PlainOutcome
  infer_instance

/-- A page that is written and replaced again cannot be both used and dirty. -/
theorem plainOutcome_fails :
    ¬ PlainOutcome ⟨.pac, 256, false⟩ (.pagestate .pac .success) [⟨10, 0, 0, 0⟩, ⟨11, 10, 0, 0⟩] (fun _ => .free)
      ((World.fresh (fun _ => .free) fun _ => 0).transaction ⟨.pac, 256, false⟩ (.pagestate .pac .success)
        [⟨10, 0, 0, 0⟩, ⟨11, 10, 0, 0⟩]).log (fun _ => 0) ∧
    ¬ PlainOutcome ⟨.dataIo, 256, true⟩ (.pagestate .dataIo .success) [⟨10, 5, 1, 3⟩, ⟨11, 10, 1, 3⟩]
      (fun a => if a = 5 then .used else .free)
      (((World.fresh (fun a => if a = 5 then .used else .free) fun _ => 5).transaction ⟨.dataIo, 256, true⟩
        (.pagestate .dataIo .success) [⟨10, 5, 1, 3⟩, ⟨11, 10, 1, 3⟩]).log.take 4) (fun _ => 11) := by
  decide

end Paffs.Journal
