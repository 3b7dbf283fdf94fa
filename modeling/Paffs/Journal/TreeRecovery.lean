import Paffs.Journal.Atomicity

/-! Two power losses in a row: the first one in a commit of the tree, the second one after a recovery that
has itself written to the log. -/
namespace Paffs.Journal
open Writes

/-- What a commit of the tree cache replaces: pages of removed nodes, nodes below the root, and last the root. -/
structure Commit where
  below : List Replacement
  root : Replacement

namespace Commit

def replaced (c : Commit) : List Replacement := c.below ++ [c.root]

/-- The tree's pages after the commit. -/
def apply (c : Commit) (tree : List Addr) : List Addr :=
  tree.filter (· ∉ olds c.replaced) ++ news c.replaced

/-- The commit gives up pages of the tree only, and writes to free ones. -/
structure Valid (p : Params) (σ : Statuses) (tree : List Addr) (c : Commit) : Prop where
  fits : c.replaced.length ≤ p.maxPages
  giveUp : ∀ a ∈ olds c.replaced, a ∈ tree
  fresh : ∀ a ∈ news c.replaced, σ a = .free

end Commit

namespace World
variable (p : Params)

def commitCache (c : Commit) (w : World) : World :=
  (w.transaction p (.rootnode c.root.neu) c.replaced).addEvent (.checkpoint .tree)

def commits (cs : List Commit) (w : World) : World := cs.foldl (fun w c => w.commitCache p c) w

/-- `TreeCache::signalEndOfLog`: after a revert every node in the cache is written again, if there is one. -/
def signalEndOfTreeLog (recommit : Option Commit) (w : World) : World :=
  match w.signalEndOfLog p with
  | (.invalid, w) => w.commits p recommit.toList
  | (_, w) => w

end World

/-- The entries behind the last checkpoint. -/
def uncheckpointed (target : Topic) (log : List JournalEntry) : List JournalEntry :=
  log.rtakeWhile (· ≠ .checkpoint target)

/-- The summary cache takes the whole log, the state machine what is behind its checkpoint. -/
def replay (p : Params) (σ : Statuses) (log : List JournalEntry) : Replay :=
  { Replay.run p (uncheckpointed p.topic log) (.start σ) with
    statuses := apply (log.filterMap JournalEntry.statusWrite?) σ }

/-! ### What the log means -/

/-- The tree of the last logged root node, the pages given up since, and those written for a new root. -/
structure View where
  tree : List Addr
  dead : List Addr
  pending : List Replacement

namespace View

def feed (v : View) (e : Pagestate) : View :=
  match e with
  | .success =>
    ⟨v.tree.filter (· ∉ olds v.pending) ++ news v.pending, v.dead ++ olds v.pending, []⟩
  | .invalidateOldPages => { v with dead := v.dead ++ news v.pending, pending := [] }
  | e => { v with pending := v.pending ++ e.replacement?.toList }

def ofLog (p : Params) (v : View) (log : List JournalEntry) : View :=
  (log.filterMap (JournalEntry.pagestate? p)).foldl feed v

/-- Pages of the tree are used, superseded and abandoned ones dirty, all others as they were. -/
def statuses (σ : Statuses) (v : View) : Statuses := fun a =>
  if a ∈ v.tree then .used else if a ∈ v.dead ∨ a ∈ news v.pending then .dirty else σ a

end View

def committed (σ : Statuses) (c : Commit) : Statuses :=
  mark .dirty (olds c.replaced) (mark .used (news c.replaced) σ)

/-- The commits can be made one after the other. -/
def ValidChain (p : Params) : Statuses → List Addr → List Commit → Prop
  | _, _, [] => True
  | σ, tree, c :: cs => c.Valid p σ tree ∧ ValidChain p (committed σ c) (c.apply tree) cs

variable {p : Params}

/-! ### Logs of commits -/

def commitLog (p : Params) (σ : Statuses) (c : Commit) : List JournalEntry :=
  World.replaceLog p σ c.replaced ++
    closingLog p (.rootnode c.root.neu) (mark .used (news c.replaced) σ) c.replaced

def commitsLog (p : Params) : Statuses → List Commit → List JournalEntry
  | _, [] => []
  | σ, c :: cs => commitLog p σ c ++ .checkpoint .tree :: commitsLog p (committed σ c) cs

theorem commitCache_eq {w : World} (hsm : w.sm = .clear) {c : Commit} (hlen : c.replaced.length ≤ p.maxPages) :
    w.commitCache p c = { w with statuses := committed w.statuses c
                                 log := w.log ++ (commitLog p w.statuses c ++ [.checkpoint .tree]) } := by
  rw [World.commitCache, transaction_eq hsm hlen]
  simp [World.addEvent, commitLog, committed]

theorem commits_eq {w : World} (hsm : w.sm = .clear) {tree : List Addr} {cs : List Commit}
    (hcs : ValidChain p w.statuses tree cs) :
    (w.commits p cs).log = w.log ++ commitsLog p w.statuses cs := by
  induction cs generalizing w tree with
  | nil => simp [World.commits, commitsLog]
  | cons c cs ih =>
    have heq := commitCache_eq hsm hcs.1.fits
    have hnext := @ih (w.commitCache p c) (by rw [heq]; exact hsm) (c.apply tree) (by rw [heq]; exact hcs.2)
    change (World.commits p cs (w.commitCache p c)).log = _
    rw [hnext, heq]
    simp [commitsLog]

/-! ### Checkpoints -/

theorem uncheckpointed_of_not_mem {t : Topic} {A : List JournalEntry} (h : .checkpoint t ∉ A) :
    uncheckpointed t A = A := by
  rw [uncheckpointed, List.rtakeWhile_eq_self_iff]
  intro e he
  have hne : e ≠ .checkpoint t := fun heq => h (heq ▸ he)
  simpa using hne

/-- Nothing before a checkpoint is processed. -/
theorem uncheckpointed_append {t : Topic} {A B : List JournalEntry} (h : .checkpoint t ∈ B) :
    uncheckpointed t (A ++ B) = uncheckpointed t B := by
  induction B using List.reverseRecOn with
  | nil => simp at h
  | append_singleton B e ih =>
    rw [uncheckpointed, uncheckpointed, ← List.append_assoc, List.rtakeWhile_concat, List.rtakeWhile_concat]
    by_cases he : e = .checkpoint t
    · simp [he]
    · have hB : .checkpoint t ∈ B := by simpa [Ne.symm he] using h
      rw [if_pos (by simpa using he), if_pos (by simpa using he)]
      exact congrArg (· ++ [e]) (ih hB)

theorem uncheckpointed_append_of_not_mem {t : Topic} {A B : List JournalEntry} (h : .checkpoint t ∉ B) :
    uncheckpointed t (A ++ B) = uncheckpointed t A ++ B := by
  induction B using List.reverseRecOn with
  | nil => simp
  | append_singleton B e ih =>
    rw [List.mem_append, not_or, List.mem_singleton] at h
    rw [uncheckpointed, ← List.append_assoc, List.rtakeWhile_concat, if_pos (by simpa using Ne.symm h.2)]
    rw [← List.append_assoc]
    exact congrArg (· ++ [e]) (ih h.1)

/-- Of what comes before a checkpoint only the statuses count. -/
theorem replay_append_of_mem (σ : Statuses) (A : List JournalEntry) {B : List JournalEntry}
    (hB : .checkpoint p.topic ∈ B) :
    replay p σ (A ++ B) = replay p (Writes.apply (A.filterMap JournalEntry.statusWrite?) σ) B := by
  rw [replay, replay, List.filterMap_append, apply_append, uncheckpointed_append hB]
  exact Replay.run_with_statuses _ (.start _) σ _

/-- A first part that leaves the state machine as it was at the start only counts for the statuses. -/
theorem replay_append_of_start {σ σ' : Statuses} {A B : List JournalEntry} (hA : .checkpoint p.topic ∉ A)
    (hrun : Replay.run p A (.start σ) = .start σ') : replay p σ (A ++ B) = replay p σ' B := by
  have hσ : Writes.apply (A.filterMap JournalEntry.statusWrite?) σ = σ' := by
    have hst := Replay.run_statuses (p := p) A (.start σ)
    rw [hrun] at hst
    exact hst.symm
  by_cases hB : .checkpoint p.topic ∈ B
  · rw [replay_append_of_mem σ A hB, hσ]
  · rw [replay, replay, List.filterMap_append, apply_append, hσ, uncheckpointed_append_of_not_mem hB, uncheckpointed_of_not_mem hA, uncheckpointed_of_not_mem hB,
      Replay.run_append, hrun]

/-- A part that ends with a checkpoint only counts for the statuses. -/
theorem replay_append_checkpoint (σ : Statuses) (A B : List JournalEntry) :
    replay p σ (A ++ .checkpoint p.topic :: B) =
      replay p (Writes.apply (A.filterMap JournalEntry.statusWrite?) σ) B := by
  have hstatus : JournalEntry.statusWrite? (.checkpoint p.topic) = none := rfl
  have hlog : A ++ .checkpoint p.topic :: B = (A ++ [.checkpoint p.topic]) ++ B := by simp
  have hun : uncheckpointed p.topic (A ++ [.checkpoint p.topic]) = [] := by
    rw [uncheckpointed, List.rtakeWhile_concat, if_neg (by simp)]
  by_cases hB : .checkpoint p.topic ∈ B
  · rw [hlog, replay_append_of_mem σ _ hB, List.filterMap_append, List.filterMap_cons_none hstatus]
    simp
  · rw [replay, replay, List.filterMap_append, List.filterMap_cons_none hstatus, apply_append, hlog,
      uncheckpointed_append_of_not_mem hB, hun, uncheckpointed_of_not_mem hB, List.nil_append]
    exact Replay.run_with_statuses _ (.start _) σ _

/-- Without a checkpoint everything is replayed. -/
theorem replay_of_not_mem {σ : Statuses} {A : List JournalEntry} (hA : .checkpoint p.topic ∉ A) :
    replay p σ A = Replay.run p A (.start σ) := by
  rw [replay, uncheckpointed_of_not_mem hA]
  have hst := Replay.run_statuses (p := p) A (.start σ)
  change _ = Writes.apply _ σ at hst
  rw [← hst]

/-! ### Cutting one commit -/

namespace View
variable {v : View} {σ₀ : Statuses} {rs : List Replacement}

theorem ofLog_append (p : Params) (v : View) (A B : List JournalEntry) :
    v.ofLog p (A ++ B) = (v.ofLog p A).ofLog p B := by
  rw [ofLog, ofLog, ofLog, List.filterMap_append, List.foldl_append]

theorem ofLog_replacements (v : View) {P : List JournalEntry}
    (h : P.filterMap (JournalEntry.pagestate? p) = rs.map (Replacement.entry p)) :
    v.ofLog p P = { v with pending := v.pending ++ rs.map (Replacement.kept p) } := by
  rw [ofLog, h]
  clear h
  induction rs generalizing v with
  | nil => simp
  | cons r rs ih =>
    have hfeed : v.feed (r.entry p) = { v with pending := v.pending ++ [r.kept p] } := by
      have hr := Replacement.entry_replacement p r
      unfold Replacement.entry at hr ⊢
      split <;> simp_all [feed]
    rw [List.map_cons, List.foldl_cons, hfeed, ih]
    simp

theorem statuses_pending (hv : v.pending = []) (hfresh : ∀ a ∈ news rs, v.statuses σ₀ a = .free) :
    { v with pending := v.pending ++ rs.map (Replacement.kept p) }.statuses σ₀ =
      mark .dirty (news rs) (v.statuses σ₀) := by
  funext a
  simp only [statuses, hv, List.nil_append, news_kept]
  by_cases hnew : a ∈ news rs
  · have htree : a ∉ v.tree := by
      intro h
      have hfree := hfresh a hnew
      simp [statuses, h] at hfree
    simp [mark, hnew, htree]
  · simp [mark, hnew, statuses, hv]

theorem statuses_success (hv : v.pending = []) (hold : ∀ a ∈ olds rs, a ∈ v.tree)
    (hfresh : ∀ a ∈ news rs, v.statuses σ₀ a = .free) :
    ({ v with pending := v.pending ++ rs.map (Replacement.kept p) }.feed .success).statuses σ₀ =
      mark .dirty (olds rs) (mark .used (news rs) (v.statuses σ₀)) := by
  funext a
  simp only [statuses, feed, hv, List.nil_append, news_kept, olds_kept, List.mem_append, List.mem_filter,
    decide_eq_true_eq]
  have hfree : a ∈ news rs → a ∉ v.tree := by
    intro hnew h
    have hf := hfresh a hnew
    simp [statuses, h] at hf
  by_cases hin : a ∈ olds rs
  · have htree := hold a hin
    have hnew : a ∉ news rs := fun h => hfree h htree
    simp [mark, hin, hnew]
  · by_cases hnew : a ∈ news rs
    · simp [mark, hin, hnew]
    · by_cases htree : a ∈ v.tree <;> simp [mark, hin, hnew, htree, statuses, hv]

end View

section OneCommit
variable {v : View} {σ₀ σ : Statuses} {c : Commit} {Q : List JournalEntry}

theorem rootnode_success (ht : p.topic = .tree) (addr : Addr) :
    (JournalEntry.rootnode addr).pagestate? p = some .success := if_pos ht

theorem closing_pagestates {success : JournalEntry} (hsucc : success.pagestate? p = some .success)
    {rs : List Replacement} (hQ : Q <+: closingLog p success σ rs) (hne : Q ≠ []) (v : View) :
    v.ofLog p Q = v.feed .success := by
  obtain ⟨T, rfl, hT⟩ := (List.prefix_cons_iff.1 hQ).resolve_left hne
  rw [View.ofLog, List.filterMap_cons_some hsucc]
  have hnone : ∀ A : List JournalEntry, A <+: statusEntries (changes .dirty (olds rs) σ) →
      A.filterMap (JournalEntry.pagestate? p) = [] := fun A hA =>
    List.prefix_nil.1 (statusEntries_pagestates p _ ▸ hA.filterMap _)
  rcases prefix_append_cases hT with hA | ⟨B, rfl, hB⟩
  · rw [hnone T hA]
    rfl
  · rw [List.filterMap_append, statusEntries_pagestates]
    split at hB
    · obtain rfl := List.prefix_nil.1 hB
      rfl
    · rcases List.prefix_cons_iff.1 hB with rfl | ⟨C, rfl, hC⟩
      · rfl
      · obtain rfl := List.prefix_nil.1 hC
        have hinv : (JournalEntry.pagestate p.topic .invalidateOldPages).pagestate? p = some .invalidateOldPages :=
          if_pos rfl
        simp [List.filterMap_cons_some hinv, View.feed, news, pages]

/-- A commit that is cut anywhere leaves the pages as its log says. -/
theorem commit_cut (ht : p.topic = .tree) (hσ : σ = v.statuses σ₀) (hv : v.pending = [])
    (hc : c.Valid p σ v.tree) (hQ : Q <+: commitLog p σ c) (μ : PageNo → Addr) :
    (Replay.run p Q (.start σ)).sound ∧ (recover p σ Q μ).2.statuses = (v.ofLog p Q).statuses σ₀ := by
  subst hσ
  rcases prefix_append_cases hQ with hQ | ⟨T, rfl, hT⟩
  · obtain ⟨k, hk, -⟩ := replaceLog_cut hQ
    obtain ⟨-, -, -, -, hsound, -⟩ := run_replaceLog hQ hc.fits
    refine ⟨hsound, ?_⟩
    have hfresh : ∀ a ∈ news (c.replaced.take k), v.statuses σ₀ a = .free := fun a ha =>
      hc.fresh a (news_take_subset k ha)
    rw [(recover_replacing hQ hc.fits μ).1, v.ofLog_replacements hk, View.statuses_pending hv hfresh,
      recorded_of_pagestates hk, news_kept]
  · have hlog : v.ofLog p (World.replaceLog p (v.statuses σ₀) c.replaced) =
        { v with pending := v.pending ++ c.replaced.map (Replacement.kept p) } :=
      v.ofLog_replacements (replaceLog_pagestates _ _)
    by_cases hne : T = []
    · subst hne
      rw [List.append_nil]
      obtain ⟨-, -, -, -, hsound, -⟩ := run_replaceLog (List.prefix_refl (World.replaceLog p (v.statuses σ₀) c.replaced)) hc.fits
      refine ⟨hsound, ?_⟩
      rw [(recover_replacing (List.prefix_refl _) hc.fits μ).1, hlog, View.statuses_pending hv hc.fresh,
        recorded_of_pagestates (replaceLog_pagestates _ _), news_kept]
    · obtain ⟨hsound, -, -⟩ := run_closed hT hne (rootnode_success ht _) hc.fits
      obtain ⟨hst, -⟩ := recover_closing hT hne (rootnode_success ht _) hc.fits μ
      refine ⟨hsound, ?_⟩
      rw [hst, View.ofLog_append, hlog, closing_pagestates (rootnode_success ht _) hT hne,
        View.statuses_success hv hc.giveUp hc.fresh]

theorem commitLog_writes (σ : Statuses) (c : Commit) :
    Writes.apply ((commitLog p σ c).filterMap JournalEntry.statusWrite?) σ = committed σ c := by
  have hroot : JournalEntry.statusWrite? (.rootnode c.root.neu) = none := rfl
  have htail : ∀ τ : Statuses, (closingLog p (.rootnode c.root.neu) τ c.replaced).filterMap JournalEntry.statusWrite? =
      changes .dirty (olds c.replaced) τ := by
    intro τ
    rw [closingLog, List.cons_append, List.filterMap_cons_none hroot, List.filterMap_append, statusEntries_writes]
    split
    · simp
    · simp [JournalEntry.statusWrite?]
  rw [commitLog, List.filterMap_append, apply_append, replaceLog_writes, htail, apply_changes, committed]

theorem commitLog_view (ht : p.topic = .tree) (hv : v.pending = []) :
    (v.ofLog p (commitLog p σ c)).tree = c.apply v.tree ∧ (v.ofLog p (commitLog p σ c)).pending = [] := by
  have hlog : v.ofLog p (commitLog p σ c) =
      { v with pending := v.pending ++ c.replaced.map (Replacement.kept p) }.feed .success := by
    rw [commitLog, View.ofLog_append, v.ofLog_replacements (replaceLog_pagestates _ _),
      closing_pagestates (rootnode_success ht _) (List.prefix_refl _) (by simp [closingLog])]
  rw [hlog]
  simp [View.feed, hv, Commit.apply]

theorem checkpoint_not_mem_replaceLog (t : Topic) (σ : Statuses) (rs : List Replacement) :
    .checkpoint t ∉ World.replaceLog p σ rs := by
  induction rs generalizing σ with
  | nil => simp [World.replaceLog]
  | cons r rs ih => simp [World.replaceLog, statusEntries, ih]

theorem checkpoint_not_mem_closingLog (t : Topic) (σ : Statuses) (addr : Addr) (rs : List Replacement) :
    .checkpoint t ∉ closingLog p (.rootnode addr) σ rs := by
  unfold closingLog
  split <;> simp [statusEntries]

theorem checkpoint_not_mem_commitLog (t : Topic) (σ : Statuses) (c : Commit) :
    .checkpoint t ∉ commitLog p σ c := by
  rw [commitLog, List.mem_append, not_or]
  exact ⟨checkpoint_not_mem_replaceLog t σ _, checkpoint_not_mem_closingLog t _ _ _⟩

end OneCommit

/-! ### Many commits -/

/-- The end of the log as the tree's state machine finds and leaves it. -/
def recoverTree (p : Params) (σ : Statuses) (log : List JournalEntry) (μ : PageNo → Addr) : JournalState × World :=
  ((replay p σ log).world μ).signalEndOfLog p

/-- Replaying a log, no entry is refused, and the pages end up as the log says they should. -/
def Restores (p : Params) (σ₀ : Statuses) (v : View) (σ : Statuses) (log : List JournalEntry) (μ : PageNo → Addr) :
    Prop :=
  (replay p σ log).sound ∧ (recoverTree p σ log μ).2.statuses = (v.ofLog p log).statuses σ₀

/-- A commit that is not cut does, too. -/
theorem committed_eq (ht : p.topic = .tree) {v : View} {σ₀ σ : Statuses} {c : Commit} (hσ : σ = v.statuses σ₀)
    (hv : v.pending = []) (hc : c.Valid p σ v.tree) :
    committed σ c = (v.ofLog p (commitLog p σ c)).statuses σ₀ := by
  rw [← (commit_cut ht hσ hv hc (List.prefix_refl _) fun _ => 0).2]
  exact (recover_closing (List.prefix_refl _) (by simp [closingLog]) (rootnode_success ht _) hc.fits _).1.symm

theorem commits_cut (ht : p.topic = .tree) {v : View} {σ₀ σ : Statuses} {cs : List Commit} {Q : List JournalEntry}
    (hσ : σ = v.statuses σ₀) (hv : v.pending = []) (hcs : ValidChain p σ v.tree cs) (hQ : Q <+: commitsLog p σ cs)
    (μ : PageNo → Addr) : Restores p σ₀ v σ Q μ := by
  induction cs generalizing v σ Q with
  | nil =>
    obtain rfl := List.prefix_nil.1 hQ
    subst hσ
    exact ⟨rfl, rfl⟩
  | cons c cs ih =>
    have hone : ∀ A : List JournalEntry, A <+: commitLog p σ c → Restores p σ₀ v σ A μ := by
      intro A hA
      have hno : .checkpoint p.topic ∉ A := fun h => checkpoint_not_mem_commitLog _ _ _ (hA.subset h)
      rw [Restores, recoverTree, replay_of_not_mem hno]
      exact commit_cut ht hσ hv hcs.1 hA μ
    rcases prefix_append_cases hQ with hQ | ⟨T, rfl, hT⟩
    · exact hone Q hQ
    rcases List.prefix_cons_iff.1 hT with rfl | ⟨B, rfl, hB⟩
    · rw [List.append_nil]
      exact hone _ (List.prefix_refl _)
    obtain ⟨htree, hpending⟩ := commitLog_view (σ := σ) (c := c) ht hv
    have hnext := ih (committed_eq ht hσ hv hcs.1) hpending (by rw [htree]; exact hcs.2) hB
    have hview : v.ofLog p (commitLog p σ c ++ .checkpoint .tree :: B) = (v.ofLog p (commitLog p σ c)).ofLog p B :=
      View.ofLog_append p v _ _
    rw [Restores, recoverTree, hview, ← ht, replay_append_checkpoint, commitLog_writes]
    exact hnext

theorem commits_statuses (ht : p.topic = .tree) {v : View} {σ₀ : Statuses} {cs : List Commit} {w : World}
    (hsm : w.sm = .clear) (hσ : w.statuses = v.statuses σ₀) (hv : v.pending = [])
    (hcs : ValidChain p w.statuses v.tree cs) :
    (w.commits p cs).statuses = (v.ofLog p (commitsLog p w.statuses cs)).statuses σ₀ := by
  induction cs generalizing v w with
  | nil => exact hσ
  | cons c cs ih =>
    obtain ⟨htree, hpending⟩ := commitLog_view (σ := w.statuses) (c := c) ht hv
    have heq := commitCache_eq hsm hcs.1.fits
    have hnext := @ih (v.ofLog p (commitLog p w.statuses c)) (w.commitCache p c) (by rw [heq]; exact hsm)
      (by rw [heq]; exact committed_eq ht hσ hv hcs.1) hpending (by rw [heq, htree]; exact hcs.2)
    change (World.commits p cs (w.commitCache p c)).statuses = _
    rw [hnext, heq, commitsLog, View.ofLog_append]
    rfl

/-! ### The second power loss -/

/-- The commits after the first recovery. -/
def laterCommits (p : Params) (σ₀ : Statuses) (P₁ : List JournalEntry) (recommit : Option Commit) (cs : List Commit)
    (μ : PageNo → Addr) : List Commit :=
  (if (recoverTree p σ₀ P₁ μ).1 = .invalid then recommit.toList else []) ++ cs

/-- The tree cache goes through its log, reverts or recovers, and makes further commits. -/
def secondRun (p : Params) (σ₀ : Statuses) (P₁ : List JournalEntry) (recommit : Option Commit) (cs : List Commit)
    (μ : PageNo → Addr) : World :=
  (((replay p σ₀ P₁).world μ).signalEndOfTreeLog p recommit).commits p cs

/-- The first power loss came while nodes were being written. -/
def Aborted (p : Params) (P : List JournalEntry) : Bool :=
  recorded p P ≠ [] && P.all fun e => e.pagestate? p ≠ some .success

section SecondLoss
variable {σ₀ σ : Statuses} {v : View} {P₁ P₂ Q : List JournalEntry} {recommit : Option Commit} {cs : List Commit}
  {μ : PageNo → Addr}

theorem secondRun_eq (p : Params) (σ₀ : Statuses) (P₁ : List JournalEntry) (recommit : Option Commit)
    (cs : List Commit) (μ : PageNo → Addr) : secondRun p σ₀ P₁ recommit cs μ =
      (recoverTree p σ₀ P₁ μ).2.commits p (laterCommits p σ₀ P₁ recommit cs μ) := by
  rw [secondRun, laterCommits, recoverTree, World.signalEndOfTreeLog]
  cases h : ((replay p σ₀ P₁).world μ).signalEndOfLog p with
  | mk state w =>
    cases state <;> simp [World.commits, List.foldl_append]

theorem signalEndOfLog_sm (w : World) : (w.signalEndOfLog p).2.sm = .clear := by
  cases h : w.sm.journalState with
  | ok => rw [World.signalEndOfLog_ok h]; rfl
  | invalid => rw [World.signalEndOfLog_invalid h]
  | recover => rw [World.signalEndOfLog_recover h]

theorem secondRun_log {tree : List Addr}
    (hcs : ValidChain p (recoverTree p σ₀ P₁ μ).2.statuses tree (laterCommits p σ₀ P₁ recommit cs μ)) :
    (secondRun p σ₀ P₁ recommit cs μ).log = (recoverTree p σ₀ P₁ μ).2.log ++
      commitsLog p (recoverTree p σ₀ P₁ μ).2.statuses (laterCommits p σ₀ P₁ recommit cs μ) := by
  rw [secondRun_eq]
  exact commits_eq (signalEndOfLog_sm _) hcs

/-- Behind a first part that is settled only the commits count. -/
theorem restores_append (ht : p.topic = .tree) {H : List JournalEntry} (hH : replay p σ₀ (H ++ Q) = replay p σ Q)
    (hσ : σ = (v.ofLog p H).statuses σ₀) (hv : (v.ofLog p H).pending = [])
    (hcs : ValidChain p σ (v.ofLog p H).tree cs) (hQ : Q <+: commitsLog p σ cs) :
    Restores p σ₀ v σ₀ (H ++ Q) μ := by
  have h := commits_cut ht hσ hv hcs hQ μ
  rw [Restores, recoverTree, hH, View.ofLog_append]
  exact h

/-- The pages that the end of the log was about to mark are marked again. -/
theorem restores_marking {L : List Addr} (hP : Restores p σ₀ v σ₀ P₁ μ) (hno : .checkpoint p.topic ∉ P₁)
    (hL : ∀ τ, ((({ replay p σ₀ P₁ with statuses := τ } : Replay).world μ).signalEndOfLog p).2.statuses =
      mark .dirty L τ)
    (hQ : Q <+: statusEntries (changes .dirty L (replay p σ₀ P₁).statuses)) : Restores p σ₀ v σ₀ (P₁ ++ Q) μ := by
  have hnone : Q.filterMap (JournalEntry.pagestate? p) = [] :=
    List.prefix_nil.1 (statusEntries_pagestates p _ ▸ hQ.filterMap _)
  have hw : ∀ w ∈ Q.filterMap JournalEntry.statusWrite?, w.1 ∈ L := by
    intro w hw
    have hmem := (hQ.filterMap _).subset hw
    rw [statusEntries_writes] at hmem
    exact (mem_changes hmem).1
  have hno' : .checkpoint p.topic ∉ P₁ ++ Q := by
    rw [List.mem_append, not_or]
    refine ⟨hno, fun h => ?_⟩
    have hmem := hQ.subset h
    simp [statusEntries] at hmem
  have hrun : replay p σ₀ (P₁ ++ Q) = { replay p σ₀ P₁ with
      statuses := Writes.apply (Q.filterMap JournalEntry.statusWrite?) (replay p σ₀ P₁).statuses } := by
    rw [replay_of_not_mem hno', replay_of_not_mem hno, Replay.run_append, Replay.run_eq Q, hnone]
    rfl
  obtain ⟨hsound, hst⟩ := hP
  refine ⟨by rw [hrun]; exact hsound, ?_⟩
  have hsame : v.ofLog p (P₁ ++ Q) = v.ofLog p P₁ := by
    rw [View.ofLog_append]
    simp only [View.ofLog, hnone, List.foldl_nil]
  rw [recoverTree, hrun, hL, mark_apply hw, hsame, ← hst, recoverTree, ← hL]

theorem statuses_feed_invalidate (v : View) (σ₀ : Statuses) :
    (v.feed .invalidateOldPages).statuses σ₀ = v.statuses σ₀ := by
  funext a
  simp [View.statuses, View.feed]

/-- The entry that ends a recovery, as the log's meaning takes it. -/
theorem ofLog_recovery {L : List Addr} {τ : Statuses} (v : View) :
    v.ofLog p (statusEntries (changes .dirty L τ) ++ [.pagestate p.topic .invalidateOldPages]) =
      v.feed .invalidateOldPages := by
  have hinv : (JournalEntry.pagestate p.topic .invalidateOldPages).pagestate? p = some .invalidateOldPages := if_pos rfl
  rw [View.ofLog, List.filterMap_append, statusEntries_pagestates, List.filterMap_cons_some hinv]
  rfl

theorem recovery_writes (L : List Addr) (τ : Statuses) (t : Topic) :
    (statusEntries (changes .dirty L τ) ++ [JournalEntry.pagestate t .invalidateOldPages]).filterMap
      JournalEntry.statusWrite? =
      changes .dirty L τ := by
  have hinv : JournalEntry.statusWrite? (.pagestate t .invalidateOldPages) = none := rfl
  rw [List.filterMap_append, statusEntries_writes, List.filterMap_cons_none hinv]
  simp

/-- Replaying what a recovery wrote settles the state machine. -/
theorem run_recovery {s : Replay} (hs : s.sm.journalState = .recover) (hsound : s.sound) (L : List Addr) :
    Replay.run p (statusEntries (changes .dirty L s.statuses) ++ [.pagestate p.topic .invalidateOldPages]) s =
      .start (mark .dirty L s.statuses) := by
  have hinv : (JournalEntry.pagestate p.topic .invalidateOldPages).pagestate? p = some .invalidateOldPages := if_pos rfl
  rw [Replay.run_eq, recovery_writes, apply_changes, List.filterMap_append, statusEntries_pagestates,
    List.filterMap_cons_some hinv]
  simp [Replay.feedAll, Replay.feed, PageStateMachine.processEntry, hs, hsound, Replay.start, PageStateMachine.clear]

theorem eq_nil_of_recorded {rs : List Replacement} (hne : rs ≠ []) (h : P₁ <+: World.replaceLog p σ rs)
    (hrec : recorded p P₁ = []) : P₁ = [] := by
  obtain ⟨r, rs, rfl⟩ := List.exists_cons_of_ne_nil hne
  cases P₁ with
  | nil => rfl
  | cons e T =>
    rw [World.replaceLog, List.cons_append, List.prefix_cons_iff] at h
    obtain ⟨T', heq, -⟩ := h.resolve_left (by simp)
    obtain ⟨rfl, rfl⟩ := List.cons.inj heq
    have hentry : JournalEntry.pagestate? p (.pagestate p.topic (r.entry p)) = some (r.entry p) := if_pos rfl
    rw [recorded, List.filterMap_cons_some hentry,
      List.filterMap_cons_some (Replacement.entry_replacement p r)] at hrec
    cases hrec

theorem Replay.run_unsound (log : List JournalEntry) {s : Replay} (hs : s.sound = false) :
    (Replay.run p log s).sound = false := by
  induction log generalizing s with
  | nil => exact hs
  | cons e log ih =>
    refine ih ?_
    unfold Replay.step
    cases e.statusWrite? <;> cases e.pagestate? p <;> simp [Replay.feed, hs]

/-- Replaying what a revert wrote does not. -/
theorem run_recovery_refused {s : Replay} (hs : s.sm.journalState = .invalid) (ws : List (Addr × SummaryEntry)) :
    (Replay.run p (statusEntries ws ++ [.pagestate p.topic .invalidateOldPages]) s).sound = false := by
  have hinv : (JournalEntry.pagestate p.topic .invalidateOldPages).pagestate? p = some .invalidateOldPages := if_pos rfl
  rw [Replay.run_sound, List.filterMap_append, statusEntries_pagestates, List.filterMap_cons_some hinv]
  simp [Replay.feedAll, Replay.feed, PageStateMachine.processEntry, hs]

/-- What is there after the first power loss: nothing to do, or a state machine that gives pages up. -/
theorem firstLoss_cases (ht : p.topic = .tree) {T₀ : List Addr} {c : Commit} (hc : c.Valid p σ₀ T₀)
    (hP₁ : P₁ <+: commitLog p σ₀ c ++ [.checkpoint .tree]) :
    (Aborted p P₁ = false ∧ ((View.mk T₀ [] []).ofLog p P₁).pending = [] ∧
      ∃ τ, ∀ Q, replay p σ₀ (P₁ ++ Q) = replay p τ Q) ∨
    (.checkpoint p.topic ∉ P₁ ∧ (replay p σ₀ P₁).sound ∧
      (Aborted p P₁ = false ∧ (replay p σ₀ P₁).sm.journalState = .recover ∨
        Aborted p P₁ = true ∧ (replay p σ₀ P₁).sm.journalState = .invalid)) := by
  have hne : c.replaced ≠ [] := by simp [Commit.replaced]
  by_cases hA : P₁ <+: commitLog p σ₀ c
  · have hno : .checkpoint p.topic ∉ P₁ := fun h => checkpoint_not_mem_commitLog _ _ _ (hA.subset h)
    rw [replay_of_not_mem hno]
    by_cases hR : P₁ <+: World.replaceLog p σ₀ c.replaced
    · obtain ⟨k, -, hlist, hstate, hsound, -⟩ := run_replaceLog hR hc.fits
      have hall : P₁.all (fun e => e.pagestate? p ≠ some .success) = true := by
        rw [List.all_eq_true]
        intro e he
        simpa using fun h => not_mem_replaceLog hR h he
      by_cases hrec : recorded p P₁ = []
      · -- the first entry of a commit replaces a page, so the log is empty
        obtain rfl := eq_nil_of_recorded hne hR hrec
        exact .inl ⟨rfl, rfl, σ₀, fun Q => rfl⟩
      · rw [if_neg hrec] at hstate
        exact .inr ⟨hno, hsound, .inr ⟨by rw [Aborted, hall]; simp [hrec], hstate⟩⟩
    · obtain ⟨T, rfl, hT⟩ := (prefix_append_cases hA).resolve_left hR
      have hTne : T ≠ [] := by
        rintro rfl
        exact hR (by rw [List.append_nil])
      have hroot : Aborted p (World.replaceLog p σ₀ c.replaced ++ T) = false := by
        rw [closingLog, List.cons_append] at hT
        obtain ⟨T', rfl, -⟩ := (List.prefix_cons_iff.1 hT).resolve_left hTne
        simp [Aborted, rootnode_success ht]
      obtain ⟨hsound, -, ⟨hstate, -⟩ | ⟨hsm, hdone⟩⟩ := run_closed hT hTne (rootnode_success ht _) hc.fits
      · exact .inr ⟨hno, hsound, .inl ⟨hroot, hstate⟩⟩
      · refine .inl ⟨hroot, ?_, committed σ₀ c, fun Q => ?_⟩
        · rw [View.ofLog_append, closing_pagestates (rootnode_success ht _) hT hTne]
          rfl
        · exact replay_append_of_start hno (Replay.eq_start hsm hdone hsound)
  · obtain ⟨T, rfl, hT⟩ := (prefix_append_cases hP₁).resolve_left hA
    have hTne : T ≠ [] := by
      rintro rfl
      exact hA (by rw [List.append_nil])
    obtain ⟨T', rfl, hT'⟩ := (List.prefix_cons_iff.1 hT).resolve_left hTne
    obtain rfl := List.prefix_nil.1 hT'
    refine .inl ⟨?_, ?_, committed σ₀ c, fun Q => ?_⟩
    · have hmem : .rootnode c.root.neu ∈ commitLog p σ₀ c ++ [.checkpoint .tree] := by simp [commitLog, closingLog]
      rw [Aborted, Bool.and_eq_false_iff]
      refine .inr (List.all_eq_false.2 ⟨_, hmem, ?_⟩)
      simp [rootnode_success ht]
    · rw [View.ofLog_append]
      exact (commitLog_view ht rfl).2
    · rw [← commitLog_writes (p := p), ← replay_append_checkpoint, ht, List.append_assoc, List.singleton_append]

/-- A recovery that has something to do marks the pages it gives up, and says that it did. -/
theorem signalEndOfLog_marks {w : World} (hw : w.sm.journalState ≠ .ok) (hlog : w.log = []) : ∃ L, ∀ τ,
    (({ w with statuses := τ } : World).signalEndOfLog p).2.statuses = mark .dirty L τ ∧
      (({ w with statuses := τ } : World).signalEndOfLog p).2.log =
        statusEntries (changes .dirty L τ) ++ [.pagestate p.topic .invalidateOldPages] := by
  cases h : w.sm.journalState with
  | ok => exact (hw h).elim
  | invalid =>
    refine ⟨news w.sm.list, fun τ => ?_⟩
    rw [World.signalEndOfLog_invalid (by exact h)]
    simp [hlog]
  | recover =>
    refine ⟨olds w.sm.list, fun τ => ?_⟩
    rw [World.signalEndOfLog_recover (by exact h)]
    simp [hlog]

theorem restores_firstLoss (ht : p.topic = .tree) {T₀ : List Addr} (hT : ∀ a ∈ T₀, σ₀ a = .used) {c : Commit}
    (hc : c.Valid p σ₀ T₀) (hP₁ : P₁ <+: commitLog p σ₀ c ++ [.checkpoint .tree]) :
    Restores p σ₀ ⟨T₀, [], []⟩ σ₀ P₁ μ := by
  have hstart : σ₀ = (View.mk T₀ [] []).statuses σ₀ := by
    funext a
    by_cases ha : a ∈ T₀
    · simp [View.statuses, ha, hT a ha]
    · simp [View.statuses, ha]
  have hchain : ValidChain p σ₀ (View.mk T₀ [] []).tree [c] := ⟨hc, trivial⟩
  exact commits_cut ht hstart rfl hchain hP₁ μ

/-- The first recovery leaves the pages as the log says that it has written. -/
theorem recoverTree_view (ht : p.topic = .tree) {T₀ : List Addr} (hT : ∀ a ∈ T₀, σ₀ a = .used) {c : Commit}
    (hc : c.Valid p σ₀ T₀) (hP₁ : P₁ <+: commitLog p σ₀ c ++ [.checkpoint .tree]) :
    (recoverTree p σ₀ P₁ μ).2.statuses =
        ((View.mk T₀ [] []).ofLog p (P₁ ++ (recoverTree p σ₀ P₁ μ).2.log)).statuses σ₀ ∧
      ((View.mk T₀ [] []).ofLog p (P₁ ++ (recoverTree p σ₀ P₁ μ).2.log)).pending = [] := by
  have hst := (restores_firstLoss (μ := μ) ht hT hc hP₁).2
  rcases firstLoss_cases ht hc hP₁ with ⟨-, hv, τ, hrest⟩ | ⟨-, -, hstate⟩
  · have hlog : (recoverTree p σ₀ P₁ μ).2.log = [] := by
      rw [recoverTree, ← List.append_nil P₁, hrest, World.signalEndOfLog_ok rfl]
      rfl
    rw [hlog, List.append_nil]
    exact ⟨hst, hv⟩
  · obtain ⟨L, hL⟩ := signalEndOfLog_marks (p := p) (w := (replay p σ₀ P₁).world μ)
      (by rcases hstate with h | h <;> simp [Replay.world, h.2]) rfl
    have hlog : (recoverTree p σ₀ P₁ μ).2.log = _ := (hL (replay p σ₀ P₁).statuses).2
    rw [hlog, View.ofLog_append, ofLog_recovery, statuses_feed_invalidate]
    exact ⟨hst, rfl⟩

/-- The run that no second power loss interrupts. -/
theorem secondRun_statuses (ht : p.topic = .tree) {T₀ : List Addr} (hT : ∀ a ∈ T₀, σ₀ a = .used) {c : Commit}
    (hc : c.Valid p σ₀ T₀) (hP₁ : P₁ <+: commitLog p σ₀ c ++ [.checkpoint .tree])
    (hcs : ValidChain p (recoverTree p σ₀ P₁ μ).2.statuses
      ((View.mk T₀ [] []).ofLog p (P₁ ++ (recoverTree p σ₀ P₁ μ).2.log)).tree (laterCommits p σ₀ P₁ recommit cs μ)) :
    (secondRun p σ₀ P₁ recommit cs μ).statuses =
      ((View.mk T₀ [] []).ofLog p (P₁ ++ (secondRun p σ₀ P₁ recommit cs μ).log)).statuses σ₀ := by
  obtain ⟨hσ, hv⟩ := recoverTree_view (μ := μ) ht hT hc hP₁
  rw [secondRun_log hcs, ← List.append_assoc, View.ofLog_append, secondRun_eq]
  exact commits_statuses ht (signalEndOfLog_sm _) hσ hv hcs

end SecondLoss

/-! A tree of three nodes, all of which are written again. -/

def fiveNodes : Params := ⟨.tree, 5, false⟩

def threePages : Statuses := fun a => if a ∈ [10, 11, 12] then .used else .free

def rewriteAll (base : Addr) : Commit := ⟨[⟨base + 1, 11, 0, 0⟩, ⟨base + 2, 12, 0, 0⟩], ⟨base, 10, 0, 0⟩⟩

/-- The log of a first commit, up to the new root node. -/
def firstLog : List JournalEntry := ((World.fresh threePages (fun _ => 0)).commitCache fiveNodes (rewriteAll 20)).log.take 6

/-- What the recovery and its own commit write. -/
def secondLog : List JournalEntry := (secondRun fiveNodes threePages firstLog (some (rewriteAll 30)) [] fun _ => 0).log

theorem rewriteAll_valid : (rewriteAll 20).Valid fiveNodes threePages [10, 11, 12] :=
  ⟨by decide, by decide, by decide⟩

theorem rewriteAll_again : ValidChain fiveNodes (recoverTree fiveNodes threePages firstLog fun _ => 0).2.statuses
    ((View.mk [10, 11, 12] [] []).ofLog fiveNodes (firstLog ++ (recoverTree fiveNodes threePages firstLog fun _ => 0).2.log)).tree
    (laterCommits fiveNodes threePages firstLog (some (rewriteAll 30)) [] fun _ => 0) :=
  ⟨⟨by decide, by decide, by decide⟩, trivial⟩

end Paffs.Journal
