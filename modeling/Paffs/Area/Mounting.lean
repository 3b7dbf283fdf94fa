import Paffs.Area.Logged
import Paffs.Area.Placement

/-! What a mount makes of the area map: the super index that was written last, and the journal on top of it. -/
namespace Paffs.Areas
variable {P : Type} {c : Config} (faults : Faults P)

abbrev Addr := Nat

/-- What the journal keeps of the superblock and of those who work with areas. -/
inductive Entry where
  | rootnode (addr : Addr)
  | areas (entry : Event)

namespace Entry

def ofSuperblock : Entry → Bool
  | .rootnode _ => true
  | .areas entry => entry.ofSuperblock

def assigns : Entry → Bool
  | .rootnode _ => true
  | .areas entry => entry.assigns

/-- An erasure that is counted. -/
def countsErase (c : Config) : Entry → Bool
  | .areas (.increaseErasecount area) => area < c.areasNo
  | _ => false

end Entry

/-- What the super index keeps. -/
structure Root where
  sb : Superblock
  rootnodeAddr : Addr

/-- The superblock in RAM (`device`, `rootnodeAddr`), what the super chain holds, and the journal. `written` is the length
the journal had when the index was written; no function reads it. -/
structure Chip (P : Type) where
  device : Device P
  rootnodeAddr : Addr
  mRootnodeDirty : Bool
  index : Root
  journal : List Entry
  written : Nat

namespace Chip

def root (s : Chip P) : Root := ⟨s.device.sb, s.rootnodeAddr⟩

/-- Something is done with areas; what it logs goes to the journal. -/
def work (s : Chip P) (f : Device P → Device P) : Chip P :=
  let d := f { s.device with log := [] }
  { s with device := { d with log := [] }, journal := s.journal ++ d.log.map .areas }

def registerRootnode (s : Chip P) (addr : Addr) : Chip P :=
  if addr = s.rootnodeAddr then s
  else { s with rootnodeAddr := addr, mRootnodeDirty := true, journal := s.journal ++ [.rootnode addr] }

/-- A checkpoint is not stored when nothing was logged since the last one, or when the power fails before it. -/
def commitSuperIndex (s : Chip P) (asDirty stored : Bool) : Chip P :=
  if !asDirty && !s.mRootnodeDirty then s
  else
    { s with
      index := s.root
      mRootnodeDirty := false
      journal := s.journal ++ if stored then [.areas (.checkpoint .superblock)] else []
      written := s.journal.length }

/-- No element of the chain was moved. -/
def readSuperIndex (s : Chip P) : Chip P :=
  { s with device := { s.device with sb := s.index.sb }, rootnodeAddr := s.index.rootnodeAddr, mRootnodeDirty := false }.work
    (·.setUsedAreas s.index.sb.usedAreas)

def clear (s : Chip P) : Chip P := { s with journal := [], written := 0 }

/-- Nothing is logged while the journal is replayed. -/
def preScan (c : Config) (s : Chip P) : Entry → Chip P
  | .rootnode addr => { s.registerRootnode addr with journal := s.journal }
  | .areas entry => { s with device := s.device.preScan c entry }

/-- The index is read while the journal is disabled, and the journal's first pass goes through all its entries. `cache` are
the summaries the index brings. -/
def mount (c : Config) (s : Chip P) (cache : List (Option Elem)) : Chip P :=
  s.journal.foldl (preScan c)
    { ({ s with device := { s.device with cache := cache } } : Chip P).readSuperIndex with journal := s.journal }

end Chip

/-- `operation` stands for a single operation on the superblock. -/
inductive Chip.Step (P : Type) where
  | areas (op : Op P)
  | operation (entry : Event)
  | registerRootnode (addr : Addr)
  | commitSuperIndex (asDirty stored : Bool)
  | readSuperIndex
  | clear
  | powerLoss (cache : List (Option Elem))

namespace Chip

def step (c : Config) (s : Chip P) : Step P → Chip P
  | .areas op => s.work (·.step c faults op)
  | .operation entry => s.work (·.operation c entry)
  | .registerRootnode addr => s.registerRootnode addr
  | .commitSuperIndex asDirty stored => s.commitSuperIndex asDirty stored
  | .readSuperIndex => s.readSuperIndex
  | .clear => s.clear
  | .powerLoss cache => s.mount c cache

def run (c : Config) (s : Chip P) (steps : List (Step P)) : Chip P := steps.foldl (step faults c) s

/-- What the index has of the journal may be replayed on it once more. -/
def Repeatable (s : Chip P) : Prop := ∀ entry ∈ s.journal.take s.written, entry.assigns = true

/-- The superblock has not changed since the index was written. -/
def Settled (s : Chip P) : Prop := ∀ entry ∈ s.journal.drop s.written, entry.ofSuperblock = false

/-- The index is read again, and the journal is cleared, when nothing has changed since; the power fails when what the index
has is repeatable. -/
def Meets (s : Chip P) : Step P → Prop
  | .areas op => op.LogsSilently { s.device with log := [] }
  | .readSuperIndex => s.Settled
  | .clear => s.Settled
  | .powerLoss _ => s.Repeatable
  | _ => True

def Along (c : Config) : List (Step P) → Chip P → Prop
  | [], _ => True
  | st :: sts, s => s.Meets st ∧ Along c sts (s.step faults c st)

end Chip

/-! ### The replay -/

def Entry.on (c : Config) (r : Root) : Entry → Root
  | .rootnode addr => { r with rootnodeAddr := addr }
  | .areas entry => { r with sb := entry.on c r.sb }

def Root.replayed (c : Config) (r : Root) (log : List Entry) : Root := log.foldl (Entry.on c) r

namespace Root
variable (r : Root) (log log' : List Entry)

theorem replayed_append : r.replayed c (log ++ log') = (r.replayed c log).replayed c log' := List.foldl_append

theorem replayed_areas (events : List Event) :
    r.replayed c (events.map .areas) = { r with sb := Areas.replayed c events r.sb } := by
  induction events generalizing r with
  | nil => rfl
  | cons entry events ih =>
    rw [List.map_cons, replayed, List.foldl_cons]
    exact ih _

theorem replayed_of_not {log : List Entry} (h : ∀ entry ∈ log, entry.ofSuperblock = false) : r.replayed c log = r := by
  induction log with
  | nil => rfl
  | cons entry log ih =>
    have hon : entry.on c r = r := by
      have hentry := h entry List.mem_cons_self
      cases entry with
      | rootnode addr => cases hentry
      | areas entry => exact congrArg (Root.mk · r.rootnodeAddr) (Event.on_of_not hentry r.sb)
    rw [replayed, List.foldl_cons, hon]
    exact ih fun e he => h e (List.mem_cons_of_mem _ he)

/-- The two parts do not see each other. -/
theorem replayed_parts : r.replayed c log =
    ⟨Areas.replayed c (log.filterMap fun | .areas entry => some entry | .rootnode _ => none) r.sb,
      (log.filterMap fun | .rootnode addr => some addr | .areas _ => none).foldl (fun _ addr => addr) r.rootnodeAddr⟩ := by
  induction log generalizing r with
  | nil => rfl
  | cons entry log ih =>
    rw [replayed, List.foldl_cons]
    cases entry with
    | rootnode addr => exact ih _
    | areas entry => exact ih _

theorem foldl_last (addrs : List Addr) (a b : Addr) :
    addrs.foldl (fun _ addr => addr) (addrs.foldl (fun _ addr => addr) a) = addrs.foldl (fun _ addr => addr) b ∨ addrs = [] := by
  cases addrs with
  | nil => exact .inr rfl
  | cons addr addrs => exact .inl rfl

theorem replayed_twice {log : List Entry} (h : ∀ entry ∈ log, entry.assigns = true) :
    (r.replayed c log).replayed c log = r.replayed c log := by
  rw [replayed_parts, replayed_parts]
  congr 1
  · refine Areas.replayed_twice (fun entry he => ?_) r.sb
    obtain ⟨e, hmem, heq⟩ := List.mem_filterMap.1 he
    cases e with
    | rootnode addr => cases heq
    | areas e =>
      cases heq
      exact h _ hmem
  · rcases foldl_last (log.filterMap fun | .rootnode addr => some addr | .areas _ => none) r.rootnodeAddr r.rootnodeAddr with
      hlast | hnone
    · exact hlast
    · rw [hnone]
      rfl

end Root

/-! ### The counter of all erasures -/

theorem on_overallDeletions (entry : Entry) (r : Root) (h : r.sb.overallDeletions < 2 ^ 64) :
    (entry.on c r).sb.overallDeletions = (r.sb.overallDeletions + if entry.countsErase c then 1 else 0) % 2 ^ 64 := by
  have hsame : ∀ {n : Nat}, n = r.sb.overallDeletions → n = (r.sb.overallDeletions + 0) % 2 ^ 64 := by omega
  cases entry with
  | rootnode addr => exact hsame rfl
  | areas entry =>
    cases entry with
    | increaseErasecount area =>
      change (Device.increaseErasecount c (bare r.sb) area).sb.overallDeletions = _
      unfold Device.increaseErasecount Entry.countsErase
      by_cases hge : area ≥ c.areasNo
      · rw [if_pos hge, if_neg (by simpa using hge)]
        exact hsame rfl
      · rw [if_neg hge, if_pos (by simpa using hge)]
        rfl
    | type area type =>
      refine hsame ?_
      change (Device.setType c (bare r.sb) area type).sb.overallDeletions = _
      unfold Device.setType
      split_ifs <;> rfl
    | status area status =>
      refine hsame ?_
      change (Device.setStatus c (bare r.sb) area status).sb.overallDeletions = _
      unfold Device.setStatus
      split_ifs <;> rfl
    | position area pos =>
      refine hsame ?_
      change (Device.setPos c (bare r.sb) area pos).sb.overallDeletions = _
      unfold Device.setPos
      split_ifs <;> rfl
    | swap a b =>
      refine hsame ?_
      change (Device.swapAreaPosition c (bare r.sb) a b).sb.overallDeletions = _
      unfold Device.swapAreaPosition
      split_ifs <;> rfl
    | activeArea type area =>
      refine hsame ?_
      change (Device.setActiveArea (bare r.sb) type area).sb.overallDeletions = _
      unfold Device.setActiveArea
      split_ifs <;> rfl
    | _ => exact hsame rfl

theorem replayed_overallDeletions (log : List Entry) (r : Root) (h : r.sb.overallDeletions < 2 ^ 64) :
    (r.replayed c log).sb.overallDeletions = (r.sb.overallDeletions + log.countP (·.countsErase c)) % 2 ^ 64 := by
  induction log generalizing r with
  | nil => exact (Nat.mod_eq_of_lt h).symm
  | cons entry log ih =>
    have hon := on_overallDeletions (c := c) entry r h
    have hrest := ih (entry.on c r) (by rw [hon]; exact Nat.mod_lt _ (by decide))
    rw [Root.replayed, List.foldl_cons, List.countP_cons]
    rw [hon] at hrest
    refine hrest.trans ?_
    omega

/-! ### Runs -/

namespace Chip
variable {s : Chip P}

/-- The journal behind the index makes the index the superblock in RAM, and in front of it nothing new when it is
repeatable. -/
structure Journaled (c : Config) (s : Chip P) : Prop where
  behind : s.index.replayed c (s.journal.drop s.written) = s.root
  ahead : s.Repeatable → s.index.replayed c (s.journal.take s.written) = s.index
  within : s.written ≤ s.journal.length
  small : s.index.sb.overallDeletions < 2 ^ 64

theorem Journaled.replayed (h : s.Journaled c) (hrepeatable : s.Repeatable) : s.index.replayed c s.journal = s.root := by
  rw [← List.take_append_drop s.written s.journal, Root.replayed_append, h.ahead hrepeatable, h.behind]

/-- More is logged, and done. -/
theorem Journaled.append (h : s.Journaled c) {s' : Chip P} (log : List Entry) (hjournal : s'.journal = s.journal ++ log)
    (hroot : s'.root = s.root.replayed c log) (hindex : s'.index = s.index) (hwritten : s'.written = s.written) :
    s'.Journaled c := by
  have hdrop : s'.journal.drop s'.written = s.journal.drop s.written ++ log := by
    rw [hjournal, hwritten, List.drop_append_of_le_length h.within]
  have htake : s'.journal.take s'.written = s.journal.take s.written := by
    rw [hjournal, hwritten, List.take_append_of_le_length h.within]
  refine ⟨?_, fun hrepeatable => ?_, ?_, ?_⟩
  · rw [hdrop, hindex, Root.replayed_append, h.behind, hroot]
  · rw [htake, hindex]
    refine h.ahead fun entry he => hrepeatable entry ?_
    rwa [htake]
  · rw [hjournal, hwritten, List.length_append]
    exact h.within.trans (Nat.le_add_right _ _)
  · rw [hindex]
    exact h.small

theorem Journaled.work (h : s.Journaled c) {f : Device P → Device P}
    (hf : Device.Logged c { s.device with log := [] } (f { s.device with log := [] })) : (s.work f).Journaled c := by
  obtain ⟨log, hlog, hsb⟩ := hf
  refine h.append (log.map .areas) ?_ ?_ rfl rfl
  · exact congrArg (fun l => s.journal ++ l.map Entry.areas) hlog
  · rw [Root.replayed_areas]
    exact congrArg (Root.mk · s.rootnodeAddr) hsb

theorem Journaled.registerRootnode (h : s.Journaled c) (addr : Addr) : (s.registerRootnode addr).Journaled c := by
  unfold Chip.registerRootnode
  split
  · exact h
  · exact h.append ([.rootnode addr]) rfl rfl rfl rfl

theorem Journaled.root_small (h : s.Journaled c) : s.root.sb.overallDeletions < 2 ^ 64 := by
  rw [← h.behind, replayed_overallDeletions _ _ h.small]
  exact Nat.mod_lt _ (by decide)

/-- The index that is written has all of the journal. -/
theorem Journaled.commitSuperIndex (h : s.Journaled c) (asDirty stored : Bool) :
    (s.commitSuperIndex asDirty stored).Journaled c := by
  unfold Chip.commitSuperIndex
  split
  · exact h
  · have hlength : s.journal.length ≤ s.journal.length := le_rfl
    refine ⟨?_, fun hrepeatable => ?_, ?_, h.root_small⟩
    · dsimp only
      rw [List.drop_append_of_le_length hlength, List.drop_length, List.nil_append]
      refine Root.replayed_of_not s.root fun entry he => ?_
      cases stored with
      | true =>
        rw [List.mem_singleton.1 he]
        rfl
      | false => cases he
    · unfold Repeatable at hrepeatable
      dsimp only at hrepeatable ⊢
      rw [List.take_append_of_le_length hlength, List.take_length] at hrepeatable ⊢
      have hbefore : s.Repeatable := fun entry he => hrepeatable entry (List.mem_of_mem_take he)
      rw [← h.replayed hbefore]
      exact s.index.replayed_twice hrepeatable
    · dsimp only
      rw [List.length_append]
      exact Nat.le_add_right _ _

theorem Journaled.settled (h : s.Journaled c) (hsettled : s.Settled) : s.root = s.index := by
  rw [← h.behind]
  exact s.index.replayed_of_not hsettled

theorem Journaled.readSuperIndex (h : s.Journaled c) (hsettled : s.Settled) : s.readSuperIndex.Journaled c := by
  have hread : ({ s with
      device := { s.device with sb := s.index.sb }
      rootnodeAddr := s.index.rootnodeAddr
      mRootnodeDirty := false } : Chip P).Journaled c := by
    refine h.append ([]) (List.append_nil _).symm ?_ rfl rfl
    exact (h.settled hsettled).symm
  exact hread.work (Device.setUsedAreas_logged _)

theorem Journaled.clear (h : s.Journaled c) (hsettled : s.Settled) : s.clear.Journaled c :=
  ⟨(h.settled hsettled).symm, fun _ => rfl, le_rfl, h.small⟩

theorem registerRootnode_fields (s : Chip P) (addr : Addr) : (s.registerRootnode addr).root = ⟨s.device.sb, addr⟩ ∧
    (s.registerRootnode addr).index = s.index ∧ (s.registerRootnode addr).written = s.written := by
  unfold Chip.registerRootnode
  split
  · rename_i heq
    exact ⟨congrArg (Root.mk s.device.sb) heq.symm, rfl, rfl⟩
  · exact ⟨rfl, rfl, rfl⟩

/-- The first pass of a mount replays the journal on the index. -/
theorem foldl_preScan (log : List Entry) (s : Chip P) :
    (log.foldl (preScan c) s).root = s.root.replayed c log ∧ (log.foldl (preScan c) s).index = s.index ∧
      (log.foldl (preScan c) s).journal = s.journal ∧ (log.foldl (preScan c) s).written = s.written := by
  induction log generalizing s with
  | nil => exact ⟨rfl, rfl, rfl, rfl⟩
  | cons entry log ih =>
    have hone : (s.preScan c entry).root = entry.on c s.root ∧ (s.preScan c entry).index = s.index ∧
        (s.preScan c entry).journal = s.journal ∧ (s.preScan c entry).written = s.written := by
      cases entry with
      | rootnode addr =>
        obtain ⟨hroot, hindex, hwritten⟩ := s.registerRootnode_fields addr
        exact ⟨hroot, hindex, rfl, hwritten⟩
      | areas entry => exact ⟨congrArg (Root.mk · s.rootnodeAddr) (s.device.operation_on entry), rfl, rfl, rfl⟩
    obtain ⟨hroot, hindex, hjournal, hwritten⟩ := hone
    obtain ⟨hroot', hindex', hjournal', hwritten'⟩ := ih (s.preScan c entry)
    rw [List.foldl_cons]
    refine ⟨?_, hindex'.trans hindex, hjournal'.trans hjournal, hwritten'.trans hwritten⟩
    rw [hroot', hroot]
    rfl

theorem mount_root (s : Chip P) (cache : List (Option Elem)) : (s.mount c cache).root = s.index.replayed c s.journal :=
  (foldl_preScan s.journal _).1

theorem Journaled.mount (h : s.Journaled c) (hrepeatable : s.Repeatable) (cache : List (Option Elem)) :
    (s.mount c cache).Journaled c := by
  obtain ⟨hroot, hindex, hjournal, hwritten⟩ := foldl_preScan (c := c) s.journal
    { ({ s with device := { s.device with cache := cache } } : Chip P).readSuperIndex with journal := s.journal }
  refine h.append ([]) (hjournal.trans (List.append_nil _).symm) ?_ hindex hwritten
  rw [mount_root, h.replayed hrepeatable]
  rfl

theorem Journaled.step (h : s.Journaled c) (st : Step P) (hst : s.Meets st) : (s.step faults c st).Journaled c := by
  cases st with
  | areas op => exact Journaled.work (f := (·.step c faults op)) h ((Device.logged_kept faults).step faults op hst)
  | operation entry => exact Journaled.work (f := (·.operation c entry)) h (Device.operation_logged _ entry)
  | registerRootnode addr => exact h.registerRootnode addr
  | commitSuperIndex asDirty stored => exact h.commitSuperIndex asDirty stored
  | readSuperIndex => exact h.readSuperIndex hst
  | clear => exact h.clear hst
  | powerLoss cache => exact h.mount hst cache

theorem Journaled.run (h : s.Journaled c) (steps : List (Step P)) (hsteps : s.Along faults c steps) :
    (s.run faults c steps).Journaled c := by
  induction steps generalizing s with
  | nil => exact h
  | cons st steps ih => exact ih (h.step faults st hsteps.1) hsteps.2

/-- The journal is empty, and the index has what is in RAM. -/
structure Saved (s : Chip P) : Prop where
  journal : s.journal = []
  written : s.written = 0
  index : s.index = s.root
  small : s.root.sb.overallDeletions < 2 ^ 64

theorem Saved.journaled (h : s.Saved) : s.Journaled c := by
  refine ⟨?_, fun _ => ?_, ?_, ?_⟩
  · rw [h.journal, h.written, h.index]
    rfl
  · rw [h.written]
    rfl
  · rw [h.written]
    exact Nat.zero_le _
  · rw [h.index]
    exact h.small

/-- Right after formatting. -/
def formattedChip : Chip Unit :=
  let d := { Device.formatted (Device.failsAt []) with log := [] }
  ⟨d, 0, false, ⟨d.sb, 0⟩, [], 0⟩

/-- An area is taken into use, and freed behind the index. -/
def freedBehindIndex : List (Step Unit) :=
  [.areas (.initAreaAs 4 .data), .registerRootnode 9, .commitSuperIndex true true, .areas (.deleteArea 4), .powerLoss []]

end Chip
end Paffs.Areas
