import Paffs.Device.Sessions

/-! Runs of calls: a mounted device is a tree of directories and of files of bytes. -/
namespace Paffs.Namespace
open Bytes (Memory)
open DataIO (State)
open DataIO.State (Healthy)

variable {c : DataIO.Config} {env : FileEnv} {s : Session} {d : Device} {nodes : InodeNo → Option Node} {n : Nat}

/-! ### Limits -/

/-- Whatever is at the path. -/
def Device.At (c : DataIO.Config) (env : Env) (d : Device) (path : Path) (P : InodeNo → Prop) : Prop :=
  ∀ r ∈ Device.getInodeOfElem c env d path, ∀ no ∈ r.toOption, P no

namespace Call

/-- Names and directories keep to their limits, and so do the ranges that are read and written. Directories are created where
nothing is, what is truncated has countable pages, what is listed is a directory, and objects are used while they are open. -/
def Keeps (c : DataIO.Config) (env : FileEnv) (m : Mounted) : Call → Prop
  | .openObj path _ => Short path ∧ m.device.Fits c env.toNamespace path
  | .read i bytesToRead => ∃ obj ∈ m.obj i, ∀ node ∈ m.device.lookup obj.no, node.size ≠ 0 → 0 < bytesToRead ∧
      (m.device.view node).Readable c env.toEnv obj.fp bytesToRead
  | .write i bytesToWrite _ => ∃ obj ∈ m.obj i, ∀ node ∈ m.device.lookup obj.no,
      (m.device.view node).Writable c env.toEnv obj.fp bytesToWrite
  | .seek i _ _ => (m.obj i).isSome
  | .flush i => (m.obj i).isSome
  | .close i => (m.obj i).isSome
  | .truncate path _ => Short path ∧ m.device.At c env.toNamespace path fun no => m.device.Countable c no
  | .chmod path _ => Short path
  | .getObjInfo path => Short path
  | .touch path => Short path ∧ m.device.Fits c env.toNamespace path
  | .mkDir path _ => Short path ∧ m.device.Fits c env.toNamespace path ∧ m.device.NamesNothing c env.toNamespace path
  | .remove path => Short path ∧ m.device.At c env.toNamespace path fun no => m.device.Countable c no
  | .openDir path => Short path ∧ m.device.At c env.toNamespace path fun no =>
      ∀ inode ∈ m.device.lookup no, inode.type = .dir ∧ FewEntries inode
  | .readDir i => (m.dir i).isSome
  | .rewindDir i => (m.dir i).isSome
  | .closeDir i => (m.dir i).isSome

end Call

/-! ### Runs -/

/-- Every call of the run keeps to the limits, and finds the pages it needs. -/
def Mounted.AllKeep (c : DataIO.Config) (env : FileEnv) (n : Nat) : List Call → Mounted → Prop
  | [], _ => True
  | call :: calls, m => call.Keeps c env m ∧ c.maxPagesPerWrite ≤ (m.device.freePages n).card ∧
      ∀ r ∈ m.call c env call, AllKeep c env n calls r.2

/-- One call. -/
theorem call_refines (h : d.Mirrors c env.toEnv nodes) (halive : s.Alive nodes) (hh : Healthy c env.toEnv n) {call : Call}
    (hkeep : call.Keeps c env ⟨s, d⟩) (hfree : c.maxPagesPerWrite ≤ (d.freePages n).card) :
    ∃ chance, Refines c env.toEnv (Mounted.call c env ⟨s, d⟩ call) (FileTree.call ⟨s, nodes⟩ chance call) := by
  cases call with
  | openObj path mask => exact ⟨d.chance env false, refines_openObj h halive hh hfree hkeep.1 hkeep.2 mask false⟩
  | read i bytesToRead =>
    obtain ⟨obj, hobj, hreadable⟩ := hkeep
    exact ⟨d.chance env false, refines_read h halive hobj hreadable⟩
  | write i bytesToWrite buf =>
    obtain ⟨obj, hobj, hwritable⟩ := hkeep
    obtain ⟨nearlyFull, hrefines⟩ := refines_write h halive hh hfree hobj hwritable buf
    exact ⟨_, hrefines⟩
  | seek i offs mode =>
    obtain ⟨obj, hobj⟩ := Option.isSome_iff_exists.mp hkeep
    exact ⟨d.chance env false, refines_seek h halive hobj offs mode⟩
  | flush i =>
    obtain ⟨obj, hobj⟩ := Option.isSome_iff_exists.mp hkeep
    exact ⟨d.chance env false, refines_flush h halive hh hobj⟩
  | close i =>
    obtain ⟨obj, hobj⟩ := Option.isSome_iff_exists.mp hkeep
    exact ⟨d.chance env false, refines_close h halive hh hobj⟩
  | truncate path newLength =>
    exact ⟨d.chance env false, refines_truncate h halive hh hkeep.1 (fun no hget => hkeep.2 _ hget no rfl) newLength⟩
  | chmod path perm => exact ⟨d.chance env false, refines_chmod h halive hh hkeep perm⟩
  | getObjInfo path => exact ⟨d.chance env false, refines_getObjInfo h halive hkeep⟩
  | touch path => exact ⟨d.chance env false, refines_touch h halive hh hfree hkeep.1 hkeep.2 false⟩
  | mkDir path mask => exact ⟨d.chance env false, refines_mkDir h halive hh hfree hkeep.1 hkeep.2.1 hkeep.2.2 mask false⟩
  | remove path => exact ⟨d.chance env false, refines_remove h halive hh hfree hkeep.1 fun no hget => hkeep.2 _ hget no rfl⟩
  | openDir path => exact ⟨d.chance env false, refines_openDir h halive hkeep.1 fun no hget => hkeep.2 _ hget no rfl⟩
  | readDir i =>
    obtain ⟨dir, hdir⟩ := Option.isSome_iff_exists.mp hkeep
    exact ⟨d.chance env false, refines_readDir h halive hdir⟩
  | rewindDir i =>
    obtain ⟨dir, hdir⟩ := Option.isSome_iff_exists.mp hkeep
    exact ⟨d.chance env false, refines_rewindDir h halive hdir⟩
  | closeDir i =>
    obtain ⟨dir, hdir⟩ := Option.isSome_iff_exists.mp hkeep
    exact ⟨d.chance env false, refines_closeDir h halive hdir⟩

/-- A run from any device that stands for a tree. -/
theorem run_mirrors (hh : Healthy c env.toEnv n) (calls : List Call) (h : d.Mirrors c env.toEnv nodes) (halive : s.Alive nodes)
    (hkeep : Mounted.AllKeep c env n calls ⟨s, d⟩) : ∃ answers s' d' nodes' chances, chances.length = calls.length ∧
      Mounted.run c env calls ⟨s, d⟩ = some (answers, ⟨s', d'⟩) ∧
      FileTree.run (calls.zip chances) ⟨s, nodes⟩ = some (answers, ⟨s', nodes'⟩) ∧ d'.Mirrors c env.toEnv nodes' ∧ s'.Alive nodes' := by
  induction calls generalizing s d nodes with
  | nil => exact ⟨[], s, d, nodes, [], rfl, rfl, rfl, h, halive⟩
  | cons call calls ih =>
    obtain ⟨hkeep, hfree, hkeeps⟩ := hkeep
    obtain ⟨chance, answer, s₁, d₁, nodes₁, hcall, hcall', h₁, halive₁⟩ := call_refines h halive hh hkeep hfree
    obtain ⟨answers, s', d', nodes', chances, hlength, hrun, hrun', h', halive'⟩ := ih h₁ halive₁ (hkeeps _ hcall)
    refine ⟨answer :: answers, s', d', nodes', chance :: chances, congrArg Nat.succ hlength, ?_, ?_, h', halive'⟩
    · rw [Mounted.run, hcall]
      dsimp only
      rw [hrun]
      rfl
    · rw [List.zip_cons_cons, FileTree.run, hcall']
      dsimp only
      rw [hrun']
      rfl

/-! ### From the format on -/

/-- Nothing is on it but the root, as `format` makes it. -/
structure Device.Fresh (d : Device) : Prop where
  tree : d.tree = [(0, createInode .dir permMask)]
  replaced : d.replaced = []

/-- Nothing is open. -/
def Session.fresh (readOnly : Bool) (slots : Nat) : Session := ⟨readOnly, List.replicate slots none, []⟩

/-- The root, which everybody may read and write. -/
def formattedNodes (no : InodeNo) : Option Node := if no = 0 then some ⟨permMask, .dir []⟩ else none

theorem Session.fresh_alive (readOnly : Bool) (slots : Nat) : (Session.fresh readOnly slots).Alive nodes := by
  intro no hopen
  rcases Session.isOpen_iff.mp hopen with ⟨obj, hslot, -⟩ | ⟨dir, hslot, -⟩
  · cases List.eq_of_mem_replicate hslot
  · cases hslot

theorem Device.Fresh.mirrors (h : d.Fresh) {env : DataIO.Env} : d.Mirrors c env formattedNodes := by
  have hlookup : ∀ i, d.lookup i = if i = 0 then some (createInode .dir permMask) else none := by
    intro i
    unfold Device.lookup
    rw [h.tree]
    by_cases hi : i = 0
    · simp [hi]
    · simp [hi, Ne.symm hi]
  have hroot : ∀ i x, d.lookup i = some x → i = 0 ∧ x = createInode .dir permMask := by
    intro i x hx
    rw [hlookup] at hx
    split_ifs at hx with hi
    exact ⟨hi, (Option.some.inj hx).symm⟩
  have hnone : entriesIn formattedNodes = fun _ => [] := by
    funext i
    unfold entriesIn formattedNodes
    split_ifs <;> rfl
  constructor
  · intro i inode hi
    obtain ⟨rfl, rfl⟩ := hroot i inode hi
    exact ⟨_, if_pos rfl, rfl, Content.Shown.blank (by decide : InodeType.dir ≠ .lnk) rfl rfl (fun _ => rfl) h.replaced⟩
  · intro i hi
    rw [hlookup] at hi
    split_ifs at hi with hzero
    exact if_neg hzero
  · rw [hnone]
    exact ⟨fun _ => List.nodup_nil, fun _ _ he => (List.not_mem_nil he).elim, fun _ _ _ he => (List.not_mem_nil he).elim⟩
  · exact ⟨_, _, if_pos rfl⟩
  · exact h.replaced
  · intro i j x y hij hx hy
    exact absurd ((hroot i x hx).1.trans (hroot j y hy).1.symm) hij

instance (path : Path) (P : InodeNo → Prop) [DecidablePred P] (env : Env) : Decidable (d.At c env path P) :=
  inferInstanceAs (Decidable (∀ r ∈ Device.getInodeOfElem c env d path, ∀ no ∈ r.toOption, P no))

instance (call : Call) (m : Mounted) : Decidable (call.Keeps c env m) := by
  cases call with
  | openObj path mask => exact inferInstanceAs (Decidable (_ ∧ ∀ r ∈ Device.getParentDir c _ _ _, _))
  | read i bytesToRead => exact inferInstanceAs (Decidable (∃ obj ∈ m.obj i, ∀ node ∈ m.device.lookup obj.no, _ → _ ∧ _))
  | write i bytesToWrite buf => exact inferInstanceAs (Decidable (∃ obj ∈ m.obj i, ∀ node ∈ m.device.lookup obj.no, _))
  | touch path => exact inferInstanceAs (Decidable (_ ∧ ∀ r ∈ Device.getParentDir c _ _ _, _))
  | mkDir path mask =>
    exact inferInstanceAs (Decidable (_ ∧ (∀ r ∈ Device.getParentDir c _ _ _, _) ∧ ∀ r ∈ Device.getParentDir c _ _ _, _))
  | truncate path newLength => exact inferInstanceAs (Decidable (_ ∧ Device.At _ _ _ _ _))
  | remove path => exact inferInstanceAs (Decidable (_ ∧ Device.At _ _ _ _ _))
  | openDir path => exact inferInstanceAs (Decidable (_ ∧ Device.At _ _ _ _ _))
  | chmod path perm => exact inferInstanceAs (Decidable (Short path))
  | getObjInfo path => exact inferInstanceAs (Decidable (Short path))
  | seek i offs mode => exact inferInstanceAs (Decidable (_ = true))
  | flush i => exact inferInstanceAs (Decidable (_ = true))
  | close i => exact inferInstanceAs (Decidable (_ = true))
  | readDir i => exact inferInstanceAs (Decidable (_ = true))
  | rewindDir i => exact inferInstanceAs (Decidable (_ = true))
  | closeDir i => exact inferInstanceAs (Decidable (_ = true))

instance AllKeep.decidable : (calls : List Call) → (m : Mounted) → Decidable (Mounted.AllKeep c env n calls m)
  | [], _ => isTrue trivial
  | call :: calls, m =>
    have := AllKeep.decidable calls
    inferInstanceAs (Decidable (_ ∧ _ ∧ ∀ r ∈ m.call c env call, Mounted.AllKeep c env n calls r.2))

/-- The log is nearly full at one of the writes. -/
def nearlyFullOnce : FileEnv := { Device.firstFree with nearlyFull := fun k => k = 9 }

/-- A file `/a` that is created, written and read. -/
def writtenAndRead : List Call := [.openObj Device.slashA 35, .write 0 3 fun _ => 7, .seek 0 1 .set, .read 0 2, .close 0]

end Paffs.Namespace
