import Paffs.Device.Objects

/-! Single calls on a mounted device, and the same calls on its tree. -/
namespace Paffs.Namespace
open Bytes (Memory ofBytes ofBytes_toBytes toBytes_length)
open DataIO (State)
open DataIO.State (Apart Healthy)
open Directory (Name Entry)

/-! ### What is open -/

/-- The inodes an open directory keeps. -/
def Dir.Opens (dir : Dir) (no : InodeNo) : Prop := dir.self = no ∨ ∃ child ∈ dir.childs, child.loaded = true ∧ child.no = no

namespace Session
variable {s : Session} {nodes nodes' : InodeNo → Option Node} {i : Nat} {no : InodeNo} {o : Obj} {x : Dir}

theorem isOpen_iff : s.isOpen no = true ↔ (∃ obj, some obj ∈ s.filesPool ∧ obj.no = no) ∨ ∃ dir, some dir ∈ s.dirs ∧ dir.Opens no := by
  unfold isOpen Dir.Opens
  simp only [Bool.or_eq_true, List.any_eq_true, Option.any_eq_true, decide_eq_true_eq, Bool.and_eq_true]
  constructor
  · rintro (⟨_, hslot, obj, rfl, hno⟩ | ⟨_, hslot, dir, rfl, hno⟩)
    · exact .inl ⟨obj, hslot, hno⟩
    · exact .inr ⟨dir, hslot, hno⟩
  · rintro (⟨obj, hslot, hno⟩ | ⟨dir, hslot, hno⟩)
    · exact .inl ⟨_, hslot, obj, rfl, hno⟩
    · exact .inr ⟨_, hslot, dir, rfl, hno⟩

theorem obj_eq (h : s.obj i = some o) : s.filesPool[i]? = some (some o) := by
  simpa [Session.obj, Option.join_eq_some_iff] using h

theorem dir_eq (h : s.dir i = some x) : s.dirs[i]? = some (some x) := by
  simpa [Session.dir, Option.join_eq_some_iff] using h

/-- A slot that gets what it has. -/
theorem setObj_self (h : s.obj i = some o) : s.setObj i (some o) = s := by
  obtain ⟨hlt, hget⟩ := List.getElem?_eq_some_iff.mp (obj_eq h)
  unfold setObj
  rw [← hget, List.set_getElem_self]

/-- Whatever is open is an object of the tree. -/
def Alive (s : Session) (nodes : InodeNo → Option Node) : Prop := ∀ no, s.isOpen no = true → (nodes no).isSome

theorem Alive.mono (h : s.Alive nodes) (hnodes : ∀ no, s.isOpen no = true → (nodes no).isSome → (nodes' no).isSome) : s.Alive nodes' :=
  fun no hno => hnodes no hno (h no hno)

theorem Alive.obj (h : s.Alive nodes) (hobj : s.obj i = some o) : (nodes o.no).isSome :=
  h _ (isOpen_iff.mpr (.inl ⟨o, List.mem_of_getElem? (obj_eq hobj), rfl⟩))

theorem Alive.dir (h : s.Alive nodes) (hdir : s.dir i = some x) (hno : x.Opens no) : (nodes no).isSome :=
  h _ (isOpen_iff.mpr (.inr ⟨x, List.mem_of_getElem? (dir_eq hdir), hno⟩))

theorem Alive.setObj (h : s.Alive nodes) (hno : (nodes o.no).isSome) : (s.setObj i (some o)).Alive nodes := by
  intro no hopen
  rcases isOpen_iff.mp hopen with ⟨obj', hslot, rfl⟩ | hdir
  · rcases List.mem_or_eq_of_mem_set hslot with hslot | heq
    · exact h _ (isOpen_iff.mpr (.inl ⟨obj', hslot, rfl⟩))
    · cases heq
      exact hno
  · exact h _ (isOpen_iff.mpr (.inr hdir))

theorem Alive.clearObj (h : s.Alive nodes) : (s.setObj i none).Alive nodes := by
  intro no hopen
  rcases isOpen_iff.mp hopen with ⟨obj', hslot, rfl⟩ | hdir
  · rcases List.mem_or_eq_of_mem_set hslot with hslot | heq
    · exact h _ (isOpen_iff.mpr (.inl ⟨obj', hslot, rfl⟩))
    · cases heq
  · exact h _ (isOpen_iff.mpr (.inr hdir))

theorem Alive.setDir (h : s.Alive nodes) (hdir : ∀ no, x.Opens no → (nodes no).isSome) : (s.setDir i (some x)).Alive nodes := by
  intro no hopen
  rcases isOpen_iff.mp hopen with hobj | ⟨dir', hslot, hno⟩
  · exact h _ (isOpen_iff.mpr (.inl hobj))
  · rcases List.mem_or_eq_of_mem_set hslot with hslot | heq
    · exact h _ (isOpen_iff.mpr (.inr ⟨dir', hslot, hno⟩))
    · cases heq
      exact hdir no hno

theorem Alive.clearDir (h : s.Alive nodes) : (s.setDir i none).Alive nodes := by
  intro no hopen
  rcases isOpen_iff.mp hopen with hobj | ⟨dir', hslot, hno⟩
  · exact h _ (isOpen_iff.mpr (.inl hobj))
  · rcases List.mem_or_eq_of_mem_set hslot with hslot | heq
    · exact h _ (isOpen_iff.mpr (.inr ⟨dir', hslot, hno⟩))
    · cases heq

theorem Alive.newDir (h : s.Alive nodes) (hdir : ∀ no, x.Opens no → (nodes no).isSome) : (s.newDir x).Alive nodes := by
  intro no hopen
  rcases isOpen_iff.mp hopen with hobj | ⟨dir', hslot, hno⟩
  · exact h _ (isOpen_iff.mpr (.inl hobj))
  · rcases List.mem_append.mp hslot with hslot | heq
    · exact h _ (isOpen_iff.mpr (.inr ⟨dir', hslot, hno⟩))
    · cases List.mem_singleton.mp heq
      exact hdir no hno

end Session

/-! ### Two levels -/

/-- A call on the device and one on the tree answer the same, and leave the one as the other. -/
def Refines (c : DataIO.Config) (env : DataIO.Env) (r : Option (Answer × Mounted)) (r' : Option (Answer × FileTree)) : Prop :=
  ∃ answer s d nodes, r = some (answer, ⟨s, d⟩) ∧ r' = some (answer, ⟨s, nodes⟩) ∧ d.Mirrors c env nodes ∧ s.Alive nodes

variable {c : DataIO.Config} {env : FileEnv} {s : Session} {d : Device} {nodes : InodeNo → Option Node} {n : Nat} {path : Path}

/-- What the surroundings of a call decide. -/
def Device.chance (env : FileEnv) (d : Device) (nearlyFull : Bool) : Chance := ⟨env.noRoom d.clock, nearlyFull, d.findFirstFreeNo⟩

/-- Nothing happens. -/
theorem Refines.same (h : d.Mirrors c env.toEnv nodes) (halive : s.Alive nodes) (answer : Answer) :
    Refines c env.toEnv (some (answer, ⟨s, d⟩)) (some (answer, ⟨s, nodes⟩)) := ⟨answer, s, d, nodes, rfl, rfl, h, halive⟩

/-- Only the session changes. -/
theorem Refines.session (h : d.Mirrors c env.toEnv nodes) (answer : Answer) {s' : Session} (halive : s'.Alive nodes) :
    Refines c env.toEnv (some (answer, ⟨s', d⟩)) (some (answer, ⟨s', nodes⟩)) := ⟨answer, s', d, nodes, rfl, rfl, h, halive⟩

/-! ### Files -/

theorem refines_openInode (h : d.Mirrors c env.toEnv nodes) (halive : s.Alive nodes) (mask : Nat) (no : InodeNo) :
    Refines c env.toEnv (some (Mounted.openInode ⟨s, d⟩ mask no)) (some (FileTree.openNode ⟨s, nodes⟩ mask no)) := by
  unfold Mounted.openInode FileTree.openNode
  dsimp only
  cases hnode : nodes no with
  | none =>
    have hlookup : d.lookup no = none := by
      rw [← Option.not_isSome_iff_eq_none, h.isSome_eq, hnode]
      decide
    rw [hlookup]
    exact .same h halive _
  | some node =>
    obtain ⟨perm, content⟩ := node
    obtain ⟨inode, hlookup, hperm, hshown⟩ := h.lookup hnode
    rw [hlookup]
    dsimp only
    cases content with
    | dir entries =>
      rw [if_neg (by rw [hshown.1]; decide), if_pos hshown.1]
      exact .same h halive _
    | file bytes =>
      have hsize : inode.size = bytes.size := hshown.size
      rw [if_neg (by rw [hshown.1]; decide), if_neg (by rw [hshown.1]; decide), hperm, hsize]
      dsimp only
      by_cases hrefused : perm ||| (mask &&& permMask) ≠ perm &&& permMask
      · rw [if_pos hrefused, if_pos hrefused]
        exact .same h halive _
      · rw [if_neg hrefused, if_neg hrefused]
        unfold Session.getNewObject
        cases hslot : s.filesPool.findIdx? Option.isNone with
        | none => exact .same h halive _
        | some i => exact .session h _ (halive.setObj (by rw [hnode]; rfl))

/-! ### What the tree keeps -/

namespace FileTree
variable {t : FileTree} {chance : Chance} {type : InodeType} {mask newLength : Nat} {no p i : InodeNo}

/-- A failure is not `ok`. -/
theorem walk_ne (t : FileTree) (names : List Name) (curr : InodeNo) : t.walk names curr ≠ .error .ok := by
  induction names generalizing curr with
  | nil => exact nofun
  | cons name names ih =>
    unfold walk
    split
    · exact nofun
    · exact nofun
    · split
      · exact nofun
      · exact ih _

theorem parent_ne (t : FileTree) (path : Path) : t.parent path ≠ .error .ok := by
  unfold parent
  split_ifs
  · exact nofun
  · exact walk_ne _ _ _

theorem set_alive {node : Node} (h : (t.nodes i).isSome) : ((t.set no (some node)).nodes i).isSome := by
  by_cases hi : i = no
  · subst hi
    exact Option.isSome_of_eq_some (Function.update_self ..)
  · exact (congrArg Option.isSome (Function.update_of_ne hi ..)).trans h

theorem create_kept (t : FileTree) (chance : Chance) (path : Path) (type : InodeType) (mask : Nat) :
    (t.create chance path type mask).2.toSession = t.toSession ∧
      ∀ i, (t.nodes i).isSome → ((t.create chance path type mask).2.nodes i).isSome := by
  unfold create
  split
  · exact ⟨rfl, fun _ h => h⟩
  split
  · exact ⟨rfl, fun _ h => h⟩
  split
  · exact ⟨rfl, fun _ h => h⟩
  split
  · exact ⟨rfl, fun _ h => h⟩
  split
  · exact ⟨rfl, fun _ h => set_alive (set_alive h)⟩
  · exact ⟨rfl, fun _ h => h⟩

theorem truncateNode_kept (t : FileTree) (no : InodeNo) (newLength : Nat) :
    (t.truncateNode no newLength).2.toSession = t.toSession ∧
      ∀ i, (t.nodes i).isSome → ((t.truncateNode no newLength).2.nodes i).isSome := by
  unfold truncateNode
  split
  · exact ⟨rfl, fun _ h => h⟩
  split
  · exact ⟨rfl, fun _ h => h⟩
  split
  · exact ⟨rfl, fun _ h => h⟩
  split
  · exact ⟨rfl, fun _ h => h⟩
  · exact ⟨rfl, fun _ h => set_alive h⟩

theorem unlink_kept (t : FileTree) (p no : InodeNo) : (t.unlink p no).2.toSession = t.toSession ∧
    ∀ i, i ≠ no → (t.nodes i).isSome → ((t.unlink p no).2.nodes i).isSome := by
  unfold unlink
  split
  · split_ifs
    · exact ⟨rfl, fun i hi h => (congrArg Option.isSome (Function.update_of_ne hi ..)).trans (set_alive h)⟩
    · exact ⟨rfl, fun _ _ h => h⟩
  · exact ⟨rfl, fun _ _ h => h⟩

theorem removeNode_kept (t : FileTree) (p no : InodeNo) : (t.removeNode p no).2.toSession = t.toSession ∧
    ∀ i, i ≠ no → (t.nodes i).isSome → ((t.removeNode p no).2.nodes i).isSome := by
  obtain ⟨hsession, halive⟩ := t.truncateNode_kept no 0
  unfold removeNode
  split
  · rename_i t' heq
    rw [heq] at hsession halive
    obtain ⟨hsession', halive'⟩ := t'.unlink_kept p no
    exact ⟨hsession'.trans hsession, fun i hi h => halive' i hi (halive i h)⟩
  · exact ⟨hsession, fun i _ h => halive i h⟩

end FileTree

/-! ### Opening and creating -/

/-- A creation on both levels. -/
theorem created (h : d.Mirrors c env.toEnv nodes) (halive : s.Alive nodes) (hh : Healthy c env.toEnv n)
    (hfree : c.maxPagesPerWrite ≤ (d.freePages n).card) (hshort : Short path) (hfits : d.Fits c env.toNamespace path)
    (hnothing : d.NamesNothing c env.toNamespace path) {type : InodeType} (htype : type ≠ .lnk) (mask : Nat) (nearlyFull : Bool) :
    ∃ r d' nodes', Device.createObject c env.toNamespace d path type mask = some (r, d') ∧
      FileTree.create ⟨s, nodes⟩ (d.chance env nearlyFull) path type mask = (r, ⟨s, nodes'⟩) ∧
      d'.Mirrors c env.toEnv nodes' ∧ s.Alive nodes' := by
  obtain ⟨d', hcreate, hmirrors⟩ := Device.Mirrors.createObject (t := ⟨s, nodes⟩) h hh hfree hshort hfits hnothing htype mask
    (show (d.chance env nearlyFull).noRoom = _ from rfl) rfl
  obtain ⟨hsession, hkept⟩ := FileTree.create_kept ⟨s, nodes⟩ (d.chance env nearlyFull) path type mask
  generalize FileTree.create ⟨s, nodes⟩ (d.chance env nearlyFull) path type mask = created at hcreate hmirrors hsession hkept ⊢
  obtain ⟨r, s', nodes'⟩ := created
  obtain rfl : s' = s := hsession
  exact ⟨r, d', nodes', hcreate, rfl, hmirrors, halive.mono fun no _ => hkept no⟩

theorem refines_openObj (h : d.Mirrors c env.toEnv nodes) (halive : s.Alive nodes) (hh : Healthy c env.toEnv n)
    (hfree : c.maxPagesPerWrite ≤ (d.freePages n).card) (hshort : Short path) (hfits : d.Fits c env.toNamespace path) (mask : Nat)
    (nearlyFull : Bool) : Refines c env.toEnv (Mounted.openObj c env ⟨s, d⟩ path mask)
      (some (FileTree.openObj ⟨s, nodes⟩ (d.chance env nearlyFull) path mask)) := by
  have hget := @Device.Mirrors.getInodeOfElem_eq c env.toNamespace d ⟨s, nodes⟩ path h hshort
  unfold Mounted.openObj FileTree.openObj
  dsimp only
  by_cases hwrite : s.readOnly = true ∧ mask &&& openW ≠ 0
  · rw [if_pos hwrite, if_pos hwrite]
    exact .same h halive _
  rw [if_neg hwrite, if_neg hwrite, hget]
  cases hfind : FileTree.find ⟨s, nodes⟩ path with
  | ok no => exact refines_openInode h halive mask no
  | error r =>
    by_cases hr : r = .notFound
    swap
    · cases r
      case notFound => exact absurd rfl hr
      all_goals exact .same h halive _
    subst hr
    dsimp only
    by_cases hnew : mask &&& openC = 0
    · rw [if_pos hnew, if_pos hnew]
      exact .same h halive _
    rw [if_neg hnew, if_neg hnew]
    by_cases hro : s.readOnly = true
    · rw [if_pos hro, if_pos hro]
      exact .same h halive _
    rw [if_neg hro, if_neg hro]
    obtain ⟨r, d', nodes', hcreate, hcreate', hmirrors, halive'⟩ := created h halive hh hfree hshort hfits
      (fun _ _ _ _ => .inr (hget.trans (by rw [hfind]))) (by decide : InodeType.file ≠ .lnk) (permR ||| permW) nearlyFull
    unfold Device.createFile
    rw [hcreate, hcreate']
    by_cases hok : r = .ok
    · subst hok
      exact refines_openInode hmirrors halive' mask _
    · cases r
      case ok => exact absurd rfl hok
      all_goals exact .same hmirrors halive' _

theorem refines_touch (h : d.Mirrors c env.toEnv nodes) (halive : s.Alive nodes) (hh : Healthy c env.toEnv n)
    (hfree : c.maxPagesPerWrite ≤ (d.freePages n).card) (hshort : Short path) (hfits : d.Fits c env.toNamespace path)
    (nearlyFull : Bool) : Refines c env.toEnv (Mounted.touch c env ⟨s, d⟩ path)
      (some (FileTree.touch ⟨s, nodes⟩ (d.chance env nearlyFull) path)) := by
  have hget := @Device.Mirrors.getInodeOfElem_eq c env.toNamespace d ⟨s, nodes⟩ path h hshort
  unfold Mounted.touch FileTree.touch
  dsimp only
  by_cases hro : s.readOnly = true
  · rw [if_pos hro, if_pos hro]
    exact .same h halive _
  rw [if_neg hro, if_neg hro]
  by_cases hfull : env.noRoom d.clock = true
  · rw [if_pos hfull, if_pos (show (d.chance env nearlyFull).noRoom = true from hfull)]
    exact .same h halive _
  rw [if_neg hfull, if_neg (show ¬ (d.chance env nearlyFull).noRoom = true from hfull), hget]
  cases hfind : FileTree.find ⟨s, nodes⟩ path with
  | ok no =>
    dsimp only
    rw [hh.outcome]
    exact .same h.tick halive .ok
  | error r =>
    by_cases hr : r = .notFound
    swap
    · cases r
      case notFound => exact absurd rfl hr
      all_goals exact .same h halive _
    subst hr
    obtain ⟨r, d', nodes', hcreate, hcreate', hmirrors, halive'⟩ := created h halive hh hfree hshort hfits
      (fun _ _ _ _ => .inr (hget.trans (by rw [hfind]))) (by decide : InodeType.file ≠ .lnk) (permR ||| permW) nearlyFull
    unfold Device.createFile
    rw [hcreate, hcreate']
    exact .same hmirrors halive' _

theorem refines_mkDir (h : d.Mirrors c env.toEnv nodes) (halive : s.Alive nodes) (hh : Healthy c env.toEnv n)
    (hfree : c.maxPagesPerWrite ≤ (d.freePages n).card) (hshort : Short path) (hfits : d.Fits c env.toNamespace path)
    (hnothing : d.NamesNothing c env.toNamespace path) (mask : Nat) (nearlyFull : Bool) :
    Refines c env.toEnv (Mounted.mkDir c env ⟨s, d⟩ path mask)
      (some (FileTree.mkDir ⟨s, nodes⟩ (d.chance env nearlyFull) path mask)) := by
  unfold Mounted.mkDir FileTree.mkDir
  dsimp only
  by_cases hro : s.readOnly = true
  · rw [if_pos hro, if_pos hro]
    exact .same h halive _
  rw [if_neg hro, if_neg hro]
  obtain ⟨r, d', nodes', hcreate, hcreate', hmirrors, halive'⟩ := created h halive hh hfree hshort hfits hnothing
    (by decide : InodeType.dir ≠ .lnk) mask nearlyFull
  unfold Device.mkDir
  rw [hcreate, hcreate']
  by_cases hok : r = .ok
  · subst hok
    dsimp only
    rw [hh.outcome]
    exact .same hmirrors.tick halive' _
  · cases r
    case ok => exact absurd rfl hok
    all_goals exact .same hmirrors halive' _

/-! ### By path -/

theorem refines_getObjInfo (h : d.Mirrors c env.toEnv nodes) (halive : s.Alive nodes) (hshort : Short path) :
    Refines c env.toEnv (Mounted.getObjInfo c env ⟨s, d⟩ path) (some (FileTree.getObjInfo ⟨s, nodes⟩ path)) := by
  have hget := @Device.Mirrors.getInodeOfElem_eq c env.toNamespace d ⟨s, nodes⟩ path h hshort
  unfold Mounted.getObjInfo FileTree.getObjInfo FileTree.withPath
  dsimp only
  rw [hget]
  cases hfind : FileTree.find ⟨s, nodes⟩ path with
  | error r => exact .same h halive _
  | ok no =>
    obtain ⟨node, hnode⟩ := Option.isSome_iff_exists.mp (Device.Mirrors.find_alive (t := ⟨s, nodes⟩) h hfind)
    change nodes no = some node at hnode
    obtain ⟨inode, hlookup, hperm, hshown⟩ := h.lookup hnode
    have hsize : inode.size = node.content.size := hshown.size
    dsimp only
    rw [hlookup, hnode]
    dsimp only
    rw [hperm, hsize, ← hshown.isDir]
    exact .same h halive _

theorem refines_chmod (h : d.Mirrors c env.toEnv nodes) (halive : s.Alive nodes) (hh : Healthy c env.toEnv n)
    (hshort : Short path) (perm : Nat) :
    Refines c env.toEnv (Mounted.chmod c env ⟨s, d⟩ path perm) (some (FileTree.chmod ⟨s, nodes⟩ path perm)) := by
  have hget := @Device.Mirrors.getInodeOfElem_eq c env.toNamespace d ⟨s, nodes⟩ path h hshort
  unfold Mounted.chmod FileTree.chmod FileTree.withPath
  dsimp only
  rw [hget]
  cases hfind : FileTree.find ⟨s, nodes⟩ path with
  | error r => exact .same h halive _
  | ok no =>
    obtain ⟨node, hnode⟩ := Option.isSome_iff_exists.mp (Device.Mirrors.find_alive (t := ⟨s, nodes⟩) h hfind)
    change nodes no = some node at hnode
    dsimp only
    unfold Device.updatePerm
    rw [hh.outcome, hnode]
    exact .same (h.setPerm hnode perm).tick (halive.mono fun _ _ => FileTree.set_alive (t := ⟨s, nodes⟩)) .ok

/-- The checkpoint goes through, whatever it finds. -/
theorem checkpoint_goes (h : d.Mirrors c env.toEnv nodes) (hh : Healthy c env.toEnv n) :
    ∃ d', Mounted.checkpoint env ⟨s, d⟩ = (.ok, ⟨s, d'⟩) ∧ d'.Mirrors c env.toEnv nodes := by
  unfold Mounted.checkpoint
  dsimp only
  split_ifs
  · rw [hh.outcome]
    exact ⟨_, rfl, h.tick⟩
  · exact ⟨_, rfl, h⟩

theorem refines_truncate (h : d.Mirrors c env.toEnv nodes) (halive : s.Alive nodes) (hh : Healthy c env.toEnv n)
    (hshort : Short path) (hfew : ∀ no, Device.getInodeOfElem c env.toNamespace d path = some (.ok no) → d.Countable c no)
    (newLength : Nat) : Refines c env.toEnv (Mounted.truncate c env ⟨s, d⟩ path newLength)
      (some (FileTree.truncate ⟨s, nodes⟩ path newLength)) := by
  have hget := @Device.Mirrors.getInodeOfElem_eq c env.toNamespace d ⟨s, nodes⟩ path h hshort
  unfold Mounted.truncate FileTree.truncate FileTree.withPath
  dsimp only
  by_cases hro : s.readOnly = true
  · rw [if_pos hro, if_pos hro]
    exact .same h halive _
  rw [if_neg hro, if_neg hro]
  cases hfind : FileTree.find ⟨s, nodes⟩ path with
  | error r =>
    unfold Device.truncateTo
    rw [hget, hfind]
    dsimp only
    cases r
    case ok => exact absurd hfind (FileTree.walk_ne _ _ _)
    all_goals exact .same h halive _
  | ok no =>
    obtain ⟨d', htruncate, hmirrors, -⟩ := Device.Mirrors.truncateTo (t := ⟨s, nodes⟩) h hh hshort hfind
      (hfew no (hget.trans (by rw [hfind]))) newLength
    obtain ⟨hsession, hkept⟩ := FileTree.truncateNode_kept ⟨s, nodes⟩ no newLength
    dsimp only
    rw [htruncate]
    generalize FileTree.truncateNode ⟨s, nodes⟩ no newLength = r at hmirrors hsession hkept ⊢
    obtain ⟨r, s', nodes'⟩ := r
    obtain rfl : s' = s := hsession
    have halive' : s'.Alive nodes' := halive.mono fun no _ => hkept no
    by_cases hok : r = .ok
    · subst hok
      obtain ⟨d'', hcheckpoint, hmirrors'⟩ := checkpoint_goes (s := s') hmirrors hh
      dsimp only [Mounted.on]
      rw [hcheckpoint]
      exact .same hmirrors' halive' _
    · cases r
      case ok => exact absurd rfl hok
      all_goals exact .same hmirrors halive' _

theorem refines_remove (h : d.Mirrors c env.toEnv nodes) (halive : s.Alive nodes) (hh : Healthy c env.toEnv n)
    (hfree : c.maxPagesPerWrite ≤ (d.freePages n).card) (hshort : Short path)
    (hfew : ∀ no, Device.getInodeOfElem c env.toNamespace d path = some (.ok no) → d.Countable c no) :
    Refines c env.toEnv (Mounted.remove c env ⟨s, d⟩ path) (some (FileTree.remove ⟨s, nodes⟩ path)) := by
  have hget := @Device.Mirrors.getInodeOfElem_eq c env.toNamespace d ⟨s, nodes⟩ path h hshort
  unfold Mounted.remove FileTree.remove FileTree.withPath
  -- `remove` sees what is open
  let env' : Env := { env.toNamespace with opened := fun _ no => s.isOpen no }
  have hget' := @Device.Mirrors.getInodeOfElem_eq c env' d ⟨s, nodes⟩ path h hshort
  have hparent' := @Device.Mirrors.getParentDir_eq c env' d ⟨s, nodes⟩ path h hshort
  dsimp only
  cases hfind : FileTree.find ⟨s, nodes⟩ path with
  | error r =>
    rw [hfind] at hget'
    have hremove : Device.remove c env' d path = some (r, d) := by
      unfold Device.remove
      rw [hget']
    by_cases hro : s.readOnly = true
    · rw [if_pos hro, hget']
      exact .same h halive _
    · rw [if_neg hro, hremove]
      cases r
      case ok => exact absurd hfind (FileTree.walk_ne _ _ _)
      all_goals exact .same h halive _
  | ok no =>
    rw [hfind] at hget'
    dsimp only
    by_cases hopen : s.isOpen no = true
    · have hremove : Device.remove c env' d path = some (.invalidInput, d) := by
        unfold Device.remove
        rw [hget']
        exact if_pos hopen
      rw [if_pos hopen]
      by_cases hro : s.readOnly = true
      · rw [if_pos hro, hget']
        dsimp only
        rw [if_pos hopen]
        exact .same h halive _
      · rw [if_neg hro, hremove]
        exact .same h halive _
    rw [if_neg hopen]
    cases hparent : FileTree.parent ⟨s, nodes⟩ path with
    | error r =>
      rw [hparent] at hparent'
      have hremove : Device.remove c env' d path = some (r, d) := by
        unfold Device.remove
        rw [hget']
        dsimp only
        rw [if_neg hopen, hparent']
        rfl
      by_cases hro : s.readOnly = true
      · rw [if_pos hro, hget']
        dsimp only
        rw [if_neg hopen, hparent']
        exact .same h halive _
      · rw [if_neg hro, hremove]
        have hne : r ≠ .ok := by
          rintro rfl
          exact FileTree.parent_ne _ _ hparent
        cases r
        case ok => exact absurd rfl hne
        all_goals exact .same h halive _
    | ok p =>
      rw [hparent] at hparent'
      by_cases hro : s.readOnly = true
      · rw [if_pos hro, hget']
        dsimp only
        rw [if_neg hopen, hparent', if_pos hro]
        exact .same h halive _
      dsimp only
      rw [if_neg hro, if_neg hro]
      obtain ⟨d', hremove, hmirrors⟩ := @Device.Mirrors.remove c env' d ⟨s, nodes⟩ path n no p h hh hfree hshort hfind hparent
        (by simpa using hopen) (hfew no (hget.trans (by rw [hfind])))
      obtain ⟨hsession, hkept⟩ := FileTree.removeNode_kept ⟨s, nodes⟩ p no
      rw [hremove]
      generalize FileTree.removeNode ⟨s, nodes⟩ p no = r at hmirrors hsession hkept ⊢
      obtain ⟨r, s', nodes'⟩ := r
      obtain rfl : s' = s := hsession
      refine .same hmirrors (halive.mono fun i hi => hkept i ?_) _
      rintro rfl
      exact hopen hi

/-! ### By slot -/

theorem refines_read {i : Nat} (h : d.Mirrors c env.toEnv nodes) (halive : s.Alive nodes) {o : Obj} (hobj : s.obj i = some o)
    {bytesToRead : Nat} (hreadable : ∀ node ∈ d.lookup o.no, node.size ≠ 0 → 0 < bytesToRead ∧
      (d.view node).Readable c env.toEnv o.fp bytesToRead) :
    Refines c env.toEnv (Mounted.read c env ⟨s, d⟩ i bytesToRead) (FileTree.read ⟨s, nodes⟩ i bytesToRead) := by
  obtain ⟨⟨perm, content⟩, hnode⟩ := Option.isSome_iff_exists.mp (halive.obj hobj)
  obtain ⟨inode, hlookup, hperm, hshown⟩ := h.lookup hnode
  have hreadable := hreadable inode hlookup
  unfold Mounted.read FileTree.read
  dsimp only
  rw [hobj, Option.bind_some, hnode, Option.map_some]
  dsimp only
  rw [hlookup]
  dsimp only
  cases content with
  | dir entries =>
    rw [if_pos hshown.1]
    exact .same h halive _
  | file bytes =>
    obtain ⟨htype, hshows⟩ := hshown
    have hsize : inode.size = bytes.size := hshows.holds.size_eq
    rw [if_neg (by rw [htype]; decide), if_neg (by rw [htype]; decide), hperm]
    dsimp only
    by_cases hrefused : perm &&& permR = 0
    · rw [if_pos hrefused, if_pos hrefused]
      exact .same h halive _
    rw [if_neg hrefused, if_neg hrefused]
    by_cases hempty : inode.size = 0
    · -- the file pointer stays
      rw [if_pos hempty, ← hsize, hempty, Nat.zero_sub, Nat.min_zero]
      have hself : FileTree.setObj ⟨s, nodes⟩ i (some { o with fp := o.fp + 0 }) = ⟨s, nodes⟩ :=
        congrArg (FileTree.mk · nodes) (Session.setObj_self hobj)
      change Refines c env.toEnv _ (some (.bytes [], FileTree.setObj ⟨s, nodes⟩ i (some { o with fp := o.fp + 0 })))
      rw [hself]
      exact .same h halive _
    · obtain ⟨hpos, hrange⟩ := hreadable hempty
      have hsum := hrange.1
      have hlength : (bytes.content.read o.fp (min bytesToRead (bytes.size - o.fp))).length ≤ bytesToRead := by
        rw [Memory.length_read]
        exact Nat.min_le_left ..
      rw [if_neg hempty, hshows.holds.read hpos hrange]
      dsimp only
      rw [Nat.mod_eq_of_lt (by omega)]
      exact .session h _ (halive.setObj (by rw [hnode]; rfl))

theorem refines_write {i : Nat} (h : d.Mirrors c env.toEnv nodes) (halive : s.Alive nodes) (hh : Healthy c env.toEnv n)
    (hfree : c.maxPagesPerWrite ≤ (d.freePages n).card) {o : Obj} (hobj : s.obj i = some o) {bytesToWrite : Nat}
    (hwritable : ∀ node ∈ d.lookup o.no, (d.view node).Writable c env.toEnv o.fp bytesToWrite) (buf : Memory) :
    ∃ nearlyFull, Refines c env.toEnv (Mounted.write c env ⟨s, d⟩ i bytesToWrite buf)
      (FileTree.write ⟨s, nodes⟩ (d.chance env nearlyFull) i bytesToWrite buf) := by
  obtain ⟨⟨perm, content⟩, hnode⟩ := Option.isSome_iff_exists.mp (halive.obj hobj)
  obtain ⟨inode, hlookup, hperm, hshown⟩ := h.lookup hnode
  have hwritable := hwritable inode hlookup
  refine ⟨env.nearlyFull ((d.view inode).writeInodeData c env.toEnv o.fp bytesToWrite buf).2.clock, ?_⟩
  unfold Mounted.write FileTree.write Device.chance
  dsimp only
  by_cases hro : s.readOnly = true
  · rw [if_pos hro, if_pos hro]
    exact .same h halive _
  rw [if_neg hro, if_neg hro]
  by_cases hfull : env.noRoom d.clock = true
  · rw [if_pos hfull, if_pos hfull]
    exact .same h halive _
  rw [if_neg hfull, if_neg hfull, hobj, Option.bind_some, hnode, Option.map_some]
  dsimp only
  rw [hlookup]
  dsimp only
  cases content with
  | dir entries =>
    rw [if_pos hshown.1]
    exact .same h halive _
  | file bytes =>
    obtain ⟨htype, hshows⟩ := hshown
    rw [if_neg (by rw [htype]; decide), if_neg (by rw [htype]; decide), hperm]
    dsimp only
    by_cases hrefused : perm &&& permW = 0
    · rw [if_pos hrefused, if_pos hrefused]
      exact .same h halive _
    rw [if_neg hrefused, if_neg hrefused]
    obtain ⟨s', hwrite, hshows', hapart⟩ := hshows.write hwritable hh hfree buf
    have hput := h.put_content hlookup hnode ⟨perm, .file (bytes.write ⟨o.fp, bytesToWrite, buf⟩)⟩ hperm
      ⟨htype, hshows'⟩ hapart rfl
    have halive' : s.Alive (Function.update nodes o.no (some ⟨perm, .file (bytes.write ⟨o.fp, bytesToWrite, buf⟩)⟩)) :=
      halive.mono fun _ _ => FileTree.set_alive (t := ⟨s, nodes⟩)
    rw [hwrite]
    dsimp only
    rw [if_neg (not_not_intro rfl)]
    by_cases hnearly : env.nearlyFull s'.clock = true
    · rw [if_pos hnearly, if_pos (hh.outcome _), if_pos hnearly]
      exact .same hput.tick halive' _
    · have hsum := hwritable.sum
      rw [if_neg hnearly, if_neg hnearly, Nat.mod_eq_of_lt hsum]
      refine .session hput _ (halive'.setObj ?_)
      exact Option.isSome_of_eq_some (Function.update_self ..)

theorem refines_seek {i : Nat} (h : d.Mirrors c env.toEnv nodes) (halive : s.Alive nodes) {o : Obj} (hobj : s.obj i = some o)
    (offs : Int) (mode : Seekmode) :
    Refines c env.toEnv (Mounted.seek ⟨s, d⟩ i offs mode) (FileTree.seek ⟨s, nodes⟩ i offs mode) := by
  obtain ⟨node, hnode⟩ := Option.isSome_iff_exists.mp (halive.obj hobj)
  obtain ⟨inode, hlookup, -, hshown⟩ := h.lookup hnode
  have hsize : inode.size = node.content.size := hshown.size
  unfold Mounted.seek FileTree.seek
  dsimp only
  rw [hobj, Option.bind_some, hnode, Option.map_some]
  dsimp only
  rw [hlookup]
  dsimp only
  rw [hsize]
  split_ifs
  · exact .same h halive _
  · exact .session h _ (halive.setObj (by rw [hnode]; rfl))

/-- A flush goes through. -/
theorem flushObj_goes (h : d.Mirrors c env.toEnv nodes) (hh : Healthy c env.toEnv n) :
    ∃ d', Mounted.flushObj env ⟨s, d⟩ = (.ok, ⟨s, d'⟩) ∧ d'.Mirrors c env.toEnv nodes := by
  unfold Mounted.flushObj
  by_cases hro : s.readOnly = true
  · rw [if_pos hro]
    exact ⟨d, rfl, h⟩
  rw [if_neg hro]
  dsimp only
  rw [hh.outcome]
  dsimp only
  rw [hh.outcome]
  exact checkpoint_goes h.tick.tick hh

theorem refines_flush {i : Nat} (h : d.Mirrors c env.toEnv nodes) (halive : s.Alive nodes) (hh : Healthy c env.toEnv n) {o : Obj}
    (hobj : s.obj i = some o) : Refines c env.toEnv (Mounted.flush env ⟨s, d⟩ i) (FileTree.flush ⟨s, nodes⟩ i) := by
  obtain ⟨d', hflush, hmirrors⟩ := flushObj_goes (s := s) h hh
  unfold Mounted.flush FileTree.flush
  dsimp only
  rw [hobj, hflush]
  exact .same hmirrors halive _

theorem refines_close {i : Nat} (h : d.Mirrors c env.toEnv nodes) (halive : s.Alive nodes) (hh : Healthy c env.toEnv n) {o : Obj}
    (hobj : s.obj i = some o) : Refines c env.toEnv (Mounted.close env ⟨s, d⟩ i) (FileTree.close ⟨s, nodes⟩ i) := by
  obtain ⟨d', hflush, hmirrors⟩ := flushObj_goes (s := s) h hh
  unfold Mounted.close FileTree.close
  dsimp only
  rw [hobj, hflush]
  exact .session hmirrors _ halive.clearObj

/-! ### Directories -/

/-- Fewer than `2 ^ 16` entries, for the count in front of them. -/
def FewEntries (inode : Inode) : Prop := inode.size ≤ 6 * 2 ^ 16

instance (inode : Inode) : Decidable (FewEntries inode) := inferInstanceAs (Decidable (_ ≤ _))

theorem length_encode_ge {entries : List Entry} (hfits : ∀ e ∈ entries, e.Fits) :
    2 + 6 * entries.length ≤ (Directory.encode entries).length := by
  have hle : 6 * entries.length ≤ (entries.flatMap Entry.bytes).length := by
    induction entries with
    | nil => exact Nat.zero_le _
    | cons e entries ih =>
      have hrest := ih fun x hx => hfits x (List.mem_cons_of_mem _ hx)
      have he := (hfits e List.mem_cons_self).1
      rw [List.flatMap_cons, List.length_append, e.length_bytes, List.length_cons]
      omega
  rw [Directory.encode, List.length_append, toBytes_length]
  omega

theorem listing_eq (h : d.Mirrors c env.toEnv nodes) {no : InodeNo} {perm : Nat} {entries : List Entry} {inode : Inode}
    (hnode : nodes no = some ⟨perm, .dir entries⟩) (hlookup : d.lookup no = some inode) (hfew : FewEntries inode) :
    d.listing c env.toNamespace inode = some (.ok entries) := by
  obtain ⟨inode', hlookup', -, hshown⟩ := h.lookup hnode
  obtain rfl := Option.some.inj (hlookup.symm.trans hlookup')
  obtain ⟨-, hholds, hsize⟩ := hshown
  unfold Device.listing
  rw [hholds.entriesOf]
  dsimp only
  obtain ⟨hfits, hstores⟩ := hholds
  split_ifs at hstores with hnil
  · subst hnil
    have hreserved : inode.reservedPages = 0 := hstores.reservedPages
    rw [hreserved]
    rfl
  · have hlength := length_encode_ge hfits
    have hread := hstores.read (show 0 < _ by omega)
    have hreserved : inode.reservedPages ≠ 0 :=
      Directory.reservedPages_ne_zero hstores.sound hstores.counted (hstores.size_eq.trans_le hstores.fits) hstores.first
    have hfew : inode.size ≤ 6 * 2 ^ 16 := hfew
    have hsize' : inode.size = (Directory.encode entries).length := hstores.size_eq
    have hcount : (Directory.encode entries).take 2 = Bytes.toBytes 2 entries.length := by
      unfold Directory.encode
      exact List.take_left' (toBytes_length _ _)
    change (d.view inode).readInodeData c env.toEnv 0 inode.size = _ at hread
    rw [if_pos (Nat.pos_of_ne_zero hreserved), hread, Option.map_some, hcount, ofBytes_toBytes,
      Nat.mod_eq_of_lt (show entries.length < 256 ^ 2 by omega), if_pos rfl]

theorem refines_openDir (h : d.Mirrors c env.toEnv nodes) (halive : s.Alive nodes) (hshort : Short path)
    (hfew : ∀ no, Device.getInodeOfElem c env.toNamespace d path = some (.ok no) → ∀ inode ∈ d.lookup no,
      inode.type = .dir ∧ FewEntries inode) :
    Refines c env.toEnv (Mounted.openDir c env ⟨s, d⟩ path) (some (FileTree.openDir ⟨s, nodes⟩ path)) := by
  have hget := @Device.Mirrors.getInodeOfElem_eq c env.toNamespace d ⟨s, nodes⟩ path h hshort
  unfold Mounted.openDir FileTree.openDir FileTree.withPath
  by_cases hnil : path = []
  · rw [if_pos hnil, if_pos hnil]
    exact .same h halive _
  rw [if_neg hnil, if_neg hnil]
  dsimp only
  rw [hget]
  cases hfind : FileTree.find ⟨s, nodes⟩ path with
  | error r => exact .same h halive _
  | ok no =>
    obtain ⟨⟨perm, content⟩, hnode⟩ := Option.isSome_iff_exists.mp (Device.Mirrors.find_alive (t := ⟨s, nodes⟩) h hfind)
    change nodes no = _ at hnode
    obtain ⟨inode, hlookup, -, hshown⟩ := h.lookup hnode
    obtain ⟨htype, hfew⟩ := hfew no (hget.trans (by rw [hfind])) inode hlookup
    dsimp only
    rw [hlookup, hnode]
    cases content with
    | file bytes =>
      rw [hshown.1] at htype
      cases htype
    | dir entries =>
      dsimp only
      rw [listing_eq h hnode hlookup hfew]
      refine .session h _ (halive.newDir fun no' hno' => ?_)
      rcases hno' with rfl | ⟨child, hchild, hloaded, -⟩
      · exact Option.isSome_of_eq_some hnode
      · obtain ⟨e, -, rfl⟩ := List.mem_map.mp hchild
        cases hloaded

theorem refines_readDir {i : Nat} (h : d.Mirrors c env.toEnv nodes) (halive : s.Alive nodes) {x : Dir} (hdir : s.dir i = some x) :
    Refines c env.toEnv (Mounted.readDir ⟨s, d⟩ i) (FileTree.readDir ⟨s, nodes⟩ i) := by
  have hkept : ∀ no, x.Opens no → (nodes no).isSome := fun no => halive.dir hdir
  unfold Mounted.readDir FileTree.readDir
  dsimp only
  rw [hdir, Option.map_some]
  dsimp only
  cases hchild : x.childs[x.pos]? with
  | none => exact .same h halive _
  | some child =>
    dsimp only
    by_cases hloaded : child.loaded = true
    · rw [if_pos hloaded, if_pos hloaded]
      exact .session h _ (halive.setDir hkept)
    rw [if_neg hloaded, if_neg hloaded]
    cases hnode : nodes child.no with
    | none =>
      have hlookup : d.lookup child.no = none := by
        rw [← Option.not_isSome_iff_eq_none, h.isSome_eq, hnode]
        decide
      rw [hlookup]
      exact .same h halive _
    | some node =>
      obtain ⟨inode, hlookup, hperm, hshown⟩ := h.lookup hnode
      -- the entry that is loaded leads to an object, as the others do
      have hmore : ∀ child', child'.no = child.no → ∀ no,
          Dir.Opens { x with childs := x.childs.set x.pos child', pos := x.pos + 1 } no → (nodes no).isSome := by
        rintro child' hno no (hself | ⟨e, he, hload, rfl⟩)
        · exact hkept no (.inl hself)
        · rcases List.mem_or_eq_of_mem_set he with he | rfl
          · exact hkept _ (.inr ⟨e, he, hload, rfl⟩)
          · rw [hno, hnode]
            rfl
      rw [hlookup]
      dsimp only
      rw [hperm]
      by_cases hrefused : node.perm &&& permR = 0
      · rw [if_pos hrefused, if_pos hrefused]
        exact .session h _ (halive.setDir (hmore _ rfl))
      · rw [if_neg hrefused, if_neg hrefused, hshown.isDir]
        simp only [decide_eq_true_eq]
        exact .session h _ (halive.setDir (hmore _ rfl))

theorem refines_rewindDir {i : Nat} (h : d.Mirrors c env.toEnv nodes) (halive : s.Alive nodes) {x : Dir} (hdir : s.dir i = some x) :
    Refines c env.toEnv (Mounted.rewindDir ⟨s, d⟩ i) (FileTree.rewindDir ⟨s, nodes⟩ i) := by
  unfold Mounted.rewindDir FileTree.rewindDir
  dsimp only
  rw [hdir, Option.map_some]
  exact .session h _ (halive.setDir fun no hno => halive.dir hdir (show x.Opens no from hno))

theorem refines_closeDir {i : Nat} (h : d.Mirrors c env.toEnv nodes) (halive : s.Alive nodes) {x : Dir} (hdir : s.dir i = some x) :
    Refines c env.toEnv (Mounted.closeDir ⟨s, d⟩ i) (FileTree.closeDir ⟨s, nodes⟩ i) := by
  unfold Mounted.closeDir FileTree.closeDir
  dsimp only
  rw [hdir, Option.map_some]
  exact .session h _ halive.clearDir

end Paffs.Namespace
