import Paffs.Device.Refinement
import Paffs.Device.Restoring

/-! Calls that a power loss cuts off: what a mount makes of the tree. -/
namespace Paffs.Namespace
open DataIO (State)
open DataIO.State (Healthy)
open Directory (Name Entry elemName maxDirEntryLength insertInodeInDir removeInodeFromDir)

variable {c : DataIO.Config} {env : Env} {d : Device} {t : FileTree} {path : Path} {no p : InodeNo} {n pointerBytes : Nat}
  {r : Replay}

theorem FileTree.unlink_again {perm : Nat} {entries : List Entry} (hdir : t.nodes p = some ⟨perm, .dir entries⟩)
    (hnamed : ∃ e ∈ entries, e.no = no) : ((t.unlink p no).2.set no none).nodes = (t.unlink p no).2.nodes := by
  rw [FileTree.unlink_dir hdir, if_pos hnamed]
  exact Function.update_idem ..

theorem not_named {perm : Nat} {entries : List Entry} (hdir : t.nodes p = some ⟨perm, .dir entries⟩)
    (hunnamed : ∀ j, ∀ e ∈ entriesIn t.nodes j, e.no ≠ no) : ¬∃ e ∈ entries, e.no = no := by
  rintro ⟨e, he, heq⟩
  apply hunnamed p e _ heq
  rw [entriesIn_of_some hdir]
  exact he

namespace Device

/-! ### What a mount makes of a cut -/

section Recover
variable (pointerBytes r)

/-- Nothing happened to the tree yet, or all of it. -/
theorem Mirrors.recover_nil (h : d.Mirrors c env.toEnv t.nodes) : ∃ d', (⟨[], d⟩ : Cut).recover c env pointerBytes r = some d' ∧
    d'.Mirrors c env.toEnv t.nodes := ⟨d, rfl, h⟩

/-- The object has no name yet. -/
theorem Mirrors.recover_made (h : d.Mirrors c env.toEnv t.nodes) (hh : Healthy c env.toEnv n) (hzero : no ≠ 0)
    (hunnamed : ∀ j, ∀ e ∈ entriesIn t.nodes j, e.no ≠ no) :
    ∃ d', (⟨[.mkObjInode no], d⟩ : Cut).recover c env pointerBytes r = some d' ∧
      d'.Mirrors c env.toEnv (Function.update t.nodes no none) := ⟨_, rfl, h.deleteInode hh hzero hunnamed⟩

/-- The object may have a name in the directory that is written. -/
theorem Mirrors.recover_inserted (h : d.Mirrors c env.toEnv t.nodes) (hh : Healthy c env.toEnv n) (hzero : no ≠ 0) {perm : Nat}
    {entries : List Entry} (hdir : t.nodes p = some ⟨perm, .dir entries⟩)
    (helsewhere : ∀ j, j ≠ p → ∀ e ∈ entriesIn t.nodes j, e.no ≠ no) :
    (∃ e ∈ entries, e.no = no ∧ pointerBytes < min e.name.length 200) ∧
        (⟨[.mkObjInode no, .insertIntoDir p], d⟩ : Cut).recover c env pointerBytes r = none ∨
      ∃ d', (⟨[.mkObjInode no, .insertIntoDir p], d⟩ : Cut).recover c env pointerBytes r = some d' ∧
        d'.Mirrors c env.toEnv (if ∃ e ∈ entries, e.no = no then t.nodes else Function.update t.nodes no none) := by
  have hself := entriesIn_of_some hdir
  change entriesIn t.nodes p = entries at hself
  have hdone := @Mirrors.signalEndOfLog c env d t n pointerBytes h hh ⟨.insertObj, no, p⟩ ⟨hzero, ⟨perm, entries, hdir⟩, helsewhere⟩
    (fun hstate => nomatch hstate)
  rcases hdone with ⟨⟨-, hlong⟩, hnone⟩ | ⟨d', hsome, hmirrors⟩
  · refine .inl ⟨?_, hnone⟩
    rwa [← hself]
  · refine .inr ⟨d', hsome, ?_⟩
    unfold FileTree.recovered at hmirrors
    dsimp only at hmirrors
    rw [hself] at hmirrors
    split_ifs at hmirrors ⊢
    · exact hmirrors
    · exact hmirrors

/-- The object and its entry go. -/
theorem Mirrors.recover_removing (h : d.Mirrors c env.toEnv t.nodes) (hh : Healthy c env.toEnv n) (hfew : d.Countable c no)
    (hzero : no ≠ 0) {perm : Nat} {entries : List Entry} (hdir : t.nodes p = some ⟨perm, .dir entries⟩)
    (hfree : (∃ e ∈ entries, e.no = no) → c.maxPagesPerWrite ≤ (d.freePages n).card)
    (helsewhere : ∀ j, j ≠ p → ∀ e ∈ entriesIn t.nodes j, e.no ≠ no) :
    ∃ d', (⟨[.removeObj no p], d⟩ : Cut).recover c env pointerBytes r = some d' ∧
      d'.Mirrors c env.toEnv ((t.unlink p no).2.set no none).nodes := h.finishRemoval hh hfew hzero hdir hfree helsewhere

/-- A removal goes through. -/
theorem Mirrors.recover_named (h : d.Mirrors c env.toEnv t.nodes) (hh : Healthy c env.toEnv n)
    (hfree : c.maxPagesPerWrite ≤ (d.freePages n).card) (hfew : d.Countable c no) {perm : Nat} {entries : List Entry}
    (hdir : t.nodes p = some ⟨perm, .dir entries⟩) (hnamed : ∃ e ∈ entries, e.no = no) :
    ∃ d', (⟨[.removeObj no p], d⟩ : Cut).recover c env pointerBytes r = some d' ∧
      d'.Mirrors c env.toEnv (t.unlink p no).2.nodes := by
  rw [← FileTree.unlink_again hdir hnamed]
  obtain ⟨e, he, heq⟩ := hnamed
  have hmem : e ∈ entriesIn t.nodes p := by
    rw [entriesIn_of_some hdir]
    exact he
  apply h.recover_removing pointerBytes r hh hfew (heq ▸ (h.names.alive p e hmem).2) hdir (fun _ => hfree)
  exact fun j hj e' he' heq' => hj (h.names.once j p e' he' e hmem (heq'.trans heq.symm)).1

/-- The entry is gone already. -/
theorem Mirrors.recover_removed (h : d.Mirrors c env.toEnv t.nodes) (hh : Healthy c env.toEnv n) (hfew : d.Countable c no)
    (hzero : no ≠ 0) {perm : Nat} {entries : List Entry} (hdir : t.nodes p = some ⟨perm, .dir entries⟩)
    (hunnamed : ∀ j, ∀ e ∈ entriesIn t.nodes j, e.no ≠ no) :
    ∃ d', (⟨[.removeObj no p], d⟩ : Cut).recover c env pointerBytes r = some d' ∧
      d'.Mirrors c env.toEnv (Function.update t.nodes no none) := by
  have hnone := not_named hdir hunnamed
  obtain ⟨d', hsome, hmirrors⟩ :=
    h.recover_removing pointerBytes r hh hfew hzero hdir (fun hnamed => (hnone hnamed).elim) fun j _ => hunnamed j
  rw [FileTree.unlink_dir hdir, if_neg hnone] at hmirrors
  exact ⟨d', hsome, hmirrors⟩

end Recover

/-! ### Creations -/

/-- A creation that a power loss cuts off is undone or done, unless the name of the object overruns the variable it is copied to. -/
theorem Mirrors.creation_recovers (h : d.Mirrors c env.toEnv t.nodes) (hh : Healthy c env.toEnv n)
    (hfree : c.maxPagesPerWrite ≤ (d.freePages n).card) (hshort : Short path) (hfits : d.Fits c env path)
    (hnothing : d.NamesNothing c env path) (hfresh : d.lookup d.findFirstFreeNo = none) {type : InodeType} (htype : type ≠ .lnk)
    (mask : Nat) {chance : Chance} (hroom : chance.noRoom = env.noRoom d.clock) (hno : chance.newNo = d.findFirstFreeNo)
    {cut : Cut} (hcut : cut ∈ d.createCuts c env [] path type mask) :
    pointerBytes < min (lastName path).length 200 ∧ cut.recover c env pointerBytes r = none ∨
      ∃ d', cut.recover c env pointerBytes r = some d' ∧
        (d'.Mirrors c env.toEnv t.nodes ∨ d'.Mirrors c env.toEnv (t.create chance path type mask).2.nodes) := by
  unfold Device.createCuts at hcut
  rcases List.mem_cons.mp hcut with rfl | hcut
  · obtain ⟨d', hsome, hmirrors⟩ := h.recover_nil pointerBytes r
    exact .inr ⟨d', hsome, .inl hmirrors⟩
  by_cases hfull : env.noRoom d.clock = true
  · rw [if_pos hfull] at hcut
    cases hcut
  rw [if_neg hfull, h.getParentDir_eq hshort] at hcut
  cases hparent : t.parent path with
  | error r =>
    rw [hparent] at hcut
    cases hcut
  | ok p =>
    rw [hparent] at hcut
    dsimp only [Except.map] at hcut
    by_cases hlong : (path.drop (lastSlash 0 0 path)).length > maxDirEntryLength
    · rw [if_pos hlong] at hcut
      cases hcut
    rw [if_neg hlong] at hcut
    obtain ⟨perm, entries, hdir, helem, he, hname, hsize⟩ := h.creates hshort hfits hnothing hparent hlong
    obtain ⟨d₁, dir, s', hinsert, hlookup, hok, hmade, hdone⟩ :=
      h.insertObject hh hfree hfresh hdir helem (he _) hsize hname htype mask
    have hcreate : (t.create chance path type mask).2.nodes = ((t.set d.findFirstFreeNo (some ⟨newPerm mask, .blank type⟩)).set p
        (some ⟨perm, .dir (entries ++ [⟨lastName path, d.findFirstFreeNo⟩])⟩)).nodes := by
      unfold FileTree.create
      rw [hroom, if_neg hfull, hparent, hno]
      dsimp only
      rw [if_neg hlong, h.absent _ hfresh, hdir]
      rfl
    rw [hinsert] at hcut
    dsimp only at hcut
    rw [hlookup] at hcut
    dsimp only at hcut
    rw [hok] at hcut
    -- the number is new
    generalize d.findFirstFreeNo = no at *
    have hunnamed : ∀ j, ∀ e ∈ entriesIn t.nodes j, e.no ≠ no := by
      intro j e he heq
      have hmem := (h.names.alive j e he).1
      rw [heq, h.absent _ hfresh] at hmem
      cases hmem
    have hzero : no ≠ 0 := by
      intro heq
      have hroot := h.root_alive
      rw [← heq, h.absent _ hfresh] at hroot
      cases hroot
    have hne : p ≠ no := by
      rintro rfl
      rw [h.absent _ hfresh] at hdir
      cases hdir
    have hblank : (Content.blank type).entries = entriesIn t.nodes no := by
      rw [entriesIn_of_none (h.absent _ hfresh)]
      cases type <;> rfl
    have hentries : entriesIn (t.set no (some ⟨newPerm mask, .blank type⟩)).nodes = entriesIn t.nodes := by
      change entriesIn (Function.update t.nodes no _) = _
      rw [entriesIn_update, hblank, Function.update_eq_self]
    have hundone : Function.update (t.set no (some ⟨newPerm mask, .blank type⟩)).nodes no none = t.nodes := by
      change Function.update (Function.update t.nodes no _) no none = _
      rw [Function.update_idem, ← h.absent _ hfresh, Function.update_eq_self]
    have hdir₁ : (t.set no (some ⟨newPerm mask, .blank type⟩)).nodes p = some ⟨perm, .dir entries⟩ :=
      (Function.update_of_ne hne ..).trans hdir
    have hnone := not_named hdir hunnamed
    rw [hcreate]
    simp only [List.nil_append, List.cons_append, List.mem_cons, List.not_mem_nil, or_false] at hcut
    rcases hcut with rfl | rfl | rfl | rfl | rfl
    · -- before the inode is inserted
      obtain ⟨d', hsome, hmirrors⟩ := h.recover_made pointerBytes r hh hzero hunnamed
      rw [← h.absent _ hfresh, Function.update_eq_self] at hmirrors
      exact .inr ⟨d', hsome, .inl hmirrors⟩
    · obtain ⟨d', hsome, hmirrors⟩ := hmade.recover_made pointerBytes r hh hzero (by rwa [hentries])
      rw [hundone] at hmirrors
      exact .inr ⟨d', hsome, .inl hmirrors⟩
    · -- the directory is not written yet
      rcases hmade.recover_inserted pointerBytes r hh hzero hdir₁ (fun j _ => by rw [hentries]; exact hunnamed j) with
        ⟨⟨e, he, heq, -⟩, -⟩ | ⟨d', hsome, hmirrors⟩
      · exact (hnone ⟨e, he, heq⟩).elim
      · rw [if_neg hnone, hundone] at hmirrors
        exact .inr ⟨d', hsome, .inl hmirrors⟩
    · -- it is, and the checkpoint is missing
      have hdir₂ : ((t.set no (some ⟨newPerm mask, .blank type⟩)).set p
          (some ⟨perm, .dir (entries ++ [⟨lastName path, no⟩])⟩)).nodes p = _ := Function.update_self ..
      have helsewhere : ∀ j, j ≠ p → ∀ e ∈ entriesIn ((t.set no (some ⟨newPerm mask, .blank type⟩)).set p
          (some ⟨perm, .dir (entries ++ [⟨lastName path, no⟩])⟩)).nodes j, e.no ≠ no := by
        intro j hj
        change ∀ e ∈ entriesIn (Function.update (t.set no _).nodes p _) j, e.no ≠ no
        rw [entriesIn_update, Function.update_of_ne hj, hentries]
        exact hunnamed j
      have hnamed : ∃ e ∈ entries ++ [⟨lastName path, no⟩], e.no = no :=
        ⟨_, List.mem_append_right _ List.mem_cons_self, rfl⟩
      rcases hdone.recover_inserted pointerBytes r hh hzero hdir₂ helsewhere with
        ⟨⟨e, he, heq, hover⟩, hnothing⟩ | ⟨d', hsome, hmirrors⟩
      · rcases List.mem_append.mp he with he | he
        · exact (hnone ⟨e, he, heq⟩).elim
        · obtain rfl := List.mem_singleton.mp he
          exact .inl ⟨hover, hnothing⟩
      · rw [if_pos hnamed] at hmirrors
        exact .inr ⟨d', hsome, .inr hmirrors⟩
    · exact .inr ⟨_, rfl, .inr hdone⟩

/-! ### Removals -/

/-- What the tree says of the sizes of inodes. -/
theorem Mirrors.countable_iff {nodes : InodeNo → Option Node} (h : d.Mirrors c env.toEnv nodes) :
    d.Countable c no ↔ ∀ node, nodes no = some node → node.content.size ≤ (2 ^ 16 - 1) * c.dataBytesPerPage := by
  constructor
  · intro hfew node hnode
    obtain ⟨inode, hlookup, -, hshown⟩ := h.lookup hnode
    exact hshown.size.symm.trans_le (hfew inode hlookup)
  · intro hsize inode hlookup
    obtain ⟨node, hnode, -, hshown⟩ := h.node no inode hlookup
    exact hshown.size.trans_le (hsize node hnode)

/-- A truncation empties the object, or is refused. -/
theorem truncateNode_zero :
    (t.truncateNode no 0).1 = .ok ∧ (∀ node, (t.truncateNode no 0).2.nodes no = some node → node.content.size = 0) ∨
      (t.truncateNode no 0).1 ≠ .ok ∧ (t.truncateNode no 0).2 = t := by
  unfold FileTree.truncateNode
  cases hnode : t.nodes no with
  | none => exact .inr ⟨Result.noConfusion, rfl⟩
  | some node =>
    obtain ⟨perm, content⟩ := node
    dsimp only
    by_cases hwritable : perm &&& permW = 0
    · rw [if_pos hwritable]
      exact .inr ⟨Result.noConfusion, rfl⟩
    rw [if_neg hwritable]
    cases content with
    | dir entries =>
      dsimp only
      by_cases hnil : entries = []
      · subst hnil
        refine .inl ⟨rfl, fun node heq => ?_⟩
        rw [hnode] at heq
        cases heq
        rfl
      · rw [if_pos hnil]
        exact .inr ⟨Result.noConfusion, rfl⟩
    | file bytes =>
      dsimp only
      rw [if_neg (Nat.not_lt_zero _)]
      refine .inl ⟨rfl, fun node heq => ?_⟩
      cases (show Function.update t.nodes no _ no = some node from heq).symm.trans (Function.update_self ..)
      rfl

/-- A directory with entries is not truncated. -/
theorem truncateNode_full {perm : Nat} {entries : List Entry} (hdir : t.nodes no = some ⟨perm, .dir entries⟩) (hne : entries ≠ [])
    (newLength : Nat) : (t.truncateNode no newLength).1 ≠ .ok := by
  unfold FileTree.truncateNode
  rw [hdir]
  dsimp only
  split_ifs
  · exact Result.noConfusion
  · exact Result.noConfusion

/-- A path with a name leads to an entry of its parent. -/
theorem Mirrors.named (h : d.Mirrors c env.toEnv t.nodes) (hshort : Short path) (hparent : t.parent path = .ok p)
    (hfind : t.find path = .ok no) (hname : lastName path ≠ []) :
    ∃ perm entries, t.nodes p = some ⟨perm, .dir entries⟩ ∧ ∃ e ∈ entries, e.no = no := by
  obtain ⟨elem, hsplit⟩ := exists_split path
  have hwalk := h.find_eq hshort hparent hsplit
  have hne : path ≠ [] := by
    rintro rfl
    cases hparent
  have hlast : lastName path = elem := by
    unfold lastName
    rw [hsplit.elemName_eq hne hshort.1]
    rfl
  rw [hlast] at hname
  rw [if_neg hname, hfind] at hwalk
  obtain ⟨⟨perm, content⟩, hnode⟩ := Option.isSome_iff_exists.mp (h.parent_alive hparent)
  rw [FileTree.walk, hnode] at hwalk
  cases content with
  | file bytes => cases hwalk
  | dir entries =>
    dsimp only at hwalk
    refine ⟨perm, entries, hnode, ?_⟩
    cases he : entries.find? fun e => decide (e.name = elem) with
    | none =>
      rw [he] at hwalk
      cases hwalk
    | some e =>
      rw [he] at hwalk
      cases hwalk
      exact ⟨e, List.mem_of_find?_eq_some he, rfl⟩

/-- The moments of a removal behind its truncation: `d` is left by the removal of the entry. -/
theorem Mirrors.erased_recovers (h : d.Mirrors c env.toEnv t.nodes) (hh : Healthy c env.toEnv n) (hne : p ≠ no) (hzero : no ≠ 0)
    {perm : Nat} {entries : List Entry} (hdir : t.nodes p = some ⟨perm, .dir entries⟩)
    (hunnamed : ∀ j, ∀ e ∈ entriesIn t.nodes j, e.no ≠ no) {node : Node} (hnode : t.nodes no = some node)
    (hempty : node.content.size = 0) {log : List Action} (hlog : log = [.removeObj no p] ∨ log = []) {cut : Cut}
    (hcut : cut ∈ [⟨log, d⟩, ⟨log, (Device.deleteInode env d no).2⟩, (⟨[], (Device.deleteInode env d no).2.tick⟩ : Cut)]) :
    ∃ d', cut.recover c env pointerBytes r = some d' ∧ (d'.Mirrors c env.toEnv (Function.update t.nodes no none) ∨
      cut.log = [] ∧ d'.Mirrors c env.toEnv t.nodes) := by
  have hdeleted := h.deleteInode hh hzero hunnamed
  have hfew : d.Countable c no := h.countable_iff.mpr fun node' hnode' => by
    cases hnode.symm.trans hnode'
    exact hempty.trans_le (Nat.zero_le _)
  simp only [List.mem_cons, List.not_mem_nil, or_false] at hcut
  rcases hcut with rfl | rfl | rfl
  · rcases hlog with rfl | rfl
    · obtain ⟨d', hsome, hdone⟩ := h.recover_removed pointerBytes r hh hfew hzero hdir hunnamed
      exact ⟨d', hsome, .inl hdone⟩
    · exact ⟨d, rfl, .inr ⟨rfl, h⟩⟩
  · rcases hlog with rfl | rfl
    · -- the inode is gone as well
      let t' : FileTree := t.set no none
      have hdeleted' : (Device.deleteInode env d no).2.Mirrors c env.toEnv t'.nodes := hdeleted
      have hnone : t'.nodes no = none := Function.update_self ..
      obtain ⟨d', hsome, hdone⟩ := hdeleted'.recover_removed pointerBytes r hh
        (hdeleted'.countable_iff.mpr fun node hnode => by cases hnone.symm.trans hnode) hzero
        ((Function.update_of_ne hne ..).trans hdir) (by
          intro j e he
          by_cases hj : j = no
          · subst hj
            rw [entriesIn_of_none hnone] at he
            cases he
          · exact hunnamed j e (by rwa [entriesIn, ← show t'.nodes j = t.nodes j from Function.update_of_ne hj ..]))
      change d'.Mirrors c env.toEnv (Function.update (Function.update t.nodes no none) no none) at hdone
      rw [Function.update_idem] at hdone
      exact ⟨d', hsome, .inl hdone⟩
    · exact ⟨_, rfl, .inl hdeleted⟩
  · exact ⟨_, rfl, .inl hdeleted.tick⟩

/-- A removal is carried out as soon as it is logged, also when it is refused then; a power loss behind the checkpoint of its
directory may leave the object behind, empty and without a name. -/
theorem Mirrors.removal_recovers (h : d.Mirrors c env.toEnv t.nodes) (hh : Healthy c env.toEnv n)
    (hfree : c.maxPagesPerWrite ≤ (d.freePages n).card) (hshort : Short path) (hname : lastName path ≠ [])
    (hfew : ∀ no, t.find path = .ok no → d.Countable c no) (readOnly : Bool) {cut : Cut}
    (hcut : cut ∈ d.removeCuts c env [] readOnly path) :
    ∃ d', cut.recover c env pointerBytes r = some d' ∧ (cut.log = [] ∧ d'.Mirrors c env.toEnv t.nodes ∨
      ∃ no p, t.find path = .ok no ∧ t.parent path = .ok p ∧ (d'.Mirrors c env.toEnv (t.unlink p no).2.nodes ∨
        cut.log = [] ∧ ∃ node : Node, node.content.size = 0 ∧
          d'.Mirrors c env.toEnv (Function.update (t.unlink p no).2.nodes no (some node)))) := by
  unfold Device.removeCuts at hcut
  rcases List.mem_cons.mp hcut with rfl | hcut
  · exact ⟨d, rfl, .inl ⟨rfl, h⟩⟩
  rw [h.getInodeOfElem_eq hshort] at hcut
  cases hfind : t.find path with
  | error r =>
    rw [hfind] at hcut
    cases hcut
  | ok no =>
    rw [hfind] at hcut
    dsimp only at hcut
    by_cases hopened : env.opened d.clock no = true
    · rw [if_pos hopened] at hcut
      cases hcut
    rw [if_neg hopened, h.getParentDir_eq hshort] at hcut
    cases hparent : t.parent path with
    | error r =>
      rw [hparent] at hcut
      cases hcut
    | ok p =>
      rw [hparent] at hcut
      dsimp only [Except.map] at hcut
      obtain ⟨perm, entries, hdir, hnamed⟩ := h.named hshort hparent hfind hname
      have hcount := hfew no hfind
      suffices hgone : ∃ d', cut.recover c env pointerBytes r = some d' ∧ (d'.Mirrors c env.toEnv (t.unlink p no).2.nodes ∨
          cut.log = [] ∧ ∃ node : Node, node.content.size = 0 ∧
            d'.Mirrors c env.toEnv (Function.update (t.unlink p no).2.nodes no (some node))) by
        obtain ⟨d', hsome, hdone⟩ := hgone
        exact ⟨d', hsome, .inr ⟨no, p, rfl, rfl, hdone⟩⟩
      rcases List.mem_cons.mp hcut with rfl | hcut
      · obtain ⟨d', hsome, hdone⟩ := h.recover_named pointerBytes r hh hfree hcount hdir hnamed
        exact ⟨d', hsome, .inl hdone⟩
      cases readOnly with
      | true => cases hcut
      | false =>
        rw [if_neg (by decide)] at hcut
        obtain ⟨d₁, htruncate, h₁, hmore⟩ := h.truncateTo hh hshort hfind hcount 0
        have hcases := @truncateNode_zero t no
        have hdone := @truncateNode_ok t no 0
        have hself : p = no → (t.truncateNode no 0).1 ≠ .ok := by
          rintro rfl
          obtain ⟨e, he, -⟩ := hnamed
          exact truncateNode_full hdir (List.ne_nil_of_mem he) 0
        have hfree₁ := hfree.trans (Finset.card_le_card hmore)
        rw [truncate_eq, htruncate] at hcut
        generalize t.truncateNode no 0 = x at hcut h₁ hcases hdone hself
        obtain ⟨x, t₁⟩ := x
        rcases hcases with ⟨hx, hempty⟩ | ⟨hx, heq₁⟩
        swap
        · -- it is refused
          dsimp only at heq₁ hx
          subst heq₁
          have hrefused : cut = ⟨[.removeObj no p], d₁⟩ := by
            cases x
            case ok => exact absurd rfl hx
            all_goals exact List.mem_singleton.mp hcut
          obtain ⟨d', hsome, hdone⟩ := h₁.recover_named pointerBytes r hh hfree₁
            (h₁.countable_iff.mpr (h.countable_iff.mp hcount)) hdir hnamed
          exact ⟨d', hrefused ▸ hsome, .inl hdone⟩
        dsimp only at hx hempty hdone h₁
        subst hx
        obtain ⟨hother, halive, -⟩ := hdone rfl
        have hne : p ≠ no := fun heq => hself heq rfl
        have hdir₁ : t₁.nodes p = some ⟨perm, .dir entries⟩ := (hother p hne).trans hdir
        obtain ⟨dir, hlookup, -, -⟩ := h₁.lookup hdir₁
        dsimp only at hcut
        rw [hlookup] at hcut
        have hnodes := @FileTree.unlink_set t t₁ no p perm entries hdir hdir₁ hother
        rw [FileTree.unlink_again hdir hnamed, FileTree.unlink_again hdir₁ hnamed] at hnodes
        rw [hnodes]
        obtain ⟨s', hremove, h₂, hzero, hunnamed⟩ := h₁.eraseEntry hh hfree₁ hdir₁ hnamed hlookup
        dsimp only at hcut
        rw [hremove] at hcut
        dsimp only at hcut
        rcases List.mem_cons.mp hcut with rfl | hcut
        · -- the entry is still there
          obtain ⟨d', hsome, hdone⟩ := h₁.recover_named pointerBytes r hh hfree₁
            (h₁.countable_iff.mpr fun node hnode => (hempty node hnode).trans_le (Nat.zero_le _)) hdir₁ hnamed
          exact ⟨d', hsome, .inl hdone⟩
        obtain ⟨node, hnode⟩ := Option.isSome_iff_exists.mp halive
        let t₂ : FileTree := t₁.set p (some ⟨perm, .dir (entries.eraseP fun e => e.no = no)⟩)
        have hnode₂ : t₂.nodes no = some node := (Function.update_of_ne (Ne.symm hne) ..).trans hnode
        have hgone : Function.update t₂.nodes no none = (t₁.unlink p no).2.nodes := by
          rw [FileTree.unlink_dir hdir₁, if_pos hnamed]
          rfl
        have hnameless : Function.update (t₁.unlink p no).2.nodes no (some node) = t₂.nodes := by
          rw [← hgone, Function.update_idem, ← hnode₂, Function.update_eq_self]
        -- the log of the moment, and the moments that follow
        have hmoments : ∃ log, (log = [.removeObj no p] ∨ log = []) ∧ cut ∈ [⟨log, d₁.put p s'⟩,
            ⟨log, (Device.deleteInode env (d₁.put p s') no).2⟩, (⟨[], (Device.deleteInode env (d₁.put p s') no).2.tick⟩ : Cut)] := by
          rcases List.mem_cons.mp hcut with rfl | hcut
          · exact ⟨_, .inl rfl, List.mem_cons_self⟩
          refine ⟨if s'.size = 0 then [.removeObj no p] else [], ?_, ?_⟩
          · split_ifs
            · exact .inl rfl
            · exact .inr rfl
          · unfold Device.deleteInode at hcut ⊢
            rw [hh.outcome] at hcut ⊢
            exact hcut
        obtain ⟨log, hlog, hcut⟩ := hmoments
        obtain ⟨d', hsome, hdone⟩ := @Mirrors.erased_recovers c env _ t₂ no p n pointerBytes r h₂ hh hne hzero perm _
          (Function.update_self ..) hunnamed node hnode₂ (hempty node hnode) log hlog cut hcut
        rw [hgone] at hdone
        rcases hdone with hdone | ⟨hnil, hdone⟩
        · exact ⟨d', hsome, .inl hdone⟩
        · exact ⟨d', hsome, .inr ⟨hnil, node, hempty node hnode, hnameless ▸ hdone⟩⟩

end Device

/-! ### Any call -/

namespace Call

/-- The path at which an object may be created. -/
def createdPath : Call → Option Path
  | .openObj path _ => some path
  | .touch path => some path
  | .mkDir path _ => some path
  | _ => none

def removedPath : Call → Option Path
  | .remove path => some path
  | _ => none

/-- A creation has a number left, and what is removed has a name. -/
def Recoverable (m : Mounted) (call : Call) : Prop :=
  (call.createdPath.isSome → m.device.lookup m.device.findFirstFreeNo = none) ∧ ∀ path ∈ call.removedPath, lastName path ≠ []

end Call

/-- A mount leaves this tree. -/
def Restored (c : DataIO.Config) (env : DataIO.Env) (r : Option Device) (nodes : InodeNo → Option Node) : Prop :=
  ∃ d', r = some d' ∧ d'.Mirrors c env nodes

/-- What a mount leaves of a call that was cut off: the tree in front of it, or the one behind it. The name of a new object may be
too long, and a removal may be done that was refused, or may leave the object behind, empty and without a name. -/
def Call.Recovers (c : DataIO.Config) (env : FileEnv) (pointerBytes : Nat) (r : Replay) (t : FileTree) (nodes : InodeNo → Option Node)
    (call : Call) (cut : Cut) : Prop :=
  let after := cut.recover c env.toNamespace pointerBytes r
  Restored c env.toEnv after t.nodes ∨ Restored c env.toEnv after nodes ∨
    (∃ path, call.createdPath = some path ∧ pointerBytes < min (lastName path).length 200 ∧ after = none) ∨
    ∃ path no p, call.removedPath = some path ∧ t.find path = .ok no ∧ t.parent path = .ok p ∧
      (Restored c env.toEnv after (t.unlink p no).2.nodes ∨ cut.log = [] ∧ ∃ node : Node, node.content.size = 0 ∧
        Restored c env.toEnv after (Function.update (t.unlink p no).2.nodes no (some node)))

section Calls
variable {c : DataIO.Config} {env : FileEnv} {s s' : Session} {d d' : Device} {nodes nodes' : InodeNo → Option Node} {call : Call}
  {path : Path} {answer : Answer} {cut : Cut} {t : FileTree} {chance : Chance} {mask : Nat}

/-- Where nothing is logged, nothing is replayed. -/
theorem recovers_unlogged (h : d.Mirrors c env.toEnv nodes) (h' : d'.Mirrors c env.toEnv nodes')
    (hcut : cut.log = [] ∧ (cut.device = d ∨ cut.device = d')) : call.Recovers c env pointerBytes r ⟨s, nodes⟩ nodes' cut := by
  obtain ⟨log, device⟩ := cut
  obtain ⟨rfl, rfl | rfl⟩ := hcut
  · exact .inl ⟨_, rfl, h⟩
  · exact .inr (.inl ⟨_, rfl, h'⟩)

theorem plainCuts_unlogged {x : Option (Answer × Mounted)} (hx : x = some (answer, ⟨s', d'⟩))
    (hcut : cut ∈ Mounted.plainCuts ⟨s, d⟩ [] x) : cut.log = [] ∧ (cut.device = d ∨ cut.device = d') := by
  subst hx
  rcases List.mem_cons.mp hcut with rfl | hcut
  · exact ⟨rfl, .inl rfl⟩
  · cases List.mem_singleton.mp hcut
    exact ⟨rfl, .inr rfl⟩

theorem checkedCuts_unlogged {x : Option (Answer × Mounted)} (hx : x = some (answer, ⟨s', d'⟩))
    (hcut : cut ∈ Mounted.checkedCuts ⟨s, d⟩ [] x) : cut.log = [] ∧ (cut.device = d ∨ cut.device = d') := by
  subst hx
  have hall : cut ∈ [⟨[], d⟩, ⟨[], d'⟩, (⟨[], d'⟩ : Cut)] := by
    unfold Mounted.checkedCuts at hcut
    cases answer
    case ok => rwa [ite_self] at hcut
    case written => rwa [ite_self] at hcut
    all_goals exact List.mem_append_left [_] hcut
  simp only [List.mem_cons, List.not_mem_nil, or_false] at hall
  rcases hall with rfl | rfl | rfl
  · exact ⟨rfl, .inl rfl⟩
  · exact ⟨rfl, .inr rfl⟩
  · exact ⟨rfl, .inr rfl⟩

/-- Creations and removals apart, nothing is logged but checkpoints. -/
theorem cuts_unlogged (hcreated : call.createdPath = none) (hremoved : call.removedPath = none)
    (hcall : Mounted.call c env ⟨s, d⟩ call = some (answer, ⟨s', d'⟩)) (hcut : cut ∈ Mounted.cuts c env ⟨s, d⟩ [] call) :
    cut.log = [] ∧ (cut.device = d ∨ cut.device = d') := by
  cases call
  case openObj => cases hcreated
  case touch => cases hcreated
  case mkDir => cases hcreated
  case remove => cases hremoved
  case write => exact checkedCuts_unlogged hcall hcut
  case flush => exact checkedCuts_unlogged hcall hcut
  case close => exact checkedCuts_unlogged hcall hcut
  case truncate => exact checkedCuts_unlogged hcall hcut
  all_goals exact plainCuts_unlogged hcall hcut

/-! ### Creations and removals, as calls -/

theorem openNode_nodes (t : FileTree) (mask : Nat) (no : InodeNo) : (t.openNode mask no).2.nodes = t.nodes := by
  unfold FileTree.openNode
  split
  · rfl
  · rfl
  · split
    · rfl
    · split
      · rfl
      · rfl

theorem openObj_nodes (hro : t.readOnly = false) (hfind : t.find path = .error .notFound) (hnew : mask &&& openC ≠ 0) :
    (t.openObj chance path mask).2.nodes = (t.create chance path .file (permR ||| permW)).2.nodes := by
  unfold FileTree.openObj
  rw [hro, if_neg (fun hwrite => Bool.false_ne_true hwrite.1), hfind]
  dsimp only
  rw [if_neg hnew, if_neg Bool.false_ne_true]
  generalize t.create chance path .file (permR ||| permW) = x
  obtain ⟨x, t'⟩ := x
  cases x
  case ok => exact openNode_nodes t' mask _
  all_goals rfl

theorem touch_nodes (hro : t.readOnly = false) (hroom : chance.noRoom = false) (hfind : t.find path = .error .notFound) :
    (t.touch chance path).2.nodes = (t.create chance path .file (permR ||| permW)).2.nodes := by
  unfold FileTree.touch
  rw [hro, hroom, if_neg Bool.false_ne_true, if_neg Bool.false_ne_true, hfind]

theorem mkDir_nodes (hro : t.readOnly = false) : (t.mkDir chance path mask).2.nodes = (t.create chance path .dir mask).2.nodes := by
  unfold FileTree.mkDir
  rw [hro, if_neg Bool.false_ne_true]

theorem creatingCuts_cases {create : Bool} {x : Option (Answer × Mounted)}
    (hcut : cut ∈ Mounted.creatingCuts c env ⟨s, d⟩ [] path create x) :
    (create = true ∧ Device.getInodeOfElem c env.toNamespace d path = some (.error .notFound) ∧
      cut ∈ d.createCuts c env.toNamespace [] path .file (permR ||| permW)) ∨ cut ∈ Mounted.plainCuts ⟨s, d⟩ [] x := by
  unfold Mounted.creatingCuts at hcut
  split at hcut
  · rename_i hget
    cases create with
    | true => exact .inl ⟨rfl, hget, hcut⟩
    | false => exact .inr hcut
  · exact .inr hcut

/-- A creation. -/
theorem creation_recovers (h : d.Mirrors c env.toEnv nodes) (hh : Healthy c env.toEnv n)
    (hfree : c.maxPagesPerWrite ≤ (d.freePages n).card) (hshort : Short path) (hfits : d.Fits c env.toNamespace path)
    (hnothing : d.NamesNothing c env.toNamespace path) (hfresh : d.lookup d.findFirstFreeNo = none) {type : InodeType}
    (htype : type ≠ .lnk) (mask : Nat) (hcreated : call.createdPath = some path)
    (hcut : cut ∈ d.createCuts c env.toNamespace [] path type mask) : call.Recovers c env pointerBytes r ⟨s, nodes⟩
      (FileTree.create ⟨s, nodes⟩ (d.chance env false) path type mask).2.nodes cut := by
  rcases @Device.Mirrors.creation_recovers c env.toNamespace d ⟨s, nodes⟩ path n pointerBytes r h hh hfree hshort hfits hnothing
    hfresh type htype mask (d.chance env false) rfl rfl cut hcut with ⟨hlong, hnone⟩ | ⟨d', hsome, hdone | hdone⟩
  · exact .inr (.inr (.inl ⟨path, hcreated, hlong, hnone⟩))
  · exact .inl ⟨d', hsome, hdone⟩
  · exact .inr (.inl ⟨d', hsome, hdone⟩)

/-- A call that creates a file where nothing is. -/
theorem creatingCuts_recovers (h : d.Mirrors c env.toEnv nodes) (h' : d'.Mirrors c env.toEnv nodes') (hh : Healthy c env.toEnv n)
    (hfree : c.maxPagesPerWrite ≤ (d.freePages n).card) (hshort : Short path) (hfits : d.Fits c env.toNamespace path)
    (hfresh : d.lookup d.findFirstFreeNo = none) (hcreated : call.createdPath = some path) {create : Bool}
    {x : Option (Answer × Mounted)} (hx : x = some (answer, ⟨s', d'⟩))
    (hnodes : create = true → FileTree.find ⟨s, nodes⟩ path = .error .notFound →
      nodes' = (FileTree.create ⟨s, nodes⟩ (d.chance env false) path .file (permR ||| permW)).2.nodes)
    (hcut : cut ∈ Mounted.creatingCuts c env ⟨s, d⟩ [] path create x) : call.Recovers c env pointerBytes r ⟨s, nodes⟩ nodes' cut := by
  rcases creatingCuts_cases hcut with ⟨hcreate, hnone, hcut⟩ | hcut
  · have hget := @Device.Mirrors.getInodeOfElem_eq c env.toNamespace d ⟨s, nodes⟩ path h hshort
    rw [hnodes hcreate (Option.some.inj (hget.symm.trans hnone))]
    exact creation_recovers h hh hfree hshort hfits (fun _ _ _ _ => .inr hnone) hfresh (by decide : InodeType.file ≠ .lnk) _ hcreated
      hcut
  · exact recovers_unlogged h h' (plainCuts_unlogged hx hcut)

/-- One call. -/
theorem cut_recovers (h : d.Mirrors c env.toEnv nodes) (halive : s.Alive nodes) (hh : Healthy c env.toEnv n)
    (hkeep : call.Keeps c env ⟨s, d⟩) (hfree : c.maxPagesPerWrite ≤ (d.freePages n).card) (hrec : call.Recoverable ⟨s, d⟩) :
    ∃ chance answer s' d' nodes', Mounted.call c env ⟨s, d⟩ call = some (answer, ⟨s', d'⟩) ∧
      FileTree.call ⟨s, nodes⟩ chance call = some (answer, ⟨s', nodes'⟩) ∧ d'.Mirrors c env.toEnv nodes' ∧
      ∀ cut ∈ Mounted.cuts c env ⟨s, d⟩ [] call, call.Recovers c env pointerBytes r ⟨s, nodes⟩ nodes' cut := by
  have hget := @Device.Mirrors.getInodeOfElem_eq c env.toNamespace d ⟨s, nodes⟩
  by_cases hplain : call.createdPath = none ∧ call.removedPath = none
  · obtain ⟨chance, answer, s', d', nodes', hcall, hcall', h', -⟩ := call_refines h halive hh hkeep hfree
    exact ⟨chance, answer, s', d', nodes', hcall, hcall', h',
      fun cut hcut => recovers_unlogged h h' (cuts_unlogged hplain.1 hplain.2 hcall hcut)⟩
  cases call
  case openObj path mask =>
    obtain ⟨answer, s', d', nodes', hcall, hcall', h', -⟩ := refines_openObj h halive hh hfree hkeep.1 hkeep.2 mask false
    refine ⟨_, answer, s', d', nodes', hcall, hcall', h', fun cut => ?_⟩
    apply creatingCuts_recovers h h' hh hfree hkeep.1 hkeep.2 (hrec.1 rfl) rfl hcall
    intro hcreate hfind
    obtain ⟨hro, hnew⟩ : s.readOnly = false ∧ mask &&& openC ≠ 0 := by simpa using hcreate
    have hnodes := @openObj_nodes path ⟨s, nodes⟩ (d.chance env false) mask hro hfind hnew
    rwa [Option.some.inj hcall'] at hnodes
  case touch path =>
    obtain ⟨answer, s', d', nodes', hcall, hcall', h', -⟩ := refines_touch h halive hh hfree hkeep.1 hkeep.2 false
    refine ⟨_, answer, s', d', nodes', hcall, hcall', h', fun cut => ?_⟩
    apply creatingCuts_recovers h h' hh hfree hkeep.1 hkeep.2 (hrec.1 rfl) rfl hcall
    intro hcreate hfind
    obtain ⟨hro, hroom⟩ : s.readOnly = false ∧ env.noRoom d.clock = false := by simpa using hcreate
    have hnodes := @touch_nodes path ⟨s, nodes⟩ (d.chance env false) hro hroom hfind
    rwa [Option.some.inj hcall'] at hnodes
  case mkDir path mask =>
    obtain ⟨answer, s', d', nodes', hcall, hcall', h', -⟩ := refines_mkDir h halive hh hfree hkeep.1 hkeep.2.1 hkeep.2.2 mask false
    refine ⟨_, answer, s', d', nodes', hcall, hcall', h', fun cut hcut => ?_⟩
    unfold Mounted.cuts at hcut
    dsimp only at hcut
    by_cases hro : s.readOnly = true
    · rw [if_pos hro] at hcut
      cases List.mem_singleton.mp hcut
      exact recovers_unlogged h h' ⟨rfl, .inl rfl⟩
    rw [if_neg hro] at hcut
    rcases List.mem_append.mp hcut with hcut | hcut
    · have hnodes := @mkDir_nodes path ⟨s, nodes⟩ (d.chance env false) mask (Bool.eq_false_of_not_eq_true hro)
      rw [Option.some.inj hcall'] at hnodes
      change nodes' = _ at hnodes
      rw [hnodes]
      exact creation_recovers h hh hfree hkeep.1 hkeep.2.1 hkeep.2.2 (hrec.1 rfl) (by decide : InodeType.dir ≠ .lnk) _ rfl hcut
    · rw [hcall] at hcut
      have hend : cut = ⟨[], d'⟩ := by
        cases answer
        case ok => exact List.mem_singleton.mp hcut
        all_goals cases hcut
      exact recovers_unlogged h h' (hend ▸ ⟨rfl, .inr rfl⟩)
  case remove path =>
    obtain ⟨answer, s', d', nodes', hcall, hcall', h', -⟩ :=
      refines_remove h halive hh hfree hkeep.1 fun no hno => hkeep.2 _ hno no rfl
    refine ⟨d.chance env false, answer, s', d', nodes', hcall, hcall', h', fun cut hcut => ?_⟩
    obtain ⟨d₁, hsome, ⟨-, hdone⟩ | ⟨no, p, hfind, hparent, hdone⟩⟩ := @Device.Mirrors.removal_recovers c
      { env.toNamespace with opened := fun _ no => s.isOpen no } d ⟨s, nodes⟩ path n pointerBytes r h hh hfree hkeep.1 (hrec.2 path rfl)
      (fun no hfind => hkeep.2 _ (hget h hkeep.1) no (by rw [hfind]; rfl)) s.readOnly cut hcut
    · exact .inl ⟨d₁, hsome, hdone⟩
    · refine .inr (.inr (.inr ⟨path, no, p, rfl, hfind, hparent, ?_⟩))
      rcases hdone with hdone | ⟨hlog, node, hempty, hdone⟩
      · exact .inl ⟨d₁, hsome, hdone⟩
      · exact .inr ⟨hlog, node, hempty, d₁, hsome, hdone⟩
  all_goals exact absurd ⟨rfl, rfl⟩ hplain

/-! ### Runs -/

theorem AllKeep.append {calls more : List Call} {m : Mounted} (h : Mounted.AllKeep c env n (calls ++ more) m) :
    Mounted.AllKeep c env n calls m ∧ ∀ x ∈ Mounted.run c env calls m, Mounted.AllKeep c env n more x.2 := by
  induction calls generalizing m with
  | nil =>
    refine ⟨trivial, fun x hx => ?_⟩
    cases hx
    exact h
  | cons call calls ih =>
    obtain ⟨hkeep, hfree, hall⟩ := h
    refine ⟨⟨hkeep, hfree, fun x hx => (ih (hall x hx)).1⟩, fun x hx => ?_⟩
    cases hcall : m.call c env call with
    | none =>
      rw [Mounted.run, hcall] at hx
      cases hx
    | some y =>
      obtain ⟨answer, m'⟩ := y
      rw [Mounted.run, hcall] at hx
      obtain ⟨z, hz, rfl⟩ := Option.map_eq_some_iff.mp hx
      exact (ih (hall _ hcall)).2 z hz

end Calls

instance (call : Call) (m : Mounted) : Decidable (call.Recoverable m) :=
  inferInstanceAs (Decidable ((_ → _ = none) ∧ ∀ path ∈ call.removedPath, lastName path ≠ []))

end Paffs.Namespace
