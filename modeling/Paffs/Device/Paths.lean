import Paffs.Device.Mirrors
import Paffs.Device.Unique

/-! Paths on a device and in its tree, and the objects that are created and removed there. -/
namespace Paffs.Namespace
open DataIO (State)
open DataIO.State (Apart Healthy)
open Directory (Name Entry elemName maxDirEntryLength insertInodeInDir removeInodeFromDir)

/-- The length of the path fits its counter, and those of its names the byte they are compared by. -/
def Short (path : Path) : Prop := path.length < 2 ^ 16 ∧ ∀ name ∈ tokens [] path, name.length < 2 ^ 8

instance (path : Path) : Decidable (Short path) := inferInstanceAs (Decidable (_ ∧ _))

theorem Short.parent {path : Path} (h : Short path) : Short (path.take (lastSlash 0 0 path)) := by
  obtain ⟨elem, hsplit⟩ := exists_split path
  refine ⟨lt_of_le_of_lt (List.length_take_le' _ _) h.1, fun name hname => h.2 name ?_⟩
  rw [hsplit.tokens_eq]
  exact List.mem_append_left _ hname

namespace Device
variable {c : DataIO.Config} {env : Env} {d : Device} {t : FileTree} {path : Path} {n : Nat}

/-! ### Looking for an object -/

/-- The entries of a directory lead to objects. -/
theorem Mirrors.alive (h : d.Mirrors c env.toEnv t.nodes) {p : InodeNo} {perm : Nat} {entries : List Entry}
    (hdir : t.nodes p = some ⟨perm, .dir entries⟩) {e : Entry} (he : e ∈ entries) : (t.nodes e.no).isSome := by
  refine (h.names.alive p e ?_).1
  rw [entriesIn_of_some hdir]
  exact he

theorem Mirrors.walk_eq (h : d.Mirrors c env.toEnv t.nodes) (names : List Name) (hshort : ∀ name ∈ names, name.length < 2 ^ 8)
    {curr : InodeNo} (halive : (t.nodes curr).isSome) : walk c env d names curr = some (t.walk names curr) := by
  induction names generalizing curr with
  | nil => rfl
  | cons name names ih =>
    obtain ⟨⟨perm, content⟩, hnode⟩ := Option.isSome_iff_exists.mp halive
    obtain ⟨inode, hlookup, -, hshown⟩ := h.lookup hnode
    rw [walk, hlookup, FileTree.walk, hnode]
    dsimp only
    cases content with
    | file bytes => rw [if_pos (by rw [hshown.1]; decide)]
    | dir entries =>
      rw [if_neg (not_not_intro hshown.1), hshown.2.1.get (hshort name List.mem_cons_self)]
      dsimp only
      cases hfind : entries.find? fun e => decide (e.name = name) with
      | none => rfl
      | some e =>
        have hnext := h.alive hnode (List.mem_of_find?_eq_some hfind)
        dsimp only [Option.map_some, Option.elim_some]
        rw [← Option.not_isSome, h.isSome_eq, hnext, if_neg (by decide)]
        exact ih (fun x hx => hshort x (List.mem_cons_of_mem _ hx)) hnext

theorem Mirrors.walk_alive (h : d.Mirrors c env.toEnv t.nodes) (names : List Name) {curr no : InodeNo} (halive : (t.nodes curr).isSome)
    (hwalk : t.walk names curr = .ok no) : (t.nodes no).isSome := by
  induction names generalizing curr with
  | nil =>
    cases hwalk
    exact halive
  | cons name names ih =>
    obtain ⟨⟨perm, content⟩, hnode⟩ := Option.isSome_iff_exists.mp halive
    rw [FileTree.walk, hnode] at hwalk
    cases content with
    | file bytes => cases hwalk
    | dir entries =>
      dsimp only at hwalk
      split at hwalk
      · cases hwalk
      · rename_i e hfind
        exact ih (h.alive hnode (List.mem_of_find?_eq_some hfind)) hwalk

theorem Mirrors.root_alive (h : d.Mirrors c env.toEnv t.nodes) : (t.nodes 0).isSome := by
  obtain ⟨perm, entries, hroot⟩ := h.root
  rw [hroot]
  rfl

theorem Mirrors.getInodeOfElem_eq (h : d.Mirrors c env.toEnv t.nodes) (hshort : Short path) :
    getInodeOfElem c env d path = some (t.find path) := by
  unfold getInodeOfElem FileTree.find
  rw [← Option.not_isSome, h.isSome_eq, h.root_alive, if_neg (by decide), Nat.mod_eq_of_lt hshort.1, List.take_length]
  exact h.walk_eq _ hshort.2 h.root_alive

theorem Mirrors.find_alive (h : d.Mirrors c env.toEnv t.nodes) {no : InodeNo} (hfind : t.find path = .ok no) : (t.nodes no).isSome :=
  h.walk_alive _ h.root_alive hfind

theorem Mirrors.getParentDir_eq (h : d.Mirrors c env.toEnv t.nodes) (hshort : Short path) :
    getParentDir c env d path = some ((t.parent path).map (·, lastSlash 0 0 path)) := by
  unfold getParentDir FileTree.parent
  split_ifs with hnil hlong
  · rfl
  · exact absurd hshort.1 (Nat.not_lt.mpr hlong)
  · dsimp only
    rw [h.getInodeOfElem_eq hshort.parent]
    rfl

theorem Mirrors.parent_alive (h : d.Mirrors c env.toEnv t.nodes) {p : InodeNo} (hparent : t.parent path = .ok p) :
    (t.nodes p).isSome := by
  unfold FileTree.parent at hparent
  split_ifs at hparent
  exact h.find_alive hparent

/-- The last step to an object leads from its parent. -/
theorem Mirrors.find_eq (h : d.Mirrors c env.toEnv t.nodes) (hshort : Short path) {p : InodeNo} (hparent : t.parent path = .ok p)
    {elem : Name} (hsplit : Split path (lastSlash 0 0 path) elem) : t.find path = t.walk (if elem = [] then [] else [elem]) p := by
  have hget := h.getParentDir_eq hshort
  rw [hparent] at hget
  have heq := Device.getInodeOfElem_eq hget hsplit
  rw [h.getInodeOfElem_eq hshort, h.walk_eq _ ?_ (h.parent_alive hparent)] at heq
  · exact Option.some.inj heq
  · intro name hname
    refine hshort.2 name ?_
    rw [hsplit.tokens_eq]
    exact List.mem_append_right _ hname

/-- What is not found has a name that its directory does not have. -/
theorem Mirrors.notFound (h : d.Mirrors c env.toEnv t.nodes) (hshort : Short path) {p : InodeNo} (hparent : t.parent path = .ok p)
    (hnot : t.find path = .error .notFound) : ∃ perm entries, t.nodes p = some ⟨perm, .dir entries⟩ ∧
      elemName (path.drop (lastSlash 0 0 path)) = some (lastName path) ∧ 1 ≤ (lastName path).length ∧
      ∀ e ∈ entries, e.name ≠ lastName path := by
  obtain ⟨elem, hsplit⟩ := exists_split path
  have hfind := h.find_eq hshort hparent hsplit
  rw [hnot] at hfind
  have hne : path ≠ [] := by
    rintro rfl
    cases hparent
  have hname : elemName (path.drop (lastSlash 0 0 path)) = some elem := hsplit.elemName_eq hne hshort.1
  have hlast : lastName path = elem := by
    unfold lastName
    rw [hname]
    rfl
  rw [hlast]
  have helem : elem ≠ [] := by
    rintro rfl
    cases hfind
  rw [if_neg helem] at hfind
  obtain ⟨⟨perm, content⟩, hnode⟩ := Option.isSome_iff_exists.mp (h.parent_alive hparent)
  rw [FileTree.walk, hnode] at hfind
  cases content with
  | file bytes => cases hfind
  | dir entries =>
    refine ⟨perm, entries, hnode, hname, List.length_pos_iff.mpr helem, fun e he heq => ?_⟩
    dsimp only at hfind
    obtain ⟨e', hfirst⟩ := Option.isSome_iff_exists.mp
      ((List.find?_isSome (p := fun e : Entry => decide (e.name = elem))).mpr ⟨e, he, decide_eq_true heq⟩)
    rw [hfirst] at hfind
    cases hfind

/-! ### Creating -/

theorem createInode_eq (type : InodeType) (mask : Nat) : createInode type mask = ⟨type, newPerm mask, 0, 0, fun _ => 0⟩ := rfl

/-- The steps of a creation: the inode is inserted, then its entry. -/
theorem Mirrors.insertObject (h : d.Mirrors c env.toEnv t.nodes) (hh : Healthy c env.toEnv n)
    (hfree : c.maxPagesPerWrite ≤ (d.freePages n).card) {no p : InodeNo} (hfresh : d.lookup no = none) {perm : Nat} {entries : List Entry}
    (hdir : t.nodes p = some ⟨perm, .dir entries⟩) {name elem : Name} (helem : elemName name = some elem) (he : Entry.Fits ⟨elem, no⟩)
    (hsize : ∀ dir ∈ d.lookup p, max 2 dir.size + (5 + elem.length) ≤ c.maxPagesPerWrite * c.dataBytesPerPage)
    (hname : ∀ e ∈ entries, e.name ≠ elem) {type : InodeType} (htype : type ≠ .lnk) (mask : Nat) :
    ∃ (d₁ : Device) (dir : Inode) (s' : State), insertInode env d no (createInode type mask) = (.ok, d₁) ∧ d₁.lookup p = some dir ∧
      insertInodeInDir c env.toEnv (d₁.view dir) name no = some (.ok, s') ∧
      d₁.Mirrors c env.toEnv (t.set no (some ⟨newPerm mask, .blank type⟩)).nodes ∧
      (d₁.put p s').Mirrors c env.toEnv ((t.set no (some ⟨newPerm mask, .blank type⟩)).set p
        (some ⟨perm, .dir (entries ++ [⟨elem, no⟩])⟩)).nodes := by
  obtain ⟨dir, hlookup, hperm, hshown⟩ := h.lookup hdir
  have hinsert := h.insert hfresh (createInode type mask) htype rfl rfl fun _ => rfl
  have hne : p ≠ no := by
    rintro rfl
    rw [hlookup] at hfresh
    cases hfresh
  have hdir' : Function.update t.nodes no (some ⟨newPerm mask, .blank type⟩) p = some ⟨perm, .dir entries⟩ :=
    (Function.update_of_ne hne ..).trans hdir
  have hlookup' : ({ d with tree := d.tree ++ [(no, createInode type mask)] } : Device).tick.lookup p = some dir :=
    (lookup_append no p (createInode type mask)).trans (by rw [if_neg hne, Option.or_none, hlookup])
  have hused : freePages ({ d with tree := d.tree ++ [(no, createInode type mask)] } : Device).tick n = d.freePages n := rfl
  have hunnamed : ∀ j, ∀ e ∈ entriesIn t.nodes j, e.no ≠ no := by
    intro j e he heq
    have hmem := (h.names.alive j e he).1
    rw [heq, h.absent _ hfresh] at hmem
    cases hmem
  have hzero : no ≠ 0 := by
    intro heq
    have hroot := h.root_alive
    rw [← heq, h.absent _ hfresh] at hroot
    cases hroot
  have hinserted : insertInode env d no (createInode type mask) =
      (.ok, ({ d with tree := d.tree ++ [(no, createInode type mask)] } : Device).tick) := by
    unfold insertInode
    rw [hh.outcome, hfresh]
    rfl
  rw [hinserted]
  change ({ d with tree := d.tree ++ [(no, createInode type mask)] } : Device).tick.Mirrors c env.toEnv
    (Function.update t.nodes no (some ⟨newPerm mask, .blank type⟩)) at hinsert
  generalize ({ d with tree := d.tree ++ [(no, createInode type mask)] } : Device).tick = d₁ at hinsert hlookup' hused ⊢
  rw [← hused] at hfree
  obtain ⟨dir', hlookup'', hperm', hshown'⟩ := hinsert.lookup hdir'
  obtain rfl := Option.some.inj (hlookup'.symm.trans hlookup'')
  obtain ⟨s', hok, hholds, hapart⟩ := hshown'.2.1.insert_total hh helem he (hsize dir hlookup) hfree
  refine ⟨d₁, dir, s', rfl, hlookup', hok, hinsert, hinsert.put hlookup' _ hperm' ⟨hshown'.1, hholds, ?_⟩ hapart ?_⟩
  · -- the size is that of the records
    obtain ⟨-, hstores⟩ := hholds
    have hnil : entries ++ [⟨elem, no⟩] ≠ [] := List.append_ne_nil_of_right_ne_nil _ (List.cons_ne_nil _ _)
    rw [if_neg hnil] at hstores
    exact hstores.size_eq.trans (if_neg hnil).symm
  · have hmem := hinsert.names
    have hentries : entriesIn (Function.update t.nodes no (some ⟨newPerm mask, .blank type⟩)) = entriesIn t.nodes := by
      have hnone : (Content.blank type).entries = entriesIn t.nodes no := by
        rw [entriesIn_of_none (h.absent _ hfresh)]
        cases type <;> rfl
      rw [entriesIn_update, hnone, Function.update_eq_self]
    have hself : entriesIn t.nodes p = entries := entriesIn_of_some hdir
    change Names _ (Function.update (entriesIn (Function.update t.nodes no _)) p (entries ++ [⟨elem, no⟩]))
    rw [hentries] at hmem ⊢
    rw [← hself] at hname ⊢
    refine hmem.append ?_ hzero hunnamed hname
    rw [Function.update_self]
    rfl

/-- What a path that names nothing leaves to do. -/
theorem Mirrors.creates (h : d.Mirrors c env.toEnv t.nodes) (hshort : Short path) (hfits : d.Fits c env path)
    (hnothing : d.NamesNothing c env path) {p : InodeNo} (hparent : t.parent path = .ok p)
    (hlong : ¬(path.drop (lastSlash 0 0 path)).length > maxDirEntryLength) :
    ∃ perm entries, t.nodes p = some ⟨perm, .dir entries⟩ ∧ elemName (path.drop (lastSlash 0 0 path)) = some (lastName path) ∧
      (∀ no, Entry.Fits ⟨lastName path, no⟩) ∧ (∀ e ∈ entries, e.name ≠ lastName path) ∧
      ∀ dir ∈ d.lookup p, max 2 dir.size + (5 + (lastName path).length) ≤ c.maxPagesPerWrite * c.dataBytesPerPage := by
  have hget := h.getParentDir_eq hshort
  have hnothing := hnothing _ hget
  have hfits := hfits _ hget
  rw [hparent] at hnothing hfits
  have hnothing := hnothing (p, lastSlash 0 0 path) rfl
  have hfits := hfits (p, lastSlash 0 0 path) rfl
  dsimp only at hnothing hfits
  have hnot := hnothing.resolve_left hlong
  rw [h.getInodeOfElem_eq hshort] at hnot
  obtain ⟨perm, entries, hdir, helem, hpos, hname⟩ := h.notFound hshort hparent (Option.some.inj hnot)
  obtain ⟨dir, hlookup, hperm, hshown⟩ := h.lookup hdir
  obtain ⟨hlength, -⟩ := (hfits dir hlookup _ helem).resolve_left hlong
  exact ⟨perm, entries, hdir, helem, fun no => ⟨hpos, hlength⟩, hname, fun dir hdir => ((hfits dir hdir _ helem).resolve_left hlong).2⟩

theorem Mirrors.createObject (h : d.Mirrors c env.toEnv t.nodes) (hh : Healthy c env.toEnv n)
    (hfree : c.maxPagesPerWrite ≤ (d.freePages n).card) (hshort : Short path) (hfits : d.Fits c env path)
    (hnothing : d.NamesNothing c env path) {type : InodeType} (htype : type ≠ .lnk) (mask : Nat) {chance : Chance}
    (hroom : chance.noRoom = env.noRoom d.clock) (hno : chance.newNo = d.findFirstFreeNo) :
    ∃ d', createObject c env d path type mask = some ((t.create chance path type mask).1, d') ∧
      d'.Mirrors c env.toEnv (t.create chance path type mask).2.nodes := by
  unfold Device.createObject FileTree.create
  rw [hroom, hno]
  by_cases hfull : env.noRoom d.clock = true
  · rw [if_pos hfull, if_pos hfull]
    exact ⟨d, rfl, h⟩
  rw [if_neg hfull, if_neg hfull, h.getParentDir_eq hshort]
  cases hparent : t.parent path with
  | error r => exact ⟨d, rfl, h⟩
  | ok p =>
    dsimp only [Except.map]
    by_cases hlong : (path.drop (lastSlash 0 0 path)).length > maxDirEntryLength
    · rw [if_pos hlong, if_pos hlong]
      exact ⟨d, rfl, h⟩
    rw [if_neg hlong, if_neg hlong]
    obtain ⟨perm, entries, hdir, helem, he, hname, hsize⟩ := h.creates hshort hfits hnothing hparent hlong
    rw [← h.isSome_eq]
    by_cases hsome : (d.lookup d.findFirstFreeNo).isSome
    · unfold insertInode
      rw [hh.outcome, if_pos hsome]
      dsimp only
      rw [if_pos hsome]
      exact ⟨d.tick, rfl, h.tick⟩
    · have hfresh := Option.not_isSome_iff_eq_none.mp hsome
      obtain ⟨d₁, dir, s', hinsert, hlookup, hok, -, hmirrors⟩ :=
        h.insertObject hh hfree hfresh hdir helem (he _) hsize hname htype mask
      rw [if_neg hsome, hinsert, hdir]
      dsimp only
      rw [hlookup]
      dsimp only
      rw [hok]
      exact ⟨_, rfl, hmirrors⟩

end Device
end Paffs.Namespace
