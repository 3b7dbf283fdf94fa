import Paffs.Device.Names

/-! Runs of creations and removals: no directory gets a name twice. -/
namespace Paffs.Namespace
open DataIO (State)
open DataIO.State (Apart Healthy)
open Directory (Name Entry Holds Blank elemName maxDirEntryLength getInodeNoInDir insertInodeInDir removeInodeFromDir)

namespace Device
variable {c : DataIO.Config} {env : Env} {d d' : Device} {entries : InodeNo → List Entry} {n : Nat} {path : Path}

/-- The pages below `n` that are free. -/
def freePages (d : Device) (n : Nat) : Finset Addr := (Finset.range n).filter fun a => a ≠ 0 ∧ d.used a = false

/-! ### Creating -/

/-- The name fits its record, if it is not refused, and the directory one write. -/
def Fits (c : DataIO.Config) (env : Env) (d : Device) (path : Path) : Prop :=
  ∀ r ∈ getParentDir c env d path, ∀ x ∈ r.toOption, ∀ dir ∈ d.lookup x.1, ∀ elem ∈ elemName (path.drop x.2),
    maxDirEntryLength < (path.drop x.2).length ∨
      elem.length ≤ 250 ∧ max 2 dir.size + (5 + elem.length) ≤ c.maxPagesPerWrite * c.dataBytesPerPage

/-- There is no object of this path, but a directory it could be in. -/
def NamesNothing (c : DataIO.Config) (env : Env) (d : Device) (path : Path) : Prop :=
  ∀ r ∈ getParentDir c env d path, ∀ x ∈ r.toOption,
    maxDirEntryLength < (path.drop x.2).length ∨ getInodeOfElem c env d path = some (.error .notFound)

theorem lookup_root (h : Named c env d entries) : (d.lookup 0).isSome := by
  obtain ⟨root, hroot, -⟩ := h.root
  rw [hroot]
  rfl

theorem getInodeOfElem_some (h : Named c env d entries) {no : InodeNo} (hget : getInodeOfElem c env d path = some (.ok no)) :
    (d.lookup no).isSome := by
  unfold getInodeOfElem at hget
  split_ifs at hget
  · cases hget
  · exact walk_some _ (lookup_root h) hget

/-- What is not found has a name that its directory does not have. -/
theorem Named.notFound (h : Named c env d entries) {p : InodeNo} {last : Nat}
    (hparent : getParentDir c env d path = some (.ok (p, last)))
    (hnot : getInodeOfElem c env d path = some (.error .notFound)) :
    ∃ dir elem, d.lookup p = some dir ∧ dir.type = .dir ∧ elemName (path.drop last) = some elem ∧ 1 ≤ elem.length ∧
      (elem.length < 2 ^ 8 → ∀ e ∈ entries p, e.name ≠ elem) := by
  obtain ⟨hne, hlength, hlast, hroot, hwalk⟩ := getParentDir_ok hparent
  obtain ⟨elem, hsplit⟩ := exists_split path
  rw [← hlast] at hsplit
  rw [getInodeOfElem_eq hparent hsplit] at hnot
  obtain ⟨dir, hdir⟩ := Option.isSome_iff_exists.mp (walk_some _ hroot hwalk)
  have helem : elem ≠ [] := by
    rintro rfl
    cases hnot
  rw [if_neg helem, walk, hdir] at hnot
  dsimp only at hnot
  split_ifs at hnot with htype
  · cases hnot
  refine ⟨dir, elem, hdir, not_not.mp htype, hsplit.elemName_eq hne hlength, List.length_pos_iff.mpr helem, ?_⟩
  intro hshort e he hname
  have hget := (h.holds p dir hdir).get hshort
  rw [hget] at hnot
  -- the first entry of the name leads to an object
  obtain ⟨e', hfind⟩ := Option.isSome_iff_exists.mp
    ((List.find?_isSome (p := fun e : Entry => decide (e.name = elem))).mpr ⟨e, he, decide_eq_true hname⟩)
  have halive := (h.names.alive p e' (List.mem_of_find?_eq_some hfind)).1
  rw [hfind] at hnot
  dsimp only [Option.map_some, Option.elim_some] at hnot
  rw [Option.isNone_eq_false_iff.mpr halive] at hnot
  cases hnot

theorem findFirstFreeNo_ne_zero (h : Named c env d entries) (hfresh : d.lookup d.findFirstFreeNo = none) :
    d.findFirstFreeNo ≠ 0 := by
  intro hzero
  have hroot := lookup_root h
  rw [hzero] at hfresh
  rw [hfresh] at hroot
  cases hroot

theorem Named.createObject (h : Named c env d entries) (hh : Healthy c env.toEnv n)
    (hfree : c.maxPagesPerWrite ≤ (d.freePages n).card) (hfits : d.Fits c env path) (hnothing : d.NamesNothing c env path)
    {type : InodeType} {mask : Nat} {r : Result} (hcreate : createObject c env d path type mask = some (r, d')) :
    ∃ entries', Named c env d' entries' := by
  unfold Device.createObject at hcreate
  split_ifs at hcreate
  · cases hcreate
    exact ⟨entries, h⟩
  split at hcreate
  · cases hcreate
  · cases hcreate
    exact ⟨entries, h⟩
  rename_i p last hparent
  have hfits := hfits _ hparent (p, last) rfl
  have hnothing := hnothing _ hparent (p, last) rfl
  split_ifs at hcreate with hlong
  · cases hcreate
    exact ⟨entries, h⟩
  obtain ⟨dir, elem, hdir, htype, helem, hpos, hname⟩ := h.notFound hparent (hnothing.resolve_left hlong)
  obtain ⟨hshort, hsize⟩ := (hfits dir hdir elem helem).resolve_left hlong
  unfold insertInode at hcreate
  rw [hh.outcome] at hcreate
  dsimp only at hcreate
  by_cases hsome : (d.lookup d.findFirstFreeNo).isSome
  · rw [if_pos hsome] at hcreate
    cases hcreate
    exact ⟨entries, h.tick⟩
  rw [if_neg hsome] at hcreate
  dsimp only at hcreate
  have hfresh := Option.not_isSome_iff_eq_none.mp hsome
  have hinsert := @Named.insert c env d entries h d.findFirstFreeNo (createInode type mask) hfresh rfl rfl fun _ => rfl
  have hne : p ≠ d.findFirstFreeNo := by
    rintro rfl
    rw [hdir] at hfresh
    cases hfresh
  have hzero := findFirstFreeNo_ne_zero h hfresh
  have hlookup : ({ d with tree := d.tree ++ [(d.findFirstFreeNo, createInode type mask)] } : Device).tick.lookup p = some dir :=
    (lookup_append d.findFirstFreeNo p (createInode type mask)).trans (by rw [if_neg hne, Option.or_none, hdir])
  have halive : (({ d with tree := d.tree ++ [(d.findFirstFreeNo, createInode type mask)] } : Device).tick.lookup d.findFirstFreeNo).isSome := by
    refine Option.isSome_iff_exists.mpr ⟨createInode type mask, (lookup_append _ _ _).trans ?_⟩
    rw [hfresh, if_pos rfl, Option.none_or]
  have hunnamed : ∀ j, ∀ e ∈ entries j, e.no ≠ d.findFirstFreeNo := by
    intro j e he heq
    have hmem := (h.names.alive j e he).1
    rw [heq, hfresh] at hmem
    cases hmem
  have hused : freePages ({ d with tree := d.tree ++ [(d.findFirstFreeNo, createInode type mask)] } : Device).tick n = d.freePages n := rfl
  generalize ({ d with tree := d.tree ++ [(d.findFirstFreeNo, createInode type mask)] } : Device).tick = d₁
    at hcreate hinsert hlookup halive hused
  rw [hlookup] at hcreate
  rw [← hused] at hfree
  have he : Entry.Fits ⟨elem, d.findFirstFreeNo⟩ := ⟨hpos, hshort⟩
  obtain ⟨s', hok, hholds, hapart⟩ := (hinsert.holds p dir hlookup).insert_total hh helem he hsize hfree
  dsimp only at hcreate
  rw [hok] at hcreate
  cases hcreate
  refine ⟨_, hinsert.put hlookup hholds hapart (absurd htype ·) (hinsert.names.append halive hzero hunnamed (hname ?_))⟩
  omega

theorem Named.mkDir (h : Named c env d entries) (hh : Healthy c env.toEnv n)
    (hfree : c.maxPagesPerWrite ≤ (d.freePages n).card) (hfits : d.Fits c env path) (hnothing : d.NamesNothing c env path)
    {mask : Nat} {r : Result} (hmkDir : Device.mkDir c env d path mask = some (r, d')) : ∃ entries', Named c env d' entries' := by
  unfold Device.mkDir at hmkDir
  split at hmkDir
  · rename_i d₁ hcreate
    cases hmkDir
    obtain ⟨entries', hcreated⟩ := h.createObject hh hfree hfits hnothing hcreate
    exact ⟨entries', hcreated.tick⟩
  · exact h.createObject hh hfree hfits hnothing hmkDir

/-- What exists is opened, or not, as it is. -/
theorem openFile_exists {no : InodeNo} (hget : getInodeOfElem c env d path = some (.ok no)) :
    ∃ r, openFile c env d path = some (r, d) := by
  unfold openFile
  rw [hget]
  dsimp only
  split
  · exact ⟨_, rfl⟩
  · exact ⟨_, rfl⟩

theorem Named.openFile (h : Named c env d entries) (hh : Healthy c env.toEnv n)
    (hfree : c.maxPagesPerWrite ≤ (d.freePages n).card) (hfits : d.Fits c env path)
    {r : Result} (hopen : Device.openFile c env d path = some (r, d')) : ∃ entries', Named c env d' entries' := by
  unfold Device.openFile at hopen
  split at hopen
  · cases hopen
  · rename_i hget
    exact h.createObject hh hfree hfits (fun _ _ _ _ => .inr hget) hopen
  · cases hopen
    exact ⟨entries, h⟩
  · split at hopen
    · cases hopen
      exact ⟨entries, h⟩
    · cases hopen
      exact ⟨entries, h⟩

/-! ### Removing -/

theorem blank_deleteInodeData {s : State} (h : Blank s) : s.deleteInodeData c env.toEnv 0 = (.ok, { s with size := 0 }) := by
  unfold DataIO.State.deleteInodeData
  by_cases hsize : s.size = 0
  · rw [if_pos hsize, ← hsize]
  · rw [if_neg hsize, if_neg (Nat.not_lt_zero _)]
    have hkept : ({ s with size := 0 } : State).invalidateOldPages = { s with size := 0 } := by
      unfold DataIO.State.invalidateOldPages
      simp [h.replaced]
    dsimp only
    rw [if_neg fun hpages => hpages.2 h.reservedPages, DataIO.State.deletePages]
    exact congrArg _ hkept

/-- Nothing is truncated but objects without data. -/
theorem Named.truncate (h : Named c env d entries) {no : InodeNo} (hget : getInodeOfElem c env d path = some (.ok no)) {r : Result}
    (htruncate : Device.truncate c env d path = some (r, d')) :
    Named c env d' entries ∧ d'.used = d.used ∧ (r = .ok → entries no = []) := by
  unfold Device.truncate at htruncate
  obtain ⟨inode, hinode⟩ := Option.isSome_iff_exists.mp (getInodeOfElem_some h hget)
  rw [hget] at htruncate
  dsimp only at htruncate
  rw [hinode] at htruncate
  dsimp only at htruncate
  split_ifs at htruncate with hperm hdir
  · cases htruncate
    exact ⟨h, rfl, fun hok => by cases hok⟩
  · cases htruncate
    exact ⟨h, rfl, fun hok => by cases hok⟩
  have hholds := h.holds no inode hinode
  have hempty : entries no = [] := by
    by_contra hne
    refine hdir ⟨by_contra fun htype => hne (h.file no inode hinode htype), ?_⟩
    obtain ⟨hfits, hstores⟩ := hholds
    rw [if_neg hne] at hstores
    have hlength := Directory.length_encode_gt hne hfits
    have hsize : inode.size = (Directory.encode (entries no)).length := hstores.size_eq
    omega
  have hblank := hholds.2
  rw [if_pos hempty] at hblank
  rw [blank_deleteInodeData hblank] at htruncate
  cases htruncate
  have hcleared : Holds c env.toEnv { d.view inode with size := 0 } [] :=
    ⟨List.forall_mem_nil _, by rw [if_pos rfl]; exact ⟨.inl rfl, hblank.page, hblank.replaced, hblank.reservedPages⟩⟩
  have hput := h.put hinode hcleared ⟨fun _ _ hused _ => ⟨hused, rfl⟩, fun p _ => .inr ⟨p, rfl⟩⟩ (fun _ => rfl)
    (by rw [← hempty, Function.update_eq_self]; exact h.names)
  rw [← hempty, Function.update_eq_self] at hput
  exact ⟨hput.tick, rfl, fun _ => hempty⟩

theorem Named.remove (h : Named c env d entries) (hh : Healthy c env.toEnv n)
    (hfree : c.maxPagesPerWrite ≤ (d.freePages n).card) {r : Result}
    (hremove : Device.remove c env d path = some (r, d')) : ∃ entries', Named c env d' entries' := by
  unfold Device.remove at hremove
  split at hremove
  · cases hremove
  · cases hremove
    exact ⟨entries, h⟩
  rename_i object hget
  split_ifs at hremove
  · cases hremove
    exact ⟨entries, h⟩
  split at hremove
  · cases hremove
  · cases hremove
    exact ⟨entries, h⟩
  rename_i p last hparent
  split at hremove
  swap
  · exact ⟨entries, (h.truncate hget hremove).1⟩
  rename_i d₁ htruncate
  obtain ⟨htruncated, hused, hempty⟩ := h.truncate hget htruncate
  have hempty := hempty rfl
  split at hremove
  · cases hremove
    exact ⟨entries, htruncated⟩
  rename_i dir hdir
  have hholds := htruncated.holds p dir hdir
  by_cases hsome : ∃ e ∈ entries p, e.no = object
  swap
  · rw [hholds.removeInodeFromDir_none fun e he heq => hsome ⟨e, he, heq⟩] at hremove
    cases hremove
    have hput := htruncated.put hdir hholds ⟨fun _ _ hused _ => ⟨hused, rfl⟩, fun p _ => .inr ⟨p, rfl⟩⟩
      (fun htype => htruncated.file p dir hdir htype) (by rw [Function.update_eq_self]; exact htruncated.names)
    exact ⟨_, hput⟩
  have hfree' : c.maxPagesPerWrite ≤ (d₁.freePages n).card := by
    unfold freePages
    rwa [hused]
  obtain ⟨s', hok, hholds', hapart⟩ := hholds.remove_total hh hsome hfree'
  rw [hok] at hremove
  dsimp only at hremove
  have hput := htruncated.put hdir hholds' hapart
    (fun htype => by rw [htruncated.file p dir hdir htype]; rfl) (htruncated.names.sublist List.eraseP_sublist)
  unfold deleteInode at hremove
  rw [hh.outcome] at hremove
  cases hremove
  obtain ⟨e, he, heq⟩ := hsome
  have hzero := (h.names.alive p e he).2
  rw [heq] at hzero
  have hne : object ≠ p := by
    rintro rfl
    rw [hempty] at he
    cases he
  refine ⟨_, (hput.delete hzero (htruncated.names.erase ⟨e, he, heq⟩) ?_).tick⟩
  rw [Function.update_of_ne hne]
  exact hempty

/-! ### Runs -/

inductive Op where
  | create (path : Path)
  | mkDir (path : Path) (mask : Nat)
  | remove (path : Path)

def Op.call (c : DataIO.Config) (env : Env) (d : Device) : Op → Option (Result × Device)
  | .create path => openFile c env d path
  | .mkDir path mask => Device.mkDir c env d path mask
  | .remove path => Device.remove c env d path

/-- Files are only created where nothing is, but directories are created anywhere. -/
def Op.Keeps (c : DataIO.Config) (env : Env) (d : Device) : Op → Prop
  | .create path => d.Fits c env path
  | .mkDir path _ => d.Fits c env path ∧ d.NamesNothing c env path
  | .remove _ => True

/-- `none` when the call does not return. -/
def step (c : DataIO.Config) (env : Env) (d : Device) (op : Op) : Option Device := (op.call c env d).map Prod.snd

def run (c : DataIO.Config) (env : Env) (ops : List Op) (d : Device) : Option Device := ops.foldlM (step c env) d

/-- Every call of the run keeps to the limits, and finds the pages it needs. -/
def AllKeep (c : DataIO.Config) (env : Env) (n : Nat) : List Op → Device → Prop
  | [], _ => True
  | op :: ops, d => op.Keeps c env d ∧ c.maxPagesPerWrite ≤ (d.freePages n).card ∧ ∀ d' ∈ step c env d op, AllKeep c env n ops d'

theorem Named.step (h : Named c env d entries) (hh : Healthy c env.toEnv n) {op : Op} (hkeep : op.Keeps c env d)
    (hfree : c.maxPagesPerWrite ≤ (d.freePages n).card) (hstep : Device.step c env d op = some d') :
    ∃ entries', Named c env d' entries' := by
  obtain ⟨⟨r, d₁⟩, hcall, rfl⟩ := Option.map_eq_some_iff.mp hstep
  cases op with
  | create path => exact h.openFile hh hfree hkeep hcall
  | mkDir path mask => exact h.mkDir hh hfree hkeep.1 hkeep.2 hcall
  | remove path => exact h.remove hh hfree hcall

theorem Named.run (ops : List Op) (h : Named c env d entries) (hh : Healthy c env.toEnv n) (hkeep : AllKeep c env n ops d)
    (hrun : Device.run c env ops d = some d') : ∃ entries', Named c env d' entries' := by
  induction ops generalizing d entries with
  | nil => exact ⟨entries, Option.some.inj hrun ▸ h⟩
  | cons op ops ih =>
    obtain ⟨d₁, hstep, hrest⟩ := Option.bind_eq_some_iff.mp hrun
    obtain ⟨hkeep, hfree, hkeeps⟩ := hkeep
    obtain ⟨entries₁, hnamed⟩ := h.step hh hkeep hfree hstep
    exact ih hnamed (hkeeps d₁ hstep) hrest

/-- A device that holds nothing but the root. -/
def Formatted (d : Device) : Prop :=
  ∃ root, d.tree = [(0, root)] ∧ root.type = .dir ∧ Blank (d.view root)

theorem Formatted.named (h : Formatted d) : Named c env d fun _ => [] := by
  obtain ⟨root, htree, hdir, hblank⟩ := h
  have hlookup : ∀ i, d.lookup i = if i = 0 then some root else none := by
    intro i
    unfold lookup
    rw [htree]
    by_cases hi : i = 0
    · simp [hi]
    · simp [hi, Ne.symm hi]
  have hroot : ∀ i x, d.lookup i = some x → i = 0 ∧ x = root := by
    intro i x hx
    rw [hlookup] at hx
    split_ifs at hx with hi
    exact ⟨hi, (Option.some.inj hx).symm⟩
  constructor
  · exact ⟨fun _ => List.nodup_nil, fun _ _ he => (List.not_mem_nil he).elim, fun _ _ _ he => (List.not_mem_nil he).elim⟩
  · exact ⟨root, (hlookup 0).trans (if_pos rfl), hdir⟩
  · exact hblank.replaced
  · rintro i x hx
    obtain ⟨-, rfl⟩ := hroot i x hx
    exact ⟨List.forall_mem_nil _, by rw [if_pos rfl]; exact hblank⟩
  · exact fun _ _ _ _ => rfl
  · exact fun _ _ => rfl
  · intro i j x y hij hx hy
    exact absurd ((hroot i x hx).1.trans (hroot j y hy).1.symm) hij

/-- No directory has two entries of one name. -/
def Unique (c : DataIO.Config) (env : Env) (d : Device) : Prop :=
  ∀ i dir, d.lookup i = some dir → dir.type = .dir →
    ∃ entries, Directory.entriesOf c env.toEnv (d.view dir) = some entries ∧ (entries.map Entry.name).Nodup

/-- Sixteen bytes a page, and at most six pages a write. -/
def sixteenBytes : DataIO.Config := ⟨16, 6, by decide, by decide, by decide⟩

/-- The first free page of forty. -/
def firstFree : Env where
  findFreePage _ used := match (List.range 40).find? fun a => a ≠ 0 ∧ used a = false with
    | some a => .ok a
    | none => .error .noSpace
  outcome _ := .ok
  addressable := 200
  addressable_pos := by decide
  free := by
    intro _ used a h
    split at h
    · rename_i b hfind
      cases h
      exact of_decide_eq_true (List.find?_some (p := fun a => decide (a ≠ 0 ∧ used a = false)) hfind)
    · cases h
  failed := by
    intro _ used r h
    split at h
    · cases h
    · cases h
      decide
  noRoom _ := false
  opened _ _ := false

def formatted : Device := ⟨[(0, ⟨.dir, 7, 0, 0, fun _ => 0⟩)], fun _ _ => 0xFF, fun _ => false, [], 0⟩

theorem formatted_formatted : Formatted formatted := ⟨_, rfl, rfl, ⟨.inl rfl, fun _ => rfl, rfl, rfl⟩⟩

/-- The path `/a`. -/
def slashA : Path := [47, 97]

/-- The path `/b`. -/
def slashB : Path := [47, 98]

theorem firstFree_healthy : Healthy sixteenBytes firstFree.toEnv 40 where
  outcome _ := rfl
  addressable := by decide
  findFreePage _ used h := by
    obtain ⟨a, ha, hzero, hused⟩ := h
    have hsome : ((List.range 40).find? fun a => decide (a ≠ 0 ∧ used a = false)).isSome :=
      List.find?_isSome.mpr ⟨a, List.mem_range.mpr ha, decide_eq_true ⟨hzero, hused⟩⟩
    obtain ⟨b, hb⟩ := Option.isSome_iff_exists.mp hsome
    refine ⟨b, ?_⟩
    change (match (List.range 40).find? fun a => decide (a ≠ 0 ∧ used a = false) with
      | some a => Except.ok a
      | none => Except.error Result.noSpace) = .ok b
    rw [hb]

instance (op : Op) : Decidable (op.Keeps c env d) := by
  cases op with
  | create => exact inferInstanceAs (Decidable (∀ r ∈ getParentDir c env d _, _))
  | mkDir => exact inferInstanceAs (Decidable ((∀ r ∈ getParentDir c env d _, _) ∧ ∀ r ∈ getParentDir c env d _, _))
  | remove => exact isTrue trivial

instance AllKeep.decidable : (ops : List Op) → (d : Device) → Decidable (AllKeep c env n ops d)
  | [], _ => isTrue trivial
  | op :: ops, d =>
    have := AllKeep.decidable ops
    inferInstanceAs (Decidable (_ ∧ _ ∧ ∀ d' ∈ step c env d op, AllKeep c env n ops d'))

end Device
end Paffs.Namespace
