import Paffs.Device.Objects
import Paffs.Device.Recovery

/-! What the device does at the end of the log, in terms of its tree. -/
namespace Paffs.DataIO.State
variable {c : Config} {env : Env} {s : State}

theorem deletePageAgain_eq {page : PageNo} (hused : s.page page ≠ 0 → s.used (s.page page) = true) :
    s.deletePageAgain c env page = s.deletePage c env page := by
  unfold deletePageAgain deletePage
  by_cases hzero : s.page page = 0
  · rw [if_pos hzero, if_pos hzero]
  · rw [if_neg hzero, if_neg hzero, hused hzero]
    rfl

theorem deletePagesAgain_eq (pages : List PageNo) (hused : ∀ p, s.page p ≠ 0 → s.used (s.page p) = true) :
    deletePagesAgain c env pages s = deletePages c env pages s := by
  induction pages generalizing s with
  | nil => rfl
  | cons page pages ih =>
    have hkept := @deletePage_kept c env s page
    rw [deletePagesAgain, deletePages, deletePageAgain_eq (hused page)]
    generalize s.deletePage c env page = r at hkept
    obtain ⟨r, s'⟩ := r
    obtain ⟨hsame, hpage⟩ := hkept
    cases r
    case ok =>
      apply ih
      intro p hp
      have hold := (hpage p).resolve_left hp
      rw [hsame, hold]
      exact hused p (hold ▸ hp)
    all_goals rfl

/-- As long as no page was given back. -/
theorem deleteInodeDataAgain_eq (hused : ∀ p, s.page p ≠ 0 → s.used (s.page p) = true) (offs : Nat) :
    s.deleteInodeDataAgain c env offs = s.deleteInodeData c env offs := by
  unfold deleteInodeDataAgain deleteInodeData
  by_cases hsame : s.size = offs
  · rw [if_pos hsame, if_pos hsame]
  by_cases hless : s.size < offs
  · rw [if_neg hsame, if_neg hsame, if_pos hless, if_pos hless]
  rw [if_neg hsame, if_neg hsame, if_neg hless, if_neg hless]
  dsimp only
  generalize ite (offs / c.dataBytesPerPage + ite (offs % c.dataBytesPerPage ≠ 0) 1 0 ≤ lastPage c s.size ∧
    s.reservedPages ≠ 0) (List.range' _ _).reverse [] = pages
  have hall := @deletePagesAgain_eq c env s pages hused
  generalize deletePagesAgain c env pages s = r at hall ⊢
  subst hall
  rfl

end Paffs.DataIO.State

namespace Paffs.Directory
open Bytes (Byte toBytes toBytes_length)
variable {c : DataIO.Config} {env : DataIO.Env} {s : DataIO.State} {pointerBytes : Nat} {target : InodeNo}

/-- What is found of an entry. -/
def copied (pointerBytes : Nat) (name : Name) : Option (Except Result Name) :=
  if pointerBytes < min name.length 200 then none else some (.ok name)

theorem findTarget_record {e : Entry} {pre rest : List Byte} (he : e.Fits) (fuel : Nat) :
    findTarget pointerBytes (pre ++ (e.bytes ++ rest)) target (fuel + 1) pre.length =
      if e.no = target then copied pointerBytes e.name
      else findTarget pointerBytes ((pre ++ e.bytes) ++ rest) target fuel (pre ++ e.bytes).length := by
  have hlength := length_record e pre rest
  have hfits := he.1
  have hread : ¬(pre ++ (e.bytes ++ rest)).length < pre.length + 5 + min e.name.length 200 := by omega
  rw [findTarget, getD_record he, if_neg (by omega), if_neg (by omega), if_neg (by omega), Nat.add_sub_cancel_left]
  dsimp only
  rw [if_neg (by omega), take_no, ofBytes_no, UInt32.ofNat_toNat, take_name]
  have hnext : pre.length + (5 + e.name.length) = (pre ++ e.bytes).length := by
    rw [List.length_append, e.length_bytes]
  rw [hnext, List.append_assoc]
  unfold copied
  simp only [hread, false_or]

theorem findTarget_records (entries : List Entry) (hfits : ∀ e ∈ entries, e.Fits) (pre : List Byte) (fuel : Nat)
    (hfuel : entries.length < fuel) : findTarget pointerBytes (pre ++ entries.flatMap Entry.bytes) target fuel pre.length =
      ((entries.find? fun e => e.no = target).elim (some (.error .notFound)) fun e => copied pointerBytes e.name) := by
  induction entries generalizing pre fuel with
  | nil =>
    obtain ⟨fuel, rfl⟩ := Nat.exists_eq_add_of_lt hfuel
    rw [List.flatMap_nil, List.append_nil, List.length_nil, findTarget, if_pos (Nat.le_refl _)]
    rfl
  | cons e entries ih =>
    obtain ⟨fuel, rfl⟩ := Nat.exists_eq_add_of_lt (Nat.zero_lt_of_lt hfuel)
    rw [Nat.zero_add] at hfuel ⊢
    rw [List.flatMap_cons, findTarget_record (hfits e List.mem_cons_self),
      ih (fun e' he' => hfits e' (List.mem_cons_of_mem _ he')) _ _ (Nat.lt_of_succ_lt_succ hfuel)]
    by_cases heq : e.no = target
    · rw [if_pos heq, List.find?_cons_of_pos (by simpa using heq)]
      rfl
    · rw [if_neg heq, List.find?_cons_of_neg (by simpa using heq)]

/-- A target that has a name is found by it, as far as the name can be copied. -/
theorem Holds.getNameOfInodeInDir {entries : List Entry} (h : Holds c env s entries) :
    Directory.getNameOfInodeInDir c env pointerBytes s target =
      (entries.find? fun e => e.no = target).elim (some (.error .notFound)) fun e => copied pointerBytes e.name := by
  obtain ⟨hfits, hstores⟩ := h
  unfold Directory.getNameOfInodeInDir
  split_ifs at hstores with hnil
  · have hsize : s.size ≤ 2 := by rcases hstores.size with hsize | hsize <;> omega
    rw [if_pos hsize, hnil]
    rfl
  · have hlength := length_encode_gt hnil hfits
    rw [if_neg (by rw [hstores.size_eq]; omega), hstores.read (by omega)]
    dsimp only
    rw [if_neg (by rw [hstores.size_eq]; exact not_not_intro rfl)]
    exact findTarget_records entries hfits (toBytes 2 entries.length) _ (entries_length_lt entries)

end Paffs.Directory

namespace Paffs.Namespace
open DataIO (State)
open DataIO.State (Apart Healthy)
open Directory (Name Entry removeInodeFromDir)

/-! ### Objects that go -/

/-- All data of an object is given back. -/
theorem Content.Shown.clear {c : DataIO.Config} {env : DataIO.Env} {type : InodeType} {s : State} {content : Content} {n : Nat}
    (h : content.Shown c env type s) (hfew : s.Countable c) (hh : Healthy c env n) :
    ∃ (s' : State) (content' : Content), s.deleteInodeData c env 0 = (.ok, s') ∧ content'.Shown c env type s' ∧
      content'.entries = [] ∧ Apart s s' ∧ s.freePages n ⊆ s'.freePages n := by
  cases content with
  | file bytes =>
    obtain ⟨htype, hshows⟩ := h
    obtain ⟨s', hdelete, hshows', hapart, hfree⟩ := hshows.truncate hfew hh (Nat.zero_le _)
    exact ⟨s', .file _, hdelete, ⟨htype, hshows'⟩, rfl, hapart, hfree⟩
  | dir entries =>
    obtain ⟨htype, hholds, hsize⟩ := h
    by_cases hnil : entries = []
    · subst hnil
      have hdelete : s.deleteInodeData c env 0 = (.ok, s) := by
        unfold DataIO.State.deleteInodeData
        exact if_pos hsize
      exact ⟨s, .dir [], hdelete, ⟨htype, hholds, hsize⟩, rfl, ⟨fun _ _ hused _ => ⟨hused, rfl⟩, fun q _ => .inr ⟨q, rfl⟩⟩,
        Finset.Subset.refl _⟩
    · have hpos := Directory.length_encode_pos entries
      obtain ⟨hfits, hstores⟩ := hholds
      rw [if_neg hnil] at hstores
      have hok := DataIO.State.deleteInodeData_total hh hstores.sound.used hstores.sound.addressable (Nat.zero_le s.size)
      have hblank := hstores.clear (by omega) hok
      have hreserved := Directory.reservedPages_ne_zero hstores.sound hstores.counted (hstores.size_eq.trans_le hstores.fits)
        hstores.first
      obtain ⟨-, -, hzero, -⟩ := DataIO.State.deleteInodeData_ok hstores.sound hstores.counted hreserved
        (show 0 < s.size by rw [hstores.size_eq]; omega) hok
      refine ⟨_, .dir [], Prod.ext hok rfl, ⟨htype, ⟨List.forall_mem_nil _, ?_⟩, hzero⟩, rfl,
        DataIO.State.deleteInodeData_apart hstores.sound hok, hstores.sound.freePages_deleteInodeData (Nat.zero_le _) hok⟩
      rwa [if_pos rfl]

theorem FileTree.unlink_dir {t : FileTree} {no p : InodeNo} {perm : Nat} {entries : List Entry}
    (hdir : t.nodes p = some ⟨perm, .dir entries⟩) : t.unlink p no =
      if ∃ e ∈ entries, e.no = no then (.ok, (t.set p (some ⟨perm, .dir (entries.eraseP fun e => e.no = no)⟩)).set no none)
      else (.notFound, t) := by
  unfold FileTree.unlink
  rw [hdir]

/-- What an object was does not matter once it is gone. -/
theorem FileTree.unlink_set {t u : FileTree} {no p : InodeNo} {perm : Nat} {entries : List Entry}
    (hdir : t.nodes p = some ⟨perm, .dir entries⟩) (hdir' : u.nodes p = some ⟨perm, .dir entries⟩)
    (hother : ∀ i, i ≠ no → u.nodes i = t.nodes i) :
    ((t.unlink p no).2.set no none).nodes = ((u.unlink p no).2.set no none).nodes := by
  funext i
  change Function.update (t.unlink p no).2.nodes no none i = Function.update (u.unlink p no).2.nodes no none i
  by_cases hi : i = no
  · subst hi
    rw [Function.update_self, Function.update_self]
  rw [Function.update_of_ne hi, Function.update_of_ne hi, FileTree.unlink_dir hdir, FileTree.unlink_dir hdir']
  split_ifs
  · change Function.update (Function.update t.nodes p _) no none i = Function.update (Function.update u.nodes p _) no none i
    rw [Function.update_of_ne hi, Function.update_of_ne hi]
    by_cases hp : i = p
    · subst hp
      rw [Function.update_self, Function.update_self]
    · rw [Function.update_of_ne hp, Function.update_of_ne hp, hother i hi]
  · exact (hother i hi).symm

namespace Device
variable {c : DataIO.Config} {env : Env} {d : Device} {t : FileTree} {nodes : InodeNo → Option Node} {no p : InodeNo} {n : Nat}

theorem Mirrors.deleteInode (h : d.Mirrors c env.toEnv nodes) (hh : Healthy c env.toEnv n) (hzero : no ≠ 0)
    (hunnamed : ∀ i, ∀ e ∈ entriesIn nodes i, e.no ≠ no) :
    (Device.deleteInode env d no).2.Mirrors c env.toEnv (Function.update nodes no none) := by
  unfold Device.deleteInode
  rw [hh.outcome]
  exact h.delete hzero hunnamed

/-- Before its inode goes, a target loses its data. -/
theorem Mirrors.deleteTarget (h : d.Mirrors c env.toEnv nodes) (hh : Healthy c env.toEnv n) (hfew : d.Countable c no)
    (hsome : (d.lookup no).isSome) : ∃ (d₁ : Device) (nodes₁ : InodeNo → Option Node),
      d.deleteTarget c env no = (true, ({ d₁ with tree := d₁.tree.filter fun x => x.1 ≠ no } : Device).tick) ∧
      d₁.Mirrors c env.toEnv nodes₁ ∧ entriesIn nodes₁ no = [] ∧ (∀ i, i ≠ no → nodes₁ i = nodes i) ∧
      d.freePages n ⊆ d₁.freePages n := by
  obtain ⟨obj, hobj⟩ := Option.isSome_iff_exists.mp hsome
  obtain ⟨⟨perm, content⟩, hnode, hperm, hshown⟩ := h.node no obj hobj
  unfold Device.deleteTarget Device.deleteInode
  rw [hobj]
  dsimp only
  by_cases hsize : obj.size = 0
  · rw [if_neg (not_not_intro hsize), hh.outcome]
    refine ⟨d, nodes, rfl, h, ?_, fun _ _ => rfl, Finset.Subset.refl _⟩
    rw [entriesIn_of_some hnode]
    cases content with
    | file bytes => rfl
    | dir entries =>
      -- a directory without bytes has no entries
      by_contra hnil
      change entries ≠ [] at hnil
      obtain ⟨-, hholds, heq⟩ := hshown
      have hlong := Directory.length_encode_gt hnil hholds.1
      rw [Content.size, if_neg hnil] at heq
      have hzero : (d.view obj).size = 0 := hsize
      omega
  · obtain ⟨s', content', hdelete, hshown', hentries, hapart, hfree⟩ := hshown.clear (hfew obj hobj) hh
    rw [if_pos hsize, DataIO.State.deleteInodeDataAgain_eq (fun _ hq => hshown.used hq), hdelete]
    dsimp only
    rw [hh.outcome]
    have hput := h.put hobj ⟨perm, content'⟩ hperm hshown' hapart
      (h.names.sublist (by rw [hentries]; exact List.nil_sublist _))
    refine ⟨_, _, rfl, hput.tick, ?_, fun i hi => Function.update_of_ne hi .., hfree⟩
    rw [entriesIn_update, Function.update_self, hentries]

/-- Deleting an inode does not touch the data of others. -/
theorem filter_put (s : State) :
    ({ d with tree := d.tree.filter fun x => x.1 ≠ no } : Device).tick.put p s =
      { d.tick.put p s with tree := (d.tick.put p s).tree.filter fun x => x.1 ≠ no } := by
  unfold put tick
  dsimp only
  rw [List.filter_map]
  congr 2
  apply List.filter_congr
  intro x _
  dsimp only [Function.comp_apply]
  by_cases hx : x.1 = p
  · rw [if_pos hx, hx]
  · rw [if_neg hx]

/-- The object goes, and its entry, if it is still there. -/
theorem Mirrors.finishRemoval (h : d.Mirrors c env.toEnv t.nodes) (hh : Healthy c env.toEnv n) (hfew : d.Countable c no)
    (hzero : no ≠ 0) {perm : Nat} {entries : List Entry} (hdir : t.nodes p = some ⟨perm, .dir entries⟩)
    (hfree : (∃ e ∈ entries, e.no = no) → c.maxPagesPerWrite ≤ (d.freePages n).card)
    (helsewhere : ∀ j, j ≠ p → ∀ e ∈ entriesIn t.nodes j, e.no ≠ no) :
    ∃ d', d.finishRemoval c env no p = some d' ∧ d'.Mirrors c env.toEnv ((t.unlink p no).2.set no none).nodes := by
  unfold Device.finishRemoval
  by_cases hsome : (d.lookup no).isSome
  swap
  · -- it is gone already
    have hnone := Option.not_isSome_iff_eq_none.mp hsome
    have habsent := h.absent no hnone
    obtain ⟨dir, hlookup, hperm, hshown⟩ := h.lookup hdir
    have hunnamed : ∀ e ∈ entries, e.no ≠ no := by
      intro e he heq
      have halive := h.alive hdir he
      rw [heq, habsent] at halive
      cases halive
    have hsame := h.put_content hlookup hdir _ hperm hshown ⟨fun _ _ hused _ => ⟨hused, rfl⟩, fun q _ => .inr ⟨q, rfl⟩⟩ rfl
    rw [← hdir, Function.update_eq_self] at hsame
    unfold Device.deleteTarget
    rw [hnone]
    dsimp only
    rw [hlookup]
    dsimp only
    rw [hshown.2.1.removeInodeFromDir_none hunnamed, FileTree.unlink, hdir]
    dsimp only
    rw [if_neg (by rintro ⟨e, he, heq⟩; exact hunnamed e he heq)]
    refine ⟨_, rfl, ?_⟩
    change Mirrors c env.toEnv _ (Function.update t.nodes no none)
    rwa [← habsent, Function.update_eq_self]
  obtain ⟨d₁, nodes₁, hdelete, hmirrors, hempty, hother, hmore⟩ := h.deleteTarget hh hfew hsome
  rw [hdelete]
  dsimp only
  by_cases hself : p = no
  · -- the directory itself
    subst hself
    have hgone : ({ d₁ with tree := d₁.tree.filter fun x => x.1 ≠ p } : Device).tick.lookup p = none :=
      (lookup_filter (d := d₁) p p).trans (if_pos rfl)
    rw [hgone]
    refine ⟨_, rfl, ?_⟩
    have hnodes : ((t.unlink p p).2.set p none).nodes = Function.update nodes₁ p none := by
      funext i
      by_cases hi : i = p
      · subst hi
        rw [Function.update_self]
        exact Function.update_self ..
      · rw [Function.update_of_ne hi, hother i hi]
        refine (Function.update_of_ne hi ..).trans ?_
        rw [FileTree.unlink, hdir]
        dsimp only
        split_ifs
        · exact (Function.update_of_ne hi ..).trans (Function.update_of_ne hi ..)
        · rfl
    rw [hnodes]
    apply hmirrors.delete hzero
    intro j e he
    by_cases hj : j = p
    · rw [hj, hempty] at he
      cases he
    · exact helsewhere j hj e (by rwa [entriesIn, ← hother j hj])
  · have hdir₁ : nodes₁ p = some ⟨perm, .dir entries⟩ := (hother p hself).trans hdir
    have hticked := hmirrors.tick
    obtain ⟨dir, hlookup, hperm, hshown⟩ := hticked.lookup hdir₁
    have hlookup' : ({ d₁ with tree := d₁.tree.filter fun x => x.1 ≠ no } : Device).tick.lookup p = some dir :=
      (lookup_filter (d := d₁) no p).trans ((if_neg hself).trans hlookup)
    rw [hlookup']
    dsimp only
    let t₁ : FileTree := { t with nodes := nodes₁ }
    have hunlink := @Mirrors.unlink c env d₁.tick t₁ n no p hticked hh perm entries hdir₁
      (fun hnamed => (hfree hnamed).trans (Finset.card_le_card hmore)) dir hlookup
    obtain ⟨s', hremove, hdone⟩ := hunlink
    change ∃ d', Option.map _ (removeInodeFromDir c env.toEnv (d₁.tick.view dir) no) = some d' ∧ _
    rw [hremove]
    refine ⟨_, rfl, ?_⟩
    dsimp only
    rw [filter_put]
    have hnodes := @FileTree.unlink_set t t₁ no p perm entries hdir hdir₁ hother
    rw [hnodes]
    suffices hticks : ({ d₁.tick.put p s' with tree := (d₁.tick.put p s').tree.filter fun x => x.1 ≠ no } : Device).tick.Mirrors
        c env.toEnv ((t₁.unlink p no).2.set no none).nodes from hticks.withClock (d₁.tick.put p s').clock
    have hcases := @FileTree.unlink_dir t₁ no p perm entries hdir₁
    by_cases hnamed : ∃ e ∈ entries, e.no = no
    · rw [if_pos hnamed] at hcases
      rw [hcases] at hdone ⊢
      obtain ⟨hr, -⟩ | ⟨-, hput⟩ := hdone
      · cases hr
      · change Mirrors c env.toEnv _ (Function.update (Function.update _ no none) no none)
        rwa [Function.update_idem]
    · rw [if_neg hnamed] at hcases
      rw [hcases] at hdone ⊢
      obtain ⟨-, hput⟩ | ⟨hr, -⟩ := hdone
      · apply hput.delete hzero
        intro j e he heq
        by_cases hj : j = p
        · subst hj
          rw [entriesIn_of_some hdir₁] at he
          exact hnamed ⟨e, he, heq⟩
        · by_cases hjno : j = no
          · subst hjno
            rw [show entriesIn t₁.nodes j = [] from hempty] at he
            cases he
          · exact helsewhere j hj e (by rwa [entriesIn, ← hother j hjno]) heq
      · cases hr

end Device

/-! ### The end of the log -/

/-- What is left of the tree at the end of the log. -/
def FileTree.recovered (t : FileTree) (r : Replay) : FileTree :=
  match r.journalState with
  | .ok => t
  | .makeObj => t.set r.targetInodeNo none
  | .insertObj => if ∃ e ∈ entriesIn t.nodes r.folderInodeNo, e.no = r.targetInodeNo then t else t.set r.targetInodeNo none
  | .removeObj => (t.unlink r.folderInodeNo r.targetInodeNo).2.set r.targetInodeNo none

/-- The target is named in its directory, or nowhere. -/
def Replay.Fits (r : Replay) (nodes : InodeNo → Option Node) : Prop :=
  match r.journalState with
  | .ok => True
  | .makeObj => r.targetInodeNo ≠ 0 ∧ ∀ j, ∀ e ∈ entriesIn nodes j, e.no ≠ r.targetInodeNo
  | .insertObj | .removeObj =>
    r.targetInodeNo ≠ 0 ∧ (∃ perm entries, nodes r.folderInodeNo = some ⟨perm, .dir entries⟩) ∧
      ∀ j, j ≠ r.folderInodeNo → ∀ e ∈ entriesIn nodes j, e.no ≠ r.targetInodeNo

/-- The name of the target is longer than the variable it is copied to. -/
def Replay.Overruns (r : Replay) (pointerBytes : Nat) (nodes : InodeNo → Option Node) : Prop :=
  r.journalState = .insertObj ∧ ∃ e ∈ entriesIn nodes r.folderInodeNo, e.no = r.targetInodeNo ∧ pointerBytes < min e.name.length 200

namespace Device
variable {c : DataIO.Config} {env : Env} {d : Device} {t : FileTree} {n pointerBytes : Nat}

/-- What the device does at the end of the log is what happens to its tree, unless memory is overwritten. -/
theorem Mirrors.signalEndOfLog (h : d.Mirrors c env.toEnv t.nodes) (hh : Healthy c env.toEnv n) {r : Replay} (hr : r.Fits t.nodes)
    (hremoves : r.journalState = .removeObj → d.Countable c r.targetInodeNo ∧
      ((∃ e ∈ entriesIn t.nodes r.folderInodeNo, e.no = r.targetInodeNo) → c.maxPagesPerWrite ≤ (d.freePages n).card)) :
    r.Overruns pointerBytes t.nodes ∧ d.signalEndOfLog c env pointerBytes r = none ∨
      ∃ d', d.signalEndOfLog c env pointerBytes r = some d' ∧ d'.Mirrors c env.toEnv (t.recovered r).nodes := by
  obtain ⟨state, target, folder⟩ := r
  unfold Device.signalEndOfLog FileTree.recovered
  cases state with
  | ok => exact .inr ⟨d, rfl, h⟩
  | makeObj =>
    obtain ⟨hzero, hunnamed⟩ := hr
    exact .inr ⟨_, rfl, h.deleteInode hh hzero hunnamed⟩
  | insertObj =>
    obtain ⟨hzero, ⟨perm, entries, hdir⟩, helsewhere⟩ := hr
    dsimp only at hzero hdir helsewhere ⊢
    obtain ⟨dir, hlookup, hperm, htype, hholds, -⟩ := h.lookup hdir
    have hself := entriesIn_of_some hdir
    change entriesIn t.nodes folder = entries at hself
    rw [hlookup, hself]
    dsimp only
    rw [if_neg (not_not_intro htype), hholds.getNameOfInodeInDir]
    by_cases hnamed : ∃ e ∈ entries, e.no = target
    · rw [if_pos hnamed]
      obtain ⟨e, he⟩ := Option.isSome_iff_exists.mp
        (List.find?_isSome.mpr (by simpa using hnamed) : (entries.find? fun e => e.no = target).isSome)
      have hno : decide (e.no = target) = true := List.find?_some (p := fun e : Entry => decide (e.no = target)) he
      rw [he, Option.elim_some]
      unfold Directory.copied
      split_ifs with hlong
      · exact .inl ⟨⟨rfl, e, hself ▸ List.mem_of_find?_eq_some he, of_decide_eq_true hno, hlong⟩, rfl⟩
      · exact .inr ⟨d, rfl, h⟩
    · rw [if_neg hnamed, List.find?_eq_none.mpr fun e he heq => hnamed ⟨e, he, of_decide_eq_true heq⟩]
      refine .inr ⟨_, rfl, h.deleteInode hh hzero fun j e he heq => ?_⟩
      by_cases hj : j = folder
      · rw [hj, hself] at he
        exact hnamed ⟨e, he, heq⟩
      · exact helsewhere j hj e he heq
  | removeObj =>
    obtain ⟨hzero, ⟨perm, entries, hdir⟩, helsewhere⟩ := hr
    obtain ⟨hfew, hfree⟩ := hremoves rfl
    exact .inr (h.finishRemoval hh hfew hzero hdir (fun hnamed => hfree (entriesIn_of_some hdir ▸ hnamed)) helsewhere)

end Device
end Paffs.Namespace
