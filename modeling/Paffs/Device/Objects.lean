import Paffs.Device.Paths

/-! Truncating and removing what is at a path. -/
namespace Paffs.Directory
open DataIO (State Env)
variable {c : DataIO.Config} {env : Env} {s s' : State}

/-- Without its last entry, a directory has no bytes. -/
theorem Holds.size_of_last {e : Entry} (h : Holds c env s [e]) (hok : removeInodeFromDir c env s e.no = some (.ok, s')) : s'.size = 0 := by
  obtain ⟨hfits, hstores⟩ := h
  rw [if_neg (List.cons_ne_nil _ _)] at hstores
  have hpos := length_encode_pos [e]
  have hreserved := reservedPages_ne_zero hstores.sound hstores.counted (hstores.size_eq.trans_le hstores.fits) hstores.first
  have hdelete := @State.deleteInodeData_ok c env s hstores.sound hstores.counted hreserved 0 (by rw [hstores.size_eq]; omega)
  have heq := @removeInodeFromDir_eq c env s [] [] e hfits hstores (List.forall_mem_nil _)
  rw [List.nil_append, if_pos rfl, hok] at heq
  generalize s.deleteInodeData c env 0 = r at heq hdelete
  obtain ⟨r, s₁⟩ := r
  split at heq
  · rename_i hr
    cases hr
    have hcommit := Option.some.inj heq
    rw [← congrArg (fun x : Result × State => x.2.size) hcommit.symm, commit_ok (congrArg Prod.fst hcommit.symm)]
    exact (hdelete rfl).2.2.1
  · rename_i hr
    exact (hr s' (Option.some.inj heq).symm).elim

end Paffs.Directory

namespace Paffs.Namespace
open DataIO (State)
open DataIO.State (Apart Healthy)
open Directory (Name Entry removeInodeFromDir)

namespace Device
variable {c : DataIO.Config} {env : Env} {d : Device} {t : FileTree} {path : Path} {n : Nat} {no p : InodeNo}

/-! ### Truncating -/

/-- Files that are truncated have less than `2 ^ 16` pages. -/
def Countable (c : DataIO.Config) (d : Device) (no : InodeNo) : Prop := ∀ inode ∈ d.lookup no, (d.view inode).Countable c

instance : Decidable (d.Countable c no) := inferInstanceAs (Decidable (∀ inode ∈ d.lookup no, _))

/-- The new length zero is that of a removal. -/
theorem truncate_eq : truncate c env d path = d.truncateTo c env path 0 := rfl

theorem Mirrors.truncateTo (h : d.Mirrors c env.toEnv t.nodes) (hh : Healthy c env.toEnv n) (hshort : Short path)
    (hfind : t.find path = .ok no) (hfew : d.Countable c no) (newLength : Nat) :
    ∃ d', d.truncateTo c env path newLength = some ((t.truncateNode no newLength).1, d') ∧
      d'.Mirrors c env.toEnv (t.truncateNode no newLength).2.nodes ∧ d.freePages n ⊆ d'.freePages n := by
  obtain ⟨⟨perm, content⟩, hnode⟩ := Option.isSome_iff_exists.mp (h.find_alive hfind)
  obtain ⟨inode, hlookup, hperm, hshown⟩ := h.lookup hnode
  have hfew := hfew inode hlookup
  -- what is truncated to its own length stays as it is
  have hsame : (d.put no (d.view inode)).Mirrors c env.toEnv t.nodes := by
    have hput := h.put_content hlookup hnode _ hperm hshown ⟨fun _ _ hused _ => ⟨hused, rfl⟩, fun q _ => .inr ⟨q, rfl⟩⟩ rfl
    rwa [← hnode, Function.update_eq_self] at hput
  unfold Device.truncateTo FileTree.truncateNode
  rw [h.getInodeOfElem_eq hshort, hfind]
  dsimp only
  rw [hlookup, hnode]
  dsimp only
  rw [hperm]
  by_cases hwritable : perm &&& permW = 0
  · rw [if_pos hwritable, if_pos hwritable]
    exact ⟨d, rfl, h, Finset.Subset.refl _⟩
  rw [if_neg hwritable, if_neg hwritable]
  cases content with
  | dir entries =>
    obtain ⟨htype, hholds, hsize⟩ := hshown
    have hsize : inode.size = (Content.dir entries).size := hsize
    dsimp only
    by_cases hnil : entries = []
    · rw [hnil, Content.size, if_pos rfl] at hsize
      rw [if_neg (fun hdir => by omega), if_neg (not_not_intro hnil)]
      by_cases hzero : newLength = 0
      · have hdelete : (d.view inode).deleteInodeData c env.toEnv newLength = (.ok, d.view inode) := by
          unfold DataIO.State.deleteInodeData
          exact if_pos (hsize.trans hzero.symm)
        rw [hdelete, if_pos hzero]
        exact ⟨_, rfl, hsame.tick, Finset.Subset.refl _⟩
      · have hdelete : (d.view inode).deleteInodeData c env.toEnv newLength = (.invalidInput, d.view inode) := by
          unfold DataIO.State.deleteInodeData
          change (if inode.size = newLength then _ else if inode.size < newLength then _ else _) = _
          rw [if_neg (by omega), if_pos (by omega)]
        rw [hdelete, if_neg hzero]
        exact ⟨_, rfl, hsame, Finset.Subset.refl _⟩
    · have hlong := Directory.length_encode_gt hnil hholds.1
      rw [Content.size, if_neg hnil] at hsize
      rw [if_pos ⟨htype, by omega⟩, if_pos hnil]
      exact ⟨d, rfl, h, Finset.Subset.refl _⟩
  | file bytes =>
    obtain ⟨htype, hshows⟩ := hshown
    have hsize : inode.size = bytes.size := hshows.holds.size_eq
    dsimp only
    rw [if_neg (fun hdir => by rw [htype] at hdir; cases hdir.1)]
    by_cases hlong : bytes.size < newLength
    · have hdelete : (d.view inode).deleteInodeData c env.toEnv newLength = (.invalidInput, d.view inode) := by
        unfold DataIO.State.deleteInodeData
        change (if inode.size = newLength then _ else if inode.size < newLength then _ else _) = _
        rw [if_neg (by omega), if_pos (by omega)]
      rw [hdelete, if_pos hlong]
      exact ⟨_, rfl, hsame, Finset.Subset.refl _⟩
    · obtain ⟨s', hdelete, hshows', hapart, hfree⟩ := hshows.truncate hfew hh (Nat.not_lt.mp hlong)
      rw [hdelete, if_neg hlong]
      refine ⟨_, rfl, Mirrors.tick (h.put_content hlookup hnode _ hperm ⟨htype, hshows'⟩ hapart rfl), hfree⟩

/-- What a truncation that goes through leaves. -/
theorem truncateNode_ok {newLength : Nat} (hok : (t.truncateNode no newLength).1 = .ok) :
    (∀ i, i ≠ no → (t.truncateNode no newLength).2.nodes i = t.nodes i) ∧ ((t.truncateNode no newLength).2.nodes no).isSome ∧
      ∀ perm bytes, (t.truncateNode no newLength).2.nodes no = some ⟨perm, .file bytes⟩ → bytes.size = newLength := by
  unfold FileTree.truncateNode at hok ⊢
  cases hnode : t.nodes no with
  | none =>
    rw [hnode] at hok
    cases hok
  | some node =>
    obtain ⟨perm, content⟩ := node
    rw [hnode] at hok
    dsimp only at hok ⊢
    by_cases hwritable : perm &&& permW = 0
    · rw [if_pos hwritable] at hok
      cases hok
    rw [if_neg hwritable] at hok ⊢
    cases content with
    | dir entries =>
      dsimp only at hok ⊢
      by_cases hnil : entries = []
      · refine ⟨fun _ _ => rfl, hnode ▸ rfl, fun perm' bytes heq => ?_⟩
        rw [hnode] at heq
        cases heq
      · rw [if_pos hnil] at hok
        cases hok
    | file bytes =>
      dsimp only at hok ⊢
      by_cases hlong : bytes.size < newLength
      · rw [if_pos hlong] at hok
        cases hok
      rw [if_neg hlong]
      have hself : (t.set no (some ⟨perm, .file ⟨newLength, bytes.content⟩⟩)).nodes no = _ := Function.update_self ..
      refine ⟨fun i hi => Function.update_of_ne hi ..,
        Option.isSome_of_eq_some hself, fun perm' bytes' heq => ?_⟩
      cases hself.symm.trans heq
      rfl

/-! ### Removing -/

/-- The entry goes. -/
theorem Mirrors.eraseEntry (h : d.Mirrors c env.toEnv t.nodes) (hh : Healthy c env.toEnv n)
    (hfree : c.maxPagesPerWrite ≤ (d.freePages n).card) {perm : Nat} {entries : List Entry}
    (hdir : t.nodes p = some ⟨perm, .dir entries⟩) (hsome : ∃ e ∈ entries, e.no = no) {dir : Inode} (hlookup : d.lookup p = some dir) :
    let nodes := (t.set p (some ⟨perm, .dir (entries.eraseP fun e => e.no = no)⟩)).nodes
    ∃ s', removeInodeFromDir c env.toEnv (d.view dir) no = some (.ok, s') ∧ (d.put p s').Mirrors c env.toEnv nodes ∧
      no ≠ 0 ∧ ∀ j, ∀ e ∈ entriesIn nodes j, e.no ≠ no := by
  obtain ⟨inode, hinode, hperm, hshown⟩ := h.lookup hdir
  obtain rfl := Option.some.inj (hlookup.symm.trans hinode)
  obtain ⟨htype, hholds, hsize⟩ := hshown
  have hself : entriesIn t.nodes p = entries := entriesIn_of_some hdir
  obtain ⟨s', hok, hholds', hapart⟩ := hholds.remove_total hh hsome hfree
  have hsize' : s'.size = (Content.dir (entries.eraseP fun e => e.no = no)).size := by
    by_cases hnil : (entries.eraseP fun e => decide (e.no = no)) = []
    · -- it was the last entry
      obtain ⟨e₀, he₀, hno₀⟩ := hsome
      obtain ⟨e, before, after, -, he, hentries, herase⟩ :=
        List.exists_of_eraseP (p := fun e : Entry => decide (e.no = no)) he₀ (decide_eq_true hno₀)
      rw [herase] at hnil
      obtain ⟨rfl, rfl⟩ := List.append_eq_nil_iff.mp hnil
      rw [hentries] at hholds
      rw [← of_decide_eq_true he] at hok
      rw [herase, hnil, Content.size, if_pos rfl]
      exact hholds.size_of_last hok
    · obtain ⟨-, hstores⟩ := hholds'
      rw [if_neg hnil] at hstores
      exact hstores.size_eq.trans (if_neg hnil).symm
  have hput := h.put hlookup ⟨perm, .dir (entries.eraseP fun e => e.no = no)⟩ hperm ⟨htype, hholds', hsize'⟩ hapart
    (h.names.sublist (by rw [hself]; exact List.eraseP_sublist))
  have hmem : ∃ e ∈ entriesIn t.nodes p, e.no = no := hself ▸ hsome
  obtain ⟨e, he, heq⟩ := hmem
  refine ⟨s', hok, hput, heq ▸ (h.names.alive p e he).2, ?_⟩
  change ∀ j, ∀ e ∈ entriesIn (Function.update t.nodes p _) j, e.no ≠ no
  rw [entriesIn_update]
  change ∀ j, ∀ e ∈ Function.update (entriesIn t.nodes) p (entries.eraseP fun e => e.no = no) j, e.no ≠ no
  rw [← hself]
  exact h.names.erase ⟨e, he, heq⟩

/-- The entry and the object go. -/
theorem Mirrors.unlink (h : d.Mirrors c env.toEnv t.nodes) (hh : Healthy c env.toEnv n)
    {perm : Nat} {entries : List Entry} (hdir : t.nodes p = some ⟨perm, .dir entries⟩)
    (hfree : (∃ e ∈ entries, e.no = no) → c.maxPagesPerWrite ≤ (d.freePages n).card) {dir : Inode} (hlookup : d.lookup p = some dir) :
    ∃ s', removeInodeFromDir c env.toEnv (d.view dir) no = some ((t.unlink p no).1, s') ∧
      ((t.unlink p no).1 = .notFound ∧ (d.put p s').Mirrors c env.toEnv (t.unlink p no).2.nodes ∨
        (t.unlink p no).1 = .ok ∧ ({ d.put p s' with tree := (d.put p s').tree.filter fun x => x.1 ≠ no } : Device).tick.Mirrors
          c env.toEnv (t.unlink p no).2.nodes) := by
  unfold FileTree.unlink
  rw [hdir]
  dsimp only
  by_cases hsome : ∃ e ∈ entries, e.no = no
  · rw [if_pos hsome]
    obtain ⟨s', hok, hput, hzero, hunnamed⟩ := h.eraseEntry hh (hfree hsome) hdir hsome hlookup
    exact ⟨s', hok, .inr ⟨rfl, hput.delete hzero hunnamed⟩⟩
  · rw [if_neg hsome]
    obtain ⟨inode, hinode, hperm, hshown⟩ := h.lookup hdir
    obtain rfl := Option.some.inj (hlookup.symm.trans hinode)
    have hsame := h.put_content hlookup hdir _ hperm hshown ⟨fun _ _ hused _ => ⟨hused, rfl⟩, fun q _ => .inr ⟨q, rfl⟩⟩ rfl
    rw [← hdir, Function.update_eq_self] at hsame
    exact ⟨_, hshown.2.1.removeInodeFromDir_none fun e he heq => hsome ⟨e, he, heq⟩, .inl ⟨rfl, hsame⟩⟩

theorem Mirrors.remove (h : d.Mirrors c env.toEnv t.nodes) (hh : Healthy c env.toEnv n)
    (hfree : c.maxPagesPerWrite ≤ (d.freePages n).card) (hshort : Short path) (hfind : t.find path = .ok no)
    (hparent : t.parent path = .ok p) (hopened : env.opened d.clock no = false) (hfew : d.Countable c no) :
    ∃ d', Device.remove c env d path = some ((t.removeNode p no).1, d') ∧ d'.Mirrors c env.toEnv (t.removeNode p no).2.nodes := by
  have hget := h.getParentDir_eq hshort
  rw [hparent] at hget
  obtain ⟨d₁, htruncate, hmirrors, hmore⟩ := h.truncateTo hh hshort hfind hfew 0
  have hdone := @truncateNode_ok t no 0
  unfold Device.remove FileTree.removeNode
  rw [h.getInodeOfElem_eq hshort, hfind]
  dsimp only
  rw [hopened, if_neg (by decide), hget]
  dsimp only [Except.map]
  rw [truncate_eq, htruncate]
  generalize t.truncateNode no 0 = r at hmirrors hdone ⊢
  obtain ⟨r, t₁⟩ := r
  by_cases hok : r = .ok
  swap
  · cases r
    case ok => exact absurd rfl hok
    all_goals exact ⟨d₁, rfl, hmirrors⟩
  subst hok
  dsimp only at hmirrors hdone ⊢
  obtain ⟨hother, halive, hfile⟩ := hdone rfl
  have hfree₁ := hfree.trans (Finset.card_le_card hmore)
  have hp : (t₁.nodes p).isSome := by
    by_cases hself : p = no
    · rwa [hself]
    · rw [hother p hself]
      exact h.parent_alive hparent
  obtain ⟨⟨perm, content⟩, hnode⟩ := Option.isSome_iff_exists.mp hp
  obtain ⟨dir, hlookup, hperm, hshown⟩ := hmirrors.lookup hnode
  rw [hlookup]
  dsimp only
  cases content with
  | dir entries =>
    obtain ⟨s', hremove, ⟨hr, hput⟩ | ⟨hr, hdelete⟩⟩ := hmirrors.unlink hh hnode (fun _ => hfree₁) hlookup
    · rw [hremove, hr]
      exact ⟨_, rfl, hput⟩
    · rw [hremove, hr]
      dsimp only
      unfold deleteInode
      rw [hh.outcome]
      dsimp only
      rw [hh.outcome]
      exact ⟨_, rfl, hdelete.tick⟩
  | file bytes =>
    -- a name of two slashes: the object is its own parent
    have hself : p = no := by
      by_contra hself
      rw [hother p hself] at hnode
      obtain ⟨elem, hsplit⟩ := exists_split path
      have hwalk := h.find_eq hshort hparent hsplit
      rw [hfind] at hwalk
      split_ifs at hwalk with hnil
      · cases hwalk
        exact hself rfl
      · rw [FileTree.walk, hnode] at hwalk
        cases hwalk
    rw [hself] at hnode
    have hreserved : (d₁.view dir).reservedPages = 0 := hshown.2.reservedPages_eq_zero (hfile perm bytes hnode)
    have hremove : removeInodeFromDir c env.toEnv (d₁.view dir) no = some (.notFound, d₁.view dir) := by
      rw [removeInodeFromDir, if_pos hreserved]
    have hsame := hmirrors.put_content hlookup (hself ▸ hnode) _ hperm hshown
      ⟨fun _ _ hused _ => ⟨hused, rfl⟩, fun q _ => .inr ⟨q, rfl⟩⟩ rfl
    rw [hself, ← hnode, Function.update_eq_self] at hsame
    rw [hremove, FileTree.unlink, hself, hnode]
    exact ⟨_, rfl, hsame⟩

end Device
end Paffs.Namespace
