import Paffs.DataIO.FileSpec
import Paffs.Device.FileTree
import Paffs.Device.Names

/-! A device and the tree it stands for: what the operations on single inodes leave of it. -/
namespace Paffs.Namespace
open DataIO (State)
open DataIO.State (Apart Shows)
open Directory (Name Entry Blank)

/-! ### One object -/

/-- Nothing is open, and there is room. -/
def surrounding (env : DataIO.Env) : Env := { env with noRoom := fun _ => false, opened := fun _ _ => false }

/-- The data of an inode is this content. -/
def Content.Shown (c : DataIO.Config) (env : DataIO.Env) (type : InodeType) (s : State) : Content → Prop
  | .dir entries => type = .dir ∧ Directory.Holds c env s entries ∧ s.size = (Content.dir entries).size
  | .file bytes => type = .file ∧ s.Shows c env bytes

namespace Content.Shown
variable {c : DataIO.Config} {env : DataIO.Env} {type : InodeType} {s s' : State} {content : Content}

theorem isDir (h : content.Shown c env type s) : content.isDir = decide (type = .dir) := by
  cases content with
  | dir entries =>
    obtain ⟨rfl, -⟩ := h
    rfl
  | file bytes =>
    obtain ⟨rfl, -⟩ := h
    rfl

theorem size (h : content.Shown c env type s) : s.size = content.size := by
  cases content with
  | dir entries => exact h.2.2
  | file bytes => exact h.2.holds.size_eq

theorem used (h : content.Shown c env type s) {p : PageNo} (hp : s.page p ≠ 0) : s.used (s.page p) = true := by
  cases content with
  | dir entries => exact @Device.holds_used c (surrounding env) s entries h.2.1 p hp
  | file bytes => exact h.2.holds.sound.used p hp

theorem replaced (h : content.Shown c env type s) : s.replaced = [] := by
  cases content with
  | dir entries => exact @Device.holds_replaced c (surrounding env) s entries h.2.1
  | file bytes => exact h.2.holds.sound.replaced

theorem congr (h : content.Shown c env type s) (hsize : s'.size = s.size) (hreserved : s'.reservedPages = s.reservedPages)
    (hpage : s'.page = s.page) (hreplaced : s'.replaced = [])
    (hkept : ∀ p, s.page p ≠ 0 → s'.used (s.page p) = true ∧ s'.flash (s.page p) = s.flash (s.page p)) :
    content.Shown c env type s' := by
  cases content with
  | dir entries => exact ⟨h.1, h.2.1.congr hsize hreserved hpage hreplaced hkept, hsize.trans h.2.2⟩
  | file bytes => exact ⟨h.1, h.2.congr hsize hreserved hpage hreplaced hkept⟩

/-- An object that was just created. -/
theorem blank (htype : type ≠ .lnk) (hsize : s.size = 0) (hreserved : s.reservedPages = 0) (hpage : ∀ p, s.page p = 0)
    (hreplaced : s.replaced = []) : (Content.blank type).Shown c env type s := by
  cases type with
  | file => exact ⟨rfl, DataIO.State.Empty.shows ⟨hsize, hpage, hreplaced⟩ hreserved⟩
  | dir => exact ⟨rfl, ⟨List.forall_mem_nil _, by rw [if_pos rfl]; exact ⟨.inl hsize, hpage, hreplaced, hreserved⟩⟩, hsize⟩
  | lnk => exact absurd rfl htype

end Content.Shown

/-! ### All objects -/

/-- The entries of the directories. -/
def entriesIn (nodes : InodeNo → Option Node) (i : InodeNo) : List Entry := ((nodes i).map fun node => node.content.entries).getD []

variable {nodes : InodeNo → Option Node}

theorem entriesIn_of_some {i : InodeNo} {node : Node} (h : nodes i = some node) : entriesIn nodes i = node.content.entries := by
  unfold entriesIn
  rw [h]
  rfl

theorem entriesIn_of_none {i : InodeNo} (h : nodes i = none) : entriesIn nodes i = [] := by
  unfold entriesIn
  rw [h]
  rfl

theorem entriesIn_update (no : InodeNo) (node : Node) :
    entriesIn (Function.update nodes no (some node)) = Function.update (entriesIn nodes) no node.content.entries := by
  funext i
  by_cases hi : i = no
  · subst hi
    rw [Function.update_self]
    exact entriesIn_of_some (Function.update_self ..)
  · rw [Function.update_of_ne hi, entriesIn, Function.update_of_ne hi]
    rfl

namespace Device
variable {c : DataIO.Config} {env : DataIO.Env} {d : Device}

/-- Every object of the tree has its inode, and the inodes share no pages. -/
structure Mirrors (c : DataIO.Config) (env : DataIO.Env) (d : Device) (nodes : InodeNo → Option Node) : Prop where
  node : ∀ i inode, d.lookup i = some inode →
    ∃ node, nodes i = some node ∧ inode.perm = node.perm ∧ node.content.Shown c env inode.type (d.view inode)
  absent : ∀ i, d.lookup i = none → nodes i = none
  names : Names (fun no => (nodes no).isSome) (entriesIn nodes)
  root : ∃ perm entries, nodes 0 = some ⟨perm, .dir entries⟩
  replaced : d.replaced = []
  apart : ∀ i j x y, i ≠ j → d.lookup i = some x → d.lookup j = some y → ∀ p q, x.page p = y.page q → x.page p = 0

theorem Mirrors.lookup (h : d.Mirrors c env nodes) {i : InodeNo} {node : Node} (hnode : nodes i = some node) :
    ∃ inode, d.lookup i = some inode ∧ inode.perm = node.perm ∧ node.content.Shown c env inode.type (d.view inode) := by
  cases hi : d.lookup i with
  | none =>
    rw [h.absent i hi] at hnode
    cases hnode
  | some inode =>
    obtain ⟨node', hnode', hperm, hshown⟩ := h.node i inode hi
    obtain rfl := Option.some.inj (hnode.symm.trans hnode')
    exact ⟨inode, rfl, hperm, hshown⟩

theorem Mirrors.isSome_eq (h : d.Mirrors c env nodes) (i : InodeNo) : (d.lookup i).isSome = (nodes i).isSome := by
  cases hi : d.lookup i with
  | none =>
    rw [h.absent i hi]
    rfl
  | some inode =>
    obtain ⟨node, hnode, -⟩ := h.node i inode hi
    rw [hnode]
    rfl

/-- Nothing but the time changes. -/
theorem Mirrors.withClock (h : d.Mirrors c env nodes) (clock : Nat) : ({ d with clock := clock } : Device).Mirrors c env nodes where
  node i inode hi := by
    obtain ⟨node, hnode, hperm, hshown⟩ := h.node i inode hi
    exact ⟨node, hnode, hperm, hshown.congr rfl rfl rfl h.replaced fun p hp => ⟨hshown.used hp, rfl⟩⟩
  absent := h.absent
  names := h.names
  root := h.root
  replaced := h.replaced
  apart := h.apart

theorem Mirrors.tick (h : d.Mirrors c env nodes) : d.tick.Mirrors c env nodes := h.withClock _

/-- The pages an operation takes are not those of other objects. -/
theorem Mirrors.put_apart (h : d.Mirrors c env nodes) {no j : InodeNo} {inode y : Inode} (hlookup : d.lookup no = some inode)
    {s' : State} (hapart : Apart (d.view inode) s') (hne : j ≠ no) (hj : d.lookup j = some y) (p q : PageNo)
    (heq : s'.page p = y.page q) : s'.page p = 0 := by
  by_contra hp
  rcases hapart.fresh p hp with hfree | ⟨r, hr⟩
  · obtain ⟨node, -, -, hshown⟩ := h.node j y hj
    have hused := hshown.used (p := q) (show y.page q ≠ 0 from heq ▸ hp)
    rw [heq] at hfree
    exact absurd (hused.symm.trans hfree) (by decide)
  · exact hp (hr.trans (h.apart no j inode y hne.symm hlookup hj r q (hr.symm.trans heq)))

/-- An operation on the data of one object. -/
theorem Mirrors.put (h : d.Mirrors c env nodes) {no : InodeNo} {inode : Inode} (hlookup : d.lookup no = some inode)
    (node : Node) {s' : State} (hperm : inode.perm = node.perm) (hshown : node.content.Shown c env inode.type s') (hapart : Apart (d.view inode) s')
    (hnames : Names (fun i => (nodes i).isSome) (Function.update (entriesIn nodes) no node.content.entries)) :
    (d.put no s').Mirrors c env (Function.update nodes no (some node)) := by
  have hself := (lookup_put (d := d) no no s').trans (if_pos rfl)
  have hother := fun i (hi : i ≠ no) => (lookup_put (d := d) no i s').trans (if_neg hi)
  rw [hlookup] at hself
  have hcases : ∀ i x, (d.put no s').lookup i = some x →
      i = no ∧ x = ⟨inode.type, inode.perm, s'.size, s'.reservedPages, s'.page⟩ ∨ i ≠ no ∧ d.lookup i = some x := by
    intro i x hx
    by_cases hi : i = no
    · subst hi
      exact .inl ⟨rfl, (Option.some.inj (hself.symm.trans hx)).symm⟩
    · exact .inr ⟨hi, (hother i hi).symm.trans hx⟩
  constructor
  · intro i x hx
    rcases hcases i x hx with ⟨rfl, rfl⟩ | ⟨hi, hx⟩
    · exact ⟨node, Function.update_self .., hperm, hshown⟩
    · obtain ⟨node', hnode', hperm', hshown'⟩ := h.node i x hx
      refine ⟨node', (Function.update_of_ne hi ..).trans hnode', hperm', hshown'.congr rfl rfl rfl hshown.replaced fun p hp => ?_⟩
      exact hapart.other _ hp (hshown'.used hp) fun q hq => hp (h.apart i no x inode hi hx hlookup p q hq.symm)
  · intro i hi
    have hne : i ≠ no := by
      rintro rfl
      rw [hself] at hi
      cases hi
    exact (Function.update_of_ne hne ..).trans (h.absent i ((hother i hne).symm.trans hi))
  · rw [entriesIn_update]
    refine hnames.mono fun i e _ halive => ?_
    by_cases hi : e.no = no
    · rw [hi, Function.update_self]
      rfl
    · rwa [Function.update_of_ne hi]
  · obtain ⟨perm, entries, hroot⟩ := h.root
    by_cases hno : 0 = no
    · subst hno
      obtain ⟨node', hnode', -, hshown'⟩ := h.node 0 inode hlookup
      obtain rfl := Option.some.inj (hroot.symm.trans hnode')
      have hdir : node.content.isDir = true := hshown.isDir.trans hshown'.isDir.symm
      obtain ⟨perm', content⟩ := node
      cases content with
      | dir entries' => exact ⟨perm', entries', Function.update_self ..⟩
      | file bytes => cases hdir
    · exact ⟨perm, entries, (Function.update_of_ne hno ..).trans hroot⟩
  · exact hshown.replaced
  · intro i j x y hij hx hy p q heq
    rcases hcases i x hx with ⟨rfl, rfl⟩ | ⟨hi, hold⟩ <;> rcases hcases j y hy with ⟨rfl, rfl⟩ | ⟨hj, hold'⟩
    · exact absurd rfl hij
    · exact h.put_apart hlookup hapart hj hold' p q heq
    · exact heq.trans (h.put_apart hlookup hapart hi hold q p heq.symm)
    · exact h.apart i j x y hij hold hold' p q heq

/-- The entries stay as they are. -/
theorem Mirrors.put_content (h : d.Mirrors c env nodes) {no : InodeNo} {inode : Inode} (hlookup : d.lookup no = some inode)
    {node : Node} (hnode : nodes no = some node) (node' : Node) {s' : State} (hperm : inode.perm = node'.perm)
    (hshown : node'.content.Shown c env inode.type s') (hapart : Apart (d.view inode) s')
    (hentries : node'.content.entries = node.content.entries) :
    (d.put no s').Mirrors c env (Function.update nodes no (some node')) := by
  refine h.put hlookup node' hperm hshown hapart ?_
  rw [hentries, ← entriesIn_of_some hnode, Function.update_eq_self]
  exact h.names

/-! ### Permissions -/

theorem lookup_setPerm (no i : InodeNo) (perm : Nat) : (d.setPerm no perm).lookup i =
    if i = no then (d.lookup no).map fun inode => ⟨inode.type, perm, inode.size, inode.reservedPages, inode.page⟩ else d.lookup i := by
  unfold Device.lookup setPerm
  induction d.tree with
  | nil => split_ifs <;> rfl
  | cons x tree ih =>
    rw [List.map_cons, List.find?_cons, List.find?_cons, List.find?_cons]
    by_cases hi : i = no
    · subst hi
      rw [if_pos rfl] at ih ⊢
      by_cases hx : x.1 = i
      · simp [hx]
      · simpa [hx] using ih
    · rw [if_neg hi] at ih ⊢
      by_cases hx : x.1 = no
      · simpa [hx, Ne.symm hi] using ih
      · by_cases hxi : x.1 = i
        · simp [hxi, hi]
        · simpa [hx, hxi] using ih

theorem Mirrors.setPerm (h : d.Mirrors c env nodes) {no : InodeNo} {node : Node} (hnode : nodes no = some node) (perm : Nat) :
    (d.setPerm no perm).Mirrors c env (Function.update nodes no (some ⟨perm, node.content⟩)) := by
  obtain ⟨inode, hlookup, -, hshown⟩ := h.lookup hnode
  have hself := (lookup_setPerm (d := d) no no perm).trans (if_pos rfl)
  have hother := fun i (hi : i ≠ no) => (lookup_setPerm (d := d) no i perm).trans (if_neg hi)
  rw [hlookup] at hself
  have hcases : ∀ i x, (d.setPerm no perm).lookup i = some x →
      i = no ∧ x = ⟨inode.type, perm, inode.size, inode.reservedPages, inode.page⟩ ∨ i ≠ no ∧ d.lookup i = some x := by
    intro i x hx
    by_cases hi : i = no
    · subst hi
      exact .inl ⟨rfl, (Option.some.inj (hself.symm.trans hx)).symm⟩
    · exact .inr ⟨hi, (hother i hi).symm.trans hx⟩
  constructor
  · intro i x hx
    rcases hcases i x hx with ⟨rfl, rfl⟩ | ⟨hi, hx⟩
    · exact ⟨_, Function.update_self .., rfl, hshown⟩
    · obtain ⟨node', hnode', hperm', hshown'⟩ := h.node i x hx
      exact ⟨node', (Function.update_of_ne hi ..).trans hnode', hperm', hshown'⟩
  · intro i hi
    have hne : i ≠ no := by
      rintro rfl
      rw [hself] at hi
      cases hi
    exact (Function.update_of_ne hne ..).trans (h.absent i ((hother i hne).symm.trans hi))
  · rw [entriesIn_update, ← entriesIn_of_some hnode, Function.update_eq_self]
    refine h.names.mono fun i e _ halive => ?_
    by_cases hi : e.no = no
    · rw [hi, Function.update_self]
      rfl
    · rwa [Function.update_of_ne hi]
  · obtain ⟨perm', entries, hroot⟩ := h.root
    by_cases hno : 0 = no
    · subst hno
      obtain rfl := Option.some.inj (hroot.symm.trans hnode)
      exact ⟨perm, entries, Function.update_self ..⟩
    · exact ⟨perm', entries, (Function.update_of_ne hno ..).trans hroot⟩
  · exact h.replaced
  · intro i j x y hij hx hy p q heq
    rcases hcases i x hx with ⟨rfl, rfl⟩ | ⟨hi, hold⟩ <;> rcases hcases j y hy with ⟨rfl, rfl⟩ | ⟨hj, hold'⟩
    · exact absurd rfl hij
    · exact h.apart i j inode y hij hlookup hold' p q heq
    · exact h.apart i j x inode hij hold hlookup p q heq
    · exact h.apart i j x y hij hold hold' p q heq

/-! ### New objects and old ones -/

/-- A new object without data and without a name. -/
theorem Mirrors.insert (h : d.Mirrors c env nodes) {no : InodeNo} (hfresh : d.lookup no = none) (inode : Inode)
    (htype : inode.type ≠ .lnk) (hsize : inode.size = 0) (hreserved : inode.reservedPages = 0) (hpage : ∀ p, inode.page p = 0) :
    ({ d with tree := d.tree ++ [(no, inode)] } : Device).tick.Mirrors c env
      (Function.update nodes no (some ⟨inode.perm, .blank inode.type⟩)) := by
  refine Mirrors.tick ?_
  have hself := (lookup_append (d := d) no no inode).trans (by rw [hfresh, if_pos rfl, Option.none_or])
  have hother := fun i (hi : i ≠ no) => (lookup_append (d := d) no i inode).trans (by rw [if_neg hi, Option.or_none])
  have hcases : ∀ i x, ({ d with tree := d.tree ++ [(no, inode)] } : Device).lookup i = some x →
      i = no ∧ x = inode ∨ i ≠ no ∧ d.lookup i = some x := by
    intro i x hx
    by_cases hi : i = no
    · subst hi
      exact .inl ⟨rfl, (Option.some.inj (hself.symm.trans hx)).symm⟩
    · exact .inr ⟨hi, (hother i hi).symm.trans hx⟩
  constructor
  · intro i x hx
    rcases hcases i x hx with ⟨rfl, rfl⟩ | ⟨hi, hx⟩
    · exact ⟨_, Function.update_self .., rfl, .blank htype hsize hreserved hpage h.replaced⟩
    · obtain ⟨node', hnode', hperm', hshown'⟩ := h.node i x hx
      exact ⟨node', (Function.update_of_ne hi ..).trans hnode', hperm', hshown'⟩
  · intro i hi
    have hne : i ≠ no := by
      rintro rfl
      rw [hself] at hi
      cases hi
    exact (Function.update_of_ne hne ..).trans (h.absent i ((hother i hne).symm.trans hi))
  · have hnone : (Content.blank inode.type).entries = entriesIn nodes no := by
      rw [entriesIn_of_none (h.absent no hfresh)]
      cases inode.type <;> rfl
    rw [entriesIn_update, hnone, Function.update_eq_self]
    refine h.names.mono fun i e _ halive => ?_
    by_cases hi : e.no = no
    · rw [hi, Function.update_self]
      rfl
    · rwa [Function.update_of_ne hi]
  · obtain ⟨perm, entries, hroot⟩ := h.root
    refine ⟨perm, entries, (Function.update_of_ne ?_ ..).trans hroot⟩
    rintro rfl
    rw [h.absent 0 hfresh] at hroot
    cases hroot
  · exact h.replaced
  · intro i j x y hij hx hy p q heq
    rcases hcases i x hx with ⟨rfl, rfl⟩ | ⟨hi, hx⟩ <;> rcases hcases j y hy with ⟨rfl, rfl⟩ | ⟨hj, hy⟩
    · exact absurd rfl hij
    · exact hpage p
    · exact heq.trans (hpage q)
    · exact h.apart i j x y hij hx hy p q heq

/-- An object without a name goes. -/
theorem Mirrors.delete (h : d.Mirrors c env nodes) {no : InodeNo} (hzero : no ≠ 0)
    (hunnamed : ∀ i, ∀ e ∈ entriesIn nodes i, e.no ≠ no) :
    ({ d with tree := d.tree.filter fun x => x.1 ≠ no } : Device).tick.Mirrors c env (Function.update nodes no none) := by
  refine Mirrors.tick ?_
  have hself := (lookup_filter (d := d) no no).trans (if_pos rfl)
  have hother := fun i (hi : i ≠ no) => (lookup_filter (d := d) no i).trans (if_neg hi)
  have hold : ∀ i x, ({ d with tree := d.tree.filter fun x => x.1 ≠ no } : Device).lookup i = some x →
      i ≠ no ∧ d.lookup i = some x := by
    intro i x hx
    by_cases hi : i = no
    · subst hi
      rw [hself] at hx
      cases hx
    · exact ⟨hi, (hother i hi).symm.trans hx⟩
  have hentries : entriesIn (Function.update nodes no none) = Function.update (entriesIn nodes) no [] := by
    funext i
    by_cases hi : i = no
    · subst hi
      rw [Function.update_self, entriesIn_of_none (Function.update_self ..)]
    · rw [Function.update_of_ne hi, entriesIn, Function.update_of_ne hi]
      rfl
  have hless := h.names.sublist (List.nil_sublist (entriesIn nodes no))
  constructor
  · intro i x hx
    obtain ⟨hi, hx⟩ := hold i x hx
    obtain ⟨node, hnode, hperm, hshown⟩ := h.node i x hx
    exact ⟨node, (Function.update_of_ne hi ..).trans hnode, hperm, hshown⟩
  · intro i hi
    by_cases hno : i = no
    · subst hno
      exact Function.update_self ..
    · exact (Function.update_of_ne hno ..).trans (h.absent i ((hother i hno).symm.trans hi))
  · rw [hentries]
    refine hless.mono fun i e he halive => ?_
    have hother : e.no ≠ no := by
      by_cases hi : i = no
      · rw [hi, Function.update_self] at he
        cases he
      · rw [Function.update_of_ne hi] at he
        exact hunnamed i e he
    rwa [Function.update_of_ne hother]
  · obtain ⟨perm, entries, hroot⟩ := h.root
    exact ⟨perm, entries, (Function.update_of_ne hzero.symm ..).trans hroot⟩
  · exact h.replaced
  · exact fun i j x y hij hx hy => h.apart i j x y hij (hold i x hx).2 (hold j y hy).2

end Device
end Paffs.Namespace
