import Paffs.Device.Lookup

/-! The names of a device: which entries its directories hold, and what keeps them apart. -/
namespace Paffs.Namespace
open DataIO (State)
open DataIO.State (Apart)
open Directory (Name Entry Holds Blank)

/-! ### Names -/

/-- What the directories are for: every object but the root has at most one name, and a directory no name twice. -/
structure Names (alive : InodeNo → Prop) (entries : InodeNo → List Entry) : Prop where
  nodup : ∀ i, ((entries i).map Entry.name).Nodup
  alive : ∀ i, ∀ e ∈ entries i, alive e.no ∧ e.no ≠ 0
  once : ∀ i j, ∀ e ∈ entries i, ∀ e' ∈ entries j, e.no = e'.no → i = j ∧ e = e'

variable {alive alive' : InodeNo → Prop} {entries : InodeNo → List Entry}

theorem Names.mono (h : Names alive entries) (hall : ∀ i, ∀ e ∈ entries i, alive e.no → alive' e.no) : Names alive' entries where
  nodup := h.nodup
  alive i e he := ⟨hall i e he (h.alive i e he).1, (h.alive i e he).2⟩
  once := h.once

/-- Fewer entries in one directory. -/
theorem Names.sublist (h : Names alive entries) {i : InodeNo} {es : List Entry} (hsub : es.Sublist (entries i)) :
    Names alive (Function.update entries i es) := by
  have hmem : ∀ j, ∀ e ∈ Function.update entries i es j, e ∈ entries j := by
    intro j e he
    by_cases hj : j = i
    · subst hj
      rw [Function.update_self] at he
      exact hsub.subset he
    · rwa [Function.update_of_ne hj] at he
  constructor
  · intro j
    by_cases hj : j = i
    · subst hj
      rw [Function.update_self]
      exact (h.nodup j).sublist (hsub.map Entry.name)
    · rw [Function.update_of_ne hj]
      exact h.nodup j
  · exact fun j e he => h.alive j e (hmem j e he)
  · exact fun j k e he e' he' => h.once j k e (hmem j e he) e' (hmem k e' he')

theorem mem_update_append {i j : InodeNo} {e x : Entry} :
    e ∈ Function.update entries i (entries i ++ [x]) j ↔ e ∈ entries j ∨ j = i ∧ e = x := by
  by_cases hj : j = i
  · subst hj
    rw [Function.update_self, List.mem_append, List.mem_singleton]
    exact or_congr_right (and_iff_right rfl).symm
  · rw [Function.update_of_ne hj]
    exact (or_iff_left fun hx => hj hx.1).symm

/-- A new object gets a name that its directory does not have. -/
theorem Names.append (h : Names alive entries) {i : InodeNo} {x : Entry} (halive : alive x.no) (hzero : x.no ≠ 0)
    (hfresh : ∀ j, ∀ e ∈ entries j, e.no ≠ x.no) (hname : ∀ e ∈ entries i, e.name ≠ x.name) :
    Names alive (Function.update entries i (entries i ++ [x])) := by
  constructor
  · intro j
    by_cases hj : j = i
    · subst hj
      rw [Function.update_self, List.map_append, List.map_singleton, ← List.concat_eq_append]
      refine (h.nodup j).concat fun hmem => ?_
      obtain ⟨e, he, heq⟩ := List.mem_map.mp hmem
      exact hname e he heq
    · rw [Function.update_of_ne hj]
      exact h.nodup j
  · intro j e he
    rcases mem_update_append.mp he with he | ⟨-, rfl⟩
    · exact h.alive j e he
    · exact ⟨halive, hzero⟩
  · intro j k e he e' he' heq
    rcases mem_update_append.mp he with hold | ⟨hj, hx⟩ <;> rcases mem_update_append.mp he' with hold' | ⟨hk, hx'⟩
    · exact h.once j k e hold e' hold' heq
    · exact absurd (hx' ▸ heq) (hfresh j e hold)
    · exact absurd (hx ▸ heq.symm) (hfresh k e' hold')
    · exact ⟨hj.trans hk.symm, hx.trans hx'.symm⟩

/-- An object whose entry was taken away has no name any more. -/
theorem Names.erase (h : Names alive entries) {i no : InodeNo} (hsome : ∃ e ∈ entries i, e.no = no) (j : InodeNo) :
    ∀ e ∈ Function.update entries i ((entries i).eraseP fun e => e.no = no) j, e.no ≠ no := by
  obtain ⟨e₀, he₀, hno₀⟩ := hsome
  obtain ⟨x, before, after, -, hx, hentries, herase⟩ :=
    List.exists_of_eraseP (p := fun e : Entry => decide (e.no = no)) he₀ (decide_eq_true hno₀)
  have hx := of_decide_eq_true hx
  have hmem : x ∈ entries i := hentries ▸ List.mem_append_right _ List.mem_cons_self
  have hnodup : (entries i).Nodup := (h.nodup i).of_map _
  rw [hentries] at hnodup
  intro e he heq
  by_cases hj : j = i
  · subst hj
    rw [Function.update_self] at he
    have hother := (h.once j j e (List.mem_of_mem_eraseP he) x hmem (heq.trans hx.symm)).2
    rw [herase, hother] at he
    exact (List.nodup_middle.mp hnodup).notMem he
  · rw [Function.update_of_ne hj] at he
    exact hj (h.once j i e he x hmem (heq.trans hx.symm)).1

/-! ### Inodes -/

namespace Device
variable {c : DataIO.Config} {env : Env} {d : Device}

theorem lookup_put (no i : InodeNo) (s : State) : (d.put no s).lookup i =
    if i = no then (d.lookup no).map fun inode => ⟨inode.type, inode.perm, s.size, s.reservedPages, s.page⟩ else d.lookup i := by
  unfold lookup put
  induction d.tree with
  | nil => split_ifs <;> rfl
  | cons x tree ih =>
    rw [List.map_cons, List.find?_cons, List.find?_cons, List.find?_cons]
    by_cases hi : i = no
    · subst hi
      rw [if_pos rfl] at ih ⊢
      by_cases hx : x.1 = i
      · simp [hx]
      · simpa [hx] using ih
    · rw [if_neg hi] at ih ⊢
      by_cases hx : x.1 = no
      · simpa [hx, Ne.symm hi] using ih
      · by_cases hxi : x.1 = i
        · simp [hxi, hi]
        · simpa [hx, hxi] using ih

theorem lookup_append (no i : InodeNo) (inode : Inode) :
    ({ d with tree := d.tree ++ [(no, inode)] } : Device).lookup i = (d.lookup i).or (if i = no then some inode else none) := by
  unfold lookup
  rw [List.find?_append]
  cases hfind : d.tree.find? fun x => decide (x.1 = i) with
  | some x => rfl
  | none =>
    by_cases hi : i = no
    · simp [hi]
    · simp [hi, Ne.symm hi]

theorem lookup_filter (no i : InodeNo) :
    ({ d with tree := d.tree.filter fun x => x.1 ≠ no } : Device).lookup i = if i = no then none else d.lookup i := by
  unfold lookup
  rw [List.find?_filter]
  split_ifs with hi
  · simp [hi]
  · refine congrArg (Option.map Prod.snd) (congrArg (d.tree.find? ·) (funext fun x => ?_))
    by_cases hx : x.1 = i
    · simp [hx, hi]
    · simp [hx]

/-! ### Named devices -/

/-- The directories of the device hold these entries, and other objects have no data. -/
structure Named (c : DataIO.Config) (env : Env) (d : Device) (entries : InodeNo → List Entry) : Prop where
  names : Names (fun no => (d.lookup no).isSome) entries
  root : ∃ inode, d.lookup 0 = some inode ∧ inode.type = .dir
  replaced : d.replaced = []
  holds : ∀ i inode, d.lookup i = some inode → Holds c env.toEnv (d.view inode) (entries i)
  file : ∀ i inode, d.lookup i = some inode → inode.type ≠ .dir → entries i = []
  absent : ∀ i, d.lookup i = none → entries i = []
  apart : ∀ i j x y, i ≠ j → d.lookup i = some x → d.lookup j = some y → ∀ p q, x.page p = y.page q → x.page p = 0

variable {entries : InodeNo → List Entry}

theorem holds_used {s : State} {es : List Entry} (h : Holds c env.toEnv s es) {p : PageNo} (hp : s.page p ≠ 0) :
    s.used (s.page p) = true := by
  obtain ⟨-, hstores⟩ := h
  split_ifs at hstores
  · exact absurd (hstores.page p) hp
  · exact hstores.sound.used p hp

theorem holds_replaced {s : State} {es : List Entry} (h : Holds c env.toEnv s es) : s.replaced = [] := by
  obtain ⟨-, hstores⟩ := h
  split_ifs at hstores
  · exact hstores.replaced
  · exact hstores.sound.replaced

/-- Nothing but the time changes. -/
theorem Named.tick (h : Named c env d entries) : Named c env d.tick entries where
  names := h.names
  root := h.root
  replaced := h.replaced
  holds i inode hi := by
    have hholds := h.holds i inode hi
    exact hholds.congr rfl rfl rfl h.replaced fun p hp => ⟨holds_used hholds hp, rfl⟩
  file := h.file
  absent := h.absent
  apart := h.apart

/-- The pages an operation takes are not those of other objects. -/
theorem Named.put_apart (h : Named c env d entries) {no j : InodeNo} {inode y : Inode} (hlookup : d.lookup no = some inode)
    {s' : State} (hapart : Apart (d.view inode) s') (hne : j ≠ no) (hj : d.lookup j = some y) (p q : PageNo)
    (heq : s'.page p = y.page q) : s'.page p = 0 := by
  by_contra hp
  rcases hapart.fresh p hp with hfree | ⟨r, hr⟩
  · have hused := holds_used (h.holds j y hj) (p := q) (show y.page q ≠ 0 from heq ▸ hp)
    rw [heq] at hfree
    exact absurd (hused.symm.trans hfree) (by decide)
  · exact hp (hr.trans (h.apart no j inode y hne.symm hlookup hj r q (hr.symm.trans heq)))

/-- An operation on the data of one object. -/
theorem Named.put (h : Named c env d entries) {no : InodeNo} {inode : Inode} (hlookup : d.lookup no = some inode) {s' : State}
    {es : List Entry} (hholds : Holds c env.toEnv s' es) (hapart : Apart (d.view inode) s') (hfile : inode.type ≠ .dir → es = [])
    (hnames : Names (fun i => (d.lookup i).isSome) (Function.update entries no es)) :
    Named c env (d.put no s') (Function.update entries no es) := by
  have hself := (lookup_put (d := d) no no s').trans (if_pos rfl)
  have hother := fun i (hi : i ≠ no) => (lookup_put (d := d) no i s').trans (if_neg hi)
  rw [hlookup] at hself
  have hcases : ∀ i x, (d.put no s').lookup i = some x →
      i = no ∧ x = ⟨inode.type, inode.perm, s'.size, s'.reservedPages, s'.page⟩ ∨ i ≠ no ∧ d.lookup i = some x := by
    intro i x hx
    by_cases hi : i = no
    · subst hi
      exact .inl ⟨rfl, (Option.some.inj (hself.symm.trans hx)).symm⟩
    · exact .inr ⟨hi, (hother i hi).symm.trans hx⟩
  constructor
  · refine hnames.mono fun i e _ halive => ?_
    by_cases hi : e.no = no
    · rw [hi, hself]
      rfl
    · rwa [hother _ hi]
  · obtain ⟨root, hroot, hdir⟩ := h.root
    by_cases hno : 0 = no
    · subst hno
      obtain rfl := Option.some.inj (hroot.symm.trans hlookup)
      exact ⟨_, hself, hdir⟩
    · exact ⟨root, (hother 0 hno).trans hroot, hdir⟩
  · exact holds_replaced hholds
  · intro i x hx
    rcases hcases i x hx with ⟨rfl, rfl⟩ | ⟨hi, hx⟩
    · rw [Function.update_self]
      exact hholds
    · rw [Function.update_of_ne hi]
      have hkept := h.holds i x hx
      have hreplaced : s'.replaced = [] := holds_replaced hholds
      refine hkept.congr rfl rfl rfl hreplaced fun p hp => ?_
      exact hapart.other _ hp (holds_used hkept hp) fun q hq => hp (h.apart i no x inode hi hx hlookup p q hq.symm)
  · intro i x hx hnotDir
    rcases hcases i x hx with ⟨rfl, rfl⟩ | ⟨hi, hx⟩
    · rw [Function.update_self]
      exact hfile hnotDir
    · rw [Function.update_of_ne hi]
      exact h.file i x hx hnotDir
  · intro i hi
    have hne : i ≠ no := by
      rintro rfl
      rw [hself] at hi
      cases hi
    rw [Function.update_of_ne hne]
    exact h.absent i ((hother i hne).symm.trans hi)
  · intro i j x y hij hx hy p q heq
    rcases hcases i x hx with ⟨rfl, rfl⟩ | ⟨hi, hold⟩ <;> rcases hcases j y hy with ⟨rfl, rfl⟩ | ⟨hj, hold'⟩
    · exact absurd rfl hij
    · exact h.put_apart hlookup hapart hj hold' p q heq
    · exact heq.trans (h.put_apart hlookup hapart hi hold q p heq.symm)
    · exact h.apart i j x y hij hold hold' p q heq

/-- A new object without data and without a name. -/
theorem Named.insert (h : Named c env d entries) {no : InodeNo} {inode : Inode} (hfresh : d.lookup no = none)
    (hsize : inode.size = 0) (hreserved : inode.reservedPages = 0) (hpage : ∀ p, inode.page p = 0) :
    Named c env ({ d with tree := d.tree ++ [(no, inode)] } : Device).tick entries := by
  refine Named.tick ?_
  have hself := (lookup_append (d := d) no no inode).trans (by rw [hfresh, if_pos rfl, Option.none_or])
  have hother := fun i (hi : i ≠ no) => (lookup_append (d := d) no i inode).trans (by rw [if_neg hi, Option.or_none])
  have hcases : ∀ i x, ({ d with tree := d.tree ++ [(no, inode)] } : Device).lookup i = some x →
      i = no ∧ x = inode ∨ d.lookup i = some x := by
    intro i x hx
    by_cases hi : i = no
    · subst hi
      exact .inl ⟨rfl, (Option.some.inj (hself.symm.trans hx)).symm⟩
    · exact .inr ((hother i hi).symm.trans hx)
  constructor
  · refine h.names.mono fun i e _ halive => ?_
    by_cases hi : e.no = no
    · rw [hi, hself]
      rfl
    · rwa [hother _ hi]
  · obtain ⟨root, hroot, hdir⟩ := h.root
    refine ⟨root, (hother 0 ?_).trans hroot, hdir⟩
    rintro rfl
    rw [hroot] at hfresh
    cases hfresh
  · exact h.replaced
  · intro i x hx
    rcases hcases i x hx with ⟨rfl, rfl⟩ | hx
    · rw [h.absent i hfresh]
      exact ⟨List.forall_mem_nil _, by rw [if_pos rfl]; exact ⟨.inl hsize, hpage, h.replaced, hreserved⟩⟩
    · exact h.holds i x hx
  · intro i x hx hnotDir
    rcases hcases i x hx with ⟨rfl, rfl⟩ | hx
    · exact h.absent i hfresh
    · exact h.file i x hx hnotDir
  · intro i hi
    refine h.absent i ?_
    by_cases hno : i = no
    · rwa [hno]
    · exact (hother i hno).symm.trans hi
  · intro i j x y hij hx hy p q heq
    rcases hcases i x hx with ⟨rfl, rfl⟩ | hx <;> rcases hcases j y hy with ⟨rfl, rfl⟩ | hy
    · exact absurd rfl hij
    · exact hpage p
    · exact heq.trans (hpage q)
    · exact h.apart i j x y hij hx hy p q heq

/-- An object without a name and without entries goes. -/
theorem Named.delete (h : Named c env d entries) {no : InodeNo} (hzero : no ≠ 0) (hunnamed : ∀ i, ∀ e ∈ entries i, e.no ≠ no)
    (hempty : entries no = []) : Named c env ({ d with tree := d.tree.filter fun x => x.1 ≠ no } : Device).tick entries := by
  refine Named.tick ?_
  have hself := (lookup_filter (d := d) no no).trans (if_pos rfl)
  have hother := fun i (hi : i ≠ no) => (lookup_filter (d := d) no i).trans (if_neg hi)
  have hold : ∀ i x, ({ d with tree := d.tree.filter fun x => x.1 ≠ no } : Device).lookup i = some x → d.lookup i = some x := by
    intro i x hx
    by_cases hi : i = no
    · subst hi
      rw [hself] at hx
      cases hx
    · exact (hother i hi).symm.trans hx
  constructor
  · refine h.names.mono fun i e he halive => ?_
    rwa [hother _ (hunnamed i e he)]
  · obtain ⟨root, hroot, hdir⟩ := h.root
    exact ⟨root, (hother 0 hzero.symm).trans hroot, hdir⟩
  · exact h.replaced
  · exact fun i x hx => h.holds i x (hold i x hx)
  · exact fun i x hx => h.file i x (hold i x hx)
  · intro i hi
    by_cases hno : i = no
    · rwa [hno]
    · exact h.absent i ((hother i hno).symm.trans hi)
  · exact fun i j x y hij hx hy => h.apart i j x y hij (hold i x hx) (hold j y hy)

end Device
end Paffs.Namespace
