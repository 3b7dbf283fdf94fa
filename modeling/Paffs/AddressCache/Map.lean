import Paffs.AddressCache.Evictions

/-! The page address cache as a map from page numbers to addresses. -/
namespace Paffs.AddressCache
open Journal

/-! ### Accesses -/

/-- A call of `getPage` or `setPage`. -/
inductive Access where
  | getPage (page : PageNo)
  | setPage (page : PageNo) (addr : Addr)

/-- The list as a commit leaves it. -/
def AddrListCacheElem.committed {n : Nat} (elem : AddrListCacheElem n) : AddrListCacheElem n :=
  if elem.dirty then { elem with dirty := false, active := elem.active && !decide elem.Empty } else elem

namespace Access
variable {n : Nat} [NeZero n] (areas : Areas n)

def page : Access → PageNo
  | getPage page => page
  | setPage page _ => page

/-- The result, and the address if one was asked for. -/
def run : Access → State n → Result × Option Addr × State n
  | getPage page, s =>
    let (r, addr, s) := s.getPage areas page
    (r, some addr, s)
  | setPage page addr, s =>
    let (r, s) := s.setPage areas page addr
    (r, none, s)

/-- `setPage` commits first if the state machine is about to run full. -/
def commits (s : State n) : Access → Bool
  | getPage _ => false
  | setPage _ _ => s.dev.getMinSpaceLeft < 6 && s.pac.isInodeDirty

/-- The lists that `loadPath` will meet. -/
def meets (a : Access) (t : Indirection) (slot : Slot) (s : State n) : Path n :=
  if a.commits s then { s.path slot t with start := fun k => (s.pac.lists t k).committed } else s.path slot t

/-- No list that is left over from another parent will be taken for the one that is looked for. -/
def Undisturbed (a : Access) (s : State n) : Prop :=
  ∀ slot, s.pac.mInodePtr = some slot → ∀ t path, State.locate n a.page = some (.inr (t, path)) →
    Path.Undisturbed path.dropLast 1 false (a.meets t slot s)

/-- What the access evicts. -/
def loads (a : Access) (origins : Origins n) (s : State n) : List (Eviction n) × Origins n :=
  match s.pac.mInodePtr, State.locate n a.page with
  | some slot, some (.inr (t, path)) =>
    let s := if a.commits s then (s.commit areas).2 else s
    let (evicted, origin) := Path.loads areas path.dropLast 1 (origins t) (s.path slot t).loadRoot
    (evicted, Function.update origins t origin)
  | _, _ => ([], origins)

/-- The answer of a map. -/
def answer (m : PageNo → Addr) : Access → Option Addr
  | getPage page => some (m page)
  | setPage _ _ => none

def change (m : PageNo → Addr) : Access → PageNo → Addr
  | getPage _ => m
  | setPage page addr => Function.update m page addr

end Access

section Runs
variable {n : Nat} [NeZero n] (areas : Areas n)

/-- A sequence of accesses that all return `ok`. -/
def AllOk : List Access → State n → Prop
  | [], _ => True
  | a :: as, s => (a.run areas s).1 = .ok ∧ AllOk as (a.run areas s).2.2

def AllUndisturbed : List Access → State n → Prop
  | [], _ => True
  | a :: as, s => a.Undisturbed s ∧ AllUndisturbed as (a.run areas s).2.2

def answers : List Access → State n → List (Option Addr)
  | [], _ => []
  | a :: as, s => (a.run areas s).2.1 :: answers as (a.run areas s).2.2

def evictions : List Access → Origins n → State n → List (Eviction n)
  | [], _, _ => []
  | a :: as, origins, s => (a.loads areas origins s).1 ++ evictions as (a.loads areas origins s).2 (a.run areas s).2.2

/-- The answers of a map. -/
def mapAnswers : List Access → (PageNo → Addr) → List (Option Addr)
  | [], _ => []
  | a :: as, m => a.answer m :: mapAnswers as (a.change m)

end Runs

/-! ### The lists on the flash -/

/-- The address behind a sequence of positions. -/
def Device.lookup {n : Nat} (d : Device n) : Addr → List (Fin n) → Addr
  | addr, [] => addr
  | addr, pos :: path => d.lookup (d.readAddrList addr pos) path

theorem Device.lookup_concat {n : Nat} (d : Device n) (addr : Addr) (path : List (Fin n)) (pos : Fin n) :
    d.lookup addr (path ++ [pos]) = d.readAddrList (d.lookup addr path) pos := by
  induction path generalizing addr with
  | nil => rfl
  | cons p path ih => exact ih _

namespace State
variable {n : Nat} [NeZero n] {areas : Areas n}

/-- The page's address if each sequence of positions stands for what `V` says. -/
def content (s : State n) (slot : Slot) (V : Indirection → List (Fin n) → Addr) (page : PageNo) : Addr :=
  match locate n page with
  | some (.inl i) => (s.ram slot).direct i
  | some (.inr (t, path)) => V t path
  | none => 0

/-- What the inode and the lists on the flash hold. -/
def stored (s : State n) (slot : Slot) : PageNo → Addr :=
  s.content slot fun t => s.dev.lookup (t.anchor (s.ram slot))

/-- The lists of an inode are pages in use, all different, and none of them is about to be given up. -/
structure WellStored (slot : Slot) (s : State n) : Prop where
  used : ∀ (t : Indirection) (path : List (Fin n)), path.length ≤ t.depth →
    s.dev.lookup (t.anchor (s.ram slot)) path ≠ 0 → s.dev.statuses (s.dev.lookup (t.anchor (s.ram slot)) path) = .used
  kept : ∀ (t : Indirection) (path : List (Fin n)), path.length ≤ t.depth →
    s.dev.lookup (t.anchor (s.ram slot)) path ∉ olds s.dev.statemachine.list
  inj : ∀ (t u : Indirection) (path path' : List (Fin n)), path.length ≤ t.depth → path'.length ≤ u.depth →
    s.dev.lookup (t.anchor (s.ram slot)) path = s.dev.lookup (u.anchor (s.ram slot)) path' →
    s.dev.lookup (t.anchor (s.ram slot)) path ≠ 0 → t = u ∧ path = path'
  olds_used : ∀ a ∈ olds s.dev.statemachine.list, s.dev.statuses a = .used

/-! ### Page numbers -/

theorem locate_direct {page : PageNo} {i : Fin directAddrCount} (h : locate n page = some (.inl i)) : page = i := by
  unfold locate at h
  split at h
  · have hi : (⟨page, ‹_›⟩ : Fin directAddrCount) = i := by simpa using h
    rw [← hi]
  · simp only at h
    split at h
    · simp at h
    · split at h
      · simp at h
      · split at h <;> simp at h

theorem locate_list {page : Nat} {t : Indirection} {path : List (Fin n)} (h : locate n page = some (.inr (t, path))) :
    t.offset n ≤ page ∧ page - t.offset n < n ^ (t.depth + 1) ∧ path = positions n t.depth (page - t.offset n) := by
  unfold locate at h
  split at h
  · simp at h
  next hdirect =>
  simp only at h
  replace hdirect : directAddrCount ≤ page := Nat.le_of_not_lt hdirect
  split at h
  · next hsingl =>
    obtain ⟨rfl, rfl⟩ : Indirection.singl = t ∧ positions n 0 (page - directAddrCount) = path := by simpa using h
    exact ⟨hdirect, by simpa [Indirection.depth, Indirection.offset] using hsingl, rfl⟩
  next hsingl =>
  replace hsingl : n ≤ page - directAddrCount := Nat.le_of_not_lt hsingl
  split at h
  · next hdoubl =>
    obtain ⟨rfl, rfl⟩ : Indirection.doubl = t ∧ positions n 1 (page - directAddrCount - n) = path := by simpa using h
    rw [Nat.sub_sub] at hdoubl
    rw [Nat.sub_sub]
    exact ⟨by simp only [Indirection.offset]; omega, hdoubl, rfl⟩
  next hdoubl =>
  replace hdoubl : n ^ 2 ≤ page - directAddrCount - n := Nat.le_of_not_lt hdoubl
  split at h
  · next htripl =>
    obtain ⟨rfl, rfl⟩ : Indirection.tripl = t ∧ positions n 2 (page - directAddrCount - n - n ^ 2) = path := by simpa using h
    rw [Nat.sub_sub, Nat.sub_sub, ← Nat.add_assoc] at htripl
    rw [Nat.sub_sub, Nat.sub_sub, ← Nat.add_assoc]
    exact ⟨by simp only [Indirection.offset]; omega, htripl, rfl⟩
  · cases h

/-- Different pages belong to different places. -/
theorem locate_inj {page page' : Nat} (h : locate n page = locate n page') (hsome : locate n page ≠ none) : page = page' := by
  obtain ⟨place, hplace⟩ := Option.ne_none_iff_exists'.1 hsome
  have hplace' := h.symm.trans hplace
  rcases place with i | ⟨t, path⟩
  · rw [locate_direct hplace, locate_direct hplace']
  · obtain ⟨hge, hlt, hpath⟩ := locate_list hplace
    obtain ⟨hge', hlt', hpath'⟩ := locate_list hplace'
    have hsame := positions_inj hlt hlt' (hpath.symm.trans hpath')
    omega

theorem locate_path {page : PageNo} {t : Indirection} {path : List (Fin n)} (h : locate n page = some (.inr (t, path))) :
    path.dropLast.length = t.depth ∧ path.dropLast ++ [path.getLastD 0] = path := by
  obtain ⟨-, -, hpath⟩ := locate_list h
  have hlen : path.length = t.depth + 1 := by rw [hpath, positions_length]
  refine ⟨by rw [List.length_dropLast, hlen, Nat.add_sub_cancel], ?_⟩
  have hne : path ≠ [] := by
    rintro rfl
    cases hlen
  rw [List.getLastD_eq_getLast?, List.getLast?_eq_some_getLast hne, Option.getD_some, List.dropLast_append_getLast]

/-! ### One access -/

variable {hollow frame : Set Addr} {V V' : Indirection → List (Fin n) → Addr} {slot : Slot} {s s' : State n} {origins : Origins n}

theorem Follows.content (h : Follows frame slot V V' s s') : s'.content slot V' = s.content slot V := by
  funext page
  unfold State.content
  split
  · rw [h.direct]
  · next t path hplace =>
    refine h.leaves t path ?_
    rw [(locate_list hplace).2.2, positions_length]
    exact Nat.lt_succ_self _
  · rfl

theorem content_setLeaf {page : PageNo} {t : Indirection} {path : List (Fin n)} (hplace : locate n page = some (.inr (t, path)))
    (addr : Addr) :
    s.content slot (Function.update V t (Function.update (V t) path addr)) = Function.update (s.content slot V) page addr := by
  funext page'
  by_cases hpage : page' = page
  · rw [hpage, Function.update_self, content, hplace]
    simp
  · rw [Function.update_of_ne hpage]
    unfold content
    split
    · rfl
    · next u path' hplace' =>
      by_cases hu : u = t
      · subst hu
        rw [Function.update_self, Function.update_of_ne]
        rintro rfl
        exact hpage (locate_inj (hplace'.trans hplace.symm) (by simp [hplace']))
      · rw [Function.update_of_ne hu]
    · rfl

theorem content_setDirect {page : PageNo} {i : Fin directAddrCount} (hplace : locate n page = some (.inl i)) {addr : Addr}
    (hdirect : (s'.ram slot).direct = Function.update (s.ram slot).direct i addr) :
    s'.content slot V = Function.update (s.content slot V) page addr := by
  funext page'
  by_cases hpage : page' = page
  · rw [hpage, Function.update_self, content, hplace]
    simp [hdirect]
  · rw [Function.update_of_ne hpage]
    unfold content
    split
    · next j hplace' =>
      rw [hdirect, Function.update_of_ne]
      rintro rfl
      exact hpage (locate_inj (hplace'.trans hplace.symm) (by simp [hplace']))
    · rfl
    · rfl

/-! ### The commit before an access -/

end State

@[simp] theorem AddrListCacheElem.committed_position {n : Nat} (elem : AddrListCacheElem n) :
    elem.committed.positionInParent = elem.positionInParent := by
  unfold committed
  split <;> rfl

theorem AddrListCacheElem.committed_inactive {n : Nat} {elem : AddrListCacheElem n} (h : elem.committed.active = false) :
    elem.active = false ∨ elem.dirty ∧ elem.Empty := by
  unfold committed at h
  split at h
  · next hdirty =>
    cases hact : elem.active with
    | false => exact .inl rfl
    | true => exact .inr ⟨hdirty, by simpa [hact] using h⟩
  · exact .inl h

theorem Path.Undisturbed.committed {n : Nat} {areas : Areas n} {path : List (Fin n)} {depth : Nat} {w w' : Path n}
    (hun : Undisturbed path 1 false { w with start := fun k => (w.start k).committed }) (hlen : path.length = depth)
    (hdepth : depth ≤ 2) (hok : (w.commitPath areas depth).1 = .ok) (hstart : w'.start = (w.commitPath areas depth).2.start)
    (hclean : ∀ k ≤ depth, (w'.start k).dirty = false) : Undisturbed path 1 false w' := by
  have hleaves := commitPath_leaves hok
  rw [← hstart] at hleaves
  rcases path with - | ⟨p, - | ⟨q, path⟩⟩
  · trivial
  · exact ⟨fun h => (Bool.false_ne_true h).elim, trivial⟩
  · obtain rfl : path = [] := by
      rw [← List.length_eq_zero_iff]
      simp at hlen
      omega
    obtain rfl : 2 = depth := hlen
    refine ⟨fun h => (Bool.false_ne_true h).elim, fun hm => ?_, trivial⟩
    rw [(hleaves 1).1] at hm
    rcases hun.2.1 (by simpa using hm) with hoff | hpos
    · refine .inl ?_
      rcases AddrListCacheElem.committed_inactive hoff with hoff | ⟨hdirty, hempty⟩
      · by_contra hon
        rw [(hleaves 2).2 (by simpa using hon)] at hoff
        cases hoff
      · rw [hstart]
        exact commitPath_drops hok hdirty hempty
    · refine .inr ⟨hclean 2 (Nat.le_refl _), ?_⟩
      rw [(hleaves 2).1]
      simpa using hpos.2

namespace State
variable {n : Nat} [NeZero n] {areas : Areas n} {hollow frame : Set Addr} {V : Indirection → List (Fin n) → Addr} {slot : Slot}
  {s s' : State n} {origins : Origins n}

omit [NeZero n] in
/-- Where an access that commits first starts to load. -/
theorem commit_first (h : Holds hollow frame V slot s) (hptr : s.pac.mInodePtr = some slot) (page : PageNo) (addr : Addr)
    (heq : (if s.dev.getMinSpaceLeft < 6 then s.commit areas else (.ok, s)) = (.ok, s')) :
    s' = (if (Access.setPage page addr).commits s then (s.commit areas).2 else s) ∧
      (∃ V', Holds hollow frame V' slot s' ∧ Follows frame slot V V' s s') ∧ (Tracks origins s → Tracks origins s') ∧
      ∀ (t : Indirection) (path : List (Fin n)), path.length = t.depth →
        Path.Undisturbed path 1 false ((Access.setPage page addr).meets t slot s) →
        Path.Undisturbed path 1 false (s'.path slot t) := by
  by_cases hspace : s.dev.getMinSpaceLeft < 6
  swap
  · rw [if_neg hspace] at heq
    obtain rfl : s = s' := congrArg Prod.snd heq
    have hno : (Access.setPage page addr).commits s = false := by simp [Access.commits, hspace]
    refine ⟨by simp [hno], ⟨V, h, .refl ..⟩, id, fun t path _ hun => ?_⟩
    simpa [Access.meets, hno] using hun
  rw [if_pos hspace] at heq
  have hok : (s.commit areas).1 = .ok := by rw [heq]
  obtain rfl : (s.commit areas).2 = s' := by rw [heq]
  obtain ⟨V', hholds, hfollows, ⟨hclean, hsame⟩ | ⟨hdirty, hclean, -⟩⟩ := commit_spec h hptr hok
  · have hno : (Access.setPage page addr).commits s = false := by simp [Access.commits, hclean]
    rw [hsame]
    refine ⟨by simp [hno], ⟨V, h, .refl ..⟩, id, fun t path _ hun => ?_⟩
    simpa [Access.meets, hno] using hun
  · have hyes : (Access.setPage page addr).commits s = true := by simp [Access.commits, hspace, hdirty]
    refine ⟨by simp [hyes], ⟨V', hholds, hfollows⟩, fun htracks => htracks.of_leaves fun t k => ?_, fun t path hlen hun => ?_⟩
    · obtain ⟨w, hw, hokw, hlists⟩ := commit_path hptr hdirty hok t
      rw [hlists, ← hw]
      exact Path.commitPath_leaves hokw k
    · obtain ⟨w, hw, hokw, hlists⟩ := commit_path hptr hdirty hok t
      rw [Access.meets, if_pos hyes] at hun
      have hun' : Path.Undisturbed path 1 false { w with start := fun k => (w.start k).committed } :=
        hun.congr fun k _ => by rw [hw]
      exact hun'.committed hlen t.depth_le_two hokw hlists fun k hk => isDirty_eq_false.1 hclean t k hk

/-! ### One access -/

/-- What an access does to a cache that stands for a map. -/
structure Served (areas : Areas n) (hollow frame : Set Addr) (V : Indirection → List (Fin n) → Addr) (slot : Slot) (origins : Origins n)
    (a : Access) (s : State n) : Prop where
  holds : ∃ V', Holds hollow frame V' slot (a.run areas s).2.2 ∧
    (a.run areas s).2.2.content slot V' = a.change (s.content slot V)
  answers : (a.run areas s).2.1 = a.answer (s.content slot V)
  spares : Spares frame slot s (a.run areas s).2.2
  evictions : ∀ e ∈ (a.loads areas origins s).1, e.loadedFrom = e.writtenTo
  tracks : Tracks (a.loads areas origins s).2 (a.run areas s).2.2

theorem getPage_steps (hptr : s.pac.mInodePtr = some slot) {page : PageNo} {t : Indirection} {path : List (Fin n)}
    (hplace : locate n page = some (.inr (t, path))) (hok : ((Access.getPage page).run areas s).1 = .ok) :
    ∃ s₁, s.onPath slot t (Path.loadPath areas path.dropLast) = (.ok, s₁) ∧
      (Access.getPage page).run areas s = (.ok, some ((s₁.pac.lists t t.depth).cache (path.getLastD 0)), s₁) := by
  rw [Access.run, getPage, hptr] at hok ⊢
  simp only [hplace] at hok ⊢
  cases hload : s.onPath slot t (Path.loadPath areas path.dropLast) with
  | mk r s₁ =>
    rw [hload] at hok
    by_cases hr : r = .ok
    · subst hr
      exact ⟨s₁, rfl, by simp⟩
    · simp [hr] at hok

theorem setPage_steps (hptr : s.pac.mInodePtr = some slot) {page : PageNo} {addr : Addr} {t : Indirection} {path : List (Fin n)}
    (hplace : locate n page = some (.inr (t, path))) (hok : ((Access.setPage page addr).run areas s).1 = .ok) :
    ∃ s₁ s₂, (if s.dev.getMinSpaceLeft < 6 then s.commit areas else (.ok, s)) = (.ok, s₁) ∧
      s₁.onPath slot t (Path.loadPath areas path.dropLast) = (.ok, s₂) ∧
      (Access.setPage page addr).run areas s =
        (.ok, none, if (s₂.pac.lists t t.depth).cache (path.getLastD 0) = addr then s₂ else s₂.change slot page addr fun s =>
          s.setPath slot t ((s.path slot t).setElem t.depth ((s.pac.lists t t.depth).setAddr (path.getLastD 0) addr))) := by
  rw [Access.run, setPage, hptr] at hok ⊢
  have hro : s.dev.readOnly = false := by
    by_contra h
    rw [Bool.not_eq_false] at h
    simp [h] at hok
  simp only [hplace, hro, Bool.false_eq_true, if_false] at hok ⊢
  obtain ⟨s₁, h₁, hok⟩ := ok_of_andThen hok
  obtain ⟨s₂, h₂, -⟩ := ok_of_andThen hok
  refine ⟨s₁, s₂, h₁, h₂, ?_⟩
  rw [h₁, andThen_ok, h₂, andThen_ok]
  split <;> rfl

theorem getPage_served (h : Holds hollow frame V slot s) (hptr : s.pac.mInodePtr = some slot) (htracks : Tracks origins s)
    {page : PageNo} (hun : (Access.getPage page).Undisturbed s) (hok : ((Access.getPage page).run areas s).1 = .ok) :
    Served areas hollow frame V slot origins (.getPage page) s := by
  cases hplace : locate n page with
  | none =>
    rw [Access.run, getPage, hptr] at hok
    simp [hplace] at hok
  | some place =>
  rcases place with i | ⟨t, path⟩
  · have hrun : (Access.getPage page).run areas s = (.ok, some ((s.ram slot).direct i), s) := by
      simp [Access.run, getPage, hptr, hplace]
    have hloads : (Access.getPage page).loads areas origins s = ([], origins) := by
      simp [Access.loads, Access.page, hptr, hplace]
    constructor
    · rw [hrun]
      exact ⟨V, h, rfl⟩
    · rw [hrun, Access.answer, content, hplace]
    · rw [hrun]
      exact .refl ..
    · simp [hloads]
    · rw [hrun, hloads]
      exact htracks
  · obtain ⟨s₁, hload, hrun⟩ := getPage_steps hptr hplace hok
    obtain ⟨hlen, hpath⟩ := locate_path hplace
    have hclear : Path.Undisturbed path.dropLast 1 false (s.path slot t) := hun slot hptr t path hplace
    obtain ⟨V₁, hholds, hfollows, -, -, hcache⟩ := onPath_loadPath h hlen hclear hload
    obtain ⟨hevictions, htracks₁⟩ := onPath_loads htracks hlen hclear hload
    have hloads : (Access.getPage page).loads areas origins s =
        ((Path.loads areas path.dropLast 1 (origins t) (s.path slot t).loadRoot).1,
          Function.update origins t (Path.loads areas path.dropLast 1 (origins t) (s.path slot t).loadRoot).2) := by
      simp [Access.loads, Access.page, Access.commits, hptr, hplace]
    constructor
    · rw [hrun]
      exact ⟨V₁, hholds, hfollows.content⟩
    · rw [hrun, Access.answer, content, hplace, hcache, hpath]
      simp only
      rw [hfollows.leaves t path]
      rw [(locate_list hplace).2.2, positions_length]
      exact Nat.lt_succ_self _
    · rw [hrun]
      exact hfollows.toSpares
    · rw [hloads]
      exact hevictions
    · rw [hrun, hloads]
      exact htracks₁

omit [NeZero n] in
/-- The change that `setPage` makes to a list it has loaded. -/
theorem change_list (h : Holds hollow frame V slot s) (page : PageNo) {addr : Addr} {t : Indirection} {path : List (Fin n)}
    {pos : Fin n} (hactive : ∀ k ≤ t.depth, (s.pac.lists t k).active) (hpos : position (s.pac.lists t) t.depth = path)
    (hne : (s.pac.lists t t.depth).cache pos ≠ addr)
    (heq : s' = s.change slot page addr fun s =>
      s.setPath slot t ((s.path slot t).setElem t.depth ((s.pac.lists t t.depth).setAddr pos addr))) :
    Holds hollow frame (Function.update V t (Function.update (V t) (path ++ [pos]) addr)) slot s' ∧ Spares frame slot s s' ∧
      (s'.ram slot).direct = (s.ram slot).direct ∧
      ∀ u k, (s'.pac.lists u k).positionInParent = (s.pac.lists u k).positionInParent ∧
        ((s'.pac.lists u k).active → (s.pac.lists u k).active) := by
  subst heq
  have hlogged : Holds hollow frame V slot { s with dev := s.dev.addEvent (.entry (.setAddress (s.ram slot).no page addr)) } :=
    h.congr rfl (fun _ => rfl) rfl rfl rfl
  have hset := hlogged.setLeaf hactive hpos hne
  refine ⟨hset.congr rfl (fun _ => rfl) rfl rfl rfl, ⟨fun _ _ => rfl, fun _ _ => rfl, fun slot' hs => ?_, ?_, rfl, rfl⟩, ?_,
    fun u k => ?_⟩
  · exact Function.update_of_ne hs ..
  · simp [change, setPath]
  · simp [change, setPath]
  · simp only [change, setPath]
    by_cases hu : u = t
    · subst hu
      rw [Function.update_self, Path.setElem_start]
      split
      · next hk =>
        rw [hk, AddrListCacheElem.setAddr, if_neg hne]
        exact ⟨rfl, id⟩
      · exact ⟨rfl, id⟩
    · rw [Function.update_of_ne hu]
      exact ⟨rfl, id⟩

theorem setPage_served (h : Holds hollow frame V slot s) (hptr : s.pac.mInodePtr = some slot) (htracks : Tracks origins s)
    {page : PageNo} {addr : Addr} (hun : (Access.setPage page addr).Undisturbed s)
    (hok : ((Access.setPage page addr).run areas s).1 = .ok) :
    Served areas hollow frame V slot origins (.setPage page addr) s := by
  have hro : s.dev.readOnly = false := by
    by_contra hro
    rw [Bool.not_eq_false] at hro
    simp [Access.run, setPage, hptr, hro] at hok
  cases hplace : locate n page with
  | none =>
    rw [Access.run, setPage, hptr] at hok
    simp only [hplace, hro, Bool.false_eq_true, if_false] at hok
    obtain ⟨s₁, -, hok⟩ := ok_of_andThen hok
    cases hok
  | some place =>
  rcases place with i | ⟨t, path⟩
  · have hloads : (Access.setPage page addr).loads areas origins s = ([], origins) := by
      simp [Access.loads, Access.page, hptr, hplace]
    by_cases hsame : (s.ram slot).direct i = addr
    · have hrun : (Access.setPage page addr).run areas s = (.ok, none, s) := by
        simp [Access.run, setPage, hptr, hro, hplace, hsame]
      constructor
      · rw [hrun]
        refine ⟨V, h, ?_⟩
        have hcontent : s.content slot V page = addr := by rw [content, hplace]; exact hsame
        rw [Access.change, ← hcontent, Function.update_eq_self]
      · rw [hrun]
        rfl
      · rw [hrun]
        exact .refl ..
      · simp [hloads]
      · rw [hrun, hloads]
        exact htracks
    · have hrun : (Access.setPage page addr).run areas s = (.ok, none, s.change slot page addr fun s =>
          { s with ram := Function.update s.ram slot { s.ram slot with direct := Function.update (s.ram slot).direct i addr } }) := by
        simp [Access.run, setPage, hptr, hro, hplace, hsame]
      constructor
      · rw [hrun]
        refine ⟨V, h.congr rfl (fun t => ?_) rfl rfl rfl, content_setDirect hplace ?_⟩
        · cases t <;> simp [change, Indirection.anchor]
        · simp [change]
      · rw [hrun]
        rfl
      · rw [hrun]
        refine ⟨fun _ _ => rfl, fun _ _ => rfl, fun slot' hs => ?_, ?_, rfl, rfl⟩
        · exact Function.update_of_ne hs ..
        · simp [change]
      · simp [hloads]
      · rw [hrun, hloads]
        exact htracks.of_leaves fun _ _ => ⟨rfl, id⟩
  · obtain ⟨s₁, s₂, hfirst, hload, hrun⟩ := setPage_steps hptr hplace hok
    obtain ⟨hs₁, ⟨V₁, hholds₁, hfollows₁⟩, htracks₁, hclear⟩ :=
      commit_first h hptr page addr hfirst
    obtain ⟨hlen, hpath⟩ := locate_path hplace
    have hclear₁ := hclear t path.dropLast hlen (hun slot hptr t path hplace)
    obtain ⟨V₂, hholds₂, hfollows₂, hactive, hpos, hcache⟩ := onPath_loadPath hholds₁ hlen hclear₁ hload
    obtain ⟨hevictions, htracks₂⟩ := onPath_loads (htracks₁ htracks) hlen hclear₁ hload
    have hfollows := hfollows₁.trans hfollows₂
    have hloads : (Access.setPage page addr).loads areas origins s =
        ((Path.loads areas path.dropLast 1 (origins t) (s₁.path slot t).loadRoot).1,
          Function.update origins t (Path.loads areas path.dropLast 1 (origins t) (s₁.path slot t).loadRoot).2) := by
      rw [hs₁]
      simp [Access.loads, Access.page, hptr, hplace]
    have hleaf : s₂.content slot V₂ page = (s₂.pac.lists t t.depth).cache (path.getLastD 0) := by
      rw [hcache, hpath, content, hplace]
    by_cases hsame : (s₂.pac.lists t t.depth).cache (path.getLastD 0) = addr
    · rw [if_pos hsame] at hrun
      constructor
      · rw [hrun]
        refine ⟨V₂, hholds₂, ?_⟩
        rw [Access.change, ← hfollows.content, ← hsame, ← hleaf, Function.update_eq_self]
      · rw [hrun]
        rfl
      · rw [hrun]
        exact hfollows.toSpares
      · rw [hloads]
        exact hevictions
      · rw [hrun, hloads]
        exact htracks₂
    · rw [if_neg hsame] at hrun
      obtain ⟨hholds₃, hspares, hdirect, hleaves⟩ := change_list hholds₂ page hactive hpos hsame rfl
      rw [hpath] at hholds₃
      constructor
      · rw [hrun]
        refine ⟨_, hholds₃, ?_⟩
        rw [Access.change, ← hfollows.content, ← content_setLeaf hplace]
        funext page'
        simp only [content, hdirect]
      · rw [hrun]
        rfl
      · rw [hrun]
        exact hfollows.toSpares.trans hspares
      · rw [hloads]
        exact hevictions
      · rw [hrun, hloads]
        exact htracks₂.of_leaves hleaves

theorem access_served (h : Holds hollow frame V slot s) (hptr : s.pac.mInodePtr = some slot) (htracks : Tracks origins s)
    {a : Access} (hun : a.Undisturbed s) (hok : (a.run areas s).1 = .ok) :
    Served areas hollow frame V slot origins a s := by
  cases a with
  | getPage page => exact getPage_served h hptr htracks hun hok
  | setPage page addr => exact setPage_served h hptr htracks hun hok

/-! ### Runs -/

theorem run_served {as : List Access} (h : Holds hollow frame V slot s) (hptr : s.pac.mInodePtr = some slot)
    (htracks : Tracks origins s) (hun : AllUndisturbed areas as s) (hok : AllOk areas as s) :
    answers areas as s = mapAnswers as (s.content slot V) ∧
      ∀ e ∈ evictions areas as origins s, e.loadedFrom = e.writtenTo := by
  induction as generalizing s V origins with
  | nil => exact ⟨rfl, by simp [evictions]⟩
  | cons a as ih =>
    have hserved := access_served h hptr htracks hun.1 hok.1
    obtain ⟨V', hholds, hcontent⟩ := hserved.holds
    obtain ⟨hanswers, hevictions⟩ := ih hholds (hserved.spares.ptr.trans hptr) hserved.tracks hun.2 hok.2
    refine ⟨?_, fun e he => ?_⟩
    · rw [answers, mapAnswers, hanswers, hcontent, hserved.answers]
    · rw [evictions] at he
      rcases List.mem_append.1 he with he | he
      · exact hserved.evictions e he
      · exact hevictions e he

omit [NeZero n] in
/-- A cache without lists stands for what is stored. -/
theorem holds_stored (hlists : ∀ t k, (s.pac.lists t k).active = false) (hclean : s.isDirty = false)
    (h : s.WellStored slot) : Holds Set.univ ∅ (fun t => s.dev.lookup (t.anchor (s.ram slot))) slot s where
  rep t := by
    have hdirty : ∀ k ≤ t.depth, (s.pac.lists t k).dirty = false := isDirty_eq_false.1 hclean t
    constructor
    · rfl
    · intro k _ _ hka
      rw [path, hlists] at hka
      cases hka
    · intro ps _ _ p
      exact Device.lookup_concat ..
    · intro ps _ _ _ hhollow
      exact (hhollow trivial).elim
    · intro k hk hkd
      rw [path, hdirty k hk] at hkd
      cases hkd
    · intro k hk hkd
      rw [path, hdirty k hk] at hkd
      cases hkd
    · intro k _ hka
      rw [path, hlists] at hka
      cases hka
    · intro k hk hkd
      rw [path, hdirty (k + 1) hk] at hkd
      cases hkd
  used := h.used
  kept := h.kept
  apart _ _ _ _ := Set.notMem_empty _
  inj := h.inj
  frame_used a ha := (Set.notMem_empty a ha).elim
  frame_kept a ha := (Set.notMem_empty a ha).elim
  olds_used := h.olds_used

omit [NeZero n] in
theorem setTargetInode_other (hsound : s.isDirty → s.pac.isInodeDirty) (hother : s.pac.mInodePtr ≠ some slot)
    (hset : s.setTargetInode areas slot = (.ok, s')) :
    s'.pac.mInodePtr = some slot ∧ (∀ t k, (s'.pac.lists t k).active = false) ∧ s'.isDirty = false := by
  rw [setTargetInode, if_neg hother] at hset
  have hok : (andThen (if s.isDirty then s.commit areas else (.ok, s)) fun s =>
      (Result.ok, { s with pac := { s.pac with
        lists := fun t i => { s.pac.lists t i with active := false }, mInodePtr := some slot } })).1 = .ok := by rw [hset]
  obtain ⟨s₁, h₁, -⟩ := ok_of_andThen hok
  have hclean : s₁.isDirty = false := by
    by_cases hdirty : s.isDirty
    · rw [if_pos hdirty] at h₁
      cases hptr : s.pac.mInodePtr with
      | none =>
        rw [commit, hptr] at h₁
        cases h₁
      | some slot₀ =>
        obtain ⟨-, -, s₃, -, -, -, hclean, -, heq⟩ := commit_steps hptr (hsound hdirty) (show (s.commit areas).1 = .ok by rw [h₁])
        rw [h₁] at heq
        rw [show s₁ = _ from heq]
        exact hclean
    · rw [if_neg hdirty] at h₁
      obtain rfl : s = s₁ := congrArg Prod.snd h₁
      simpa using hdirty
  rw [h₁, andThen_ok] at hset
  obtain rfl := (Prod.mk.inj hset).2
  exact ⟨rfl, fun _ _ => rfl, hclean⟩

/-- The first page that is not in use. -/
def firstFree : Areas 128 where
  findWritablePage d := (List.range 50).find? fun a => a ≠ 0 && d.statuses a ≠ .used
  unused h := by simpa using List.find?_some h

/-- A new file, and a cache that has not been used. -/
def unused : State 128 where
  dev := ⟨false, fun _ => .free, fun _ _ => 0, fun no => if no = 1 then some (.empty 1) else none, .clear, []⟩
  ram _ := .empty 1
  pac := ⟨fun _ _ => .fresh 128, none, false⟩

theorem undisturbed_of_place {a : Access} {t : Indirection} {path : List (Fin n)} (hptr : s.pac.mInodePtr = some slot)
    (hplace : locate n a.page = some (.inr (t, path))) (h : Path.Undisturbed path.dropLast 1 false (a.meets t slot s)) :
    a.Undisturbed s := by
  intro slot' hptr' t' path' hplace'
  obtain rfl : slot = slot' := Option.some.inj (hptr.symm.trans hptr')
  obtain ⟨rfl, rfl⟩ : t = t' ∧ path = path' := by simpa using hplace.symm.trans hplace'
  exact h

/-- Two pages of the triple indirection, whose last lists have the same position under different lists. -/
def twoPages : List Access := [.setPage (11 + 128 + 128 ^ 2) 900, .getPage (11 + 128 + 128 ^ 2 + 128 ^ 2)]

theorem unused_wellStored : (unused.setTargetInode firstFree 0).2.WellStored 0 := by
  have hzero : ∀ (t : Indirection) (path : List (Fin 128)),
      (unused.setTargetInode firstFree 0).2.dev.lookup (t.anchor ((unused.setTargetInode firstFree 0).2.ram 0)) path = 0 := by
    intro t path
    have hanchor : t.anchor ((unused.setTargetInode firstFree 0).2.ram 0) = 0 := by cases t <;> rfl
    rw [hanchor]
    induction path with
    | nil => rfl
    | cons pos path ih => exact ih
  refine ⟨fun t path _ h0 => (h0 (hzero t path)).elim, fun t path _ => ?_, fun t u path path' _ _ _ h0 => (h0 (hzero t path)).elim,
    fun a ha => ?_⟩
  · rw [hzero]
    exact Device.zero_not_mem_olds _
  · simp [unused, setTargetInode, andThen, isDirty, AddrListCacheElem.fresh, olds, PageStateMachine.clear, pages] at ha

end State
end Paffs.AddressCache
