import Paffs.Inodes.Pool

/-! The stored reference counts against the pointers there are. -/
namespace Paffs.Inodes
variable {size : Nat}

namespace InodePool
variable {pool : InodePool} {owned : Nat → Nat} {loose : Option Nat} {slot : Nat} {no : InodeNo} {n : UInt8}

/-- Of each slot `owned` references are counted; the slot `loose` was taken, but is not in the map yet. -/
structure Sound (size : Nat) (pool : InodePool) (owned : Nat → Nat) (loose : Option Nat) : Prop where
  counted : ∀ slot, 0 < owned slot →
    slot < size ∧ ∃ n, pool.map (pool.objects slot).no = some (slot, n) ∧ n.toNat = owned slot
  mapped : ∀ no slot n, pool.map no = some (slot, n) → 0 < owned slot ∧ (pool.objects slot).no = no
  active : ∀ slot, pool.activeObjects slot = true ↔ 0 < owned slot ∨ loose = some slot
  fresh : ∀ slot, loose = some slot → owned slot = 0

theorem Sound.empty : InodePool.empty.Sound size (fun _ => 0) none :=
  ⟨fun _ h => absurd h (Nat.lt_irrefl 0), nofun, fun _ => by simp [InodePool.empty], nofun⟩

/-- Two slots in use hold different numbers. -/
theorem Sound.no_ne (h : pool.Sound size owned loose) {a b : Nat} (ha : 0 < owned a) (hb : 0 < owned b) (hab : a ≠ b) :
    (pool.objects a).no ≠ (pool.objects b).no := by
  intro heq
  obtain ⟨-, n, hn, -⟩ := h.counted a ha
  obtain ⟨-, m, hm, -⟩ := h.counted b hb
  rw [heq, hm] at hn
  cases hn
  exact hab rfl

theorem Sound.raise (h : pool.Sound size owned loose) (hmap : pool.map no = some (slot, n)) (hlt : owned slot < 255) :
    { pool with map := Function.update pool.map no (some (slot, n + 1)) : InodePool }.Sound size
      (Function.update owned slot (owned slot + 1)) loose := by
  obtain ⟨hpos, hno⟩ := h.mapped no slot n hmap
  have hn : n.toNat = owned slot := by
    obtain ⟨-, m, hm, hcount⟩ := h.counted slot hpos
    rw [hno, hmap] at hm
    cases hm
    exact hcount
  refine ⟨fun x hx => ?_, fun no' x m hm => ?_, fun x => ?_, fun x hx => ?_⟩
  · by_cases hxs : x = slot
    · subst hxs
      refine ⟨(h.counted x hpos).1, n + 1, ?_, ?_⟩
      · rw [hno]
        exact Function.update_self ..
      · rw [UInt8.toNat_add, Function.update_self, hn]
        exact Nat.mod_eq_of_lt (by simpa using Nat.succ_lt_succ hlt)
    · rw [Function.update_of_ne hxs] at hx ⊢
      obtain ⟨hsize, m, hm, hcount⟩ := h.counted x hx
      refine ⟨hsize, m, ?_, hcount⟩
      have hne : (pool.objects x).no ≠ no := hno ▸ h.no_ne hx hpos hxs
      exact (Function.update_of_ne hne ..).trans hm
  · by_cases hnn : no' = no
    · subst hnn
      dsimp only at hm
      rw [Function.update_self] at hm
      cases hm
      exact ⟨by rw [Function.update_self]; omega, hno⟩
    · obtain ⟨hx, hobj⟩ := h.mapped no' x m ((Function.update_of_ne hnn ..).symm.trans hm)
      refine ⟨?_, hobj⟩
      by_cases hxs : x = slot
      · rw [hxs, Function.update_self]
        omega
      · rwa [Function.update_of_ne hxs]
  · rw [h.active x]
    by_cases hxs : x = slot
    · subst hxs
      rw [Function.update_self]
      simp [hpos]
    · rw [Function.update_of_ne hxs]
  · have hxs : x ≠ slot := by
      rintro rfl
      have := h.fresh x hx
      omega
    rw [Function.update_of_ne hxs]
    exact h.fresh x hx

/-- What `removeInodeReference` leaves when one reference of `slot` is given up. -/
structure Released (pool pool' : InodePool) (owned : Nat → Nat) (slot : Nat) : Prop where
  objects : ∀ x, x ≠ slot ∨ 1 < owned slot → pool'.objects x = pool.objects x
  absent : ∀ no, pool.map no = none → pool'.map no = none

theorem Sound.release (h : pool.Sound size owned loose) (hslot : 0 < owned slot) :
    (pool.removeInodeReference size (pool.objects slot).no).2.Sound size (Function.update owned slot (owned slot - 1)) loose ∧
      pool.Released (pool.removeInodeReference size (pool.objects slot).no).2 owned slot := by
  obtain ⟨hsize, n, hmap, hcount⟩ := h.counted slot hslot
  have hn0 : n ≠ 0 := by
    rintro rfl
    exact absurd hcount.symm hslot.ne'
  have hne : ∀ x, 0 < owned x → x ≠ slot → (pool.objects x).no ≠ (pool.objects slot).no := fun x hx => h.no_ne hx hslot
  have hloose : ∀ x, loose = some x → x ≠ slot := by
    rintro x hx rfl
    exact absurd (h.fresh x hx) hslot.ne'
  have hle : (1 : UInt8) ≤ n := by
    rw [UInt8.le_iff_toNat_le, hcount]
    exact hslot
  have hsub : (n - 1).toNat = owned slot - 1 := by
    rw [UInt8.toNat_sub_of_le _ _ hle, hcount]
    rfl
  rw [removeInodeReference, hmap]
  dsimp only
  rw [if_neg hn0]
  by_cases hlast : n - 1 = 0
  · -- the last reference: the slot is freed
    have hone : owned slot = 1 := by
      rw [hlast] at hsub
      have : (0 : UInt8).toNat = 0 := rfl
      omega
    have hactive : pool.activeObjects slot = true := (h.active slot).mpr (.inl hslot)
    rw [if_pos hlast, freeObject, if_neg (Nat.not_le.mpr hsize), if_neg (by rw [hactive]; decide)]
    refine ⟨⟨fun x hx => ?_, fun no x m hm => ?_, fun x => ?_, fun x hx => ?_⟩, ⟨fun x hx => ?_, fun no hno => ?_⟩⟩
    · have hxs : x ≠ slot := by
        rintro rfl
        rw [Function.update_self, hone] at hx
        exact absurd hx (Nat.lt_irrefl 0)
      rw [Function.update_of_ne hxs] at hx ⊢
      obtain ⟨hsize, m, hm, hc⟩ := h.counted x hx
      refine ⟨hsize, m, ?_, hc⟩
      dsimp only
      rw [Function.update_of_ne hxs]
      exact (Function.update_of_ne (hne x hx hxs) ..).trans hm
    · have hno : no ≠ (pool.objects slot).no := by
        rintro rfl
        dsimp only at hm
        rw [Function.update_self] at hm
        cases hm
      have hm' : pool.map no = some (x, m) := (Function.update_of_ne hno ..).symm.trans hm
      obtain ⟨hx, hobj⟩ := h.mapped no x m hm'
      have hxs : x ≠ slot := by
        rintro rfl
        exact hno hobj.symm
      dsimp only
      rw [Function.update_of_ne hxs, Function.update_of_ne hxs]
      exact ⟨hx, hobj⟩
    · dsimp only
      by_cases hxs : x = slot
      · subst hxs
        rw [Function.update_self, Function.update_self, hone]
        simp only [Bool.false_eq_true, false_iff, not_or]
        exact ⟨Nat.lt_irrefl 0, fun hx => hloose x hx rfl⟩
      · rw [Function.update_of_ne hxs, Function.update_of_ne hxs]
        exact h.active x
    · rw [Function.update_of_ne (hloose x hx)]
      exact h.fresh x hx
    · rcases hx with hxs | hmany
      · exact Function.update_of_ne hxs ..
      · omega
    · by_cases hnn : no = (pool.objects slot).no
      · rw [hnn]
        exact Function.update_self ..
      · exact (Function.update_of_ne hnn ..).trans hno
  · have hmany : 1 < owned slot := by
      by_contra hle
      have : (n - 1).toNat = 0 := by omega
      exact hlast (UInt8.toNat_inj.mp this)
    rw [if_neg hlast]
    refine ⟨⟨fun x hx => ?_, fun no x m hm => ?_, fun x => ?_, fun x hx => ?_⟩, ⟨fun x _ => rfl, fun no hno => ?_⟩⟩
    · by_cases hxs : x = slot
      · subst hxs
        refine ⟨hsize, n - 1, Function.update_self .., ?_⟩
        rw [Function.update_self]
        exact hsub
      · rw [Function.update_of_ne hxs] at hx ⊢
        obtain ⟨hsize, m, hm, hc⟩ := h.counted x hx
        exact ⟨hsize, m, (Function.update_of_ne (hne x hx hxs) ..).trans hm, hc⟩
    · by_cases hnn : no = (pool.objects slot).no
      · subst hnn
        dsimp only at hm
        rw [Function.update_self] at hm
        cases hm
        exact ⟨by rw [Function.update_self]; omega, rfl⟩
      · obtain ⟨hx, hobj⟩ := h.mapped no x m ((Function.update_of_ne hnn ..).symm.trans hm)
        have hxs : x ≠ slot := by
          rintro rfl
          exact hnn hobj.symm
        rw [Function.update_of_ne hxs]
        exact ⟨hx, hobj⟩
    · by_cases hxs : x = slot
      · subst hxs
        rw [Function.update_self]
        exact (h.active x).trans (or_congr_left ⟨fun _ => by omega, fun _ => hslot⟩)
      · rw [Function.update_of_ne hxs]
        exact h.active x
    · rw [Function.update_of_ne (hloose x hx)]
      exact h.fresh x hx
    · have hnn : no ≠ (pool.objects slot).no := by
        rintro rfl
        rw [hmap] at hno
        cases hno
      exact (Function.update_of_ne hnn ..).trans hno

theorem Sound.take (h : pool.Sound size owned none) (hfree : pool.activeObjects slot = false) :
    { pool with activeObjects := Function.update pool.activeObjects slot true
                objects := Function.update pool.objects slot (.empty no) : InodePool }.Sound size owned (some slot) := by
  have hslot : ¬0 < owned slot := fun hpos => by
    rw [(h.active slot).mpr (.inl hpos)] at hfree
    cases hfree
  refine ⟨fun x hx => ?_, fun no' x m hm => ?_, fun x => ?_, fun x hx => ?_⟩
  · have hxs : x ≠ slot := by
      rintro rfl
      exact hslot hx
    dsimp only
    rw [Function.update_of_ne hxs]
    exact h.counted x hx
  · obtain ⟨hx, hobj⟩ := h.mapped no' x m hm
    have hxs : x ≠ slot := by
      rintro rfl
      exact hslot hx
    dsimp only
    rw [Function.update_of_ne hxs]
    exact ⟨hx, hobj⟩
  · dsimp only
    by_cases hxs : x = slot
    · subst hxs
      simp
    · rw [Function.update_of_ne hxs, h.active x]
      simp [Ne.symm hxs]
  · cases hx
    omega

theorem Sound.insert (h : pool.Sound size owned (some slot)) (hno : pool.map no = none) (hobj : (pool.objects slot).no = no)
    (hsize : slot < size) :
    { pool with map := Function.update pool.map no (some (slot, 1)) : InodePool }.Sound size
      (Function.update owned slot 1) none := by
  have hslot : owned slot = 0 := h.fresh slot rfl
  refine ⟨fun x hx => ?_, fun no' x m hm => ?_, fun x => ?_, nofun⟩
  · by_cases hxs : x = slot
    · subst hxs
      refine ⟨hsize, 1, ?_, ?_⟩
      · rw [hobj]
        exact Function.update_self ..
      · rw [Function.update_self]
        rfl
    · rw [Function.update_of_ne hxs] at hx ⊢
      obtain ⟨hsize, m, hm, hcount⟩ := h.counted x hx
      have hne : (pool.objects x).no ≠ no := by
        rintro rfl
        rw [hm] at hno
        cases hno
      exact ⟨hsize, m, (Function.update_of_ne hne ..).trans hm, hcount⟩
  · by_cases hnn : no' = no
    · subst hnn
      dsimp only at hm
      rw [Function.update_self] at hm
      cases hm
      exact ⟨by rw [Function.update_self]; decide, hobj⟩
    · obtain ⟨hx, hobj⟩ := h.mapped no' x m ((Function.update_of_ne hnn ..).symm.trans hm)
      have hxs : x ≠ slot := by
        rintro rfl
        omega
      rw [Function.update_of_ne hxs]
      exact ⟨hx, hobj⟩
  · rw [h.active x]
    by_cases hxs : x = slot
    · subst hxs
      simp
    · rw [Function.update_of_ne hxs]
      simp [Ne.symm hxs]

end InodePool

namespace State
variable {s : State} {owned : Nat → Nat} {loose : Option Nat} {slot p : Nat}

/-- One where a pointer refers to a slot. -/
def held (s : State) (p slot : Nat) : Nat := if s.ptr p = some (some slot) then 1 else 0

theorem held_le_refs (s : State) (p slot : Nat) : s.held p slot ≤ s.refs slot := by
  rw [held]
  split_ifs with hp
  · have hmem : some (some slot) ∈ s.ptrs := by
      rw [ptr, List.getD_eq_getElem?_getD] at hp
      cases hget : s.ptrs[p]? with
      | none =>
        rw [hget] at hp
        cases hp
      | some x =>
        rw [hget] at hp
        exact hp ▸ List.mem_of_getElem? hget
    exact List.count_pos_iff.mpr hmem
  · exact Nat.zero_le _

theorem ptr_lt (hp : s.ptr p ≠ none) : p < s.ptrs.length := by
  by_contra hge
  rw [ptr, List.getD_eq_getElem?_getD, List.getElem?_eq_none (Nat.not_lt.mp hge)] at hp
  exact hp rfl

/-- The references after a pointer was changed. -/
theorem count_set (hp : s.ptr p ≠ none) (v : Option (Option Nat)) (x : Nat) :
    (s.ptrs.set p v).count (some (some x)) = s.refs x - s.held p x + if v = some (some x) then 1 else 0 := by
  have hlt := ptr_lt hp
  have hget : s.ptrs[p] = s.ptr p := by rw [ptr, List.getD_eq_getElem _ _ hlt]
  rw [List.count_set hlt, hget, refs, held]
  simp only [beq_iff_eq]

theorem ptr_set (hp : s.ptr p ≠ none) (v : Option (Option Nat)) (pool : InodePool) (q : Nat) :
    (⟨pool, s.ptrs.set p v⟩ : State).ptr q = if q = p then v else s.ptr q := by
  have hlt := ptr_lt hp
  rw [ptr, ptr, List.getD_eq_getElem?_getD, List.getD_eq_getElem?_getD, List.getElem?_set]
  by_cases hqp : q = p
  · subst hqp
    simp [hlt]
  · rw [if_neg (Ne.symm hqp), if_neg hqp]

/-- The pool once a pointer has given up what it refers to. -/
def dropped (size : Nat) (s : State) (p : Nat) : InodePool :=
  match s.ptr p with
  | some (some old) => (s.pool.removeInodeReference size (s.pool.objects old).no).2
  | _ => s.pool

/-- What others hold stays where it is. -/
structure Keeps (pool pool' : InodePool) (owned owned' : Nat → Nat) : Prop where
  objects : ∀ x, 0 < owned' x ∨ owned x = 0 → pool'.objects x = pool.objects x
  absent : ∀ no, pool.map no = none → pool'.map no = none

theorem dropped_sound (h : s.pool.Sound size owned loose) (hheld : ∀ x, s.held p x ≤ owned x) :
    (s.dropped size p).Sound size (fun x => owned x - s.held p x) loose ∧
      Keeps s.pool (s.dropped size p) owned fun x => owned x - s.held p x := by
  rw [dropped]
  split
  · rename_i old hp
    have hself : s.held p old = 1 := if_pos hp
    have hother : ∀ x, x ≠ old → s.held p x = 0 := by
      intro x hx
      refine if_neg fun heq => hx ?_
      rw [hp] at heq
      cases heq
      rfl
    have hpos : 0 < owned old := by
      have := hheld old
      omega
    obtain ⟨hsound, hreleased⟩ := h.release hpos
    have howned : Function.update owned old (owned old - 1) = fun x => owned x - s.held p x := by
      funext x
      by_cases hx : x = old
      · rw [hx, Function.update_self, hself]
      · rw [Function.update_of_ne hx, hother x hx, Nat.sub_zero]
    rw [howned] at hsound
    refine ⟨hsound, ⟨fun x hx => hreleased.objects x ?_, hreleased.absent⟩⟩
    by_cases hxo : x = old
    · subst hxo
      omega
    · exact .inl hxo
  · rename_i hp
    have hnone : ∀ x, s.held p x = 0 := fun x => if_neg (hp x)
    have howned : (fun x => owned x - s.held p x) = owned := by
      funext x
      rw [hnone x, Nat.sub_zero]
    rw [howned]
    exact ⟨h, fun _ _ => rfl, fun _ hno => hno⟩

theorem setInode_eq (s : State) (p slot : Nat) : s.setInode size p slot = ⟨s.dropped size p, s.ptrs.set p (some (some slot))⟩ := rfl

/-- The stored counts are the numbers of pointers. -/
def Counted (size : Nat) (s : State) : Prop := s.pool.Sound size s.refs none

theorem counted_init : init.Counted size := InodePool.Sound.empty

/-- A pointer was changed to `v`, and the others stay. -/
structure Moved (size : Nat) (s s' : State) (p : Nat) (v : Option (Option Nat)) : Prop where
  counted : s'.Counted size
  ptrs : s'.ptrs = s.ptrs.set p v
  objects : ∀ x, 0 < s.refs x → 0 < s'.refs x → s'.pool.objects x = s.pool.objects x

theorem getExistingInode_moved (h : s.Counted size) (hp : s.ptr p ≠ none) {no : InodeNo} {n : UInt8}
    (hmap : s.pool.map no = some (slot, n)) (hlt : s.refs slot < 255) :
    Moved size s (s.getExistingInode size no p).2 p (some (some slot)) := by
  have hraised := InodePool.Sound.raise h hmap hlt
  set s₁ : State := { s with pool := { s.pool with map := Function.update s.pool.map no (some (slot, n + 1)) } }
  have hle : ∀ x, s₁.held p x ≤ Function.update s.refs slot (s.refs slot + 1) x := by
    intro x
    have := s.held_le_refs p x
    by_cases hx : x = slot
    · subst hx
      rw [Function.update_self]
      exact Nat.le_succ_of_le this
    · rwa [Function.update_of_ne hx]
  obtain ⟨hsound, hkeeps⟩ := dropped_sound hraised hle
  have heq : (s.getExistingInode size no p).2 = ⟨s₁.dropped size p, s.ptrs.set p (some (some slot))⟩ := by
    rw [getExistingInode, hmap]
    rfl
  have hrefs : (⟨s₁.dropped size p, s.ptrs.set p (some (some slot))⟩ : State).refs =
      fun x => Function.update s.refs slot (s.refs slot + 1) x - s₁.held p x := by
    funext x
    refine (count_set hp _ x).trans ?_
    have := s.held_le_refs p x
    have hheld : s₁.held p x = s.held p x := rfl
    rw [hheld]
    by_cases hx : x = slot
    · subst hx
      rw [if_pos rfl, Function.update_self]
      omega
    · rw [if_neg (by simpa using Ne.symm hx), Function.update_of_ne hx]
      rfl
  rw [heq]
  refine ⟨?_, rfl, fun x _ hx => hkeeps.objects x (.inl ?_)⟩
  · rw [Counted, hrefs]
    exact hsound
  · rwa [hrefs] at hx

theorem requireNewInode_moved (h : s.Counted size) (hp : s.ptr p ≠ none) {no : InodeNo} (hno : s.pool.map no = none)
    (hslot : s.pool.findFirstFree size = some slot) :
    Moved size s (s.requireNewInode size no p).2 p (some (some slot)) := by
  obtain ⟨hfree, hsize⟩ : s.pool.activeObjects slot = false ∧ slot < size := by
    rw [InodePool.findFirstFree] at hslot
    exact ⟨by simpa using List.find?_some hslot, List.mem_range.mp (List.mem_of_find?_eq_some hslot)⟩
  set s₁ : State := { s with pool := { s.pool with
    activeObjects := Function.update s.pool.activeObjects slot true
    objects := Function.update s.pool.objects slot (.empty no) } }
  have htaken : s₁.pool.Sound size s.refs (some slot) := InodePool.Sound.take h hfree
  obtain ⟨hsound, hkeeps⟩ := dropped_sound (s := s₁) htaken (s.held_le_refs p)
  have hnone : s.refs slot = 0 := htaken.fresh slot rfl
  have hobj : ((s₁.dropped size p).objects slot).no = no := by
    rw [hkeeps.objects slot (.inr hnone)]
    simp only [s₁, Function.update_self]
    rfl
  have hinserted := hsound.insert (hkeeps.absent no hno) hobj hsize
  have heq : (s.requireNewInode size no p).2 =
      ⟨{ s₁.dropped size p with map := Function.update (s₁.dropped size p).map no (some (slot, 1)) },
        s.ptrs.set p (some (some slot))⟩ := by
    rw [requireNewInode, hno, hslot]
    rfl
  have hrefs : (⟨{ s₁.dropped size p with map := Function.update (s₁.dropped size p).map no (some (slot, 1)) },
      s.ptrs.set p (some (some slot))⟩ : State).refs = Function.update (fun x => s.refs x - s.held p x) slot 1 := by
    funext x
    refine (count_set hp _ x).trans ?_
    by_cases hx : x = slot
    · subst hx
      rw [if_pos rfl, Function.update_self, hnone, Nat.zero_sub]
    · rw [if_neg (by simpa using Ne.symm hx), Function.update_of_ne hx]
      rfl
  rw [heq]
  refine ⟨?_, rfl, fun x hx hx' => ?_⟩
  · rw [Counted, hrefs]
    exact hinserted
  · have hxs : x ≠ slot := by
      rintro rfl
      omega
    rw [hrefs, Function.update_of_ne hxs] at hx'
    exact (hkeeps.objects x (.inl hx')).trans (Function.update_of_ne hxs ..)

theorem destroy_moved (h : s.Counted size) (hp : s.ptr p ≠ none) : Moved size s (s.destroy size p) p none := by
  obtain ⟨hsound, hkeeps⟩ := dropped_sound h (s.held_le_refs p)
  have hrefs : (s.destroy size p).refs = fun x => s.refs x - s.held p x := by
    funext x
    exact (count_set hp _ x).trans (by simp)
  refine ⟨?_, rfl, fun x _ hx => hkeeps.objects x (.inl ?_)⟩
  · rw [Counted, hrefs]
    exact hsound
  · rwa [hrefs] at hx

theorem construct_refs (s : State) : s.construct.refs = s.refs := by
  funext x
  simp [refs, construct]

theorem construct_ptr (s : State) (q : Nat) :
    s.construct.ptr q = if q = s.ptrs.length then some none else s.ptr q := by
  rw [ptr, ptr, construct, List.getD_eq_getElem?_getD, List.getD_eq_getElem?_getD]
  rcases Nat.lt_trichotomy q s.ptrs.length with hq | hq | hq
  · rw [if_neg hq.ne, List.getElem?_append_left hq]
  · subst hq
    simp
  · rw [if_neg hq.ne', List.getElem?_eq_none hq.le, List.getElem?_eq_none (by simpa using hq)]

theorem Counted.construct (h : s.Counted size) : s.construct.Counted size := by
  rw [Counted, construct_refs]
  exact h

/-- Where a pointer leads, and what the map says of it. -/
theorem Counted.map_ptr (h : s.Counted size) (hp : s.ptr p = some (some slot)) :
    ∃ n, s.pool.map (s.pool.objects slot).no = some (slot, n) := by
  have hpos : 0 < s.refs slot := by
    have := s.held_le_refs p slot
    rw [held, if_pos hp] at this
    exact this
  obtain ⟨-, n, hn, -⟩ := h.counted slot hpos
  exact ⟨n, hn⟩

theorem assign_moved (h : s.Counted size) (hp : s.ptr p ≠ none) {other : Nat} (hother : s.ptr other = some (some slot))
    (hlt : s.refs slot < 255) : Moved size s (s.assign size p other) p (some (some slot)) := by
  obtain ⟨n, hn⟩ := h.map_ptr hother
  rw [assign, hother]
  exact getExistingInode_moved h hp hn hlt

/-! ### Runs -/

/-- Each stored count is the number of pointers to the inode, an inode with pointers is in the pool under its number, and
the slots of all others are free. -/
structure Exact (s : State) : Prop where
  count : ∀ no slot n, s.pool.map no = some (slot, n) → n.toNat = s.refs slot
  stays : ∀ slot, 0 < s.refs slot →
    s.pool.activeObjects slot = true ∧ ∃ n, s.pool.map (s.pool.objects slot).no = some (slot, n)
  freed : ∀ slot, s.refs slot = 0 →
    s.pool.activeObjects slot = false ∧ ∀ no n, s.pool.map no ≠ some (slot, n)

/-- The contents of a slot after what is written through a pointer. -/
def written (s : State) (op : Op) (slot : Nat) : Inode :=
  match op with
  | .write p inode =>
    if s.ptr p = some (some slot) then { inode with no := (s.pool.objects slot).no } else s.pool.objects slot
  | _ => s.pool.objects slot

/-- An inode keeps its content while there are pointers to it, and a pointer that is assigned or copied from another refers
to what that one does. -/
structure Serves (s s' : State) (op : Op) : Prop where
  content : ∀ slot, 0 < s.refs slot → 0 < s'.refs slot → s'.pool.objects slot = s.written op slot
  assigned : ∀ p other, op = .assign p other → s'.ptr p = s.ptr other
  copied : ∀ other, op = .copy other → s'.ptr s.ptrs.length = s.ptr other

/-- What the reference counts are for, in every state and at every step of a run. -/
def Faithful (size : Nat) (ops : List Op) : Prop :=
  (∀ pre, pre <+: ops → (init.run size pre).Exact) ∧
    ∀ pre op, pre ++ [op] <+: ops → (init.run size pre).Alive op →
      (init.run size pre).Serves (init.run size (pre ++ [op])) op

/-- No count passes 255, and nothing is assigned from an empty pointer to one that is in use. -/
def Meets (s : State) (op : Op) : Prop :=
  s.Alive op → match op with
    | .getExistingInode no _ => ∀ slot n, s.pool.map no = some (slot, n) → s.refs slot < 255
    | .copy other => ∀ slot, s.ptr other = some (some slot) → s.refs slot < 255
    | .assign p other =>
      (∀ slot, s.ptr other = some (some slot) → s.refs slot < 255) ∧ (s.ptr other = some none → s.ptr p = some none)
    | _ => True

/-- Every step of a run meets a condition in the state before it. -/
def Along (size : Nat) : List Op → State → Prop
  | [], _ => True
  | op :: ops, s => s.Meets op ∧ Along size ops (s.step size op)

theorem Counted.exact (h : s.Counted size) : s.Exact := by
  refine ⟨fun no slot n hmap => ?_, fun slot hpos => ?_, fun slot hnone => ?_⟩
  · obtain ⟨hpos, hno⟩ := h.mapped no slot n hmap
    obtain ⟨-, m, hm, hcount⟩ := h.counted slot hpos
    rw [hno, hmap] at hm
    cases hm
    exact hcount
  · obtain ⟨-, n, hn, -⟩ := h.counted slot hpos
    exact ⟨(h.active slot).mpr (.inl hpos), n, hn⟩
  · refine ⟨?_, fun no n hmap => ?_⟩
    · have hiff := h.active slot
      rw [hnone] at hiff
      simpa using hiff
    · have := (h.mapped no slot n hmap).1
      omega

theorem Moved.ptr_self {s' : State} {v : Option (Option Nat)} (h : Moved size s s' p v) (hp : s.ptr p ≠ none) : s'.ptr p = v := by
  have := ptr_set hp v s'.pool p
  rw [if_pos rfl, ← h.ptrs] at this
  exact this

/-- A move serves operations that write nothing and copy no pointer but to the one that is moved. -/
theorem Moved.serves {s' : State} {v : Option (Option Nat)} (h : Moved size s s' p v) {op : Op}
    (hwritten : ∀ x, s.written op x = s.pool.objects x) (hassigned : ∀ q other, op = .assign q other → s'.ptr q = s.ptr other)
    (hcopied : ∀ other, op = .copy other → s'.ptr s.ptrs.length = s.ptr other) : s.Serves s' op :=
  ⟨fun x hx hx' => (h.objects x hx hx').trans (hwritten x).symm, hassigned, hcopied⟩

theorem step_counted (h : s.Counted size) {op : Op} (hmeets : s.Meets op) :
    (s.step size op).Counted size ∧ (s.Alive op → s.Serves (s.step size op) op) := by
  rw [step.eq_def]
  split_ifs with halive
  swap
  · exact ⟨h, fun hcontra => absurd hcontra halive⟩
  have hmeets := hmeets halive
  cases op with
  | getExistingInode no target =>
    have hp : s.ptr target ≠ none := halive target (by simp [Op.operands])
    dsimp only
    cases hmap : s.pool.map no with
    | none =>
      rw [getExistingInode, hmap]
      exact ⟨h, fun _ => ⟨fun _ _ _ => rfl, nofun, nofun⟩⟩
    | some x =>
      obtain ⟨slot, n⟩ := x
      have hmoved := getExistingInode_moved h hp hmap (hmeets slot n hmap)
      exact ⟨hmoved.counted, fun _ => hmoved.serves (fun _ => rfl) nofun nofun⟩
  | requireNewInode no target =>
    have hp : s.ptr target ≠ none := halive target (by simp [Op.operands])
    dsimp only
    cases hmap : s.pool.map no with
    | some x =>
      rw [requireNewInode, hmap]
      exact ⟨h, fun _ => ⟨fun _ _ _ => rfl, nofun, nofun⟩⟩
    | none =>
      cases hslot : s.pool.findFirstFree size with
      | none =>
        rw [requireNewInode, hmap, hslot]
        exact ⟨h, fun _ => ⟨fun _ _ _ => rfl, nofun, nofun⟩⟩
      | some slot =>
        have hmoved := requireNewInode_moved h hp hmap hslot
        exact ⟨hmoved.counted, fun _ => hmoved.serves (fun _ => rfl) nofun nofun⟩
  | construct => exact ⟨h.construct, fun _ => ⟨fun _ _ _ => rfl, nofun, nofun⟩⟩
  | copy other =>
    have hother : s.ptr other ≠ none := halive other (by simp [Op.operands])
    have hlast : s.construct.ptr s.ptrs.length = some none := by rw [construct_ptr, if_pos rfl]
    have hsame : s.construct.ptr other = s.ptr other := by rw [construct_ptr, if_neg (ptr_lt hother).ne]
    dsimp only
    rw [copy]
    cases hslot : s.ptr other with
    | none => exact absurd hslot hother
    | some x =>
      cases x with
      | none =>
        rw [assign, hsame, hslot]
        refine ⟨h.construct, fun _ => ⟨fun _ _ _ => rfl, nofun, fun q hq => ?_⟩⟩
        cases hq
        exact hlast.trans hslot.symm
      | some slot =>
        have hlt : s.construct.refs slot < 255 := by
          rw [construct_refs]
          exact hmeets slot hslot
        have hmoved := assign_moved h.construct (by rw [hlast]; simp) (hsame.trans hslot) hlt
        refine ⟨hmoved.counted, fun _ => ⟨fun x hx hx' => ?_, nofun, fun q hq => ?_⟩⟩
        · exact hmoved.objects x (by rwa [construct_refs]) hx'
        · cases hq
          exact (hmoved.ptr_self (by rw [hlast]; simp)).trans hslot.symm
  | assign p other =>
    have hp : s.ptr p ≠ none := halive p (by simp [Op.operands])
    have hother : s.ptr other ≠ none := halive other (by simp [Op.operands])
    obtain ⟨hlt, hempty⟩ := hmeets
    dsimp only
    cases hslot : s.ptr other with
    | none => exact absurd hslot hother
    | some x =>
      cases x with
      | none =>
        rw [assign, hslot]
        refine ⟨h, fun _ => ⟨fun _ _ _ => rfl, fun q r hq => ?_, nofun⟩⟩
        cases hq
        rw [hslot, hempty hslot]
      | some slot =>
        have hmoved := assign_moved h hp hslot (hlt slot hslot)
        refine ⟨hmoved.counted, fun _ => hmoved.serves (fun _ => rfl) (fun q r hq => ?_) nofun⟩
        cases hq
        exact (hmoved.ptr_self hp).trans hslot.symm
  | destroy p =>
    have hp : s.ptr p ≠ none := halive p (by simp [Op.operands])
    have hmoved := destroy_moved h hp
    exact ⟨hmoved.counted, fun _ => hmoved.serves (fun _ => rfl) nofun nofun⟩
  | write p inode =>
    dsimp only
    cases hslot : s.ptr p with
    | none => exact absurd hslot (halive p (by simp [Op.operands]))
    | some x =>
      cases x with
      | none =>
        rw [write, hslot]
        exact ⟨h, fun _ => ⟨fun x _ _ => by simp [written, hslot], nofun, nofun⟩⟩
      | some slot =>
        have hobj : ∀ x, (s.write p inode).pool.objects x = s.written (.write p inode) x := by
          intro x
          rw [write, hslot, written, hslot]
          by_cases hx : x = slot
          · subst hx
            simp
          · simp [Function.update_of_ne hx, Ne.symm hx]
        have hno : ∀ x, ((s.write p inode).pool.objects x).no = (s.pool.objects x).no := by
          intro x
          rw [hobj, written]
          split_ifs <;> rfl
        have hmap : (s.write p inode).pool.map = s.pool.map := by rw [write, hslot]
        have hactive : (s.write p inode).pool.activeObjects = s.pool.activeObjects := by rw [write, hslot]
        have hrefs : (s.write p inode).refs = s.refs := by
          funext x
          rw [refs, refs, write, hslot]
        refine ⟨?_, fun _ => ⟨fun x _ _ => hobj x, nofun, nofun⟩⟩
        rw [Counted, hrefs]
        refine ⟨fun x hx => ?_, fun no x n hm => ?_, fun x => ?_, h.fresh⟩
        · rw [hno, hmap]
          exact h.counted x hx
        · rw [hmap] at hm
          rw [hno]
          exact h.mapped no x n hm
        · rw [hactive]
          exact h.active x

theorem run_append (s : State) (pre : List Op) (op : Op) : s.run size (pre ++ [op]) = (s.run size pre).step size op := by
  rw [run, run, List.foldl_append]
  rfl

theorem Along.counted {pre ops : List Op} (halong : Along size ops s) (h : s.Counted size) (hpre : pre <+: ops) :
    (s.run size pre).Counted size := by
  induction pre generalizing s ops with
  | nil => exact h
  | cons op pre ih =>
    obtain ⟨rest, rfl⟩ := hpre
    exact ih halong.2 (step_counted h halong.1).1 (List.prefix_append ..)

theorem Along.meets {pre ops : List Op} {op : Op} (halong : Along size ops s) (hpre : pre ++ [op] <+: ops) :
    (s.run size pre).Meets op := by
  induction pre generalizing s ops with
  | nil =>
    obtain ⟨rest, rfl⟩ := hpre
    exact halong.1
  | cons first pre ih =>
    obtain ⟨rest, rfl⟩ := hpre
    exact ih halong.2 ⟨rest, rfl⟩

/-- While no count passes 255 and no pointer in use is assigned an empty one, references are counted exactly. -/
theorem run_faithful {ops : List Op} (halong : Along size ops init) : Faithful size ops := by
  refine ⟨fun pre hpre => (halong.counted counted_init hpre).exact, fun pre op hpre halive => ?_⟩
  have hcounted := halong.counted counted_init ((List.prefix_append pre [op]).trans hpre)
  rw [run_append]
  exact (step_counted hcounted (halong.meets hpre)).2 halive

/-- Two pointers to one inode; the first is dropped, the second assigned to itself. -/
def shared : List Op := [.construct, .requireNewInode 7 0, .copy 0, .write 1 (.empty 9), .destroy 0, .assign 1 1]

theorem shared_faithful : Along 10 shared init ∧ Faithful 10 shared := by
  have halong : Along 10 shared init := by
    refine ⟨fun _ => trivial, fun _ => trivial, fun _ slot hslot => ?_, fun _ => trivial, fun _ => trivial,
      fun _ => ⟨fun slot hslot => ?_, fun hnone => hnone⟩, trivial⟩
    · have h : some (some slot) = some (some 0) := hslot.symm.trans (by decide)
      cases h
      decide
    · have h : some (some slot) = some (some 0) := hslot.symm.trans (by decide)
      cases h
      decide
  exact ⟨halong, run_faithful halong⟩

/-- A pointer that is assigned an empty one goes on referring to its inode. -/
def emptyAssigned : List Op := [.construct, .requireNewInode 7 0, .construct, .assign 0 1]

/-- 256 pointers to one inode; the stored count starts again at zero. -/
def manyPointers : List Op := [.construct, .requireNewInode 7 0] ++ List.replicate 255 (.copy 0)

theorem references_are_miscounted : ¬Faithful 10 emptyAssigned ∧ ¬Faithful 10 manyPointers := by
  constructor
  · intro h
    have halive : (init.run 10 [.construct, .requireNewInode 7 0, .construct]).Alive (.assign 0 1) := by decide
    have hassigned := (h.2 [.construct, .requireNewInode 7 0, .construct] (.assign 0 1) (List.prefix_refl _) halive).assigned 0 1 rfl
    have hkept : (init.run 10 emptyAssigned).ptr 0 = some (some 0) := by decide
    have hempty : (init.run 10 [.construct, .requireNewInode 7 0, .construct]).ptr 1 = some none := by decide
    have : (some (some 0) : Option (Option Nat)) = some none := hkept.symm.trans (hassigned.trans hempty)
    cases this
  · intro h
    have hexact := (h.1 manyPointers (List.prefix_refl _)).count 7 0 0
    have hmap : (init.run 10 manyPointers).pool.map 7 = some (0, 0) := by decide +kernel
    have hrefs : (init.run 10 manyPointers).refs 0 = 256 := by decide +kernel
    have := hexact hmap
    rw [hrefs] at this
    cases this

end State
end Paffs.Inodes
