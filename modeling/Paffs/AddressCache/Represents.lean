import Paffs.AddressCache.PageAddressCache

/-! What a path of cached lists stands for: an address for every sequence of positions. The empty sequence is
the first list, sequences of up to `depth` positions are the lists below, and longer ones the pages of the file. -/
namespace Paffs.AddressCache
open Journal

/-! ### The device -/

namespace Device
variable {n : Nat} {d : Device n}

/-- The device after a page was given up. -/
def invalidated (addr : Addr) (d : Device n) : Device n :=
  { d with statuses := Function.update d.statuses addr .dirty
           events := d.events ++ if d.statuses addr = .dirty then [] else [.entry (.setStatus addr .dirty)] }

/-- The device after a list was written. -/
def written (neu source : Addr) (list : AddrList n) (d : Device n) : Device n :=
  { d with statuses := Function.update d.statuses neu .used
           flash := Function.update d.flash neu list
           statemachine := { d.statemachine with list := d.statemachine.list ++ [⟨neu, source, 0, 0⟩] }
           events := d.events ++ [.entry (.pagestate .pac (.replacePage neu source)), .entry (.setStatus neu .used),
             .write neu list] }

theorem setPageStatus_dirty (addr : Addr) : d.setPageStatus addr .dirty =
    if addr = 0 then (.bug, d) else (.ok, d.invalidated addr) := by
  by_cases h0 : addr = 0
  · simp [setPageStatus, act, World.setPageStatus, h0]
  by_cases hst : d.statuses addr = .dirty
  · have hsame : Function.update d.statuses addr .dirty = d.statuses := by rw [← hst, Function.update_eq_self]
    simp [setPageStatus, act, World.setPageStatus, h0, hst, invalidated, hsame]
  · simp [setPageStatus, act, World.setPageStatus, h0, hst, invalidated, World.addEvent]

theorem writeAddrList_cases (areas : Areas n) (source : Addr) (list : AddrList n)
    (h : (d.writeAddrList areas source list).1 = .ok) : ∃ neu, neu ≠ 0 ∧ d.statuses neu ≠ .used ∧
      d.writeAddrList areas source list = (.ok, neu, d.written neu source list) := by
  unfold writeAddrList at h ⊢
  cases hfind : areas.findWritablePage d with
  | none => simp [hfind] at h
  | some neu =>
    obtain ⟨h0, hused⟩ := areas.unused hfind
    refine ⟨neu, h0, hused, ?_⟩
    by_cases hlen : d.statemachine.list.length = 256
    · simp [hfind, replacePage, act, World.replacePage, Judging.params, hlen] at h
    · simp [replacePage, act, World.replacePage, Judging.params, hlen, h0, World.setPageStatus, hused, World.addEvent,
        Device.addEvent, written, Replacement.entry]

@[simp] theorem readAddrList_zero (d : Device n) : d.readAddrList 0 = fun _ => 0 := rfl

@[simp] theorem readAddrList_invalidated (addr a : Addr) : (d.invalidated addr).readAddrList a = d.readAddrList a := rfl

theorem readAddrList_written {neu : Addr} (h0 : neu ≠ 0) (source : Addr) (list : AddrList n) :
    (d.written neu source list).readAddrList neu = list := by
  simp [readAddrList, h0, written]

theorem readAddrList_written_of_ne {neu a : Addr} (h : a ≠ neu) (source : Addr) (list : AddrList n) :
    (d.written neu source list).readAddrList a = d.readAddrList a := by
  simp [readAddrList, written, h]

end Device

/-! ### Positions -/

/-- The positions that lead from the first list to list `k`. -/
def position {n : Nat} (start : Nat → AddrListCacheElem n) : Nat → List (Fin n)
  | 0 => []
  | k + 1 => position start k ++ [(start (k + 1)).positionInParent]

section Position
variable {n : Nat} {start start' : Nat → AddrListCacheElem n}

@[simp] theorem position_length (start : Nat → AddrListCacheElem n) (k : Nat) : (position start k).length = k := by
  induction k with
  | zero => rfl
  | succ k ih => simp [position, ih]

theorem position_congr {k : Nat} (h : ∀ j < k, (start (j + 1)).positionInParent = (start' (j + 1)).positionInParent) :
    position start k = position start' k := by
  induction k with
  | zero => rfl
  | succ k ih =>
    rw [position, position, ih fun j hj => h j (by omega), h k (by omega)]

theorem position_update (start : Nat → AddrListCacheElem n) {i k : Nat} {e : AddrListCacheElem n}
    (h : k < i ∨ e.positionInParent = (start i).positionInParent) : position (Function.update start i e) k = position start k := by
  refine position_congr fun j hj => ?_
  by_cases hji : j + 1 = i
  · subst hji
    rw [Function.update_self]
    exact h.resolve_left (by omega)
  · rw [Function.update_of_ne hji]

theorem position_ne {k : Nat} {ps : List (Fin n)} (h : ps.length ≠ k) : ps ≠ position start k := by
  rintro rfl
  simp at h

end Position

/-! ### The lists -/

namespace Path
variable {n : Nat}

/-- No dirty list has these positions. -/
def Clean (depth : Nat) (w : Path n) (ps : List (Fin n)) : Prop :=
  ∀ k ≤ depth, (w.start k).dirty → ps ≠ position w.start k

/-- Lists `0` to `live` are where their positions say; the others may be left over from another parent. Lists on
the flash hold a valid entry, but for some that were `hollow` from the start. -/
structure Represents (hollow : Set Addr) (depth live : Nat) (V : List (Fin n) → Addr) (w : Path n) : Prop where
  anchor : V [] = w.anchor
  cached : ∀ k ≤ depth, k ≤ live → (w.start k).active → ∀ p, (w.start k).cache p = V (position w.start k ++ [p])
  stored : ∀ ps : List (Fin n), ps.length ≤ depth → Clean depth w ps → ∀ p, V (ps ++ [p]) = w.dev.readAddrList (V ps) p
  solid : ∀ ps : List (Fin n), ps.length ≤ depth → Clean depth w ps → V ps ≠ 0 → V ps ∉ hollow → ∃ p, V (ps ++ [p]) ≠ 0
  dirty_live : ∀ k ≤ depth, (w.start k).dirty → k ≤ live
  dirty_active : ∀ k ≤ depth, (w.start k).dirty → (w.start k).active
  root_active : ∀ k ≤ depth, (w.start k).active → (w.start 0).active
  parent_active : ∀ k, k + 1 ≤ depth → (w.start (k + 1)).dirty → (w.start k).active

variable {hollow : Set Addr} {depth live : Nat} {V : List (Fin n) → Addr} {w : Path n}

/-- Only the lists that the sequences stand for have to be on the flash. -/
theorem Represents.of_flash (h : Represents hollow depth live V w) (dev : Device n)
    (hdev : ∀ ps : List (Fin n), ps.length ≤ depth → dev.readAddrList (V ps) = w.dev.readAddrList (V ps)) :
    Represents hollow depth live V { w with dev } where
  anchor := h.anchor
  cached := h.cached
  stored ps hps hclean p := by
    rw [hdev ps hps]
    exact h.stored ps hps hclean p
  solid := h.solid
  dirty_live := h.dirty_live
  dirty_active := h.dirty_active
  root_active := h.root_active
  parent_active := h.parent_active

/-- List `i` has a new address, which its parent knows. -/
def relinked (i : Nat) (addr : Addr) (stays : Bool) (dev : Device n) (w : Path n) : Path n :=
  setElem i { w.start i with dirty := false, active := stays }
    (setElem (i - 1) { w.start (i - 1) with
      cache := Function.update (w.start (i - 1)).cache (w.start i).positionInParent addr, dirty := true } { w with dev })

theorem relinked_start (i : Nat) (addr : Addr) (stays : Bool) (dev : Device n) (w : Path n) (k : Nat) :
    (w.relinked (i + 1) addr stays dev).start k =
      if k = i + 1 then { w.start (i + 1) with dirty := false, active := stays }
      else if k = i then { w.start i with
        cache := Function.update (w.start i).cache (w.start (i + 1)).positionInParent addr, dirty := true }
      else w.start k := by
  simp only [relinked, setElem, Nat.add_sub_cancel]
  by_cases h1 : k = i + 1
  · simp [h1]
  · by_cases h2 : k = i <;> simp [h1, h2]

theorem Represents.relinked {i : Nat} (h : Represents hollow depth live V w) (hdepth : depth ≤ 2) (hi : i + 1 ≤ depth)
    (hdirty : (w.start (i + 1)).dirty) {addr : Addr} {stays : Bool} {dev : Device n}
    (hchild : stays ∨ ∀ k ≤ depth, i + 1 < k → (w.start k).dirty = false)
    (hother : ∀ ps : List (Fin n), ps.length ≤ depth → ps ≠ position w.start (i + 1) →
      dev.readAddrList (V ps) = w.dev.readAddrList (V ps))
    (hnew : dev.readAddrList addr = (w.start (i + 1)).cache) (hsolid : addr ≠ 0 → ¬ (w.start (i + 1)).Empty) :
    Represents hollow depth live (Function.update V (position w.start (i + 1)) addr) (w.relinked (i + 1) addr stays dev) := by
  have hact := h.dirty_active _ hi hdirty
  have hlive := h.dirty_live _ hi hdirty
  have hpar := h.parent_active i hi hdirty
  have hpos : ∀ k, position (w.relinked (i + 1) addr stays dev).start k = position w.start k := by
    intro k
    refine position_congr fun j hj => ?_
    rw [relinked_start]
    by_cases h1 : j + 1 = i + 1
    · rw [if_pos h1, h1]
    · rw [if_neg h1]
      split
      · next h2 => rw [h2]
      · rfl
  have hne : position w.start (i + 1) ≠ [] := by simp [position]
  have hclean : ∀ ps, Clean depth (w.relinked (i + 1) addr stays dev) ps →
      ps ≠ position w.start i ∧ (ps ≠ position w.start (i + 1) → Clean depth w ps) := by
    intro ps hcl
    have hparent : ps ≠ position w.start i := by
      have hd := hcl i (by omega)
      rw [relinked_start, hpos] at hd
      exact hd (by simp)
    refine ⟨hparent, fun hself k hk hkd => ?_⟩
    by_cases h1 : k = i + 1
    · rw [h1]
      exact hself
    by_cases h2 : k = i
    · rw [h2]
      exact hparent
    · have hd := hcl k hk
      rw [relinked_start, if_neg h1, if_neg h2, hpos] at hd
      exact hd hkd
  have hlong : ∀ ps, ps ≠ position w.start i → ∀ p, ps ++ [p] ≠ position w.start (i + 1) := by
    intro ps hparent p heq
    rw [position] at heq
    exact hparent (List.append_inj_left' heq rfl)
  constructor
  · rw [Function.update_of_ne hne.symm]
    exact h.anchor
  · intro k hk hkl hka p
    rw [hpos]
    rw [relinked_start] at hka ⊢
    by_cases h1 : k = i + 1
    · subst h1
      have hlong : position w.start (i + 1) ++ [p] ≠ position w.start (i + 1) := by simp
      rw [if_pos rfl, Function.update_of_ne hlong]
      exact h.cached _ hi hlive hact p
    · rw [if_neg h1] at hka ⊢
      by_cases h2 : k = i
      · subst h2
        simp only [if_true]
        rw [position]
        by_cases hp : p = (w.start (k + 1)).positionInParent
        · rw [hp, Function.update_self, Function.update_self]
        · have hother : position w.start k ++ [p] ≠ position w.start k ++ [(w.start (k + 1)).positionInParent] := by
            simpa using hp
          rw [Function.update_of_ne hp, Function.update_of_ne hother]
          exact h.cached k hk hkl hpar p
      · rw [if_neg h2] at hka ⊢
        have hother : position w.start k ++ [p] ≠ position w.start (i + 1) := by
          intro heq
          have hlen := congrArg List.length heq
          simp at hlen
          exact h2 hlen
        rw [Function.update_of_ne hother]
        exact h.cached k hk hkl hka p
  · intro ps hps hcl p
    obtain ⟨hparent, hother'⟩ := hclean ps hcl
    rw [Function.update_of_ne (hlong ps hparent p)]
    by_cases hself : ps = position w.start (i + 1)
    · rw [hself, Function.update_self]
      change _ = dev.readAddrList addr p
      rw [hnew]
      exact (h.cached _ hi hlive hact p).symm
    · rw [Function.update_of_ne hself]
      change _ = dev.readAddrList (V ps) p
      rw [hother ps hps hself]
      exact h.stored ps hps (hother' hself) p
  · intro ps hps hcl h0 hhollow
    obtain ⟨hparent, hother'⟩ := hclean ps hcl
    by_cases hself : ps = position w.start (i + 1)
    · subst hself
      rw [Function.update_self] at h0
      obtain ⟨p, hp⟩ := not_forall.1 (hsolid h0)
      rw [h.cached _ hi hlive hact p] at hp
      exact ⟨p, by rwa [Function.update_of_ne (hlong _ hparent p)]⟩
    · rw [Function.update_of_ne hself] at h0 hhollow
      obtain ⟨p, hp⟩ := h.solid ps hps (hother' hself) h0 hhollow
      exact ⟨p, by rwa [Function.update_of_ne (hlong _ hparent p)]⟩
  · intro k hk hkd
    rw [relinked_start] at hkd
    split at hkd
    · simp at hkd
    · split at hkd
      · omega
      · exact h.dirty_live k hk hkd
  · intro k hk hkd
    rw [relinked_start] at hkd ⊢
    split at hkd
    · simp at hkd
    · next h1 =>
      rw [if_neg h1]
      split at hkd
      · next h2 =>
        rw [if_pos h2]
        exact hpar
      · next h2 =>
        rw [if_neg h2]
        exact h.dirty_active k hk hkd
  · intro k hk hka
    rw [relinked_start] at hka ⊢
    have hroot := h.root_active _ hi hact
    rw [if_neg (by omega)]
    split <;> simp_all
  · intro k hk hkd
    rw [relinked_start] at hkd
    rw [relinked_start]
    by_cases h1 : k + 1 = i + 1
    · simp [h1] at hkd
    rw [if_neg h1] at hkd
    by_cases h2 : k + 1 = i
    · -- the parent is dirty now, and the first list is active
      obtain rfl : k = 0 := by omega
      rw [if_neg (by omega), if_neg (by omega)]
      exact h.root_active _ hi hact
    rw [if_neg h2] at hkd
    have hka := h.parent_active k hk hkd
    by_cases h3 : k = i + 1
    · rcases hchild with hs | hc
      · rw [if_pos h3]
        exact hs
      · rw [hc (k + 1) hk (by omega)] at hkd
        cases hkd
    · rw [if_neg h3]
      split
      · exact hpar
      · exact hka

/-- The first list has a new address, which the inode knows. -/
def rerooted (addr : Addr) (dev : Device n) (w : Path n) : Path n :=
  setElem 0 { w.start 0 with dirty := false } { w with dev, anchor := addr }

theorem setElem_start (i : Nat) (e : AddrListCacheElem n) (w : Path n) (k : Nat) :
    (w.setElem i e).start k = if k = i then e else w.start k := by
  simp [setElem, Function.update_apply]

theorem Represents.rerooted (h : Represents hollow depth live V w) (hdirty : (w.start 0).dirty) {addr : Addr} {dev : Device n}
    (hother : ∀ ps : List (Fin n), ps.length ≤ depth → ps ≠ [] → dev.readAddrList (V ps) = w.dev.readAddrList (V ps))
    (hnew : dev.readAddrList addr = (w.start 0).cache) (hsolid : addr ≠ 0 → ¬ (w.start 0).Empty) :
    Represents hollow depth live (Function.update V [] addr) (w.rerooted addr dev) := by
  have hstart : ∀ k, (w.rerooted addr dev).start k = if k = 0 then { w.start 0 with dirty := false } else w.start k :=
    setElem_start 0 _ _
  have hpos : ∀ k, position (w.rerooted addr dev).start k = position w.start k := fun k =>
    position_update w.start (.inr rfl)
  have hlong : ∀ (ps : List (Fin n)) (p : Fin n), ps ++ [p] ≠ [] := by simp
  have hclean : ∀ ps, Clean depth (w.rerooted addr dev) ps → ps ≠ [] → Clean depth w ps := by
    intro ps hcl hnil k hk hkd
    by_cases h0 : k = 0
    · rw [h0]
      exact hnil
    · have hd := hcl k hk
      rw [hstart, if_neg h0, hpos] at hd
      exact hd hkd
  constructor
  · rw [Function.update_self]
    rfl
  · intro k hk hkl hka p
    rw [hpos, Function.update_of_ne (hlong _ _)]
    rw [hstart] at hka ⊢
    split at hka
    · next h0 =>
      rw [if_pos h0, h0]
      exact h.cached 0 (by omega) (by omega) hka p
    · next h0 =>
      rw [if_neg h0]
      exact h.cached k hk hkl hka p
  · intro ps hps hcl p
    rw [Function.update_of_ne (hlong _ _)]
    by_cases hnil : ps = []
    · rw [hnil, Function.update_self]
      change _ = dev.readAddrList addr p
      rw [hnew]
      exact (h.cached 0 (by omega) (by omega) (h.dirty_active 0 (by omega) hdirty) p).symm
    · rw [Function.update_of_ne hnil]
      change _ = dev.readAddrList (V ps) p
      rw [hother ps hps hnil]
      exact h.stored ps hps (hclean ps hcl hnil) p
  · intro ps hps hcl h0 hhollow
    by_cases hnil : ps = []
    · subst hnil
      rw [Function.update_self] at h0
      obtain ⟨p, hp⟩ := not_forall.1 (hsolid h0)
      rw [h.cached 0 (by omega) (by omega) (h.dirty_active 0 (by omega) hdirty) p] at hp
      exact ⟨p, by rwa [Function.update_of_ne (hlong _ _)]⟩
    · rw [Function.update_of_ne hnil] at h0 hhollow
      obtain ⟨p, hp⟩ := h.solid ps hps (hclean ps hcl hnil) h0 hhollow
      exact ⟨p, by rwa [Function.update_of_ne (hlong _ _)]⟩
  · intro k hk hkd
    rw [hstart] at hkd
    split at hkd
    · simp at hkd
    · exact h.dirty_live k hk hkd
  · intro k hk hkd
    rw [hstart] at hkd ⊢
    split at hkd
    · simp at hkd
    · next h0 =>
      rw [if_neg h0]
      exact h.dirty_active k hk hkd
  · intro k hk hka
    rw [hstart, if_pos rfl]
    exact h.dirty_active 0 (by omega) hdirty
  · intro k hk hkd
    rw [hstart, if_neg (by omega)] at hkd
    have hka := h.parent_active k hk hkd
    rw [hstart]
    split
    · next h0 => rw [h0] at hka; exact hka
    · exact hka

theorem loaded_position (i : Nat) (pos : Fin n) (w : Path n) {k : Nat} (hk : k ≤ i) :
    position (w.loaded (i + 1) pos).start k = position w.start k := position_update w.start (.inl (by omega))

theorem loaded_position_self (i : Nat) (pos : Fin n) (w : Path n) :
    position (w.loaded (i + 1) pos).start (i + 1) = position w.start i ++ [pos] := by
  rw [position, loaded_position i pos w (Nat.le_refl i), loaded, setElem_start, if_pos rfl]

/-- What is read for list `i + 1` is what it stands for. -/
theorem Represents.read (h : Represents hollow depth live V w) {i : Nat} (hi : i + 1 ≤ depth) (hlive : i ≤ live)
    (hact : (w.start i).active) {pos : Fin n}
    (hclean : Clean depth w (position w.start i ++ [pos])) (p : Fin n) :
    w.dev.readAddrList ((w.start i).cache pos) p = V (position w.start i ++ [pos] ++ [p]) := by
  rw [h.cached i (by omega) hlive hact pos]
  exact (h.stored _ (by simpa using hi) hclean p).symm

theorem Represents.load_new (h : Represents hollow depth live V w) {i : Nat} (hi : i + 1 ≤ depth) (hlive : i ≤ live)
    (hact : (w.start i).active) (hclean : ∀ k ≤ depth, i < k → (w.start k).dirty = false) (pos : Fin n) :
    Represents hollow depth (i + 1) V (w.loaded (i + 1) pos) := by
  have hstart : ∀ k, (w.loaded (i + 1) pos).start k =
      if k = i + 1 then { (w.start (i + 1)).load w.dev ((w.start i).cache pos) with positionInParent := pos } else w.start k :=
    setElem_start (i + 1) _ w
  have hdirty : ∀ k ≤ depth, ((w.loaded (i + 1) pos).start k).dirty → k ≤ i ∧ (w.start k).dirty := by
    intro k hk hkd
    rw [hstart] at hkd
    split at hkd
    · simp [AddrListCacheElem.load] at hkd
    · refine ⟨?_, hkd⟩
      by_contra hlt
      rw [hclean k hk (by omega)] at hkd
      cases hkd
  have hne : Clean depth w (position w.start i ++ [pos]) := by
    intro k hk hkd heq
    have hlen := congrArg List.length heq
    have hki : k = i + 1 := by simpa using hlen.symm
    rw [hclean k hk (by omega)] at hkd
    cases hkd
  have hsame : ∀ ps, Clean depth (w.loaded (i + 1) pos) ps → Clean depth w ps := by
    intro ps hcl k hk hkd
    have hki : k ≤ i := by
      by_contra hlt
      rw [hclean k hk (by omega)] at hkd
      cases hkd
    have hd := hcl k hk
    rw [hstart, if_neg (by omega), loaded_position i pos w hki] at hd
    exact hd hkd
  constructor
  · exact h.anchor
  · intro k hk hkl hka p
    by_cases h1 : k = i + 1
    · subst h1
      rw [loaded_position_self, hstart, if_pos rfl]
      exact h.read hi hlive hact hne p
    · rw [loaded_position i pos w (by omega), hstart, if_neg h1]
      rw [hstart, if_neg h1] at hka
      exact h.cached k hk (by omega) hka p
  · exact fun ps hps hcl => h.stored ps hps (hsame ps hcl)
  · exact fun ps hps hcl => h.solid ps hps (hsame ps hcl)
  · intro k hk hkd
    have := (hdirty k hk hkd).1
    omega
  · intro k hk hkd
    obtain ⟨hki, hkd⟩ := hdirty k hk hkd
    rw [hstart, if_neg (by omega)]
    exact h.dirty_active k hk hkd
  · intro k hk hka
    rw [hstart, if_neg (by omega)]
    exact h.root_active i (by omega) hact
  · intro k hk hkd
    obtain ⟨hki, hkd⟩ := hdirty (k + 1) hk hkd
    rw [hstart, if_neg (by omega)]
    exact h.parent_active k hk hkd

theorem Represents.load_again (h : Represents hollow depth depth V w) {i : Nat} (hi : i + 1 ≤ depth) (hact : (w.start i).active)
    (hoff : (w.start (i + 1)).active = false) :
    Represents hollow depth depth V (w.loaded (i + 1) (w.start (i + 1)).positionInParent) := by
  have hstart : ∀ k, (w.loaded (i + 1) (w.start (i + 1)).positionInParent).start k =
      if k = i + 1 then (w.start (i + 1)).load w.dev ((w.start i).cache (w.start (i + 1)).positionInParent)
      else w.start k := setElem_start (i + 1) _ w
  have hpos : ∀ k, position (w.loaded (i + 1) (w.start (i + 1)).positionInParent).start k = position w.start k :=
    fun k => position_update w.start (.inr rfl)
  have hclean : (w.start (i + 1)).dirty = false := by
    by_contra hd
    rw [h.dirty_active _ hi (by simpa using hd)] at hoff
    cases hoff
  have hdirty : ∀ k ≤ depth, ((w.loaded (i + 1) (w.start (i + 1)).positionInParent).start k).dirty = (w.start k).dirty := by
    intro k hk
    rw [hstart]
    split
    · next h1 => rw [h1, hclean]; rfl
    · rfl
  have hne : Clean depth w (position w.start i ++ [(w.start (i + 1)).positionInParent]) := by
    intro k hk hkd heq
    have hlen := congrArg List.length heq
    have hki : k = i + 1 := by simpa using hlen.symm
    rw [hki, hclean] at hkd
    cases hkd
  have hsame : ∀ ps, Clean depth (w.loaded (i + 1) (w.start (i + 1)).positionInParent) ps → Clean depth w ps := by
    intro ps hcl k hk hkd
    rw [← hpos]
    exact hcl k hk (by rw [hdirty k hk]; exact hkd)
  have hkeep : ∀ k, (w.start k).active → ((w.loaded (i + 1) (w.start (i + 1)).positionInParent).start k).active := by
    intro k hka
    rw [hstart]
    split
    · rfl
    · exact hka
  constructor
  · exact h.anchor
  · intro k hk hkl hka p
    rw [hpos]
    by_cases h1 : k = i + 1
    · subst h1
      rw [hstart, if_pos rfl]
      exact h.read hi (by omega) hact hne p
    · rw [hstart, if_neg h1] at hka ⊢
      exact h.cached k hk hkl hka p
  · exact fun ps hps hcl => h.stored ps hps (hsame ps hcl)
  · exact fun ps hps hcl => h.solid ps hps (hsame ps hcl)
  · intro k hk hkd
    exact hk
  · intro k hk hkd
    rw [hdirty k hk] at hkd
    exact hkeep k (h.dirty_active k hk hkd)
  · intro k hk hka
    exact hkeep 0 (h.root_active i (by omega) hact)
  · intro k hk hkd
    rw [hdirty (k + 1) hk] at hkd
    exact hkeep k (h.parent_active k hk hkd)

theorem Represents.loadRoot (h : Represents hollow depth live V w) : Represents hollow depth live V w.loadRoot := by
  unfold Path.loadRoot
  split
  · exact h
  next hoff =>
  have hnone : ∀ k ≤ depth, (w.start k).active = false := fun k hk => by
    by_contra hka
    exact hoff (h.root_active k hk (by simpa using hka))
  have hclean : ∀ k ≤ depth, (w.start k).dirty = false := fun k hk => by
    by_contra hkd
    have hka := h.dirty_active k hk (by simpa using hkd)
    rw [hnone k hk] at hka
    cases hka
  have hstart := setElem_start 0 ((w.start 0).load w.dev w.anchor) w
  have hdirty : ∀ k ≤ depth, ((w.setElem 0 ((w.start 0).load w.dev w.anchor)).start k).dirty = false := by
    intro k hk
    rw [hstart]
    split
    · rfl
    · exact hclean k hk
  constructor
  · exact h.anchor
  · intro k hk hkl hka p
    rw [hstart] at hka ⊢
    split at hka
    · next h0 =>
      subst h0
      have hread := h.stored [] (by simp) (fun k hk hkd => by simp [hclean k hk] at hkd) p
      rw [h.anchor] at hread
      exact hread.symm
    · rw [hnone k hk] at hka
      cases hka
  · exact fun ps hps _ => h.stored ps hps fun k hk hkd => by simp [hclean k hk] at hkd
  · exact fun ps hps _ => h.solid ps hps fun k hk hkd => by simp [hclean k hk] at hkd
  · intro k hk hkd
    simp [hdirty k hk] at hkd
  · intro k hk hkd
    simp [hdirty k hk] at hkd
  · intro k hk hka
    rfl
  · intro k hk hkd
    simp [hdirty (k + 1) hk] at hkd

/-- A page of the file gets a new address. -/
theorem Represents.setLeaf (h : Represents hollow depth depth V w) (hact : ∀ k ≤ depth, (w.start k).active) {pos : Fin n}
    {addr : Addr} (hne : (w.start depth).cache pos ≠ addr) :
    Represents hollow depth depth (Function.update V (position w.start depth ++ [pos]) addr)
      (w.setElem depth ((w.start depth).setAddr pos addr)) := by
  have hset : (w.start depth).setAddr pos addr =
      { w.start depth with cache := Function.update (w.start depth).cache pos addr, dirty := true } := if_neg hne
  have hstart := setElem_start depth ((w.start depth).setAddr pos addr) w
  have hpos : ∀ k, position (w.setElem depth ((w.start depth).setAddr pos addr)).start k = position w.start k := fun k =>
    position_update w.start (.inr (by rw [hset]))
  have hall : ∀ k ≤ depth, ((w.setElem depth ((w.start depth).setAddr pos addr)).start k).active := by
    intro k hk
    rw [hstart, hset]
    split
    · next h1 => rw [← h1]; exact hact k hk
    · exact hact k hk
  have hshort : ∀ ps : List (Fin n), ps.length ≤ depth → ps ≠ position w.start depth ++ [pos] := by
    rintro ps hps rfl
    simp at hps
  have hclean : ∀ ps, Clean depth (w.setElem depth ((w.start depth).setAddr pos addr)) ps →
      (∀ p, ps ++ [p] ≠ position w.start depth ++ [pos]) ∧ Clean depth w ps := by
    intro ps hcl
    have hleaf : ps ≠ position w.start depth := by
      have hd := hcl depth (Nat.le_refl _)
      rw [hpos, hstart, hset] at hd
      exact hd (by simp)
    refine ⟨fun p heq => hleaf (List.append_inj_left' heq rfl), fun k hk hkd => ?_⟩
    by_cases h1 : k = depth
    · rw [h1]
      exact hleaf
    · have hd := hcl k hk
      rw [hstart, if_neg h1, hpos] at hd
      exact hd hkd
  constructor
  · rw [Function.update_of_ne (hshort [] (by simp))]
    exact h.anchor
  · intro k hk hkl hka p
    rw [hpos, hstart, hset]
    by_cases h1 : k = depth
    · subst h1
      rw [if_pos rfl]
      by_cases hp : p = pos
      · rw [hp, Function.update_self]
        exact Function.update_self ..
      · have hother : position w.start k ++ [p] ≠ position w.start k ++ [pos] := by simpa using hp
        rw [Function.update_of_ne hother]
        exact (Function.update_of_ne hp ..).trans (h.cached k hk hkl (hact k hk) p)
    · rw [if_neg h1, Function.update_of_ne (hshort _ (by simp; omega))]
      exact h.cached k hk hkl (hact k hk) p
  · intro ps hps hcl p
    obtain ⟨hlong, hcl⟩ := hclean ps hcl
    rw [Function.update_of_ne (hlong p), Function.update_of_ne (hshort ps hps)]
    exact h.stored ps hps hcl p
  · intro ps hps hcl h0 hhollow
    obtain ⟨hlong, hcl⟩ := hclean ps hcl
    rw [Function.update_of_ne (hshort ps hps)] at h0 hhollow
    obtain ⟨p, hp⟩ := h.solid ps hps hcl h0 hhollow
    exact ⟨p, by rwa [Function.update_of_ne (hlong p)]⟩
  · exact fun k hk _ => hk
  · exact fun k hk _ => hall k hk
  · exact fun k hk _ => hall 0 (by omega)
  · exact fun k hk _ => hall k (by omega)

end Path
end Paffs.AddressCache
