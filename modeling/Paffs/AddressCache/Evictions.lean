import Paffs.AddressCache.StateSpec

/-! Where lists come from, and where they go when others are loaded in their place. -/
namespace Paffs.AddressCache
open Journal

/-- A dirty list that is written to make room for another one. -/
structure Eviction (n : Nat) where
  loadedFrom : List (Fin n)
  writtenTo : List (Fin n)
  deriving DecidableEq

namespace Path
variable {n : Nat} (areas : Areas n)

/-- What the loop of `loadPath` evicts from list `i` on, and where each list was loaded from after it. -/
def loads : List (Fin n) → Nat → (Nat → List (Fin n)) → Path n → List (Eviction n) × (Nat → List (Fin n))
  | [], _, origin, _ => ([], origin)
  | pos :: path, i, origin, w =>
    let elem := w.start i
    let evicted := if elem.active && elem.positionInParent ≠ pos && elem.dirty then [⟨origin i, position w.start i⟩] else []
    let origin' := if elem.active && elem.positionInParent = pos then origin
      else Function.update origin i (position w.start (i - 1) ++ [pos])
    let rest := loads path (i + 1) origin' (w.loadElem areas i pos).2
    (evicted ++ rest.1, rest.2)

variable {areas} {depth : Nat} {w w' : Path n}

theorem Turned.position_above {i : Nat} {pos : Fin n} (h : Turned i pos w w') {k : Nat} (hk : k ≤ i) :
    position w'.start k = position w.start k :=
  position_congr fun j hj => (h.above (j + 1) (by omega)).1

theorem Turned.position_self {i : Nat} {pos : Fin n} (h : Turned i pos w w') :
    position w'.start (i + 1) = position w.start i ++ [pos] := by
  rw [position, h.position_above (Nat.le_refl i), h.loaded_at]

theorem Turned.position_below {i : Nat} {pos : Fin n} (h : Turned i pos w w') (hpos : (w.start (i + 1)).positionInParent = pos)
    (k : Nat) : position w'.start k = position w.start k := by
  refine position_congr fun j _ => ?_
  rcases Nat.lt_trichotomy (j + 1) (i + 1) with hj | hj | hj
  · exact (h.above (j + 1) (by omega)).1
  · rw [hj, h.loaded_at, hpos]
  · rw [h.below (j + 1) hj]

/-- A list that is evicted goes back to where it came from. -/
theorem loads_spec {path : List (Fin n)} {i : Nat} {moved : Bool} {origin : Nat → List (Fin n)}
    (hlen : path.length + i = depth) (hun : Undisturbed path (i + 1) moved w)
    (habove : ∀ k ≤ i, origin k = position w.start k)
    (hbelow : moved = false → ∀ k ≤ depth, (w.start k).active → origin k = position w.start k)
    (hok : (loadRest areas path (i + 1) w).1 = .ok) :
    (∀ e ∈ (loads areas path (i + 1) origin w).1, e.loadedFrom = e.writtenTo) ∧
      ∀ k ≤ depth, (loads areas path (i + 1) origin w).2 k = position (loadRest areas path (i + 1) w).2.start k := by
  induction path generalizing i moved origin w with
  | nil =>
    obtain rfl : i = depth := by simpa using hlen
    exact ⟨by simp [loads], habove⟩
  | cons pos path ih =>
    rw [List.length_cons] at hlen
    rw [loadRest] at hok ⊢
    obtain ⟨w₁, hw₁, hok⟩ := ok_of_andThen hok
    have hok₁ : (w.loadElem areas (i + 1) pos).1 = .ok := by rw [hw₁]
    have hturned := loadElem_turned hok₁
    simp only [loads]
    rw [hw₁] at hturned ⊢
    rw [andThen_ok]
    -- a list that is in use stays only if nothing above it has moved
    have hstill : (w.start (i + 1)).active = true → (w.start (i + 1)).positionInParent = pos → moved = false := by
      intro hon hpos
      by_contra hm
      rcases hun.1 (by simpa using hm) with hoff | hclean
      · rw [hon] at hoff
        cases hoff
      · exact hclean.2 hpos
    set origin' := if (w.start (i + 1)).active && (w.start (i + 1)).positionInParent = pos then origin
      else Function.update origin (i + 1) (position w.start i ++ [pos]) with horigin'
    have hother : ∀ k, k ≠ i + 1 → origin' k = origin k := by
      intro k hk
      rw [horigin']
      split
      · rfl
      · exact Function.update_of_ne hk ..
    have hself : origin' (i + 1) = position w₁.start (i + 1) := by
      rw [horigin', hturned.position_self]
      split
      · next hstay =>
        obtain ⟨hon, hpos⟩ : (w.start (i + 1)).active = true ∧ (w.start (i + 1)).positionInParent = pos := by simpa using hstay
        rw [hbelow (hstill hon hpos) (i + 1) (by omega) hon, position, hpos]
      · exact Function.update_self ..
    have habove' : ∀ k ≤ i + 1, origin' k = position w₁.start k := by
      intro k hk
      by_cases hki : k = i + 1
      · rw [hki, hself]
      · rw [hother k hki, hturned.position_above (by omega), habove k (by omega)]
    have hbelow' : (moved || (w.start (i + 1)).positionInParent ≠ pos) = false →
        ∀ k ≤ depth, (w₁.start k).active → origin' k = position w₁.start k := by
      intro hm k hk hka
      by_cases hki : k ≤ i + 1
      · exact habove' k hki
      obtain ⟨hm, hpos⟩ : moved = false ∧ (w.start (i + 1)).positionInParent = pos := by simpa using hm
      rw [hturned.below k (by omega)] at hka
      rw [hother k (by omega), hturned.position_below hpos, hbelow hm k hk hka]
    obtain ⟨hevictions, horigins⟩ := ih (by omega) (hun.2.congr fun k hk => hturned.below k (by omega)) habove' hbelow' hok
    refine ⟨fun e he => ?_, horigins⟩
    rcases List.mem_append.1 he with he | he
    swap
    · exact hevictions e he
    split at he
    · next hevict =>
      obtain ⟨⟨hon, -⟩, hdirty⟩ : ((w.start (i + 1)).active = true ∧ (w.start (i + 1)).positionInParent ≠ pos) ∧
          (w.start (i + 1)).dirty = true := by simpa using hevict
      obtain rfl := List.mem_singleton.1 he
      have hm : moved = false := by
        by_contra hm
        rcases hun.1 (by simpa using hm) with hoff | hclean
        · rw [hon] at hoff
          cases hoff
        · rw [hdirty] at hclean
          cases hclean.1
      exact hbelow hm (i + 1) (by omega) hon
    · cases he

theorem loadPath_loads {path : List (Fin n)} {origin : Nat → List (Fin n)} (hlen : path.length = depth)
    (hun : Undisturbed path 1 false w) (hroot : origin 0 = [])
    (horigin : ∀ k ≤ depth, (w.start k).active → origin k = position w.start k) (hok : (w.loadPath areas path).1 = .ok) :
    (∀ e ∈ (loads areas path 1 origin w.loadRoot).1, e.loadedFrom = e.writtenTo) ∧
      ∀ k ≤ depth, (loads areas path 1 origin w.loadRoot).2 k = position (w.loadPath areas path).2.start k := by
  have hpos : ∀ k, position w.loadRoot.start k = position w.start k := fun k =>
    position_congr fun j _ => by rw [w.loadRoot_start (by omega)]
  refine loads_spec (by simpa using hlen) (hun.congr fun k hk => w.loadRoot_start hk) (fun k hk => ?_) (fun _ k hk hka => ?_) hok
  · obtain rfl : k = 0 := by omega
    exact hroot
  · rw [hpos]
    by_cases h0 : k = 0
    · subst h0
      exact hroot
    · rw [w.loadRoot_start (by omega)] at hka
      exact horigin k hk hka

end Path
/-- Where each list was loaded from. -/
abbrev Origins (n : Nat) := Indirection → Nat → List (Fin n)

namespace State
variable {n : Nat} {areas : Areas n} {s s' : State n} {slot : Slot} {origins : Origins n}

/-- Each list in use was loaded from where it is. -/
structure Tracks (origins : Origins n) (s : State n) : Prop where
  root : ∀ t, origins t 0 = []
  origin : ∀ (t : Indirection) k, k ≤ t.depth → (s.pac.lists t k).active → origins t k = position (s.pac.lists t) k

theorem Tracks.of_leaves (h : Tracks origins s)
    (hleaves : ∀ t k, (s'.pac.lists t k).positionInParent = (s.pac.lists t k).positionInParent ∧
      ((s'.pac.lists t k).active → (s.pac.lists t k).active)) : Tracks origins s' := by
  refine ⟨h.root, fun t k hk hka => ?_⟩
  rw [h.origin t k hk ((hleaves t k).2 hka)]
  exact position_congr fun j _ => ((hleaves t (j + 1)).1).symm

theorem onPath_loads (htracks : Tracks origins s) {t : Indirection} {path : List (Fin n)} (hlen : path.length = t.depth)
    (hun : Path.Undisturbed path 1 false (s.path slot t)) (heq : s.onPath slot t (Path.loadPath areas path) = (.ok, s')) :
    (∀ e ∈ (Path.loads areas path 1 (origins t) (s.path slot t).loadRoot).1, e.loadedFrom = e.writtenTo) ∧
      Tracks (Function.update origins t (Path.loads areas path 1 (origins t) (s.path slot t).loadRoot).2) s' := by
  obtain ⟨hok, hself, hother⟩ := onPath_lists heq
  obtain ⟨hevictions, horigin⟩ := Path.loadPath_loads hlen hun (htracks.root t) (htracks.origin t) hok
  refine ⟨hevictions, fun u => ?_, fun u k hk hka => ?_⟩
  · by_cases hu : u = t
    · subst hu
      rw [Function.update_self, horigin 0 (Nat.zero_le _)]
      rfl
    · rw [Function.update_of_ne hu]
      exact htracks.root u
  · by_cases hu : u = t
    · subst hu
      rw [Function.update_self, horigin k hk, hself]
    · rw [Function.update_of_ne hu]
      rw [hother u hu] at hka ⊢
      exact htracks.origin u k hk hka

end State
end Paffs.AddressCache
