import Paffs.Persistence.Mram
import Paffs.Persistence.View

/-! What a log returns of the entries that were appended to it. -/
namespace Paffs.Persistence
open Bytes Bytes.Memory

/-- An entry and what its object holds between the fields. -/
abbrev Image (n : Nat) := Padding × Entry n

variable {n : Nat}

def Image.object (x : Image n) : Memory := Persistence.object x.1 x.2
def Image.size (x : Image n) : Nat := countedSize x.2

/-- The objects' counted bytes from address `a` on. -/
def lay : Memory → Nat → List (Image n) → Memory
  | m, _, [] => m
  | m, a, x :: xs => lay (m.write a (x.object.read 0 x.size)) (a + x.size) xs

def layEnd (a : Nat) (xs : List (Image n)) : Nat := a + (xs.map Image.size).sum

/-- The first two bytes of the next object, or what the device held there before. -/
def behind (old : Memory) (a : Nat) : List (Image n) → Word 2
  | [] => old.readWord a 2
  | x :: _ => x.object.readWord 0 2

/-- Each position equals the two bytes behind it. -/
def AllLegible (old : Memory) : Nat → List (Image n) → Prop
  | _, [] => True
  | a, x :: xs => Legible (behind old (a + x.size) xs) x.2 ∧ AllLegible old (a + x.size) xs

section Lay
variable {m m' old : Memory} {a b i : Nat} {x : Image n} {xs ys : List (Image n)}

theorem lay_of_lt (h : i < a) : lay m a xs i = m i := by
  induction xs generalizing m a with
  | nil => rfl
  | cons x xs ih => rw [lay, ih (by omega), write_of_not_mem (by omega)]

theorem lay_congr (h : ∀ j, b ≤ j → m j = m' j) (hi : b ≤ i) : lay m a xs i = lay m' a xs i := by
  induction xs generalizing m m' a with
  | nil => exact h i hi
  | cons x xs ih =>
    refine ih fun j hj => ?_
    unfold write
    split
    · rfl
    · exact h j hj

theorem lay_append : lay m a (xs ++ ys) = lay (lay m a xs) (layEnd a xs) ys := by
  induction xs generalizing m a with
  | nil => rfl
  | cons x xs ih =>
    have hend : layEnd a (x :: xs) = layEnd (a + x.size) xs := by simp [layEnd, Nat.add_assoc]
    rw [List.cons_append, lay, ih, hend, lay]

/-- The first object is where it was put. -/
theorem lay_head (h : i < x.size) : lay m a (x :: xs) (a + i) = x.object i := by
  have hlen := length_read x.object 0 x.size
  rw [lay, lay_of_lt (by omega), write_of_mem ⟨by omega, by omega⟩, Nat.add_sub_cancel_left,
    List.getD_eq_getElem _ _ (by omega), getElem_read, Nat.zero_add]

theorem lay_tail (hi : a + x.size ≤ i) : lay m a (x :: xs) i = lay m (a + x.size) xs i := by
  refine lay_congr (fun j hj => write_of_not_mem ?_) hi
  rw [length_read]
  omega

theorem lay_behind : (lay m a xs).readWord a 2 = behind m a xs := by
  cases xs with
  | nil => rfl
  | cons x xs =>
    have hsize : 2 ≤ x.size := (countedSize_bounds x.2).1
    exact readWord_congr fun i hi => by rw [lay_head (by omega), Nat.zero_add]

theorem layEnd_cons (a : Nat) (x : Image n) (xs : List (Image n)) : layEnd a (x :: xs) = layEnd (a + x.size) xs := by
  simp [layEnd, Nat.add_assoc]

theorem le_layEnd (a : Nat) (xs : List (Image n)) : a ≤ layEnd a xs := Nat.le_add_right _ _

end Lay

namespace MramPersistence
variable {c : MramConfig} {s s' : MramPersistence} {x : Image c.byteUsage} {xs : List (Image c.byteUsage)}

theorem getSizeFromJE_eq {m : Memory} (h : ∀ i < x.size, m i = x.object i) : getSizeFromJE c.byteUsage m = x.size := by
  have hlist := c.dataPagesPerArea.toNat_lt
  have hbounds : x.size ≤ max 96 (6 + (c.dataPagesPerArea.toNat + 3) / 4) := (countedSize_bounds x.2).2
  rw [getSizeFromJE_of_stored (counted_stored h)]
  refine Nat.mod_eq_of_lt ?_
  change x.size < 2 ^ 16
  omega

/-! ### Appending -/

theorem appendEntry_spec (h : s.curr + sizeofMax c.byteUsage ≤ c.mramSize.toNat) : (appendEntry c s x.object).2 =
    ⟨(s.mram.write s.curr (x.object.read 0 x.size)).writeWord 0 4 (Word.ofNat 4 (s.curr + x.size)), s.curr + x.size⟩ := by
  rw [appendEntry, if_neg (by omega), getSizeFromJE_eq fun i _ => rfl]

theorem appendEntry_noSpace {entry : Memory} : (appendEntry c s entry).1 = .noSpace ↔
    c.mramSize.toNat < s.curr + sizeofMax c.byteUsage := by
  unfold appendEntry
  split
  · simpa using ‹_›
  · dsimp only
    split <;> simp <;> omega

/-- The high water mark is where the next entry goes. -/
structure Ready (c : MramConfig) (s : MramPersistence) : Prop where
  hwm_eq : s.hwm = s.curr
  four_le : 4 ≤ s.curr
  curr_le : s.curr = 4 ∨ s.curr ≤ c.mramSize.toNat

theorem ready_clear (s : MramPersistence) : Ready c s.clear := by
  refine ⟨?_, le_rfl, .inl rfl⟩
  rw [hwm, clear, readWord_writeWord_self]
  exact Word.toNat_ofNat (by simp [sizeofPageAbs])

theorem appendAll_cons (h : appendAll c s (x.object :: xs.map Image.object) = some s') :
    s.curr + sizeofMax c.byteUsage ≤ c.mramSize.toNat ∧
      appendAll c (appendEntry c s x.object).2 (xs.map Image.object) = some s' := by
  rw [appendAll] at h
  by_cases hspace : (appendEntry c s x.object).1 = .noSpace
  · simp [hspace] at h
  · dsimp only at h
    rw [if_neg hspace] at h
    exact ⟨by rwa [appendEntry_noSpace, not_lt] at hspace, h⟩

theorem appendAll_spec (hs : Ready c s) (h : appendAll c s (xs.map Image.object) = some s') :
    Ready c s' ∧ s'.curr = layEnd s.curr xs ∧ ∀ i, 4 ≤ i → s'.mram i = lay s.mram s.curr xs i := by
  induction xs generalizing s with
  | nil =>
    obtain rfl : s = s' := Option.some.inj h
    exact ⟨hs, by simp [layEnd], fun i _ => rfl⟩
  | cons x xs ih =>
    obtain ⟨hfit, hrest⟩ := appendAll_cons h
    have hmax : x.size ≤ sizeofMax c.byteUsage := countedSize_le_sizeofMax x.2
    have hmram : c.mramSize.toNat < 2 ^ 32 := c.mramSize.toNat_lt
    have hfour := hs.four_le
    rw [appendEntry_spec hfit] at hrest
    obtain ⟨hready, hcurr, hbytes⟩ := ih (s := ⟨_, _⟩) ⟨by
      rw [hwm, readWord_writeWord_self]
      exact Word.toNat_ofNat (by omega), by dsimp only; omega, .inr (by dsimp only; omega)⟩ hrest
    refine ⟨hready, hcurr.trans (layEnd_cons _ _ _).symm, fun i hi => ?_⟩
    rw [hbytes i hi, lay]
    refine lay_congr (fun j hj => write_of_not_mem ?_) hi
    rw [toBytes_length]
    omega

/-- A log with room for the largest entry each time refuses none. -/
theorem appendAll_of_room (h : s.curr + xs.length * sizeofMax c.byteUsage ≤ c.mramSize.toNat) :
    ∃ s', appendAll c s (xs.map Image.object) = some s' := by
  induction xs generalizing s with
  | nil => exact ⟨s, rfl⟩
  | cons x xs ih =>
    have hmax : x.size ≤ sizeofMax c.byteUsage := countedSize_le_sizeofMax x.2
    rw [List.length_cons, Nat.succ_mul] at h
    have hfit : s.curr + sizeofMax c.byteUsage ≤ c.mramSize.toNat := by omega
    have hspace : (appendEntry c s x.object).1 ≠ .noSpace := by
      rw [Ne, appendEntry_noSpace]
      omega
    rw [List.map_cons, appendAll]
    dsimp only
    rw [if_neg hspace]
    apply ih
    rw [appendEntry_spec hfit]
    dsimp only
    omega

/-! ### Reading -/

/-- What is read instead of the entries. -/
def seenAll (old : Memory) : Nat → List (Image n) → List (Entry n)
  | _, [] => []
  | a, x :: xs => seen (behind old (a + x.size) xs) x.2 :: seenAll old (a + x.size) xs

theorem seenAll_eq_iff (old : Memory) (a : Nat) (xs : List (Image n)) :
    seenAll old a xs = xs.map Prod.snd ↔ AllLegible old a xs := by
  induction xs generalizing a with
  | nil => simp [seenAll, AllLegible]
  | cons x xs ih => rw [seenAll, List.map_cons, List.cons.injEq, seen_eq_self_iff, ih, AllLegible]

theorem eight_le_sizeofMax (n : Nat) : 8 ≤ sizeofMax n := by
  have hswap := countedSize_le_sizeofMax (n := n) (.superblock (.areaMap (Word.ofNat 2 0) (.swap (Word.ofNat 2 0))))
  exact (show 8 ≤ sizeof Shape.areaMapSwap by decide).trans hswap

variable {old : Memory}

theorem readNextElem_cons (hmem : ∀ i, s.curr ≤ i → s.mram i = lay old s.curr (x :: xs) i)
    (hhwm : s.curr < s.hwm) (hlt : s.hwm < 2 ^ 32 - 1) : ∃ m, readNextElem c s = .ok (m, { s with curr := s.curr + x.size }) ∧
      view c.byteUsage m = some (seen (behind old (s.curr + x.size) xs) x.2) := by
  have hmax : x.size ≤ sizeofMax c.byteUsage := countedSize_le_sizeofMax x.2
  have htwo : 2 ≤ x.size := (countedSize_bounds x.2).1
  have hobject : ∀ i < x.size, fetched c s i = x.object i := fun i hi => by
    rw [fetched, if_pos (by omega), hmem _ (by omega), lay_head hi]
  have hsize := getSizeFromJE_eq hobject
  refine ⟨fetched c s, ?_, ?_⟩
  · rw [readNextElem, if_neg (by omega)]
    simp only [hsize]
    rw [if_neg (by omega)]
  · rw [view_of_stored (counted_stored hobject)]
    rcases position_or_whole x.2 with ⟨offs, position, heq⟩ | ⟨-, -, hseen, -⟩
    · have hsix : countedSize x.2 = 6 := heq ▸ show sizeof Shape.areaMapType = 6 by decide
      have height := eight_le_sizeofMax c.byteUsage
      have hbehind : (fetched c s).readWord (countedSize x.2) 2 = behind old (s.curr + x.size) xs := by
        rw [← lay_behind]
        refine readWord_congr fun i hi => ?_
        rw [fetched, if_pos (by omega), hmem _ (by omega), ← Nat.add_assoc, lay_tail (by exact Nat.le_add_right _ _)]
        rfl
      rw [hbehind]
    · rw [hseen, hseen]

theorem readAll_spec (fuel : Nat) (hmem : ∀ i, s.curr ≤ i → s.mram i = lay old s.curr xs i)
    (hhwm : s.hwm = layEnd s.curr xs) (hlt : s.hwm < 2 ^ 32 - 1) (hfuel : xs.length < fuel) :
    ∃ ms, readAll c fuel s = some ms ∧ ms.map (view c.byteUsage) = (seenAll old s.curr xs).map some := by
  induction xs generalizing s fuel with
  | nil =>
    obtain ⟨fuel, rfl⟩ := Nat.exists_eq_succ_of_ne_zero (Nat.ne_zero_of_lt hfuel)
    have hend : s.curr ≥ s.hwm := by simp [hhwm, layEnd]
    exact ⟨[], by simp [readAll, readNextElem, hend], rfl⟩
  | cons x xs ih =>
    obtain ⟨fuel, rfl⟩ := Nat.exists_eq_succ_of_ne_zero (Nat.ne_zero_of_lt hfuel)
    have htwo : 2 ≤ x.size := (countedSize_bounds x.2).1
    rw [layEnd_cons] at hhwm
    have hle := le_layEnd (s.curr + x.size) xs
    obtain ⟨m, hread, hview⟩ := readNextElem_cons hmem (by omega) hlt
    obtain ⟨ms, hrest, hviews⟩ := ih (s := { s with curr := s.curr + x.size }) fuel
      (fun i hi => by
        dsimp only at hi ⊢
        rw [hmem i (by omega), lay_tail hi]) hhwm hlt (by simpa using hfuel)
    refine ⟨m :: ms, by simp [readAll, hread, hrest], ?_⟩
    rw [List.map_cons, hview, hviews, seenAll, List.map_cons]

/-- The log as a whole: the entries that were appended to a cleared device, each position as `seen`. -/
theorem readAll_appendAll {fuel : Nat} (h : appendAll c s.clear (xs.map Image.object) = some s') (hfuel : xs.length < fuel) :
    ∃ ms, readAll c fuel s'.rewind = some ms ∧ ms.map (view c.byteUsage) = (seenAll s.mram 4 xs).map some := by
  obtain ⟨hready, hcurr, hbytes⟩ := appendAll_spec (ready_clear s) h
  have hmram : c.mramSize.toNat < 2 ^ 32 := c.mramSize.toNat_lt
  have hmod := c.mramSize_mod
  have hbound := hready.curr_le
  have hhwm := hready.hwm_eq
  refine readAll_spec (s := s'.rewind) fuel (fun i hi => ?_) (hhwm.trans hcurr) (by change s'.hwm < _; omega) hfuel
  rw [rewind, hbytes i hi]
  refine lay_congr (fun j hj => write_of_not_mem ?_) hi
  rw [toBytes_length]
  exact fun hj' => absurd hj'.2 (by simpa [rewind, sizeofPageAbs] using hj)

/-- A log gives back its entries if and only if each position equals the two bytes behind its entry. -/
theorem log_round_trip (c : MramConfig) (s s' : MramPersistence) (xs : List (Image c.byteUsage))
    (h : appendAll c s.clear (xs.map Image.object) = some s') (fuel : Nat) (hfuel : xs.length < fuel) :
    (readAll c fuel s'.rewind).map (List.map (view c.byteUsage)) = some ((xs.map Prod.snd).map some) ↔
      AllLegible s.mram 4 xs := by
  obtain ⟨ms, hread, hviews⟩ := readAll_appendAll h hfuel
  rw [← seenAll_eq_iff, hread, Option.map_some, Option.some_inj, hviews]
  exact (List.map_injective_iff.2 (Option.some_injective _)).eq_iff

/-! ### Logs on an erased device -/

def erased : MramPersistence := ⟨fun _ => 0, 0⟩

def noPadding : Padding := ⟨fun _ => 0, 0⟩

def pageReplaced : List (Image MramConfig.default.byteUsage) :=
  [(noPadding, .pagestate .tree (.replacePagePos (Word.ofNat 4 7) (Word.ofNat 4 0) (Word.ofNat 4 3) (Word.ofNat 4 1))),
   (noPadding, .superblock (.areaMap (Word.ofNat 2 1) (.swap (Word.ofNat 2 5))))]

def areaMoved : List (Image MramConfig.default.byteUsage) :=
  [(noPadding, .superblock (.areaMap (Word.ofNat 2 1) (.position (Word.ofNat 2 5))))]

theorem appendAll_erased {xs : List (Image MramConfig.default.byteUsage)} (h : xs.length ≤ 2) :
    ∃ s', appendAll .default erased.clear (xs.map Image.object) = some s' := by
  apply appendAll_of_room
  have hmax : sizeofMax MramConfig.default.byteUsage = 96 := by decide +kernel
  have hmram : MramConfig.default.mramSize.toNat = 4096 * 512 := by decide +kernel
  have hcurr : erased.clear.curr = 4 := rfl
  rw [hmax, hmram, hcurr]
  omega

theorem log_round_trip_pageReplaced : ∃ s', appendAll .default erased.clear (pageReplaced.map Image.object) = some s' ∧
    (readAll .default 3 s'.rewind).map (List.map (view MramConfig.default.byteUsage)) =
      some ((pageReplaced.map Prod.snd).map some) := by
  obtain ⟨s', h⟩ := appendAll_erased (show pageReplaced.length ≤ 2 from le_rfl)
  exact ⟨s', h, (log_round_trip _ _ _ _ h 3 (by decide)).2 ⟨trivial, trivial, trivial⟩⟩

/-- The position of an area map entry is lost. -/
theorem log_loses_position : ¬ ∀ (c : MramConfig) (s s' : MramPersistence) (xs : List (Image c.byteUsage)),
    appendAll c s.clear (xs.map Image.object) = some s' → ∀ fuel, xs.length < fuel →
      (readAll c fuel s'.rewind).map (List.map (view c.byteUsage)) = some ((xs.map Prod.snd).map some) := by
  intro hall
  obtain ⟨s', h⟩ := appendAll_erased (show areaMoved.length ≤ 2 from one_le_two)
  obtain ⟨ms, hread, hviews⟩ := readAll_appendAll h (Nat.lt_add_one _)
  have hsame := hall _ _ _ _ h _ (Nat.lt_add_one _)
  rw [hread, Option.map_some, Option.some_inj, hviews] at hsame
  have hlist := List.map_injective_iff.2 (Option.some_injective _) hsame
  have hlegible := (seenAll_eq_iff _ _ _).1 hlist
  have hposition : Word.ofNat 2 5 = Memory.readWord (fun _ => 0) (4 + 6) 2 := hlegible.1
  exact absurd hposition (by decide)

end MramPersistence
end Paffs.Persistence
