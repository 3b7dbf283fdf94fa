import Mathlib.Data.Finset.Card
import Paffs.Common.BitList

/-! The searches in a list of bits, and the bytes they look at. -/
namespace Paffs
open Bytes

namespace BitList
variable (numberOfElements : Nat)

def clear (list : Memory) : Memory := fun i => if i < byteUsage numberOfElements then 0#8 else list i

def resetBit (n : Nat) (list : Memory) : Memory :=
  if n < numberOfElements then Function.update list (n / 8) (list (n / 8) &&& ~~~(1#8 <<< (n % 8))) else list

/-- The byte that `setBit`, `resetBit` and `getBit` use. -/
def bytesOf (n : Nat) : List Nat := if n < numberOfElements then [n / 8] else []

/-! The searches give back the bytes they read, too. -/

/-- The bits of a byte, up to the end of the list. -/
def searchByte (list : Memory) : List Nat → Option Nat × List Nat
  | [] => (none, [])
  | j :: js =>
    if j < numberOfElements then
      if getBit numberOfElements j list then
        let (found, read) := searchByte list js
        (found, bytesOf numberOfElements j ++ read)
      else (some j, bytesOf numberOfElements j)
    else (none, [])

/-- A byte is looked at if not all of it is set. The counters have 32 bits. -/
def searchIn (list : Memory) (i : Nat) : Option Nat × List Nat :=
  let first := i * 8 % 2 ^ 32
  let bound := (i + 1) * 8 % 2 ^ 32
  if list i ≠ 0xFF then searchByte numberOfElements list (List.range' first (bound - first)) else (none, [])

/-- The loop of `findFirstFree`. -/
def searchFrom (list : Memory) : Nat → Nat → Option Nat × List Nat
  | 0, _ => (none, [])
  | k + 1, i =>
    if i ≤ numberOfElements / 8 then
      match searchIn numberOfElements list i with
      | (some j, read) => (some j, i :: read)
      | (none, read) =>
        let (found, read') := searchFrom list k ((i + 1) % 2 ^ 32)
        (found, i :: (read ++ read'))
    else (some numberOfElements, [])

/-- After `2 ^ 32` rounds the counter is where it was; `none` means that the loop does not end. -/
def findFirstFree (list : Memory) : Option Nat × List Nat := searchFrom numberOfElements list (2 ^ 32) 0

def anyByte (list : Memory) : List Nat → Bool × List Nat
  | [] => (false, [])
  | i :: is =>
    if list i ≠ 0 then (true, [i])
    else
      let (found, read) := anyByte list is
      (found, i :: read)

def isSetSomewhere (list : Memory) : Bool × List Nat := anyByte list (List.range (numberOfElements / 8 + 1))

def countSetBits (list : Memory) : Nat × List Nat :=
  ((List.range numberOfElements).countP (getBit numberOfElements · list),
    (List.range numberOfElements).flatMap (bytesOf numberOfElements))

inductive Op where
  | setBit (n : Nat)
  | resetBit (n : Nat)

def step (list : Memory) : Op → Memory
  | .setBit n => setBit numberOfElements n list
  | .resetBit n => resetBit numberOfElements n list

/-- `behind` is what lies behind the array. -/
def run (behind : Memory) (ops : List Op) : Memory := ops.foldl (step numberOfElements) (clear numberOfElements behind)

/-! ### The set of bits -/

/-- A list of bits as the set of those that are set. -/
def Op.on (s : Finset Nat) : Op → Finset Nat
  | .setBit n => if n < numberOfElements then insert n s else s
  | .resetBit n => s.erase n

def bits (ops : List Op) : Finset Nat := ops.foldl (Op.on numberOfElements) ∅

/-- The bytes hold the set, and no bit behind the last element. -/
structure Represents (list : Memory) (s : Finset Nat) : Prop where
  lt : ∀ n ∈ s, n < numberOfElements
  bit : ∀ n < 8 * byteUsage numberOfElements, (list (n / 8)).getLsbD (n % 8) = decide (n ∈ s)

/-- What the searches are for. -/
structure Exact (list : Memory) (s : Finset Nat) : Prop where
  findFirstFree : ∃ n, (findFirstFree numberOfElements list).1 = some n ∧ n ≤ numberOfElements ∧ n ∉ s ∧ ∀ i < n, i ∈ s
  isSetSomewhere : (isSetSomewhere numberOfElements list).1 = true ↔ ∃ n < numberOfElements, n ∈ s
  countSetBits : (countSetBits numberOfElements list).1 = s.card
  inRange : ∀ i ∈ (BitList.findFirstFree numberOfElements list).2 ++ (BitList.isSetSomewhere numberOfElements list).2 ++
    (BitList.countSetBits numberOfElements list).2, i < byteUsage numberOfElements
  elements : ∀ n, ∀ i ∈ bytesOf numberOfElements n, i < byteUsage numberOfElements

/-- There is a bit to be found in a byte of the list, or there is a rest of a byte behind the last element. -/
def Searchable (s : Finset Nat) : Prop :=
  (numberOfElements % 8 ≠ 0 ∨ ∃ n < numberOfElements, n ∈ s) ∧
    ((∃ n < numberOfElements, n < 2 ^ 32 - 8 ∧ n ∉ s) ∨
      (∀ n < numberOfElements, n ∈ s) ∧ numberOfElements % 8 ≠ 0 ∧ numberOfElements / 8 + 1 < 2 ^ 32)

variable {numberOfElements} {k n i f : Nat} {list behind : Memory} {s : Finset Nat}

/-! ### What the operations do to the set -/

theorem lt_byteUsage (h : n < numberOfElements) : n / 8 < byteUsage numberOfElements := by
  unfold byteUsage
  omega

theorem getLsbD_resetBit (h : n < numberOfElements) :
    (resetBit numberOfElements n list (i / 8)).getLsbD (i % 8) = ((list (i / 8)).getLsbD (i % 8) && decide (i ≠ n)) := by
  rw [resetBit, if_pos h]
  by_cases hbyte : i / 8 = n / 8
  · have hbit : n % 8 = i % 8 ↔ i = n := by omega
    rw [hbyte, Function.update_self, ← BitVec.twoPow_eq, BitVec.getLsbD_and, BitVec.getLsbD_not, BitVec.getLsbD_twoPow]
    simp [Nat.mod_lt, hbit]
  · have hne : i ≠ n := fun heq => hbyte (congrArg (· / 8) heq)
    rw [Function.update_of_ne hbyte, decide_eq_true hne, Bool.and_true]

theorem clear_represents (list : Memory) : Represents numberOfElements (clear numberOfElements list) ∅ := by
  refine ⟨fun n hn => absurd hn (Finset.notMem_empty n), fun n hn => ?_⟩
  have hbyte : n / 8 < byteUsage numberOfElements := Nat.div_lt_of_lt_mul hn
  rw [clear, if_pos hbyte]
  simp

theorem Represents.step (h : Represents numberOfElements list s) (op : Op) :
    Represents numberOfElements (step numberOfElements list op) (op.on numberOfElements s) := by
  cases op with
  | setBit n =>
    by_cases hlt : n < numberOfElements
    · refine ⟨fun i hi => ?_, fun i hi => ?_⟩
      · rw [Op.on, if_pos hlt, Finset.mem_insert] at hi
        rcases hi with rfl | hi
        · exact hlt
        · exact h.lt i hi
      · rw [BitList.step, getLsbD_setBit hlt, h.bit i hi, Op.on, if_pos hlt]
        simp [Bool.or_comm]
    · rw [BitList.step, setBit, if_neg hlt, Op.on, if_neg hlt]
      exact h
  | resetBit n =>
    refine ⟨fun i hi => h.lt i (Finset.mem_of_mem_erase hi), fun i hi => ?_⟩
    by_cases hlt : n < numberOfElements
    · rw [BitList.step, getLsbD_resetBit hlt, h.bit i hi, Op.on]
      simp [Bool.and_comm]
    · have hn : n ∉ s := fun hn => hlt (h.lt n hn)
      rw [BitList.step, resetBit, if_neg hlt, h.bit i hi, Op.on, Finset.erase_eq_of_notMem hn]

theorem run_represents (behind : Memory) (ops : List Op) :
    Represents numberOfElements (run numberOfElements behind ops) (bits numberOfElements ops) := by
  have hfold : ∀ (list : Memory) (s : Finset Nat), Represents numberOfElements list s →
      Represents numberOfElements (ops.foldl (BitList.step numberOfElements) list) (ops.foldl (Op.on numberOfElements) s) := by
    induction ops with
    | nil => exact fun _ _ h => h
    | cons op ops ih => exact fun list s h => ih _ _ (h.step op)
  exact hfold _ _ (clear_represents behind)

theorem Represents.getBit (h : Represents numberOfElements list s) (hn : n < numberOfElements) :
    BitList.getBit numberOfElements n list = decide (n ∈ s) := by
  rw [getBit_eq hn]
  refine h.bit n ?_
  unfold byteUsage
  omega

theorem byte_ext {b b' : Byte} (h : ∀ j < 8, b.getLsbD j = b'.getLsbD j) : b = b' :=
  BitVec.eq_of_getLsbD_eq fun j hj => h j hj

theorem Represents.byte_eq_zero (h : Represents numberOfElements list s) (hi : i < byteUsage numberOfElements)
    (hnone : ∀ n ∈ s, n / 8 ≠ i) : list i = 0 := by
  refine byte_ext fun j hj => ?_
  have hbit := h.bit (8 * i + j) (by omega)
  have hbyte : (8 * i + j) / 8 = i := by omega
  have hmod : (8 * i + j) % 8 = j := by omega
  rw [hbyte, hmod, decide_eq_false fun hmem => hnone _ hmem hbyte] at hbit
  rw [hbit]
  simp

theorem Represents.byte_ne_zero (h : Represents numberOfElements list s) (hn : n ∈ s) : list (n / 8) ≠ 0 := by
  intro hzero
  have hbit := h.bit n (by have := h.lt n hn; unfold byteUsage; omega)
  rw [hzero, decide_eq_true hn] at hbit
  simp at hbit

theorem Represents.byte_ne_full (h : Represents numberOfElements list s) (hlt : n < numberOfElements) (hn : n ∉ s) :
    list (n / 8) ≠ 0xFF := by
  intro hfull
  have hbit := h.bit n (by unfold byteUsage; omega)
  have hall : ∀ j : Fin 8, (0xFF : Byte).getLsbD j = true := by decide
  rw [hfull, decide_eq_false hn, hall ⟨n % 8, Nat.mod_lt _ (by decide)⟩] at hbit
  cases hbit

/-! ### The search for a bit that is not set -/

theorem mem_bytesOf : i ∈ bytesOf numberOfElements n ↔ n < numberOfElements ∧ i = n / 8 := by
  unfold bytesOf
  split_ifs with h
  · simp [h]
  · simp [h]

theorem searchByte_read {js : List Nat} {x : Nat} (hx : x ∈ (searchByte numberOfElements list js).2) :
    ∃ j ∈ js, j < numberOfElements ∧ x = j / 8 := by
  induction js with
  | nil => cases hx
  | cons j js ih =>
    unfold searchByte at hx
    split_ifs at hx with hlt hbit
    · rcases List.mem_append.mp hx with hx | hx
      · exact ⟨j, List.mem_cons_self, mem_bytesOf.mp hx⟩
      · obtain ⟨j', hmem, hj'⟩ := ih hx
        exact ⟨j', List.mem_cons_of_mem _ hmem, hj'⟩
    · exact ⟨j, List.mem_cons_self, mem_bytesOf.mp hx⟩
    · cases hx

theorem searchByte_none (h : Represents numberOfElements list s) {js : List Nat}
    (hset : ∀ j ∈ js, j < numberOfElements → j ∈ s) : (searchByte numberOfElements list js).1 = none := by
  induction js with
  | nil => rfl
  | cons j js ih =>
    unfold searchByte
    split_ifs with hlt hbit
    · exact ih fun j' hj' => hset j' (List.mem_cons_of_mem _ hj')
    · rw [h.getBit hlt, decide_eq_true (hset j List.mem_cons_self hlt)] at hbit
      exact absurd rfl hbit
    · rfl

/-- The first bit of the list that is not set. -/
structure IsFirst (numberOfElements : Nat) (s : Finset Nat) (f : Nat) : Prop where
  lt : f < numberOfElements
  notMem : f ∉ s
  before : ∀ i < f, i ∈ s

theorem searchByte_first (h : Represents numberOfElements list s) (hf : IsFirst numberOfElements s f) (len : Nat)
    (hi : i ≤ f) (hlen : f < i + len) : (searchByte numberOfElements list (List.range' i len)).1 = some f := by
  induction len generalizing i with
  | zero => omega
  | succ len ih =>
    rw [List.range'_succ]
    unfold searchByte
    rw [if_pos (lt_of_le_of_lt hi hf.lt), h.getBit (lt_of_le_of_lt hi hf.lt)]
    rcases Nat.eq_or_lt_of_le hi with rfl | hbefore
    · rw [if_neg (by simpa using hf.notMem)]
    · rw [if_pos (by simpa using hf.before i hbefore)]
      exact ih hbefore (by omega)

/-! The rounds of the loop. -/

theorem searchIn_read {x : Nat} (hx : x ∈ (searchIn numberOfElements list i).2) : x ≤ numberOfElements / 8 := by
  unfold searchIn at hx
  dsimp only at hx
  split_ifs at hx
  · obtain ⟨j, -, hlt, rfl⟩ := searchByte_read hx
    exact Nat.div_le_div_right hlt.le
  · cases hx

theorem searchIn_read_of_small (hi : (i + 1) * 8 < 2 ^ 32) {x : Nat} (hx : x ∈ (searchIn numberOfElements list i).2) : x = i := by
  unfold searchIn at hx
  dsimp only at hx
  split_ifs at hx
  · obtain ⟨j, hmem, -, rfl⟩ := searchByte_read hx
    rw [List.mem_range'_1] at hmem
    omega
  · cases hx

theorem searchIn_none (h : Represents numberOfElements list s)
    (hset : ∀ j, i * 8 % 2 ^ 32 ≤ j → j < (i + 1) * 8 % 2 ^ 32 → j < numberOfElements → j ∈ s) :
    (searchIn numberOfElements list i).1 = none := by
  unfold searchIn
  dsimp only
  split_ifs
  · refine searchByte_none h fun j hj hlt => hset j ?_ ?_ hlt
    · exact (List.mem_range'_1.mp hj).1
    · obtain ⟨hfirst, hbound⟩ := List.mem_range'_1.mp hj
      omega
  · rfl

theorem searchIn_first (h : Represents numberOfElements list s) (hf : IsFirst numberOfElements s f) (hsmall : f < 2 ^ 32 - 8) :
    (searchIn numberOfElements list (f / 8)).1 = some f := by
  unfold searchIn
  dsimp only
  rw [if_pos (h.byte_ne_full hf.lt hf.notMem)]
  exact searchByte_first h hf _ (by omega) (by omega)

theorem searchFrom_found (hi : i ≤ numberOfElements / 8) (hfound : (searchIn numberOfElements list i).1 = some f) :
    searchFrom numberOfElements list (k + 1) i = (some f, i :: (searchIn numberOfElements list i).2) := by
  rw [searchFrom, if_pos hi]
  split
  · rename_i heq
    rw [heq] at hfound
    cases hfound
    rw [heq]
  · rename_i heq
    rw [heq] at hfound
    cases hfound

theorem searchFrom_goes (hi : i ≤ numberOfElements / 8) (hnone : (searchIn numberOfElements list i).1 = none) :
    searchFrom numberOfElements list (k + 1) i = ((searchFrom numberOfElements list k ((i + 1) % 2 ^ 32)).1,
      i :: ((searchIn numberOfElements list i).2 ++ (searchFrom numberOfElements list k ((i + 1) % 2 ^ 32)).2)) := by
  rw [searchFrom, if_pos hi]
  split
  · rename_i heq
    rw [heq] at hnone
    cases hnone
  · rename_i heq
    rw [heq]

/-- A bit that is not set is found where its number is not too large for the counters. -/
theorem searchFrom_first (h : Represents numberOfElements list s) (hf : IsFirst numberOfElements s f) (hsmall : f < 2 ^ 32 - 8)
    (hi : i ≤ f / 8) (hk : f / 8 < i + k) : (searchFrom numberOfElements list k i).1 = some f ∧
      ∀ x ∈ (searchFrom numberOfElements list k i).2, x ≤ f / 8 := by
  induction k generalizing i with
  | zero => omega
  | succ k ih =>
    have hend : i ≤ numberOfElements / 8 := hi.trans (Nat.div_le_div_right hf.lt.le)
    have hread : ∀ x ∈ (searchIn numberOfElements list i).2, x ≤ f / 8 := by
      intro x hx
      rw [searchIn_read_of_small (by omega) hx]
      exact hi
    rcases Nat.eq_or_lt_of_le hi with rfl | hbefore
    · rw [searchFrom_found hend (searchIn_first h hf hsmall)]
      exact ⟨rfl, List.forall_mem_cons.mpr ⟨le_rfl, hread⟩⟩
    · have hnone : (searchIn numberOfElements list i).1 = none :=
        searchIn_none h fun j _ hj _ => hf.before j (by omega)
      have hnext : (i + 1) % 2 ^ 32 = i + 1 := Nat.mod_eq_of_lt (by omega)
      obtain ⟨hfound, hrest⟩ := @ih (i + 1) hbefore (by omega)
      rw [searchFrom_goes hend hnone, hnext]
      refine ⟨hfound, List.forall_mem_cons.mpr ⟨hi, fun x hx => ?_⟩⟩
      rcases List.mem_append.mp hx with hx | hx
      · exact hread x hx
      · exact hrest x hx

/-- No bit that is not set can be seen. -/
def Unseen (numberOfElements : Nat) (s : Finset Nat) : Prop := ∀ n < numberOfElements, n < 2 ^ 32 - 8 → n ∈ s

theorem Unseen.searchIn (hunseen : Unseen numberOfElements s) (h : Represents numberOfElements list s) (i : Nat) :
    (BitList.searchIn numberOfElements list i).1 = none :=
  searchIn_none h fun j hj hj' hlt => hunseen j hlt (by omega)

/-- Then all bytes are read, also the one behind the last whole byte. -/
theorem Unseen.searchFrom (hunseen : Unseen numberOfElements s) (h : Represents numberOfElements list s)
    (hsize : numberOfElements / 8 + 1 < 2 ^ 32) (hi : i ≤ numberOfElements / 8 + 1) (hk : numberOfElements / 8 + 1 < i + k) :
    (BitList.searchFrom numberOfElements list k i).1 = some numberOfElements ∧
      (∀ x ∈ (BitList.searchFrom numberOfElements list k i).2, x ≤ numberOfElements / 8) ∧
      ∀ x, i ≤ x → x ≤ numberOfElements / 8 → x ∈ (BitList.searchFrom numberOfElements list k i).2 := by
  induction k generalizing i with
  | zero => omega
  | succ k ih =>
    by_cases hend : i ≤ numberOfElements / 8
    · have hnext : (i + 1) % 2 ^ 32 = i + 1 := Nat.mod_eq_of_lt (by omega)
      obtain ⟨hfound, hread, hall⟩ := @ih (i + 1) (by omega) (by omega)
      rw [searchFrom_goes hend (hunseen.searchIn h i), hnext]
      refine ⟨hfound, List.forall_mem_cons.mpr ⟨hend, fun x hx => ?_⟩, fun x hx hx' => ?_⟩
      · rcases List.mem_append.mp hx with hx | hx
        · exact searchIn_read hx
        · exact hread x hx
      · rcases Nat.eq_or_lt_of_le hx with rfl | hlt
        · exact List.mem_cons_self
        · exact List.mem_cons_of_mem _ (List.mem_append_right _ (hall x hlt hx'))
    · rw [BitList.searchFrom, if_neg hend]
      exact ⟨rfl, fun x hx => (by cases hx), fun x hx hx' => absurd (hx.trans hx') hend⟩

/-- The counter wraps around before it gets to the end of a list that is too long. -/
theorem Unseen.endless (hunseen : Unseen numberOfElements s) (h : Represents numberOfElements list s)
    (hsize : 2 ^ 32 ≤ numberOfElements / 8 + 1) (hi : i < 2 ^ 32) (k : Nat) :
    (BitList.searchFrom numberOfElements list k i).1 = none := by
  induction k generalizing i with
  | zero => rfl
  | succ k ih =>
    rw [searchFrom_goes (by omega) (hunseen.searchIn h i)]
    exact ih (Nat.mod_lt _ (by decide))

/-! ### The search for a bit that is set -/

theorem anyByte_read (is : List Nat) : ∀ x ∈ (anyByte list is).2, x ∈ is := by
  induction is with
  | nil => exact fun x hx => by cases hx
  | cons i is ih =>
    intro x hx
    unfold anyByte at hx
    split_ifs at hx
    · rw [List.mem_singleton.mp hx]
      exact List.mem_cons_self
    · rcases List.mem_cons.mp hx with rfl | hx
      · exact List.mem_cons_self
      · exact List.mem_cons_of_mem _ (ih x hx)

theorem anyByte_iff (is : List Nat) : (anyByte list is).1 = true ↔ ∃ i ∈ is, list i ≠ 0 := by
  induction is with
  | nil => simp [anyByte]
  | cons i is ih =>
    unfold anyByte
    split_ifs with hbyte
    · exact iff_of_true rfl ⟨i, List.mem_cons_self, hbyte⟩
    · rw [List.exists_mem_cons_iff]
      exact ih.trans (or_iff_right hbyte).symm

/-- It ends at the first byte that is not zero. -/
theorem anyByte_read_le (len : Nat) {n : Nat} (hbyte : list n ≠ 0) (hi : i ≤ n) (hlen : n < i + len) :
    ∀ x ∈ (anyByte list (List.range' i len)).2, x ≤ n := by
  induction len generalizing i with
  | zero => omega
  | succ len ih =>
    rw [List.range'_succ]
    unfold anyByte
    split_ifs with hfound
    · intro x hx
      rw [List.mem_singleton.mp hx]
      exact hi
    · have hne : i ≠ n := by
        rintro rfl
        exact hfound hbyte
      exact List.forall_mem_cons.mpr ⟨hi, ih (by omega) (by omega)⟩

/-- Behind zeros it gets to every byte. -/
theorem mem_anyByte (len : Nat) {n : Nat} (hzero : ∀ x, i ≤ x → x < n → list x = 0) (hi : i ≤ n) (hlen : n < i + len) :
    n ∈ (anyByte list (List.range' i len)).2 := by
  induction len generalizing i with
  | zero => omega
  | succ len ih =>
    rw [List.range'_succ]
    unfold anyByte
    rcases Nat.eq_or_lt_of_le hi with rfl | hbefore
    · split_ifs
      · exact List.mem_singleton.mpr rfl
      · exact List.mem_cons_self
    · rw [if_neg (not_not.mpr (hzero i (Nat.le_refl i) hbefore))]
      exact List.mem_cons_of_mem _ (ih (fun x hx => hzero x (by omega)) hbefore (by omega))

theorem isSetSomewhere_read : ∀ x ∈ (isSetSomewhere numberOfElements list).2, x ≤ numberOfElements / 8 := by
  intro x hx
  exact Nat.le_of_lt_succ (List.mem_range.mp (anyByte_read _ x hx))

theorem Represents.mem_isSetSomewhere (h : Represents numberOfElements list s) (hnone : ∀ n < numberOfElements, n ∉ s) :
    numberOfElements / 8 ∈ (BitList.isSetSomewhere numberOfElements list).2 := by
  unfold BitList.isSetSomewhere
  rw [List.range_eq_range']
  refine mem_anyByte _ (fun x _ hx => ?_) (Nat.zero_le _) (by omega)
  refine h.byte_eq_zero (by unfold byteUsage; omega) fun n hn _ => hnone n (h.lt n hn) hn

theorem Represents.isSetSomewhere_of_mem (h : Represents numberOfElements list s) (hn : n ∈ s) :
    (BitList.isSetSomewhere numberOfElements list).1 = true ∧
      ∀ x ∈ (BitList.isSetSomewhere numberOfElements list).2, x ≤ n / 8 := by
  have hle : n / 8 ≤ numberOfElements / 8 := Nat.div_le_div_right (h.lt n hn).le
  unfold BitList.isSetSomewhere
  refine ⟨(anyByte_iff _).mpr ⟨n / 8, List.mem_range.mpr (Nat.lt_succ_of_le hle), h.byte_ne_zero hn⟩, ?_⟩
  rw [List.range_eq_range']
  exact anyByte_read_le _ (h.byte_ne_zero hn) (Nat.zero_le _) (by omega)

/-- With a rest of a byte behind the last element there is no byte too many. -/
theorem Represents.isSetSomewhere_of_empty (h : Represents numberOfElements list s) (hnone : ∀ n < numberOfElements, n ∉ s)
    (hrest : numberOfElements % 8 ≠ 0) : (BitList.isSetSomewhere numberOfElements list).1 = false := by
  rw [← Bool.not_eq_true, BitList.isSetSomewhere, anyByte_iff]
  rintro ⟨i, hi, hbyte⟩
  rw [List.mem_range] at hi
  exact hbyte (h.byte_eq_zero (by unfold byteUsage; omega) fun n hn _ => hnone n (h.lt n hn) hn)

/-! ### All of them -/

theorem Represents.countSetBits (h : Represents numberOfElements list s) :
    (BitList.countSetBits numberOfElements list).1 = s.card := by
  have hlist : ((List.range numberOfElements).filter (· ∈ s)).toFinset = s := by
    ext n
    rw [List.mem_toFinset, List.mem_filter, List.mem_range, decide_eq_true_iff]
    exact ⟨And.right, fun hn => ⟨h.lt n hn, hn⟩⟩
  have hcount : (List.range numberOfElements).countP (BitList.getBit numberOfElements · list) =
      (List.range numberOfElements).countP (· ∈ s) := by
    refine List.countP_congr fun n hn => ?_
    rw [h.getBit (List.mem_range.mp hn)]
  calc
    _ = ((List.range numberOfElements).filter (· ∈ s)).length := hcount.trans List.countP_eq_length_filter
    _ = ((List.range numberOfElements).filter (· ∈ s)).toFinset.card :=
      (List.toFinset_card_of_nodup (List.nodup_range.filter _)).symm
    _ = s.card := by rw [hlist]

theorem read_of_elements : ∀ i ∈ (countSetBits numberOfElements list).2, i < byteUsage numberOfElements := by
  intro i hi
  obtain ⟨n, -, hn⟩ := List.mem_flatMap.mp hi
  obtain ⟨hlt, rfl⟩ := mem_bytesOf.mp hn
  exact lt_byteUsage hlt

theorem Exact.searchable (h : Represents numberOfElements list s) (hexact : Exact numberOfElements list s) :
    Searchable numberOfElements s := by
  obtain ⟨n, hfound, hle, hnotMem, hbefore⟩ := hexact.findFirstFree
  constructor
  · by_contra hnot
    rw [not_or, not_not, not_exists] at hnot
    have hmem := h.mem_isSetSomewhere fun n hlt hn => hnot.2 n ⟨hlt, hn⟩
    have hlt := hexact.inRange _ (List.mem_append_left _ (List.mem_append_right _ hmem))
    unfold byteUsage at hlt
    omega
  · by_contra hnot
    rw [not_or, not_exists] at hnot
    have hunseen : Unseen numberOfElements s := by
      intro n hlt hsmall
      by_contra hn
      exact hnot.1 n ⟨hlt, hsmall, hn⟩
    by_cases hsize : numberOfElements / 8 + 1 < 2 ^ 32
    · obtain ⟨hall, -, hread⟩ := hunseen.searchFrom h hsize (Nat.zero_le _) (k := 2 ^ 32) (by omega)
      rw [BitList.findFirstFree, hall] at hfound
      cases hfound
      refine hnot.2 ⟨fun i hi => hbefore i hi, fun hrest => ?_, hsize⟩
      have hlt := hexact.inRange _ (List.mem_append_left _ (List.mem_append_left _ (hread _ (Nat.zero_le _) (Nat.le_refl _))))
      unfold byteUsage at hlt
      omega
    · have hnone := hunseen.endless h (Nat.not_lt.mp hsize) (i := 0) (by decide) (2 ^ 32)
      rw [BitList.findFirstFree, hnone] at hfound
      cases hfound

theorem Searchable.exact (h : Represents numberOfElements list s) (hsearchable : Searchable numberOfElements s) :
    Exact numberOfElements list s := by
  obtain ⟨hset, hfree⟩ := hsearchable
  have hfirst : (∃ n, (BitList.findFirstFree numberOfElements list).1 = some n ∧ n ≤ numberOfElements ∧ n ∉ s ∧ ∀ i < n, i ∈ s) ∧
      ∀ x ∈ (BitList.findFirstFree numberOfElements list).2, x < byteUsage numberOfElements := by
    rcases hfree with ⟨n, hlt, hsmall, hn⟩ | ⟨hall, hrest, hsize⟩
    · have hexists : ∃ n, n ∉ s := ⟨n, hn⟩
      have hle : Nat.find hexists ≤ n := Nat.find_min' hexists hn
      have hf : IsFirst numberOfElements s (Nat.find hexists) :=
        ⟨by omega, Nat.find_spec hexists, fun i hi => not_not.mp (Nat.find_min hexists hi)⟩
      obtain ⟨hfound, hread⟩ := searchFrom_first h hf (by omega) (Nat.zero_le _) (k := 2 ^ 32) (by omega)
      exact ⟨⟨_, hfound, hf.lt.le, hf.notMem, hf.before⟩, fun x hx => (hread x hx).trans_lt (lt_byteUsage hf.lt)⟩
    · have hunseen : Unseen numberOfElements s := fun n hlt _ => hall n hlt
      obtain ⟨hfound, hread, -⟩ := hunseen.searchFrom h hsize (Nat.zero_le _) (k := 2 ^ 32) (by omega)
      refine ⟨⟨_, hfound, le_rfl, fun hmem => lt_irrefl _ (h.lt _ hmem), hall⟩, fun x hx => (hread x hx).trans_lt ?_⟩
      unfold byteUsage
      omega
  have hsome : ((BitList.isSetSomewhere numberOfElements list).1 = true ↔ ∃ n < numberOfElements, n ∈ s) ∧
      ∀ x ∈ (BitList.isSetSomewhere numberOfElements list).2, x < byteUsage numberOfElements := by
    by_cases hexists : ∃ n < numberOfElements, n ∈ s
    · obtain ⟨n, hlt, hn⟩ := hexists
      obtain ⟨hfound, hread⟩ := h.isSetSomewhere_of_mem hn
      exact ⟨iff_of_true hfound ⟨n, hlt, hn⟩, fun x hx => (hread x hx).trans_lt (lt_byteUsage hlt)⟩
    · have hrest := hset.resolve_right hexists
      have hnone : ∀ n < numberOfElements, n ∉ s := fun n hlt hn => hexists ⟨n, hlt, hn⟩
      refine ⟨iff_of_false ?_ hexists, fun x hx => (isSetSomewhere_read x hx).trans_lt ?_⟩
      · rw [h.isSetSomewhere_of_empty hnone hrest]
        exact Bool.false_ne_true
      · unfold byteUsage
        omega
  refine ⟨hfirst.1, hsome.1, h.countSetBits, fun i hi => ?_, fun n i hi => ?_⟩
  · rcases List.mem_append.mp hi with hi | hi
    · rcases List.mem_append.mp hi with hi | hi
      · exact hfirst.2 i hi
      · exact hsome.2 i hi
    · exact read_of_elements i hi
  · obtain ⟨hlt, rfl⟩ := mem_bytesOf.mp hi
    exact lt_byteUsage hlt

/-- After whatever was set and reset, the searches are exact and stay in the array if and only if they end in it. -/
theorem exact_iff (numberOfElements : Nat) (behind : Memory) (ops : List Op) :
    Exact numberOfElements (run numberOfElements behind ops) (bits numberOfElements ops) ↔
      Searchable numberOfElements (bits numberOfElements ops) :=
  ⟨Exact.searchable (run_represents behind ops), Searchable.exact (run_represents behind ops)⟩

/-- In an empty list of eight bits the byte behind it decides. -/
theorem byte_behind_is_searched : ¬ ∀ (numberOfElements : Nat) (behind : Memory) (ops : List Op),
    Exact numberOfElements (run numberOfElements behind ops) (bits numberOfElements ops) := by
  intro hall
  obtain ⟨n, -, hn⟩ := (hall 8 (fun _ => 1#8) []).isSetSomewhere.mp (by decide)
  exact absurd hn (Finset.notMem_empty n)

end BitList
end Paffs
