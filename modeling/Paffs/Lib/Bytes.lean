import Mathlib.Data.List.GetD
import Mathlib.Data.Nat.Digits.Defs

/-! Memory as bytes, and little-endian words in it. -/
namespace Paffs.Bytes

abbrev Byte := BitVec 8
abbrev Memory := Nat → Byte

namespace Memory

def write (m : Memory) (a : Nat) (bs : List Byte) : Memory := fun i => if a ≤ i ∧ i < a + bs.length then bs.getD (i - a) 0 else m i

def read (m : Memory) (a w : Nat) : List Byte := (List.range w).map fun i => m (a + i)

variable {m m' : Memory} {a b w i : Nat} {bs : List Byte}

theorem write_of_mem (h : a ≤ i ∧ i < a + bs.length) : m.write a bs i = bs.getD (i - a) 0 := if_pos h

theorem write_of_not_mem (h : ¬ (a ≤ i ∧ i < a + bs.length)) : m.write a bs i = m i := if_neg h

@[simp] theorem length_read (m : Memory) (a w : Nat) : (m.read a w).length = w := by simp [read]

@[simp] theorem getElem_read (m : Memory) (a w : Nat) (h : i < (m.read a w).length) : (m.read a w)[i] = m (a + i) := by
  simp [read]

theorem read_congr (h : ∀ i < w, m (a + i) = m' (b + i)) : m.read a w = m'.read b w :=
  List.map_congr_left fun i hi => h i (List.mem_range.1 hi)

theorem read_append (m : Memory) (a w w' : Nat) : m.read a (w + w') = m.read a w ++ m.read (a + w) w' := by
  simp [read, List.range_add, Nat.add_assoc]

theorem read_write_self (m : Memory) (a : Nat) (bs : List Byte) : (m.write a bs).read a bs.length = bs := by
  refine List.ext_getElem (length_read _ _ _) fun i _ hi => ?_
  rw [getElem_read, write_of_mem ⟨by omega, by omega⟩, Nat.add_sub_cancel_left, List.getD_eq_getElem _ _ hi]

/-- Bytes elsewhere stay. -/
theorem read_write_of_disjoint (h : b + w ≤ a ∨ a + bs.length ≤ b) : (m.write a bs).read b w = m.read b w := by
  refine read_congr fun i hi => write_of_not_mem ?_
  omega

end Memory

/-! ### Words -/

/-- The `w` lowest bytes, the lowest one first. -/
def toBytes : Nat → Nat → List Byte
  | 0, _ => []
  | w + 1, x => BitVec.ofNat 8 x :: toBytes w (x / 256)

def ofBytes : List Byte → Nat
  | [] => 0
  | b :: bs => b.toNat + 256 * ofBytes bs

@[simp] theorem toBytes_length (w x : Nat) : (toBytes w x).length = w := by
  induction w generalizing x with
  | zero => rfl
  | succ w ih => simp [toBytes, ih]

theorem ofBytes_toBytes (w x : Nat) : ofBytes (toBytes w x) = x % 256 ^ w := by
  induction w generalizing x with
  | zero => simp [toBytes, ofBytes, Nat.mod_one]
  | succ w ih =>
    have hpow : 256 ^ (w + 1) = 256 * 256 ^ w := by ring
    rw [toBytes, ofBytes, ih, BitVec.toNat_ofNat, hpow, Nat.mod_mul]

/-- An unsigned integer of `w` bytes. -/
def Word (w : Nat) := BitVec (8 * w)

instance (w : Nat) : DecidableEq (Word w) := inferInstanceAs (DecidableEq (BitVec (8 * w)))

def Word.ofNat (w x : Nat) : Word w := BitVec.ofNat (8 * w) x
def Word.toNat {w : Nat} (v : Word w) : Nat := BitVec.toNat v

theorem Word.toNat_lt {w : Nat} (v : Word w) : v.toNat < 256 ^ w := by
  rw [show 256 = 2 ^ 8 by norm_num, ← Nat.pow_mul]
  exact BitVec.isLt v

theorem Word.ofNat_toNat {w : Nat} (v : Word w) : Word.ofNat w v.toNat = v :=
  (BitVec.ofNat_toNat (8 * w) v).trans (BitVec.setWidth_eq v)

theorem Word.toNat_ofNat {w x : Nat} (h : x < 256 ^ w) : (Word.ofNat w x).toNat = x := by
  have hpow : 2 ^ (8 * w) = 256 ^ w := by rw [show 256 = 2 ^ 8 by norm_num, ← Nat.pow_mul]
  exact (BitVec.toNat_ofNat x (8 * w)).trans (Nat.mod_eq_of_lt (hpow.symm ▸ h))

namespace Memory
variable {m : Memory} {a b w w' : Nat}

def writeWord (m : Memory) (a w : Nat) (v : Word w) : Memory := m.write a (toBytes w v.toNat)

def readWord (m : Memory) (a w : Nat) : Word w := Word.ofNat w (ofBytes (m.read a w))

theorem readWord_writeWord_self (m : Memory) (a w : Nat) (v : Word w) : (m.writeWord a w v).readWord a w = v := by
  have hread := read_write_self m a (toBytes w v.toNat)
  rw [toBytes_length] at hread
  rw [readWord, writeWord, hread, ofBytes_toBytes, Nat.mod_eq_of_lt v.toNat_lt, v.ofNat_toNat]

theorem readWord_writeWord_of_disjoint {v : Word w} (h : b + w' ≤ a ∨ a + w ≤ b) :
    (m.writeWord a w v).readWord b w' = m.readWord b w' := by
  rw [readWord, writeWord, read_write_of_disjoint (by rwa [toBytes_length]), readWord]

theorem readWord_congr {m' : Memory} (h : ∀ i < w, m (a + i) = m' (b + i)) : m.readWord a w = m'.readWord b w := by
  rw [readWord, readWord, read_congr h]

end Memory
end Paffs.Bytes
