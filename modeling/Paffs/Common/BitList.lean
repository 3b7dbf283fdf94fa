import Paffs.Lib.Bytes
import Paffs.Persistence.Entry

/-! Lists of bits, and of pairs of bits, in bytes. -/
namespace Paffs
open Bytes

namespace BitList
variable (numberOfElements : Nat)

def byteUsage : Nat := (numberOfElements + 7) / 8

def setBit (n : Nat) (list : Memory) : Memory :=
  if n < numberOfElements then Function.update list (n / 8) (list (n / 8) ||| 1#8 <<< (n % 8)) else list

def getBit (n : Nat) (list : Memory) : Bool :=
  if n < numberOfElements then list (n / 8) &&& 1#8 <<< (n % 8) ≠ 0 else false

end BitList

namespace TwoBitList

/-- The number of bytes of a list of `numberOfElements`. -/
def byteUsage (numberOfElements : Nat) : Nat := (numberOfElements + 3) / 4

def setValue (pos : Nat) (value : Byte) (list : Memory) : Memory :=
  Function.update list (pos / 4) ((list (pos / 4) &&& ~~~(3#8 <<< (pos % 4 * 2))) ||| value <<< (pos % 4 * 2))

def getValue (pos : Nat) (list : Memory) : Byte := (list (pos / 4) &&& 3#8 <<< (pos % 4 * 2)) >>> (pos % 4 * 2)

end TwoBitList

/-! ### What is read after it was set -/

namespace BitList
variable {k n i : Nat} {list list' : Memory}

theorem getBit_eq (h : n < k) : getBit k n list = (list (n / 8)).getLsbD (n % 8) := by
  have hmask : ∀ (b : Byte) (j : Fin 8), decide (b &&& 1#8 <<< j.val ≠ 0) = b.getLsbD j := by
    intro b j
    rw [← BitVec.twoPow_eq, BitVec.and_twoPow]
    cases b.getLsbD j
    · rfl
    · exact decide_eq_true (by revert j; decide)
  rw [getBit, if_pos h]
  exact hmask (list (n / 8)) ⟨n % 8, Nat.mod_lt _ (by decide)⟩

theorem getBit_of_le (h : k ≤ n) : getBit k n list = false := if_neg (Nat.not_lt.mpr h)

theorem getLsbD_setBit (h : n < k) : (setBit k n list (i / 8)).getLsbD (i % 8) = ((list (i / 8)).getLsbD (i % 8) || decide (i = n)) := by
  rw [setBit, if_pos h]
  by_cases hbyte : i / 8 = n / 8
  · have hbit : n % 8 = i % 8 ↔ i = n := by omega
    rw [hbyte, Function.update_self, ← BitVec.twoPow_eq, BitVec.getLsbD_or, BitVec.getLsbD_twoPow]
    simp only [Nat.mod_lt n (by decide : 0 < 8), decide_true, Bool.true_and, hbit]
  · have hne : i ≠ n := fun heq => hbyte (congrArg (· / 8) heq)
    rw [Function.update_of_ne hbyte, decide_eq_false hne, Bool.or_false]

theorem getBit_congr (h : list (n / 8) = list' (n / 8)) : getBit k n list = getBit k n list' := by
  rw [getBit, getBit, h]

end BitList

namespace TwoBitList
variable {pos pos' : Nat} {value : Byte} {list list' : Memory}

theorem getValue_lt (pos : Nat) (list : Memory) : (getValue pos list).toNat < 4 := by
  have hall : ∀ (b : Byte) (j : Fin 4), ((b &&& 3#8 <<< (j.val * 2)) >>> (j.val * 2)).toNat < 4 := by decide +kernel
  exact hall _ ⟨pos % 4, Nat.mod_lt _ (by decide)⟩

theorem getValue_setValue_self (h : value.toNat < 4) : getValue pos (setValue pos value list) = value := by
  have hall : ∀ (b : Byte) (v j : Fin 4), (((b &&& ~~~(3#8 <<< (j.val * 2))) ||| BitVec.ofNat 8 v <<< (j.val * 2)) &&&
      3#8 <<< (j.val * 2)) >>> (j.val * 2) = BitVec.ofNat 8 v := by decide +kernel
  have hvalue : BitVec.ofNat 8 value.toNat = value := (BitVec.ofNat_toNat 8 value).trans (BitVec.setWidth_eq value)
  rw [getValue, setValue, Function.update_self]
  have hbyte := hall (list (pos / 4)) ⟨value.toNat, h⟩ ⟨pos % 4, Nat.mod_lt _ (by decide)⟩
  rwa [hvalue] at hbyte

/-- The other elements stay. -/
theorem getValue_setValue_of_ne (h : value.toNat < 4) (hne : pos' ≠ pos) :
    getValue pos' (setValue pos value list) = getValue pos' list := by
  unfold getValue setValue
  by_cases hbyte : pos' / 4 = pos / 4
  · have hall : ∀ (b : Byte) (v i j : Fin 4), i ≠ j → (((b &&& ~~~(3#8 <<< (j.val * 2))) ||| BitVec.ofNat 8 v <<< (j.val * 2)) &&&
        3#8 <<< (i.val * 2)) >>> (i.val * 2) = (b &&& 3#8 <<< (i.val * 2)) >>> (i.val * 2) := by decide +kernel
    have hvalue : BitVec.ofNat 8 value.toNat = value := (BitVec.ofNat_toNat 8 value).trans (BitVec.setWidth_eq value)
    have hpair := hall (list (pos / 4)) ⟨value.toNat, h⟩ ⟨pos' % 4, Nat.mod_lt _ (by decide)⟩ ⟨pos % 4, Nat.mod_lt _ (by decide)⟩
      (fun heq => hne (by have := congrArg Fin.val heq; dsimp only at this; omega))
    rw [hbyte, Function.update_self]
    rwa [hvalue] at hpair
  · rw [Function.update_of_ne hbyte]

theorem getValue_congr (h : list (pos / 4) = list' (pos / 4)) : getValue pos list = getValue pos list' := by
  rw [getValue, getValue, h]

end TwoBitList
end Paffs
