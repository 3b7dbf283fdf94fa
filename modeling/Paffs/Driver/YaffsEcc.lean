import Paffs.Common.Types
import Paffs.Lib.Bytes

/-! The code that corrects single bits in blocks of 256 bytes. -/
namespace Paffs.Driver
open Bytes (Byte Memory)

/-! ### `YaffsEcc` -/

namespace YaffsEcc

/-- Bits 7 to 2 are column parities, bit 0 is the parity of the byte. -/
def columnParityTable : List Byte :=
  [0x00, 0x55, 0x59, 0x0c, 0x65, 0x30, 0x3c, 0x69, 0x69, 0x3c, 0x30, 0x65, 0x0c, 0x59, 0x55, 0x00,
    0x95, 0xc0, 0xcc, 0x99, 0xf0, 0xa5, 0xa9, 0xfc, 0xfc, 0xa9, 0xa5, 0xf0, 0x99, 0xcc, 0xc0, 0x95,
    0x99, 0xcc, 0xc0, 0x95, 0xfc, 0xa9, 0xa5, 0xf0, 0xf0, 0xa5, 0xa9, 0xfc, 0x95, 0xc0, 0xcc, 0x99,
    0x0c, 0x59, 0x55, 0x00, 0x69, 0x3c, 0x30, 0x65, 0x65, 0x30, 0x3c, 0x69, 0x00, 0x55, 0x59, 0x0c,
    0xa5, 0xf0, 0xfc, 0xa9, 0xc0, 0x95, 0x99, 0xcc, 0xcc, 0x99, 0x95, 0xc0, 0xa9, 0xfc, 0xf0, 0xa5,
    0x30, 0x65, 0x69, 0x3c, 0x55, 0x00, 0x0c, 0x59, 0x59, 0x0c, 0x00, 0x55, 0x3c, 0x69, 0x65, 0x30,
    0x3c, 0x69, 0x65, 0x30, 0x59, 0x0c, 0x00, 0x55, 0x55, 0x00, 0x0c, 0x59, 0x30, 0x65, 0x69, 0x3c,
    0xa9, 0xfc, 0xf0, 0xa5, 0xcc, 0x99, 0x95, 0xc0, 0xc0, 0x95, 0x99, 0xcc, 0xa5, 0xf0, 0xfc, 0xa9,
    0xa9, 0xfc, 0xf0, 0xa5, 0xcc, 0x99, 0x95, 0xc0, 0xc0, 0x95, 0x99, 0xcc, 0xa5, 0xf0, 0xfc, 0xa9,
    0x3c, 0x69, 0x65, 0x30, 0x59, 0x0c, 0x00, 0x55, 0x55, 0x00, 0x0c, 0x59, 0x30, 0x65, 0x69, 0x3c,
    0x30, 0x65, 0x69, 0x3c, 0x55, 0x00, 0x0c, 0x59, 0x59, 0x0c, 0x00, 0x55, 0x3c, 0x69, 0x65, 0x30,
    0xa5, 0xf0, 0xfc, 0xa9, 0xc0, 0x95, 0x99, 0xcc, 0xcc, 0x99, 0x95, 0xc0, 0xa9, 0xfc, 0xf0, 0xa5,
    0x0c, 0x59, 0x55, 0x00, 0x69, 0x3c, 0x30, 0x65, 0x65, 0x30, 0x3c, 0x69, 0x00, 0x55, 0x59, 0x0c,
    0x99, 0xcc, 0xc0, 0x95, 0xfc, 0xa9, 0xa5, 0xf0, 0xf0, 0xa5, 0xa9, 0xfc, 0x95, 0xc0, 0xcc, 0x99,
    0x95, 0xc0, 0xcc, 0x99, 0xf0, 0xa5, 0xa9, 0xfc, 0xfc, 0xa9, 0xa5, 0xf0, 0x99, 0xcc, 0xc0, 0x95,
    0x00, 0x55, 0x59, 0x0c, 0x65, 0x30, 0x3c, 0x69, 0x69, 0x3c, 0x30, 0x65, 0x0c, 0x59, 0x55, 0x00]

def columnParity (b : Byte) : Byte := columnParityTable.getD b.toNat 0

/-- `count_bits_table` -/
def hweight8 (x : Byte) : Nat := (List.range 8).countP x.getLsbD

structure Parity where
  col : Byte
  line : Byte
  linePrime : Byte

/-- The `i`-th byte is counted. -/
def Parity.count (p : Parity) (i : Nat) (x : Byte) : Parity :=
  let b := columnParity x
  if b &&& 0x01 ≠ 0 then ⟨p.col ^^^ b, p.line ^^^ BitVec.ofNat 8 i, p.linePrime ^^^ ~~~(BitVec.ofNat 8 i)⟩
  else { p with col := p.col ^^^ b }

@[ext] structure Ecc where
  e0 : Byte
  e1 : Byte
  e2 : Byte

/-- The bits of four masks, each of one parity before the other. -/
def interleave (line linePrime m₃ m₂ m₁ m₀ : Byte) : Byte :=
  let t : Byte := 0
  let t := if line &&& m₃ ≠ 0 then t ||| 0x80 else t
  let t := if linePrime &&& m₃ ≠ 0 then t ||| 0x40 else t
  let t := if line &&& m₂ ≠ 0 then t ||| 0x20 else t
  let t := if linePrime &&& m₂ ≠ 0 then t ||| 0x10 else t
  let t := if line &&& m₁ ≠ 0 then t ||| 0x08 else t
  let t := if linePrime &&& m₁ ≠ 0 then t ||| 0x04 else t
  let t := if line &&& m₀ ≠ 0 then t ||| 0x02 else t
  if linePrime &&& m₀ ≠ 0 then t ||| 0x01 else t

def Parity.ecc (p : Parity) : Ecc where
  e2 := ~~~p.col ||| 0x03
  e1 := ~~~interleave p.line p.linePrime 0x80 0x40 0x20 0x10
  e0 := ~~~interleave p.line p.linePrime 0x08 0x04 0x02 0x01

def parity (data : Nat → Byte) : Parity := (List.range 256).foldl (fun p i => p.count i (data i)) ⟨0, 0, 0⟩

/-- `calc`: the code of the 256 bytes at `data`. -/
def calcEcc (buf : Memory) (data : Nat) : Ecc := (parity fun i => buf (data + i)).ecc

def readEcc (buf : Memory) (p : Nat) : Ecc := ⟨buf p, buf (p + 1), buf (p + 2)⟩

def writeEcc (buf : Memory) (p : Nat) (ecc : Ecc) : Memory := buf.write p [ecc.e0, ecc.e1, ecc.e2]

/-- The byte of a block that a difference of codes stands for. -/
def wrongByte (d₀ d₁ : Byte) : Nat :=
  (if d₁ &&& 0x80 ≠ 0 then 0x80 else 0) ||| (if d₁ &&& 0x20 ≠ 0 then 0x40 else 0) ||| (if d₁ &&& 0x08 ≠ 0 then 0x20 else 0) |||
    (if d₁ &&& 0x02 ≠ 0 then 0x10 else 0) ||| (if d₀ &&& 0x80 ≠ 0 then 0x08 else 0) ||| (if d₀ &&& 0x20 ≠ 0 then 0x04 else 0) |||
    (if d₀ &&& 0x08 ≠ 0 then 0x02 else 0) ||| (if d₀ &&& 0x02 ≠ 0 then 0x01 else 0)

def wrongBit (d₂ : Byte) : Nat :=
  (if d₂ &&& 0x80 ≠ 0 then 0x04 else 0) ||| (if d₂ &&& 0x20 ≠ 0 then 0x02 else 0) ||| (if d₂ &&& 0x08 ≠ 0 then 0x01 else 0)

/-- `data` and `read_ecc` lie in one buffer. -/
def correct (buf : Memory) (data readEccAt : Nat) (testEcc : Ecc) : Result × Memory :=
  let read := readEcc buf readEccAt
  let d₀ := read.e0 ^^^ testEcc.e0
  let d₁ := read.e1 ^^^ testEcc.e1
  let d₂ := read.e2 ^^^ testEcc.e2
  if d₀ ||| d₁ ||| d₂ = 0 then (.ok, buf)
  else if (d₀ ^^^ d₀ >>> 1) &&& 0x55 = 0x55 ∧ (d₁ ^^^ d₁ >>> 1) &&& 0x55 = 0x55 ∧ (d₂ ^^^ d₂ >>> 1) &&& 0x54 = 0x54 then
    let byte := wrongByte d₀ d₁
    (.biterrorCorrected, Function.update buf (data + byte) (buf (data + byte) ^^^ 1#8 <<< wrongBit d₂))
  else if hweight8 d₀ + hweight8 d₁ + hweight8 d₂ = 1 then (.biterrorCorrected, writeEcc buf readEccAt testEcc)
  else (.biterrorNotCorrected, buf)

/-! ### A flipped bit -/

/-- The memory with one bit of what lies at `data` the other way. -/
def flipBit (m : Memory) (data n : Nat) : Memory :=
  Function.update m (data + n / 8) (m (data + n / 8) ^^^ 1#8 <<< (n % 8))

/-- Two parities are added. -/
def Parity.add (p q : Parity) : Parity := ⟨p.col ^^^ q.col, p.line ^^^ q.line, p.linePrime ^^^ q.linePrime⟩

/-- What a bit changes. -/
def Parity.ofBit (n : Nat) : Parity :=
  ⟨columnParity (1#8 <<< (n % 8)), BitVec.ofNat 8 (n / 8), ~~~(BitVec.ofNat 8 (n / 8))⟩

variable {p q : Parity} {m : Memory} {i n : Nat}

theorem columnParity_flip : ∀ (x : Byte) (j : Fin 8),
    columnParity (x ^^^ 1#8 <<< j.val) = columnParity x ^^^ columnParity (1#8 <<< j.val) := by decide +kernel

theorem columnParity_one : ∀ j : Fin 8, columnParity (1#8 <<< j.val) &&& 0x01 = 0x01 := by decide +kernel

theorem xor_right_comm (a b c : Byte) : a ^^^ b ^^^ c = a ^^^ c ^^^ b := by
  rw [BitVec.xor_assoc, BitVec.xor_comm b, ← BitVec.xor_assoc]

theorem xor_xor_self (a b : Byte) : a ^^^ (a ^^^ b) = b := by
  rw [← BitVec.xor_assoc, BitVec.xor_self, BitVec.zero_xor]

theorem xor_and (a b c : Byte) : (a ^^^ b) &&& c = (a &&& c) ^^^ (b &&& c) := by
  apply BitVec.eq_of_getLsbD_eq
  intro k _
  rw [BitVec.getLsbD_and, BitVec.getLsbD_xor, BitVec.getLsbD_xor, BitVec.getLsbD_and, BitVec.getLsbD_and,
    Bool.and_xor_distrib_right]

/-- The other bytes are counted as before. -/
theorem Parity.count_add (p q : Parity) (i : Nat) (x : Byte) : (p.add q).count i x = (p.count i x).add q := by
  unfold count
  dsimp only
  split_ifs
  · simp only [add, xor_right_comm]
  · simp only [add, xor_right_comm]

theorem and_one (x : Byte) : x &&& 0x01 = 0 ∨ x &&& 0x01 = 0x01 := by
  revert x
  decide

/-- A flipped bit changes the parity of its byte. -/
theorem Parity.count_flip (p : Parity) (hi : n / 8 = i) (x : Byte) :
    p.count i (x ^^^ 1#8 <<< (n % 8)) = (p.count i x).add (ofBit n) := by
  have hcol := columnParity_flip x ⟨n % 8, Nat.mod_lt n (by decide)⟩
  have hone := columnParity_one ⟨n % 8, Nat.mod_lt n (by decide)⟩
  dsimp only at hcol hone
  have hodd : columnParity (x ^^^ 1#8 <<< (n % 8)) &&& 0x01 = (columnParity x &&& 0x01) ^^^ 0x01 := by
    rw [hcol, xor_and, hone]
  unfold count
  dsimp only
  rw [hodd, hcol]
  rcases and_one (columnParity x) with heven | hodd
  · rw [heven, if_pos (by decide), if_neg (by decide), ← BitVec.xor_assoc, add, ofBit, hi]
  · rw [hodd, if_neg (by decide), if_pos (by decide), ← BitVec.xor_assoc, add, ofBit, hi]
    simp only [BitVec.xor_assoc, BitVec.xor_self, BitVec.xor_zero]

theorem foldl_count_add (data : Nat → Byte) (is : List Nat) (p q : Parity) :
    is.foldl (fun p i => p.count i (data i)) (p.add q) = (is.foldl (fun p i => p.count i (data i)) p).add q := by
  induction is generalizing p with
  | nil => rfl
  | cons i is ih => rw [List.foldl_cons, List.foldl_cons, Parity.count_add, ih]

theorem parity_flip (data : Nat → Byte) (hn : n < 2048) :
    parity (Function.update data (n / 8) (data (n / 8) ^^^ 1#8 <<< (n % 8))) = (parity data).add (.ofBit n) := by
  have hfold : ∀ (is : List Nat), n / 8 ∈ is → is.Nodup → ∀ p : Parity,
      is.foldl (fun p i => p.count i (Function.update data (n / 8) (data (n / 8) ^^^ 1#8 <<< (n % 8)) i)) p =
        (is.foldl (fun p i => p.count i (data i)) p).add (.ofBit n) := by
    intro is hmem hnodup p
    induction is generalizing p with
    | nil => cases hmem
    | cons i is ih =>
      rw [List.nodup_cons] at hnodup
      rw [List.foldl_cons, List.foldl_cons]
      rcases List.mem_cons.mp hmem with hi | hlater
      · subst hi
        rw [Function.update_self, p.count_flip rfl, ← foldl_count_add]
        refine List.foldl_ext _ _ _ fun p i hi => ?_
        have hne : i ≠ n / 8 := by
          rintro rfl
          exact hnodup.1 hi
        rw [Function.update_of_ne hne]
      · have hne : i ≠ n / 8 := by
          rintro rfl
          exact hnodup.1 hlater
        rw [Function.update_of_ne hne]
        exact ih hlater hnodup.2 _
  exact hfold _ (List.mem_range.mpr (Nat.div_lt_of_lt_mul hn)) List.nodup_range _

/-! ### The code of a block with a flipped bit -/

theorem and_bit_ne_zero (x : Byte) (k : Fin 8) : x &&& 1#8 <<< k.val ≠ 0 ↔ x.getLsbD k = true := by
  have hall : ∀ (k : Fin 8), (BitVec.twoPow 8 k ≠ 0) := by decide
  rw [← BitVec.twoPow_eq, BitVec.and_twoPow]
  cases hbit : x.getLsbD k with
  | true => exact iff_of_true (hall k) rfl
  | false => exact iff_of_false (not_not.mpr rfl) Bool.false_ne_true

/-- Eight bits, set one after the other. -/
theorem bits_eq : ∀ b₇ b₆ b₅ b₄ b₃ b₂ b₁ b₀ : Bool,
    (let t : Byte := 0
      let t := if b₇ then t ||| 0x80 else t
      let t := if b₆ then t ||| 0x40 else t
      let t := if b₅ then t ||| 0x20 else t
      let t := if b₄ then t ||| 0x10 else t
      let t := if b₃ then t ||| 0x08 else t
      let t := if b₂ then t ||| 0x04 else t
      let t := if b₁ then t ||| 0x02 else t
      if b₀ then t ||| 0x01 else t) = BitVec.ofBoolListLE [b₀, b₁, b₂, b₃, b₄, b₅, b₆, b₇] := by
  decide

theorem interleave_eq (x y : Byte) (k₃ k₂ k₁ k₀ : Fin 8) :
    interleave x y (1#8 <<< k₃.val) (1#8 <<< k₂.val) (1#8 <<< k₁.val) (1#8 <<< k₀.val) =
      BitVec.ofBoolListLE [y.getLsbD k₀, x.getLsbD k₀, y.getLsbD k₁, x.getLsbD k₁, y.getLsbD k₂, x.getLsbD k₂, y.getLsbD k₃,
        x.getLsbD k₃] := by
  rw [← bits_eq]
  simp only [interleave, and_bit_ne_zero]

theorem interleave_xor (x x' y y' : Byte) (k₃ k₂ k₁ k₀ : Fin 8) :
    interleave (x ^^^ x') (y ^^^ y') (1#8 <<< k₃.val) (1#8 <<< k₂.val) (1#8 <<< k₁.val) (1#8 <<< k₀.val) =
      interleave x y (1#8 <<< k₃.val) (1#8 <<< k₂.val) (1#8 <<< k₁.val) (1#8 <<< k₀.val) ^^^
        interleave x' y' (1#8 <<< k₃.val) (1#8 <<< k₂.val) (1#8 <<< k₁.val) (1#8 <<< k₀.val) := by
  rw [interleave_eq, interleave_eq, interleave_eq]
  apply BitVec.eq_of_getLsbD_eq
  intro k hk
  simp only [List.length_cons, List.length_nil] at hk
  simp only [BitVec.getLsbD_xor, BitVec.getLsbD_ofBoolListLE]
  interval_cases k <;> rfl

theorem not_xor_not (a b : Byte) : ~~~a ^^^ ~~~b = a ^^^ b := by
  apply BitVec.eq_of_getLsbD_eq
  intro k hk
  simp [hk]

/-- What a difference of parities does to the code. -/
theorem Parity.ecc_add (p q : Parity) :
    p.ecc.e0 ^^^ (p.add q).ecc.e0 = interleave q.line q.linePrime 0x08 0x04 0x02 0x01 ∧
      p.ecc.e1 ^^^ (p.add q).ecc.e1 = interleave q.line q.linePrime 0x80 0x40 0x20 0x10 ∧
      p.ecc.e2 ^^^ (p.add q).ecc.e2 = q.col &&& 0xFC := by
  refine ⟨?_, ?_, ?_⟩
  · have hxor := interleave_xor p.line q.line p.linePrime q.linePrime 3 2 1 0
    change ~~~interleave p.line p.linePrime 0x08 0x04 0x02 0x01 ^^^
      ~~~interleave (p.line ^^^ q.line) (p.linePrime ^^^ q.linePrime) 0x08 0x04 0x02 0x01 = _
    rw [not_xor_not]
    refine (congrArg _ hxor).trans ?_
    exact xor_xor_self _ _
  · have hxor := interleave_xor p.line q.line p.linePrime q.linePrime 7 6 5 4
    change ~~~interleave p.line p.linePrime 0x80 0x40 0x20 0x10 ^^^
      ~~~interleave (p.line ^^^ q.line) (p.linePrime ^^^ q.linePrime) 0x80 0x40 0x20 0x10 = _
    rw [not_xor_not]
    refine (congrArg _ hxor).trans ?_
    exact xor_xor_self _ _
  · have hmask : ∀ k : Fin 8, ((0x03 : Byte).getLsbD k) = !(0xFC : Byte).getLsbD k := by decide
    apply BitVec.eq_of_getLsbD_eq
    intro k hk
    have := hmask ⟨k, hk⟩
    simp only [ecc, add, BitVec.getLsbD_xor, BitVec.getLsbD_or, BitVec.getLsbD_not, BitVec.getLsbD_and, hk, this, decide_true,
      Bool.true_and]
    cases p.col.getLsbD k <;> cases q.col.getLsbD k <;> cases (0xFC : Byte).getLsbD k <;> rfl

/-- The byte is found from the line parities, and the bit from the column parities. -/
theorem wrong_line : ∀ x : Byte, let d₀ := interleave x (~~~x) 0x08 0x04 0x02 0x01
    let d₁ := interleave x (~~~x) 0x80 0x40 0x20 0x10
    (d₀ ^^^ d₀ >>> 1) &&& 0x55 = 0x55 ∧ (d₁ ^^^ d₁ >>> 1) &&& 0x55 = 0x55 ∧ wrongByte d₀ d₁ = x.toNat := by
  decide +kernel

theorem wrong_column : ∀ j : Fin 8, let d₂ := columnParity (1#8 <<< j.val) &&& 0xFC
    (d₂ ^^^ d₂ >>> 1) &&& 0x54 = 0x54 ∧ wrongBit d₂ = j := by
  decide +kernel

theorem correct_same {buf : Memory} {data p : Nat} {testEcc : Ecc} (h : readEcc buf p = testEcc) :
    correct buf data p testEcc = (.ok, buf) := by
  unfold correct
  dsimp only
  rw [h, BitVec.xor_self, BitVec.xor_self, BitVec.xor_self, if_pos (by decide)]

/-- A flipped bit of the block whose code was stored is flipped wherever `data` points to. -/
theorem correct_flip {buf : Memory} {data p : Nat} {par : Parity} {testEcc : Ecc} (hn : n < 2048)
    (hread : readEcc buf p = par.ecc) (htest : testEcc = (par.add (.ofBit n)).ecc) :
    correct buf data p testEcc = (.biterrorCorrected, flipBit buf data n) := by
  obtain ⟨h₀, h₁, h₂⟩ := par.ecc_add (.ofBit n)
  dsimp only [Parity.ofBit] at h₀ h₁ h₂ htest
  obtain ⟨hline₀, hline₁, hbyte⟩ := wrong_line (BitVec.ofNat 8 (n / 8))
  obtain ⟨hcolumn, hbit⟩ := wrong_column ⟨n % 8, Nat.mod_lt n (by decide)⟩
  dsimp only at hbyte hbit hcolumn
  have hsmall : (BitVec.ofNat 8 (n / 8)).toNat = n / 8 := by
    rw [BitVec.toNat_ofNat]
    exact Nat.mod_eq_of_lt (Nat.div_lt_of_lt_mul hn)
  unfold correct
  dsimp only
  rw [hread, htest, h₀, h₁, h₂]
  split
  · rename_i hzero
    rw [(BitVec.or_eq_zero_iff.mp hzero).2] at hcolumn
    exact absurd hcolumn (by decide)
  · split
    · rw [hbyte, hsmall, hbit, flipBit]
    · rename_i hbits
      exact absurd ⟨hline₀, hline₁, hcolumn⟩ hbits

end YaffsEcc
end Paffs.Driver
