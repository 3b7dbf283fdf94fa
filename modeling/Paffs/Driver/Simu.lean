import Paffs.Driver.YaffsEcc

/-! Pages of the simulated flash, which are corrected while they are read. -/
namespace Paffs.Driver
open Bytes (Byte Memory)
open YaffsEcc

abbrev PageAbs := Nat

/-- A page is a sequence of whole blocks, and there is room for their codes behind it. -/
structure Geometry where
  dataBytesPerPage : Nat
  oobBytesPerPage : Nat
  whole : 256 ∣ dataBytesPerPage
  room : 2 + 3 * (dataBytesPerPage / 256) ≤ oobBytesPerPage

namespace Geometry
variable (g : Geometry)

def totalBytesPerPage : Nat := g.dataBytesPerPage + g.oobBytesPerPage

/-- The rounds of the loops, in which `i` goes up by 256 and `p` by 3. -/
def blocks : Nat := (g.dataBytesPerPage + 255) / 256

def eccOf (k : Nat) : Nat := g.dataBytesPerPage + 2 + 3 * k

end Geometry

/-- The driver and its flash cell. Whether the cell accepts a page or gives one back is its own matter. -/
structure SimuDriver where
  buf : Memory
  pages : PageAbs → Memory
  accepts : PageAbs → Bool
  gives : PageAbs → Bool

/-- The first `n` bytes are copied. -/
def copy (n : Nat) (src dst : Memory) : Memory := fun i => if i < n then src i else dst i

variable (g : Geometry)

def storeEcc (buf : Memory) : Memory :=
  (List.range g.blocks).foldl (fun buf k => writeEcc buf (g.eccOf k) (calcEcc buf (256 * k))) buf

/-- The buffer with what is written; the rest of the page stays erased. -/
def fill (buf : Memory) (data : List Byte) : Memory :=
  let buf : Memory := fun i => if data.length ≤ i ∧ i < g.totalBytesPerPage then 0xFF else buf i
  buf.write 0 data

/-- One round of the loop of `readPage`; the first block is handed over, whichever is looked at. -/
def correctBlock (r : Result × Memory) (k : Nat) : Result × Memory :=
  let (ret, buf) := r
  let (r, buf) := correct buf 0 (g.eccOf k) (calcEcc buf (256 * k))
  (if r.ctorIdx > ret.ctorIdx then r else ret, buf)

namespace SimuDriver

/-- `SimuBlockDriver` does the same. -/
def writePage (d : SimuDriver) (page : PageAbs) (data : List Byte) : Result × SimuDriver :=
  if data.length > g.totalBytesPerPage then (.fail, d)
  else
    let buf := fill g d.buf data
    let buf := if data.length ≤ g.dataBytesPerPage then storeEcc g buf else buf
    if d.accepts page then
      (.ok, { d with buf := buf, pages := Function.update d.pages page (copy g.totalBytesPerPage buf (d.pages page)) })
    else (.fail, { d with buf := buf })

def readPage (d : SimuDriver) (page : PageAbs) (dataLen : Nat) : (Result × List Byte) × SimuDriver :=
  if dataLen > g.totalBytesPerPage then ((.invalidInput, []), d)
  else if d.gives page then
    let (ret, buf) := (List.range g.blocks).foldl (correctBlock g) (.ok, copy g.totalBytesPerPage (d.pages page) d.buf)
    ((ret, buf.read 0 dataLen), { d with buf := buf })
  else ((.fail, []), d)

end SimuDriver

/-! ### Flipped bits -/

/-- At most one data bit of each block is flipped. -/
def flipped (flips : Nat → Option (Fin 2048)) (m : Memory) : Memory := fun i =>
  if i < g.dataBytesPerPage then
    match flips (i / 256) with
    | some n => if n.val / 8 = i % 256 then m i ^^^ 1#8 <<< (n.val % 8) else m i
    | none => m i
  else m i

/-- The written bytes come back, and it is said whether something was corrected. -/
def Repaired (flips : Nat → Option (Fin 2048)) (data : List Byte) (dataLen : Nat) (r : Result × List Byte) : Prop :=
  r.1 = (if ∃ k < g.blocks, (flips k).isSome then .biterrorCorrected else .ok) ∧ r.2.take data.length = data.take dataLen

/-- Bits of later blocks are flipped only behind the first `len` bytes, and where they lie in their blocks no bit of the first
block is met by an odd number of them, if it is among these bytes. -/
def Harmless (flips : Nat → Option (Fin 2048)) (len : Nat) : Prop :=
  (∀ k, k ≠ 0 → k < g.blocks → ∀ n ∈ flips k, len ≤ 256 * k + n.val / 8) ∧
    ∀ n : Fin 2048, n.val / 8 < len → Even ((List.range g.blocks).countP fun k => k ≠ 0 ∧ flips k = some n)

variable {g} {flips : Nat → Option (Fin 2048)} {m m' buf : Memory} {k i : Nat}

theorem Geometry.blocks_eq (g : Geometry) : g.dataBytesPerPage = 256 * g.blocks := by
  obtain ⟨k, hk⟩ := g.whole
  unfold blocks
  omega

theorem Geometry.eccOf_lt (hk : k < g.blocks) : g.eccOf k + 2 < g.totalBytesPerPage := by
  have hroom := g.room
  have hblocks := g.blocks_eq
  unfold Geometry.eccOf Geometry.totalBytesPerPage
  omega

/-! ### What is written -/

theorem parity_congr {data data' : Nat → Byte} (h : ∀ i < 256, data i = data' i) : parity data = parity data' := by
  unfold parity
  refine List.foldl_ext _ _ _ fun p i hi => ?_
  rw [h i (List.mem_range.mp hi)]

theorem calcEcc_congr (h : ∀ i < 256, m (k + i) = m' (k + i)) : calcEcc m k = calcEcc m' k := by
  unfold calcEcc
  rw [parity_congr h]

theorem readEcc_congr {p : Nat} (h : ∀ i < 3, m (p + i) = m' (p + i)) : readEcc m p = readEcc m' p := by
  have h₀ := h 0 (by decide)
  have h₁ := h 1 (by decide)
  have h₂ := h 2 (by decide)
  rw [Nat.add_zero] at h₀
  rw [readEcc, readEcc, h₀, h₁, h₂]

theorem readEcc_writeEcc (buf : Memory) (p : Nat) (ecc : Ecc) : readEcc (writeEcc buf p ecc) p = ecc := by
  unfold readEcc writeEcc
  rw [Memory.write_of_mem (by simp), Memory.write_of_mem (by simp), Memory.write_of_mem (by simp)]
  simp

theorem writeEcc_ne {p : Nat} {ecc : Ecc} (h : i < p ∨ p + 3 ≤ i) : writeEcc buf p ecc i = buf i :=
  Memory.write_of_not_mem (by simp; omega)

/-- Each block has its code, and the data is as it was. -/
theorem storeEcc_spec (buf : Memory) : (∀ i < g.dataBytesPerPage, storeEcc g buf i = buf i) ∧
    ∀ k < g.blocks, readEcc (storeEcc g buf) (g.eccOf k) = calcEcc (storeEcc g buf) (256 * k) := by
  have hblocks := g.blocks_eq
  have hloop : ∀ n ≤ g.blocks,
      let buf' := (List.range n).foldl (fun buf k => writeEcc buf (g.eccOf k) (calcEcc buf (256 * k))) buf
      (∀ i < g.dataBytesPerPage, buf' i = buf i) ∧ ∀ k < n, readEcc buf' (g.eccOf k) = calcEcc buf' (256 * k) := by
    intro n hn
    induction n with
    | zero => exact ⟨fun _ _ => rfl, fun k hk => absurd hk (Nat.not_lt_zero k)⟩
    | succ n ih =>
      obtain ⟨hdata, hecc⟩ := ih (Nat.le_of_succ_le hn)
      rw [List.range_succ, List.foldl_append]
      generalize (List.range n).foldl (fun buf k => writeEcc buf (g.eccOf k) (calcEcc buf (256 * k))) buf = buf' at hdata hecc
      dsimp only [List.foldl_cons, List.foldl_nil]
      have hsame : ∀ i < g.dataBytesPerPage, writeEcc buf' (g.eccOf n) (calcEcc buf' (256 * n)) i = buf' i :=
        fun i hi => writeEcc_ne (.inl (by unfold Geometry.eccOf; omega))
      have hcode : ∀ k ≤ n, calcEcc (writeEcc buf' (g.eccOf n) (calcEcc buf' (256 * n))) (256 * k) = calcEcc buf' (256 * k) :=
        fun k hk => calcEcc_congr fun i hi => hsame _ (by omega)
      refine ⟨fun i hi => (hsame i hi).trans (hdata i hi), fun k hk => ?_⟩
      rw [hcode k (Nat.le_of_lt_succ hk)]
      rcases Nat.lt_succ_iff_lt_or_eq.mp hk with hlt | rfl
      · rw [← hecc k hlt]
        exact readEcc_congr fun i hi => writeEcc_ne (.inl (by unfold Geometry.eccOf; omega))
      · exact readEcc_writeEcc _ _ _
  exact hloop g.blocks (Nat.le_refl _)

theorem writePage_ok {d : SimuDriver} {page : PageAbs} {data : List Byte} (hlen : data.length ≤ g.dataBytesPerPage)
    (hok : (d.writePage g page data).1 = .ok) :
    (∀ i (hi : i < data.length), (d.writePage g page data).2.pages page i = data[i]) ∧
      ∀ k < g.blocks, readEcc ((d.writePage g page data).2.pages page) (g.eccOf k) =
        calcEcc ((d.writePage g page data).2.pages page) (256 * k) := by
  have hblocks := g.blocks_eq
  have htotal : data.length ≤ g.totalBytesPerPage := hlen.trans (Nat.le_add_right _ _)
  obtain ⟨hdata, hecc⟩ := @storeEcc_spec g (fill g d.buf data)
  unfold SimuDriver.writePage at hok ⊢
  rw [if_neg (Nat.not_lt.mpr htotal)] at hok ⊢
  dsimp only at hok ⊢
  rw [if_pos hlen] at hok ⊢
  split at hok
  · rename_i haccepts
    rw [if_pos haccepts]
    dsimp only
    rw [Function.update_self]
    have hcopy : ∀ i < g.totalBytesPerPage,
        copy g.totalBytesPerPage (storeEcc g (fill g d.buf data)) (d.pages page) i = storeEcc g (fill g d.buf data) i :=
      fun i hi => if_pos hi
    have hpage : g.dataBytesPerPage ≤ g.totalBytesPerPage := Nat.le_add_right _ _
    refine ⟨fun i hi => ?_, fun k hk => ?_⟩
    · rw [hcopy i (by omega), hdata i (by omega), fill, Memory.write_of_mem (by omega), Nat.sub_zero,
        List.getD_eq_getElem _ _ hi]
    · have hslot := g.eccOf_lt hk
      refine (readEcc_congr fun i hi => hcopy _ (by omega)).trans ((hecc k hk).trans ?_)
      exact calcEcc_congr fun i hi => (hcopy _ (by omega)).symm
  · cases hok

/-! ### What is corrected -/

/-- Bits of the first block are flipped, one after the other. -/
def toggled (ns : List (Fin 2048)) (m : Memory) : Memory := ns.foldl (fun m n => flipBit m 0 n) m

theorem flipBit_getLsbD (m : Memory) (n : Nat) {j : Nat} (hj : j < 8) :
    (flipBit m 0 n i).getLsbD j = ((m i).getLsbD j ^^ decide (n = 8 * i + j)) := by
  rw [flipBit, Nat.zero_add]
  by_cases hbyte : i = n / 8
  · have hbit : n % 8 = j ↔ n = 8 * i + j := by omega
    rw [hbyte, Function.update_self, BitVec.getLsbD_xor, ← BitVec.twoPow_eq, BitVec.getLsbD_twoPow]
    rw [hbyte] at hbit
    simp [hbit, Nat.mod_lt]
  · have hne : n ≠ 8 * i + j := by omega
    rw [Function.update_of_ne hbyte, decide_eq_false hne, Bool.xor_false]

theorem toggled_getLsbD (ns : List (Fin 2048)) (m : Memory) {j : Nat} (hj : j < 8) : (toggled ns m i).getLsbD j =
    ((m i).getLsbD j ^^ decide (ns.countP (fun n => n.val = 8 * i + j) % 2 = 1)) := by
  induction ns generalizing m with
  | nil => simp [toggled]
  | cons n ns ih =>
    have hstep : toggled (n :: ns) m = toggled ns (flipBit m 0 n) := rfl
    rw [hstep, ih, flipBit_getLsbD m n hj, List.countP_cons, Bool.xor_assoc]
    congr 1
    by_cases hn : n.val = 8 * i + j
    · simp only [hn, decide_true, if_true, Bool.true_xor]
      rcases Nat.mod_two_eq_zero_or_one (ns.countP fun n => n.val = 8 * i + j) with h | h
      · simp [h, Nat.add_mod]
      · simp [h, Nat.add_mod]
    · simp [hn]

theorem toggled_ne {ns : List (Fin 2048)} (hi : 256 ≤ i) : toggled ns m i = m i := by
  induction ns generalizing m with
  | nil => rfl
  | cons n ns ih =>
    have hne : i ≠ 0 + n.val / 8 := by omega
    exact ih.trans (Function.update_of_ne hne _ _)

theorem flipped_none (hnone : flips k = none) (hi : i < 256) :
    flipped g flips m (256 * k + i) = m (256 * k + i) := by
  have hblock : (256 * k + i) / 256 = k := by omega
  unfold flipped
  rw [hblock, hnone]
  exact ite_self _

theorem flipped_some (hk : k < g.blocks) {n : Fin 2048} (hsome : flips k = some n) (hi : i < 256) :
    flipped g flips m (256 * k + i) =
      Function.update (fun i => m (256 * k + i)) (n.val / 8) (m (256 * k + n.val / 8) ^^^ 1#8 <<< (n.val % 8)) i := by
  have hblock : (256 * k + i) / 256 = k := by omega
  have hbyte : (256 * k + i) % 256 = i := by omega
  have hblocks := g.blocks_eq
  have hlt : 256 * k + i < g.dataBytesPerPage := by omega
  unfold flipped
  rw [hblock, hsome, hbyte, if_pos hlt, Function.update_apply]
  dsimp only
  by_cases heq : i = n.val / 8
  · rw [if_pos heq.symm, if_pos heq, heq]
  · rw [if_neg (Ne.symm heq), if_neg heq]

theorem flipped_behind (hi : g.dataBytesPerPage ≤ i) : flipped g flips m i = m i := if_neg (Nat.not_lt.mpr hi)

/-- The code of a block in which a bit was flipped. -/
theorem correct_flipped (hk : k < g.blocks) (hecc : readEcc m (g.eccOf k) = calcEcc m (256 * k))
    (hbuf : ∀ i, 256 * k ≤ i → i < g.totalBytesPerPage → buf i = flipped g flips m i) :
    correct buf 0 (g.eccOf k) (calcEcc buf (256 * k)) =
      match flips k with
      | some n => (.biterrorCorrected, flipBit buf 0 n)
      | none => (.ok, buf) := by
  have hblocks := g.blocks_eq
  have hslot := g.eccOf_lt hk
  have hread : readEcc buf (g.eccOf k) = calcEcc m (256 * k) := by
    refine (readEcc_congr fun i hi => ?_).trans hecc
    have hbehind : g.dataBytesPerPage ≤ g.eccOf k + i := by
      unfold Geometry.eccOf
      omega
    rw [hbuf _ (by omega) (by omega), flipped_behind hbehind]
  have hroom : ∀ i < 256, 256 * k + i < g.totalBytesPerPage := by
    intro i hi
    unfold Geometry.totalBytesPerPage
    omega
  cases hflip : flips k with
  | none =>
    refine correct_same (hread.trans (calcEcc_congr fun i hi => ?_).symm)
    rw [hbuf _ (Nat.le_add_right _ _) (hroom i hi), flipped_none hflip hi]
  | some n =>
    refine correct_flip n.isLt hread ?_
    unfold calcEcc
    rw [← parity_flip _ n.isLt]
    refine congrArg Parity.ecc (parity_congr fun i hi => ?_)
    rw [hbuf _ (Nat.le_add_right _ _) (hroom i hi), flipped_some hk hflip hi]

/-- All blocks are looked at, and every flipped bit is flipped in the first. -/
theorem correctBlocks (hecc : ∀ k < g.blocks, readEcc m (g.eccOf k) = calcEcc m (256 * k))
    (hbuf : ∀ i < g.totalBytesPerPage, buf i = flipped g flips m i) {k : Nat} (hk : k ≤ g.blocks) :
    (List.range k).foldl (correctBlock g) (.ok, buf) =
      (if ∃ i < k, (flips i).isSome then .biterrorCorrected else .ok, toggled ((List.range k).filterMap flips) buf) := by
  induction k with
  | zero => simp [toggled]
  | succ k ih =>
    rw [List.range_succ, List.foldl_append, ih (Nat.le_of_succ_le hk), List.filterMap_append]
    dsimp only [List.foldl_cons, List.foldl_nil]
    have hlater : ∀ i, 256 * k ≤ i → i < g.totalBytesPerPage →
        toggled ((List.range k).filterMap flips) buf i = flipped g flips m i := by
      intro i hi hlt
      rcases Nat.eq_zero_or_pos k with rfl | hpos
      · exact hbuf i hlt
      · rw [toggled_ne (by omega), hbuf i hlt]
    rw [correctBlock]
    dsimp only
    rw [correct_flipped hk (hecc k hk) hlater]
    have hexists : (∃ i < k + 1, (flips i).isSome = true) ↔ (∃ i < k, (flips i).isSome = true) ∨ (flips k).isSome = true :=
      Nat.exists_lt_succ_right
    simp only [hexists]
    -- `biterrorCorrected` is worse than `ok`
    cases hflip : flips k with
    | none =>
      simp only [Option.isSome_none, Bool.false_eq_true, or_false, List.filterMap_cons, hflip, List.filterMap_nil, List.append_nil]
      by_cases hbefore : ∃ i < k, (flips i).isSome = true
      · rw [if_pos hbefore]
        rfl
      · rw [if_neg hbefore]
        rfl
    | some n =>
      simp only [Option.isSome_some, or_true, if_true, List.filterMap_cons, hflip, List.filterMap_nil]
      refine Prod.ext ?_ ?_
      · by_cases hbefore : ∃ i < k, (flips i).isSome = true
        · rw [if_pos hbefore]
          rfl
        · rw [if_neg hbefore]
          rfl
      · simp [toggled, List.foldl_append]

/-! ### What comes back -/

theorem flipped_getLsbD (hi : i < g.dataBytesPerPage) {j : Nat} (hj : j < 8) : (flipped g flips m i).getLsbD j =
    ((m i).getLsbD j ^^ decide (flips (i / 256) = some ⟨8 * (i % 256) + j, by omega⟩)) := by
  unfold flipped
  rw [if_pos hi]
  cases hflip : flips (i / 256) with
  | none => simp
  | some n =>
    have heq : some n = some (⟨8 * (i % 256) + j, by omega⟩ : Fin 2048) ↔ n.val = 8 * (i % 256) + j := by
      rw [Option.some_inj, Fin.ext_iff]
    dsimp only
    simp only [heq]
    by_cases hbyte : n.val / 8 = i % 256
    · have hbit : n.val % 8 = j ↔ n.val = 8 * (i % 256) + j := by omega
      rw [if_pos hbyte, BitVec.getLsbD_xor, ← BitVec.twoPow_eq, BitVec.getLsbD_twoPow]
      simp [hbit, Nat.mod_lt]
    · have hne : n.val ≠ 8 * (i % 256) + j := by omega
      rw [if_neg hbyte, decide_eq_false hne, Bool.xor_false]

/-- Of the flips at one place those in later blocks are counted apart. -/
theorem countP_flips (hpos : 0 < g.blocks) (n : Fin 2048) :
    ((List.range g.blocks).filterMap flips).countP (fun n' => n'.val = n.val) =
      (List.range g.blocks).countP (fun k => k ≠ 0 ∧ flips k = some n) + if flips 0 = some n then 1 else 0 := by
  obtain ⟨b, hb⟩ := Nat.exists_eq_succ_of_ne_zero (Nat.ne_of_gt hpos)
  have hflips : ∀ k, ((flips k).map fun n' => decide (n'.val = n.val)).getD false = decide (flips k = some n) := by
    intro k
    cases flips k with
    | none => rfl
    | some n' => simp [Fin.ext_iff]
  simp only [List.countP_filterMap, hflips]
  rw [hb, List.range_succ_eq_map, List.countP_cons, List.countP_cons, List.countP_map, List.countP_map]
  congr 1
  · simp [Function.comp_def]
  · simp

/-- A bit of the first block. -/
theorem first_bit (hi : i < g.dataBytesPerPage) (hfirst : i < 256) {j : Nat} (hj : j < 8) :
    (toggled ((List.range g.blocks).filterMap flips) (flipped g flips m) i).getLsbD j = (m i).getLsbD j ↔
      Even ((List.range g.blocks).countP fun k => k ≠ 0 ∧ flips k = some ⟨8 * i + j, by omega⟩) := by
  have hblocks := g.blocks_eq
  have hpos : 0 < g.blocks := by omega
  have hcount := @countP_flips g flips hpos ⟨8 * i + j, by omega⟩
  rw [toggled_getLsbD _ _ hj, flipped_getLsbD hi hj]
  dsimp only at hcount
  rw [hcount]
  have hblock : i / 256 = 0 := Nat.div_eq_of_lt hfirst
  have hbyte : i % 256 = i := Nat.mod_eq_of_lt hfirst
  simp only [hblock, hbyte]
  rw [Nat.even_iff]
  generalize (List.range g.blocks).countP (fun k => k ≠ 0 ∧ flips k = some ⟨8 * i + j, _⟩) = others
  by_cases hzero : flips 0 = some ⟨8 * i + j, by omega⟩
  · rw [if_pos hzero, decide_eq_true hzero]
    rcases Nat.mod_two_eq_zero_or_one others with heven | hodd
    · have hsum : (others + 1) % 2 = 1 := by omega
      simp [heven, hsum]
    · have hsum : (others + 1) % 2 = 0 := by omega
      simp [hodd, hsum]
  · rw [if_neg hzero, decide_eq_false hzero, Nat.add_zero]
    rcases Nat.mod_two_eq_zero_or_one others with heven | hodd
    · simp [heven]
    · simp [hodd]

/-- A byte of a later block. -/
theorem later_byte (hi : i < g.dataBytesPerPage) (hlater : 256 ≤ i) :
    toggled ((List.range g.blocks).filterMap flips) (flipped g flips m) i = m i ↔
      ∀ n ∈ flips (i / 256), n.val / 8 ≠ i % 256 := by
  rw [toggled_ne hlater]
  unfold flipped
  rw [if_pos hi]
  cases hflip : flips (i / 256) with
  | none => simp
  | some n =>
    have hbit : ∀ j : Fin 8, (1#8 <<< j.val : Byte) ≠ 0 := by decide
    have hchanged : m i ^^^ 1#8 <<< (n.val % 8) ≠ m i := by
      intro heq
      refine hbit ⟨n.val % 8, Nat.mod_lt _ (by decide)⟩ ?_
      exact (BitVec.xor_right_inj (m i)).mp (heq.trans (BitVec.xor_zero).symm)
    by_cases hbyte : n.val / 8 = i % 256
    · simp [hbyte, hchanged]
    · simp [hbyte]

/-- The first bytes are as they were written. -/
theorem harmless_iff {len : Nat} (hlen : len ≤ g.dataBytesPerPage) :
    (∀ i < len, toggled ((List.range g.blocks).filterMap flips) (flipped g flips m) i = m i) ↔ Harmless g flips len := by
  have hblocks := g.blocks_eq
  constructor
  · refine fun hsame => ⟨fun k hpos hk n hn => ?_, fun n hn => ?_⟩
    · by_contra hread
      have hblock : (256 * k + n.val / 8) / 256 = k := by omega
      have hbyte : (256 * k + n.val / 8) % 256 = n.val / 8 := by omega
      have hlater := (later_byte (m := m) (by omega) (by omega)).mp (hsame (256 * k + n.val / 8) (by omega))
      rw [hblock, hbyte] at hlater
      exact hlater n hn rfl
    · have hbyte : n.val / 8 < 256 := by omega
      have hbit := (first_bit (by omega) hbyte (Nat.mod_lt n.val (by decide))).mp
        (congrArg (fun b => b.getLsbD (n.val % 8)) (hsame (n.val / 8) hn))
      have hn : (⟨8 * (n.val / 8) + n.val % 8, by omega⟩ : Fin 2048) = n := Fin.ext (Nat.div_add_mod n.val 8)
      rwa [hn] at hbit
  · rintro ⟨hlater, hfirst⟩ i hi
    rcases Nat.lt_or_ge i 256 with hblock | hblock
    · refine BitVec.eq_of_getLsbD_eq fun j hj => ?_
      refine (first_bit (by omega) hblock hj).mpr (hfirst _ ?_)
      have hbyte : (8 * i + j) / 8 = i := by omega
      rwa [hbyte]
    · refine (later_byte (by omega) hblock).mpr fun n hn hbyte => ?_
      have hread := hlater (i / 256) (by omega) (by omega) n hn
      omega

/-- What was read of a page in which at most one bit of each block was flipped. -/
theorem readPage_flipped {d : SimuDriver} {page : PageAbs} {dataLen : Nat}
    (hecc : ∀ k < g.blocks, readEcc m (g.eccOf k) = calcEcc m (256 * k)) (hgives : d.gives page)
    (hpage : ∀ i < g.totalBytesPerPage, d.pages page i = flipped g flips m i) (hlen : dataLen ≤ g.totalBytesPerPage) :
    (d.readPage g page dataLen).1 =
      (if ∃ k < g.blocks, (flips k).isSome then .biterrorCorrected else .ok,
        (toggled ((List.range g.blocks).filterMap flips) (copy g.totalBytesPerPage (d.pages page) d.buf)).read 0 dataLen) := by
  have hbuf : ∀ i < g.totalBytesPerPage, copy g.totalBytesPerPage (d.pages page) d.buf i = flipped g flips m i :=
    fun i hi => (if_pos hi).trans (hpage i hi)
  unfold SimuDriver.readPage
  rw [if_neg (Nat.not_lt.mpr hlen), if_pos hgives, correctBlocks hecc hbuf (Nat.le_refl _)]

theorem toggled_congr {ns : List (Fin 2048)} (h : m i = m' i) : toggled ns m i = toggled ns m' i := by
  refine BitVec.eq_of_getLsbD_eq fun j hj => ?_
  rw [toggled_getLsbD ns m hj, toggled_getLsbD ns m' hj, h]

/-- The first block takes all the corrections. -/
theorem repaired_iff {d : SimuDriver} {page : PageAbs} {data : List Byte} {dataLen : Nat}
    (hlen : data.length ≤ g.dataBytesPerPage) (hdata : ∀ i (hi : i < data.length), m i = data[i])
    (hecc : ∀ k < g.blocks, readEcc m (g.eccOf k) = calcEcc m (256 * k))
    (hpage : ∀ i < g.totalBytesPerPage, d.pages page i = flipped g flips m i) (hgives : d.gives page)
    (hread : dataLen ≤ g.totalBytesPerPage) :
    Repaired g flips data dataLen (d.readPage g page dataLen).1 ↔
      ∀ i < min data.length dataLen, toggled ((List.range g.blocks).filterMap flips) (flipped g flips m) i = m i := by
  have htotal : g.dataBytesPerPage ≤ g.totalBytesPerPage := Nat.le_add_right _ _
  rw [readPage_flipped hecc hgives hpage hread]
  unfold Repaired
  rw [and_iff_right rfl]
  have hbyte : ∀ i, i < g.totalBytesPerPage →
      toggled ((List.range g.blocks).filterMap flips) (copy g.totalBytesPerPage (d.pages page) d.buf) i =
        toggled ((List.range g.blocks).filterMap flips) (flipped g flips m) i :=
    fun i hi => toggled_congr ((if_pos hi).trans (hpage i hi))
  constructor
  · intro heq i hi
    have hbytes := congrArg (fun bs => bs[i]?) heq
    rw [List.getElem?_take_of_lt (by omega), List.getElem?_take_of_lt (by omega), List.getElem?_eq_getElem (by simp; omega),
      List.getElem?_eq_getElem (by omega), Memory.getElem_read, Nat.zero_add, Option.some_inj, hbyte i (by omega)] at hbytes
    rw [hbytes, hdata i (by omega)]
  · intro hsame
    refine List.ext_getElem (by simp; omega) fun i hi hi' => ?_
    rw [List.length_take] at hi'
    rw [List.getElem_take, List.getElem_take, Memory.getElem_read, Nat.zero_add, hbyte i (by omega), hsame i (by omega),
      hdata i (by omega)]

/-- A page whose blocks each have at most one flipped bit. -/
theorem readPage_iff {d d' : SimuDriver} {page : PageAbs} {data : List Byte} {dataLen : Nat}
    (hlen : data.length ≤ g.dataBytesPerPage) (hwritten : (d.writePage g page data).1 = .ok)
    (hpage : ∀ i < g.totalBytesPerPage, d'.pages page i = flipped g flips ((d.writePage g page data).2.pages page) i)
    (hgives : d'.gives page) (hread : dataLen ≤ g.totalBytesPerPage) :
    Repaired g flips data dataLen (d'.readPage g page dataLen).1 ↔ Harmless g flips (min data.length dataLen) := by
  obtain ⟨hdata, hecc⟩ := writePage_ok hlen hwritten
  rw [repaired_iff hlen hdata hecc hpage hgives hread]
  exact harmless_iff (by omega)

/-! ### Two blocks -/

def twoBlocks : Geometry where
  dataBytesPerPage := 512
  oobBytesPerPage := 16
  whole := by decide
  room := by decide

def erased : SimuDriver := ⟨fun _ => 0xFF, fun _ _ => 0xFF, fun _ => true, fun _ => true⟩

/-- A page was written, and then bits were flipped. -/
def aged (data : List Byte) (flips : Nat → Option (Fin 2048)) : SimuDriver :=
  { erased with pages := fun page => flipped twoBlocks flips ((erased.writePage twoBlocks 0 data).2.pages page) }

theorem erased_writePage {data : List Byte} (hlen : data.length ≤ 512) : (erased.writePage twoBlocks 0 data).1 = .ok := by
  have htotal : ¬ data.length > twoBlocks.totalBytesPerPage := by
    simp only [twoBlocks, Geometry.totalBytesPerPage]
    omega
  unfold SimuDriver.writePage
  rw [if_neg htotal]
  rfl

def zeros : List Byte := .replicate 512 0

theorem length_zeros : zeros.length = 512 := List.length_replicate

/-- A bit of one block. -/
def oneBlock (k : Nat) (n : Fin 2048) (i : Nat) : Option (Fin 2048) := if i = k then some n else none

/-- A bit of the first block is repaired. -/
theorem first_block_is_repaired :
    Repaired twoBlocks (oneBlock 0 9) zeros 512 ((aged zeros (oneBlock 0 9)).readPage twoBlocks 0 512).1 := by
  have hlen := length_zeros
  refine (readPage_iff hlen.le (erased_writePage hlen.le) (fun _ _ => rfl) rfl (by decide)).mpr ⟨?_, ?_⟩
  · intro k hpos _ n hn
    rw [oneBlock, if_neg hpos] at hn
    cases hn
  · intro n _
    have hnone : ∀ k, decide (k ≠ 0 ∧ oneBlock 0 9 k = some n) = false := by
      intro k
      rw [decide_eq_false_iff_not, oneBlock]
      rintro ⟨hpos, hflip⟩
      rw [if_neg hpos] at hflip
      cases hflip
    simp only [hnone, List.countP_false]
    exact ⟨0, rfl⟩

/-- A bit of the second block stays flipped. -/
theorem second_block_stays_flipped : ¬ ∀ (g : Geometry) (flips : Nat → Option (Fin 2048)) (d d' : SimuDriver) (page : PageAbs)
    (data : List Byte) (dataLen : Nat), data.length ≤ g.dataBytesPerPage → (d.writePage g page data).1 = .ok →
      (∀ i < g.totalBytesPerPage, d'.pages page i = flipped g flips ((d.writePage g page data).2.pages page) i) →
      d'.gives page → dataLen ≤ g.totalBytesPerPage → Repaired g flips data dataLen (d'.readPage g page dataLen).1 := by
  intro h
  have hlen := length_zeros
  have hwritten := erased_writePage hlen.le
  have hrepaired := h twoBlocks (oneBlock 1 0) erased (aged zeros (oneBlock 1 0)) 0 zeros 512 hlen.le hwritten
    (fun _ _ => rfl) rfl (by decide)
  obtain ⟨hdata, hecc⟩ := writePage_ok hlen.le hwritten
  have hmin : min zeros.length 512 = 512 := by rw [hlen, Nat.min_self]
  have hsame := (repaired_iff hlen.le hdata hecc (fun _ _ => rfl) rfl (by decide)).mp hrepaired
  rw [hmin] at hsame
  have hbehind := ((harmless_iff (Nat.le_refl 512)).mp hsame).1 1 (by decide) (by decide) 0 rfl
  exact absurd hbehind (by decide)

end Paffs.Driver
