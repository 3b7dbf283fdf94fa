import Paffs.Directory.Entries

/-! The parsers of a directory on the records that are written. -/
namespace Paffs.Directory
open Bytes (Byte toBytes ofBytes toBytes_length ofBytes_toBytes)

namespace Entry

def bytes (e : Entry) : List Byte := record e.name e.no

/-- The length of the record fits into its byte, and it has a name. -/
def Fits (e : Entry) : Prop := 1 ≤ e.name.length ∧ e.name.length ≤ 250

theorem length_bytes (e : Entry) : e.bytes.length = 5 + e.name.length := by
  simp only [bytes, record, List.length_cons, List.length_append, toBytes_length]
  omega

end Entry

/-- The data of a directory with these entries. -/
def encode (entries : List Entry) : List Byte := toBytes 2 entries.length ++ entries.flatMap Entry.bytes

theorem setCount_encode (entries : List Entry) (rest : List Byte) (f : Nat → Nat) :
    setCount (encode entries ++ rest) f = toBytes 2 (f (entries.length % 2 ^ 16)) ++ (entries.flatMap Entry.bytes ++ rest) := by
  unfold setCount encode
  rw [List.append_assoc, List.take_left' (toBytes_length _ _), List.drop_left' (toBytes_length _ _), ofBytes_toBytes]
  norm_num

theorem toBytes_mod (x : Nat) : toBytes 2 (x % 2 ^ 16) = toBytes 2 x := by
  simp only [toBytes, List.cons.injEq, and_true]
  constructor
  · apply BitVec.eq_of_toNat_eq
    simp only [BitVec.toNat_ofNat]
    omega
  · apply BitVec.eq_of_toNat_eq
    simp only [BitVec.toNat_ofNat]
    omega

theorem toBytes_congr {x y : Nat} (h : x % 2 ^ 16 = y % 2 ^ 16) : toBytes 2 x = toBytes 2 y := by
  rw [← toBytes_mod x, h, toBytes_mod]

theorem ofBytes_no (no : InodeNo) : ofBytes (toBytes 4 no.toNat) = no.toNat := by
  rw [ofBytes_toBytes]
  exact Nat.mod_eq_of_lt (no.toNat_lt.trans_eq (by norm_num))

theorem toBytes_no {no no' : InodeNo} (h : toBytes 4 no.toNat = toBytes 4 no'.toNat) : no = no' := by
  have heq := congrArg ofBytes h
  rw [ofBytes_no, ofBytes_no] at heq
  exact UInt32.toNat_inj.mp heq

section Record
variable {e : Entry} {pre rest : List Byte}

theorem getD_record (he : e.Fits) : ((pre ++ (e.bytes ++ rest)).getD pre.length 0).toNat = 5 + e.name.length := by
  have hget : (pre ++ (e.bytes ++ rest)).getD pre.length 0 = BitVec.ofNat 8 (5 + e.name.length) := by
    rw [List.getD_append_right _ _ _ _ (Nat.le_refl _), Nat.sub_self]
    rfl
  rw [hget, BitVec.toNat_ofNat]
  exact Nat.mod_eq_of_lt (by have := he.2; omega)

theorem take_no : ((pre ++ (e.bytes ++ rest)).drop (pre.length + 1)).take 4 = toBytes 4 e.no.toNat := by
  rw [← List.drop_drop, List.drop_left]
  change ((toBytes 4 e.no.toNat ++ e.name) ++ rest).take 4 = _
  rw [List.append_assoc, List.take_left' (toBytes_length _ _)]

theorem take_name : ((pre ++ (e.bytes ++ rest)).drop (pre.length + 5)).take e.name.length = e.name := by
  rw [← List.drop_drop, List.drop_left]
  change (((toBytes 4 e.no.toNat ++ e.name) ++ rest).drop 4).take e.name.length = _
  rw [List.append_assoc, List.drop_left' (toBytes_length _ _), List.take_left]

theorem length_record (e : Entry) (pre rest : List Byte) : (pre ++ (e.bytes ++ rest)).length = pre.length + (5 + e.name.length) + rest.length := by
  rw [List.length_append, List.length_append, e.length_bytes, ← Nat.add_assoc]

/-- One round of the search for a name. -/
theorem findName_record {name : Name} (he : e.Fits) (hname : name.length < 2 ^ 8) (fuel : Nat) :
    findName (pre ++ (e.bytes ++ rest)) name (fuel + 1) pre.length =
      if e.name = name then some (.ok e.no) else findName ((pre ++ e.bytes) ++ rest) name fuel (pre ++ e.bytes).length := by
  have hlength := length_record e pre rest
  have hfits := he.1
  rw [findName, getD_record he, if_neg (by omega), if_neg (by omega), if_neg (by omega), Nat.add_sub_cancel_left,
    Nat.mod_eq_of_lt hname]
  dsimp only
  rw [take_name, take_no, ofBytes_no, UInt32.ofNat_toNat]
  rw [if_neg (show ¬ (pre ++ (e.bytes ++ rest)).length < pre.length + (5 + e.name.length) by omega)]
  have hnext : pre.length + (5 + e.name.length) = (pre ++ e.bytes).length := by
    rw [List.length_append, e.length_bytes]
  rw [hnext, List.append_assoc]
  by_cases hlen : e.name.length = name.length
  · rw [if_pos hlen, hlen, List.take_length]
    simp only [eq_comm]
  · rw [if_neg hlen, if_neg fun heq => hlen (congrArg List.length heq)]

/-- One round of the search for an inode number. -/
theorem findInode_record {elem : InodeNo} (he : e.Fits) (fuel : Nat) :
    findInode (pre ++ (e.bytes ++ rest)) elem (fuel + 1) pre.length =
      if e.no = elem then some (some (pre.length, 5 + e.name.length))
      else findInode ((pre ++ e.bytes) ++ rest) elem fuel (pre ++ e.bytes).length := by
  have hlength := length_record e pre rest
  rw [findInode, getD_record he, if_neg (by omega), if_neg (by omega), take_no]
  dsimp only
  have hnext : pre.length + (5 + e.name.length) = (pre ++ e.bytes).length := by
    rw [List.length_append, e.length_bytes]
  rw [hnext, List.append_assoc]
  by_cases hno : e.no = elem
  · rw [if_pos hno, if_pos (congrArg _ (congrArg _ hno))]
  · rw [if_neg hno, if_neg fun heq => hno (toBytes_no heq)]

/-- One round over all entries. -/
theorem readEntries_record (he : e.Fits) (fuel : Nat) :
    readEntries (pre ++ (e.bytes ++ rest)) (fuel + 1) pre.length =
      (readEntries ((pre ++ e.bytes) ++ rest) fuel (pre ++ e.bytes).length).map (e :: ·) := by
  have hlength := length_record e pre rest
  have hnamel : (5 + e.name.length + 2 ^ 16 - 5) % 2 ^ 16 = e.name.length := by
    have hfits := he.2
    omega
  rw [readEntries, getD_record he, if_neg (by omega)]
  dsimp only
  rw [hnamel, if_neg (by omega), take_name, take_no, ofBytes_no, UInt32.ofNat_toNat]
  have hnext : pre.length + 5 + e.name.length = (pre ++ e.bytes).length := by
    rw [List.length_append, e.length_bytes, Nat.add_assoc]
  rw [hnext, List.append_assoc]

end Record

/-- The search for a name finds the first entry with this name. -/
theorem findName_records {name : Name} (hname : name.length < 2 ^ 8) (entries : List Entry) (hfits : ∀ e ∈ entries, e.Fits)
    (pre : List Byte) (fuel : Nat) (hfuel : entries.length < fuel) :
    findName (pre ++ entries.flatMap Entry.bytes) name fuel pre.length =
      some (((entries.find? fun e => e.name = name).map Entry.no).elim (.error .notFound) .ok) := by
  induction entries generalizing pre fuel with
  | nil =>
    obtain ⟨fuel, rfl⟩ := Nat.exists_eq_add_of_lt hfuel
    rw [List.flatMap_nil, List.append_nil, List.length_nil, findName, if_pos (Nat.le_refl _)]
    rfl
  | cons e entries ih =>
    obtain ⟨fuel, rfl⟩ := Nat.exists_eq_add_of_lt (Nat.zero_lt_of_lt hfuel)
    rw [Nat.zero_add] at hfuel ⊢
    rw [List.flatMap_cons, findName_record (hfits e List.mem_cons_self) hname,
      ih (fun e' he' => hfits e' (List.mem_cons_of_mem _ he')) _ _ (Nat.lt_of_succ_lt_succ hfuel)]
    by_cases heq : e.name = name
    · rw [if_pos heq, List.find?_cons_of_pos (by simpa using heq)]
      rfl
    · rw [if_neg heq, List.find?_cons_of_neg (by simpa using heq)]

theorem readEntries_records (entries : List Entry) (hfits : ∀ e ∈ entries, e.Fits) (pre : List Byte) (fuel : Nat)
    (hfuel : entries.length < fuel) : readEntries (pre ++ entries.flatMap Entry.bytes) fuel pre.length = some entries := by
  induction entries generalizing pre fuel with
  | nil =>
    obtain ⟨fuel, rfl⟩ := Nat.exists_eq_add_of_lt hfuel
    rw [List.flatMap_nil, List.append_nil, List.length_nil, readEntries, if_pos (Nat.le_refl _)]
  | cons e entries ih =>
    obtain ⟨fuel, rfl⟩ := Nat.exists_eq_add_of_lt (Nat.zero_lt_of_lt hfuel)
    rw [Nat.zero_add] at hfuel ⊢
    rw [List.flatMap_cons, readEntries_record (hfits e List.mem_cons_self),
      ih (fun e' he' => hfits e' (List.mem_cons_of_mem _ he')) _ _ (Nat.lt_of_succ_lt_succ hfuel)]
    rfl

/-- No entry has this number. -/
theorem findInode_none {elem : InodeNo} (entries : List Entry) (hfits : ∀ e ∈ entries, e.Fits)
    (hnone : ∀ e ∈ entries, e.no ≠ elem) (pre : List Byte) (fuel : Nat) (hfuel : entries.length < fuel) :
    findInode (pre ++ entries.flatMap Entry.bytes) elem fuel pre.length = some none := by
  induction entries generalizing pre fuel with
  | nil =>
    obtain ⟨fuel, rfl⟩ := Nat.exists_eq_add_of_lt hfuel
    rw [List.flatMap_nil, List.append_nil, List.length_nil, findInode, if_pos (Nat.le_refl _)]
  | cons e entries ih =>
    obtain ⟨fuel, rfl⟩ := Nat.exists_eq_add_of_lt (Nat.zero_lt_of_lt hfuel)
    rw [Nat.zero_add] at hfuel ⊢
    rw [List.flatMap_cons, findInode_record (hfits e List.mem_cons_self), if_neg (hnone e List.mem_cons_self)]
    exact ih (fun e' he' => hfits e' (List.mem_cons_of_mem _ he')) (fun e' he' => hnone e' (List.mem_cons_of_mem _ he')) _ _
      (Nat.lt_of_succ_lt_succ hfuel)

/-- The first entry with this number. -/
theorem findInode_some {elem : InodeNo} (before : List Entry) {e : Entry} (rest : List Byte) (hfits : ∀ e ∈ before, e.Fits)
    (hother : ∀ e ∈ before, e.no ≠ elem) (he : e.Fits) (helem : e.no = elem) (pre : List Byte) (fuel : Nat)
    (hfuel : before.length < fuel) :
    findInode (pre ++ (before.flatMap Entry.bytes ++ (e.bytes ++ rest))) elem fuel pre.length =
      some (some ((pre ++ before.flatMap Entry.bytes).length, 5 + e.name.length)) := by
  induction before generalizing pre fuel with
  | nil =>
    obtain ⟨fuel, rfl⟩ := Nat.exists_eq_add_of_lt hfuel
    rw [List.flatMap_nil, List.nil_append, List.append_nil, findInode_record he, if_pos helem]
  | cons b before ih =>
    obtain ⟨fuel, rfl⟩ := Nat.exists_eq_add_of_lt (Nat.zero_lt_of_lt hfuel)
    rw [Nat.zero_add] at hfuel ⊢
    rw [List.flatMap_cons, List.append_assoc, findInode_record (hfits b List.mem_cons_self),
      if_neg (hother b List.mem_cons_self), ih (fun e' he' => hfits e' (List.mem_cons_of_mem _ he'))
      (fun e' he' => hother e' (List.mem_cons_of_mem _ he')) _ _ (Nat.lt_of_succ_lt_succ hfuel), List.append_assoc]

end Paffs.Directory
