import Paffs.Directory.Parsing
import Paffs.Directory.Records

/-! Which directories the parsers are safe on. -/
namespace Paffs.Directory.Parsing
open Bytes (Byte toBytes ofBytes)

/-- A call that ends within its memory. -/
def Ends (call : Nat → Outcome) : Prop := ∃ fuel, call fuel = .done ∨ ∃ r, call fuel = .failed r

theorem Ends.of_succ {call next : Nat → Outcome} (h : Ends next) (hnext : ∀ fuel, call (fuel + 1) = next fuel) : Ends call := by
  obtain ⟨fuel, hfuel⟩ := h
  exact ⟨fuel + 1, by rwa [hnext]⟩

theorem Ends.of_failed {call : Nat → Outcome} {r : Result} (h : call 1 = .failed r) : Ends call := ⟨1, .inr ⟨r, h⟩⟩

theorem ends_const {o : Outcome} (h : o = .done ∨ ∃ r, o = .failed r) : Ends fun _ => o := ⟨0, h⟩

theorem Ends.safe {folder : Folder} {call : Nat → Outcome} (h : Ends call) (hwf : WellFormed folder.bytes) : Safe folder call := by
  obtain ⟨fuel, hdone | hfailed⟩ := h
  · exact ⟨fuel, .inl ⟨hdone, hwf⟩⟩
  · exact ⟨fuel, .inr hfailed⟩

theorem safe_of_failed {folder : Folder} {call : Nat → Outcome} {r : Result} (fuel : Nat) (h : call fuel = .failed r) :
    Safe folder call := ⟨fuel, .inr ⟨r, h⟩⟩

theorem ofResult_ends (r : Result) : ofResult r = .done ∨ ∃ r', ofResult r = .failed r' := by
  rw [ofResult]
  split_ifs
  · exact .inl rfl
  · exact .inr ⟨r, rfl⟩

theorem byte_lt (data : List Byte) (p : Nat) : byte data p < 2 ^ 8 := (data.getD p 0).isLt

theorem nameLength_of_header {direntryl : Nat} (hheader : 5 ≤ direntryl) (hbyte : direntryl < 2 ^ 8) :
    nameLength direntryl = direntryl - 5 := by
  simp only [nameLength]
  omega

section Walk
variable {data : List Byte} (hlt : data.length < 2 ^ 32)
include hlt

theorem wrap_of_le {p : Nat} (hp : p ≤ data.length) : wrap p = p := Nat.mod_eq_of_lt (Nat.lt_of_le_of_lt hp hlt)

theorem findName_ends (name : Name) {k p : Nat} (h : Walk data k p) : Ends fun fuel => findName data name fuel p := by
  induction k generalizing p with
  | zero => exact .of_failed (by rw [findName, if_pos (Nat.le_of_eq h.symm)])
  | succ k ih =>
    obtain ⟨hp, hheader, hrest, hwalk⟩ := h
    by_cases hshort : byte data p < 6
    · refine .of_failed (r := .bug) ?_
      rw [findName, if_neg (Nat.not_le.mpr hp)]
      exact if_pos hshort
    have hname : wrap (p + 5) = p + 5 := wrap_of_le hlt (by omega)
    have hnext : wrap (p + 5 + (byte data p - 5)) = p + byte data p := by
      rw [wrap_of_le hlt (by omega)]
      omega
    have hlong : ¬data.length < byte data p := by omega
    have hinside : ¬data.length < p + 5 + (byte data p - 5) := by omega
    by_cases hfound : byte data p - 5 = name.length % 2 ^ 8 ∧
        name.take (byte data p - 5) = (data.drop (p + 5)).take (byte data p - 5)
    · refine ⟨1, .inl ?_⟩
      simp only [findName, hname]
      rw [if_neg (Nat.not_le.mpr hp), if_neg hshort, if_neg hlong, if_pos hfound.1, if_neg hinside, if_pos hfound.2,
        if_neg (by omega)]
    · refine (ih hwalk).of_succ fun fuel => ?_
      simp only [findName, hname]
      rw [if_neg (Nat.not_le.mpr hp), if_neg hshort, if_neg hlong, if_neg hinside, hnext]
      by_cases hlen : byte data p - 5 = name.length % 2 ^ 8
      · rw [if_pos hlen, if_neg fun hsame => hfound ⟨hlen, hsame⟩]
      · rw [if_neg hlen]

theorem scanChars_ends {p k i : Nat} (h : p + i + k ≤ data.length) :
    scanChars data p k i = none ∨ scanChars data p k i = some (.failed .bug) := by
  induction k generalizing i with
  | zero => exact .inl rfl
  | succ k ih =>
    rw [scanChars, wrap_of_le hlt (by omega : p + i ≤ data.length), if_neg (by omega)]
    split_ifs
    · exact .inr rfl
    · exact ih (by omega)

theorem checkEntries_ends (getInode : InodeNo → Bool) {k p : Nat} (h : Walk data k p) (currentEntry : Nat) :
    Ends fun fuel => checkEntries data getInode fuel p currentEntry := by
  induction k generalizing p currentEntry with
  | zero =>
    refine ⟨1, ?_⟩
    dsimp only
    rw [checkEntries, if_pos (Nat.le_of_eq h.symm)]
    split_ifs
    · exact .inr ⟨_, rfl⟩
    · exact .inl rfl
  | succ k ih =>
    obtain ⟨hp, hheader, hrest, hwalk⟩ := h
    have hnamel := nameLength_of_header hheader (byte_lt data p)
    have hhead : wrap (p + 1) = p + 1 := wrap_of_le hlt (by omega)
    have hname : wrap (p + 1 + 4) = p + 5 := wrap_of_le hlt (by omega)
    have hnext : wrap (p + 5 + (byte data p - 5)) = p + byte data p := by
      rw [wrap_of_le hlt (by omega)]
      omega
    have hstep : ∀ fuel, checkEntries data getInode (fuel + 1) p currentEntry =
        if !getInode (inodeNo data (p + 1)) then .failed .bug
        else (checkName data (p + 5) (byte data p - 5)).getD
          (checkEntries data getInode fuel (p + byte data p) ((currentEntry + 1) % 2 ^ 16)) := by
      intro fuel
      simp only [checkEntries, hhead, hname, hnamel, hnext]
      rw [if_neg (Nat.not_le.mpr hp), if_neg (by omega), if_neg (by omega)]
    by_cases hinode : getInode (inodeNo data (p + 1))
    swap
    · exact .of_failed ((hstep 0).trans (if_pos (by simpa using hinode)))
    have hscan := scanChars_ends hlt (show p + 5 + 0 + (byte data p - 5) ≤ data.length by omega)
    have hcheck : checkName data (p + 5) (byte data p - 5) = scanChars data (p + 5) (byte data p - 5) 0 := by
      simp only [checkName, if_pos (Nat.lt_of_le_of_lt (Nat.sub_le ..) (byte_lt data p))]
    rw [← hcheck] at hscan
    rcases hscan with hnone | hbug
    · refine (ih hwalk ((currentEntry + 1) % 2 ^ 16)).of_succ fun fuel => ?_
      rw [hstep, if_neg (by simpa using hinode), hnone, Option.getD_none]
    · exact .of_failed ((hstep 0).trans (by rw [if_neg (by simpa using hinode), hbug, Option.getD_some]))

theorem removeEntry_ends (others : Others) {pointer entryl : Nat} (hheader : 5 ≤ entryl) (hpointer : 2 ≤ pointer)
    (hrest : pointer + entryl ≤ data.length) :
    removeEntry data.length others pointer entryl = .done ∨ ∃ r, removeEntry data.length others pointer entryl = .failed r := by
  have hnewSize : wrap (data.length + 2 ^ 32 - entryl) = data.length - entryl := by
    rw [wrap]
    omega
  have hrestByte : wrap (data.length - entryl + 2 ^ 32 - pointer) = data.length - entryl - pointer := by
    rw [wrap]
    omega
  have hsource : wrap (pointer + entryl) = pointer + entryl := wrap_of_le hlt hrest
  simp only [removeEntry, hnewSize, hrestByte, hsource]
  rw [if_neg (show ¬(0 < data.length - entryl - pointer ∧ (data.length < pointer + entryl + (data.length - entryl - pointer) ∨
    data.length < pointer + (data.length - entryl - pointer))) by omega)]
  have hwritten : ¬data.length < if data.length - entryl = 2 then 0 else data.length - entryl := by
    split_ifs <;> omega
  rw [if_neg hwritten]
  generalize (if data.length - entryl = 2 then 0 else data.length - entryl) = newSize
  split_ifs
  · exact .inr ⟨_, rfl⟩
  · exact ofResult_ends _
  · exact .inr ⟨_, rfl⟩
  · exact .inr ⟨_, rfl⟩
  · exact .inr ⟨_, rfl⟩
  · exact ofResult_ends _
  · exact .inl rfl

theorem findInode_ends (others : Others) (elem : InodeNo) {k p : Nat} (hpos : 2 ≤ p) (h : Walk data k p) :
    Ends fun fuel => findInode data others elem fuel p := by
  induction k generalizing p with
  | zero => exact .of_failed (by rw [findInode, if_pos (Nat.le_of_eq h.symm)])
  | succ k ih =>
    obtain ⟨hp, hheader, hrest, hwalk⟩ := h
    have hnext : wrap (p + byte data p) = p + byte data p := wrap_of_le hlt hrest
    have hstep : ∀ fuel, findInode data others elem (fuel + 1) p =
        if (data.drop (p + 1)).take 4 = toBytes 4 elem.toNat then removeEntry data.length others p (byte data p)
        else findInode data others elem fuel (p + byte data p) := by
      intro fuel
      simp only [findInode, hnext]
      rw [if_neg (Nat.not_le.mpr hp), if_neg (by omega)]
    by_cases hfound : (data.drop (p + 1)).take 4 = toBytes 4 elem.toNat
    · refine ⟨1, ?_⟩
      dsimp only
      rw [hstep, if_pos hfound]
      exact removeEntry_ends hlt others hheader hpos hrest
    · exact (ih (by omega) hwalk).of_succ fun fuel => by rw [hstep, if_neg hfound]

theorem readChilds_ends {entries : Nat} (hentries : entries < 2 ^ 16) {k p entry : Nat} (h : Walk data k p) (hcount : entry + k = entries) :
    Ends fun fuel => readChilds data entries fuel p entry := by
  induction k generalizing p entry with
  | zero =>
    refine ⟨1, .inl ?_⟩
    dsimp only
    rw [readChilds, if_pos (Nat.le_of_eq h.symm), if_neg (by omega)]
  | succ k ih =>
    obtain ⟨hp, hheader, hrest, hwalk⟩ := h
    have hnamel := nameLength_of_header hheader (byte_lt data p)
    have hhead : wrap (p + 1) = p + 1 := wrap_of_le hlt (by omega)
    have hname : wrap (p + 1 + 4) = p + 5 := wrap_of_le hlt (by omega)
    have hnext : wrap (p + 5 + (byte data p - 5)) = p + byte data p := by
      rw [wrap_of_le hlt (by omega)]
      omega
    have hcount' : entry + 1 + k = entries := by omega
    refine (ih hwalk hcount').of_succ fun fuel => ?_
    simp only [readChilds, hhead, hname, hnamel, hnext]
    rw [if_neg (Nat.not_le.mpr hp), if_neg (by omega), if_neg (by omega), if_neg (by omega),
      Nat.mod_eq_of_lt (by omega)]

end Walk

/-! ### What the calls do with the answer of `readInodeData` -/

section Reading
variable {folder : Folder} {others : Others} {r : Result} {bytesRead : Nat}

theorem getInodeNoInDir_delivered (name : Name) (hread : others.readInodeData = (.ok, folder.size)) (fuel : Nat) :
    getInodeNoInDir folder others name fuel =
      if folder.size ≤ 2 then .failed .notFound else findName folder.bytes name fuel 2 := by
  simp [getInodeNoInDir, hread]

theorem getInodeNoInDir_undelivered (name : Name) (hread : others.readInodeData = (r, bytesRead))
    (h : r ≠ .ok ∨ bytesRead ≠ folder.size) (fuel : Nat) : ∃ r', getInodeNoInDir folder others name fuel = .failed r' := by
  simp only [getInodeNoInDir, hread, if_pos h]
  split_ifs
  · exact ⟨_, rfl⟩
  · exact ⟨_, rfl⟩
  · exact ⟨_, rfl⟩

theorem checkFolderSanity_delivered (hpages : folder.reservedPages ≠ 0) (hread : others.readInodeData = (.ok, folder.size)) (fuel : Nat) :
    checkFolderSanity folder others fuel =
      if folder.size < 2 then .outside else checkEntries folder.bytes others.getInode fuel 2 0 := by
  simp [checkFolderSanity, hpages, hread]

theorem checkFolderSanity_undelivered (hpages : folder.reservedPages ≠ 0) (hread : others.readInodeData = (r, bytesRead))
    (h : r ≠ .ok ∨ bytesRead ≠ folder.size) (fuel : Nat) : checkFolderSanity folder others fuel = ofResult r := by
  simp only [checkFolderSanity, hread, if_neg hpages, if_pos h]

theorem removeInodeFromDir_delivered (elem : InodeNo) (hpages : folder.reservedPages ≠ 0)
    (hread : others.readInodeData = (.ok, folder.size)) (fuel : Nat) :
    removeInodeFromDir folder others elem fuel =
      if folder.size < 2 then .outside else findInode folder.bytes others elem fuel 2 := by
  simp [removeInodeFromDir, hpages, hread]

theorem removeInodeFromDir_undelivered (elem : InodeNo) (hpages : folder.reservedPages ≠ 0)
    (hread : others.readInodeData = (r, bytesRead)) (h : r ≠ .ok ∨ bytesRead ≠ folder.size) (fuel : Nat) :
    removeInodeFromDir folder others elem fuel = ofResult r := by
  simp only [removeInodeFromDir, hread, if_neg hpages, if_pos h]

theorem openDir_delivered (hpages : folder.reservedPages ≠ 0) (hread : others.readInodeData = (.ok, folder.size)) (fuel : Nat) :
    openDir folder others fuel =
      if folder.size = 0 then readChilds folder.bytes 0 fuel 2 0
      else if folder.size < 2 then .outside else readChilds folder.bytes (count folder.bytes) fuel 2 0 := by
  simp [openDir, hread, Nat.pos_of_ne_zero hpages]

theorem openDir_undelivered (hpages : folder.reservedPages ≠ 0) (hread : others.readInodeData = (r, bytesRead))
    (h : r ≠ .ok ∨ bytesRead ≠ folder.size) (fuel : Nat) : openDir folder others fuel = .failed r := by
  simp only [openDir, hread]
  exact if_pos ⟨Nat.pos_of_ne_zero hpages, h⟩

end Reading

/-! ### Directories on which a parser is not safe -/

/-- All others succeed. -/
def agreeing (readInodeData : Result × Nat) : Others := ⟨readInodeData, fun _ => true, .ok, .ok, .ok, .ok, .ok⟩

theorem not_safe {folder : Folder} {call : Nat → Outcome} (hwf : ¬WellFormed folder.bytes)
    (hcall : ∀ fuel r, call fuel ≠ .failed r) : ¬Safe folder call := by
  rintro ⟨fuel, ⟨-, h⟩ | ⟨r, h⟩⟩
  · exact hwf h
  · exact hcall fuel r h

theorem not_safe_of_outside {folder : Folder} {call : Nat → Outcome} (hcall : ∀ fuel, call fuel = .outside) :
    ¬Safe folder call := by
  rintro ⟨fuel, ⟨h, -⟩ | ⟨r, h⟩⟩
  · rw [hcall] at h
    cases h
  · rw [hcall] at h
    cases h

/-- Cutting out an entry that was found reports nothing of its own. -/
theorem removeEntry_ne_failed (size : Nat) (readInodeData : Result × Nat) (pointer entryl : Nat) (r : Result) :
    removeEntry size (agreeing readInodeData) pointer entryl ≠ .failed r := by
  simp only [removeEntry, agreeing, ofResult]
  split_ifs <;> simp_all

theorem toBytes_ofBytes (bs : List Byte) : toBytes bs.length (ofBytes bs) = bs := by
  induction bs with
  | nil => rfl
  | cons b bs ih =>
    have hb := b.isLt
    rw [List.length_cons, ofBytes, toBytes]
    have hlow : BitVec.ofNat 8 (b.toNat + 256 * ofBytes bs) = b := by
      apply BitVec.eq_of_toNat_eq
      rw [BitVec.toNat_ofNat]
      omega
    have hhigh : (b.toNat + 256 * ofBytes bs) / 256 = ofBytes bs := by omega
    rw [hlow, hhigh, ih]

/-- The number of an entry is found where the entry is. -/
theorem take_inodeNo (data : List Byte) {p : Nat} (h : p + 4 ≤ data.length) :
    (data.drop p).take 4 = toBytes 4 (inodeNo data p).toNat := by
  have hlen : ((data.drop p).take 4).length = 4 := by
    rw [List.length_take, List.length_drop]
    omega
  have hbytes := toBytes_ofBytes ((data.drop p).take 4)
  have hlt : ofBytes ((data.drop p).take 4) < 2 ^ 32 := by
    have := Bytes.ofBytes_toBytes 4 (ofBytes ((data.drop p).take 4))
    rw [hlen] at hbytes
    rw [hbytes] at this
    omega
  rw [inodeNo, UInt32.toNat_ofNat_of_lt' hlt]
  rw [hlen] at hbytes
  exact hbytes.symm

/-- What the first entry holds is found and cut out, however long the entry says it is. -/
theorem removeInodeFromDir_ne_failed {folder : Folder} (hpages : folder.reservedPages ≠ 0) (hsize : 3 ≤ folder.size)
    (fuel : Nat) (r : Result) :
    removeInodeFromDir folder (agreeing (.ok, folder.size)) (inodeNo folder.bytes 3) fuel ≠ .failed r := by
  have hlen : folder.bytes.length = folder.size := rfl
  rw [removeInodeFromDir_delivered _ hpages rfl, if_neg (by omega)]
  cases fuel with
  | zero => simp [findInode]
  | succ fuel =>
    rw [findInode, if_neg (by omega)]
    by_cases hshort : folder.bytes.length < 2 + 5
    · rw [if_pos hshort]
      simp
    · rw [if_neg hshort, if_pos (take_inodeNo folder.bytes (by omega))]
      exact removeEntry_ne_failed _ _ _ _ r

/-- Of an inode without pages the bytes are taken for zeros; so many of them pass the check of the length. -/
theorem openDir_outside {folder : Folder} (hpages : folder.reservedPages = 0) (hsize : 65533 ≤ folder.size) (others : Others) :
    ¬Safe folder (openDir folder others) := by
  have hzeros : count (List.replicate folder.size (0 : Byte)) = 0 := by
    obtain ⟨k, hk⟩ := Nat.exists_eq_add_of_le (show 2 ≤ folder.size by omega)
    rw [hk, Nat.add_comm, List.replicate_succ, List.replicate_succ]
    rfl
  have hbyte : byte (List.replicate folder.size 0) 2 = 0 := by
    rw [byte, List.getD_eq_getElem _ _ (by rw [List.length_replicate]; omega), List.getElem_replicate]
    rfl
  have hcall : ∀ fuel, openDir folder others (fuel + 1) = .outside := by
    intro fuel
    simp only [openDir, hpages, Nat.lt_irrefl, gt_iff_lt, false_and, if_false]
    rw [if_neg (by omega), if_neg (by omega), hzeros, readChilds, hbyte, List.length_replicate, if_neg (by omega)]
    have hname : ¬nameLength 0 > folder.size - 2 := by
      rw [nameLength]
      omega
    dsimp only
    rw [if_neg hname, if_pos (.inl (Nat.le_refl 0))]
  rintro ⟨fuel, h⟩
  cases fuel with
  | zero =>
    simp only [openDir, hpages, Nat.lt_irrefl, gt_iff_lt, false_and, if_false] at h
    rw [if_neg (by omega), if_neg (by omega), readChilds] at h
    simp at h
  | succ fuel =>
    rw [hcall] at h
    simp at h

/-! ### Directories on which they are safe -/

section WellFormed
variable {folder : Folder} {others : Others}

theorem WellFormed.walk (hwf : WellFormed folder.bytes) (hsize : 2 ≤ folder.size) :
    Walk folder.bytes (count folder.bytes) 2 := by
  rcases hwf with hnil | ⟨-, hwalk⟩
  · rw [Folder.size, hnil] at hsize
    exact absurd hsize (by decide)
  · exact hwalk

theorem count_lt (data : List Byte) : count data < 2 ^ 16 := by
  rw [count]
  match data with
  | [] => decide
  | [b] =>
    have := b.isLt
    simp only [List.take, ofBytes]
    omega
  | b₀ :: b₁ :: rest =>
    have h₀ := b₀.isLt
    have h₁ := b₁.isLt
    simp only [List.take, ofBytes]
    omega

theorem getInodeNoInDir_ends (hwf : WellFormed folder.bytes) (name : Name) : Ends (getInodeNoInDir folder others name) := by
  by_cases hread : others.readInodeData.1 ≠ .ok ∨ others.readInodeData.2 ≠ folder.size
  · obtain ⟨r', hr'⟩ := getInodeNoInDir_undelivered name (Prod.mk.eta (p := others.readInodeData)).symm hread 1
    exact .of_failed hr'
  obtain ⟨hok, hbytes⟩ := not_or.mp hread
  have hdelivered : others.readInodeData = (.ok, folder.size) := Prod.ext (not_not.mp hok) (not_not.mp hbytes)
  by_cases hsize : folder.size ≤ 2
  · exact .of_failed ((getInodeNoInDir_delivered name hdelivered 1).trans (if_pos hsize))
  · obtain ⟨fuel, hfuel⟩ := findName_ends folder.size_lt name (hwf.walk (by omega))
    refine ⟨fuel, ?_⟩
    rwa [getInodeNoInDir_delivered name hdelivered, if_neg hsize]

theorem checkFolderSanity_ends (hwf : WellFormed folder.bytes) (hsize : 2 ≤ folder.size) (hpages : folder.reservedPages ≠ 0)
    (hread : others.readInodeData = (.ok, folder.size)) : Ends (checkFolderSanity folder others) := by
  obtain ⟨fuel, hfuel⟩ := checkEntries_ends folder.size_lt others.getInode (hwf.walk hsize) 0
  refine ⟨fuel, ?_⟩
  rwa [checkFolderSanity_delivered hpages hread, if_neg (by omega)]

theorem removeInodeFromDir_ends (hwf : WellFormed folder.bytes) (hsize : 2 ≤ folder.size) (hpages : folder.reservedPages ≠ 0)
    (hread : others.readInodeData = (.ok, folder.size)) (elem : InodeNo) : Ends (removeInodeFromDir folder others elem) := by
  obtain ⟨fuel, hfuel⟩ := findInode_ends folder.size_lt others elem (Nat.le_refl 2) (hwf.walk hsize)
  refine ⟨fuel, ?_⟩
  rwa [removeInodeFromDir_delivered elem hpages hread, if_neg (by omega)]

theorem openDir_ends (hwf : WellFormed folder.bytes) (hsize : 2 ≤ folder.size) (hpages : folder.reservedPages ≠ 0)
    (hread : others.readInodeData = (.ok, folder.size)) : Ends (openDir folder others) := by
  obtain ⟨fuel, hfuel⟩ := readChilds_ends folder.size_lt (count_lt folder.bytes) (hwf.walk hsize) (Nat.zero_add _)
  refine ⟨fuel, ?_⟩
  rwa [openDir_delivered hpages hread, if_neg (by omega), if_neg (by omega)]

/-- The zeros `openDir` takes for the bytes of an inode without pages end the loop where they are few. -/
theorem openDir_zeros_ends (hpages : folder.reservedPages = 0) (hsize : folder.size ≠ 1) (hfew : folder.size < 65533) :
    Ends (openDir folder others) := by
  have hbyte : byte (List.replicate folder.size 0) 2 = 0 := by
    rw [byte]
    by_cases hlong : 2 < folder.size
    · rw [List.getD_eq_getElem _ _ (by rwa [List.length_replicate]), List.getElem_replicate]
      rfl
    · rw [List.getD_eq_default _ _ (by rw [List.length_replicate]; omega)]
      rfl
  have hcount : count (List.replicate folder.size (0 : Byte)) = 0 := by
    match folder.size with
    | 0 => rfl
    | 1 => rfl
    | k + 2 => rfl
  have hcall : openDir folder others 1 = readChilds (List.replicate folder.size 0) 0 1 2 0 := by
    simp only [openDir, hpages, Nat.lt_irrefl, gt_iff_lt, false_and, if_false, hcount]
    by_cases hzero : folder.size = 0
    · exact if_pos hzero
    · rw [if_neg hzero, if_neg (by omega)]
  rw [readChilds, hbyte, List.length_replicate] at hcall
  by_cases hend : folder.size ≤ 2
  · rw [if_pos hend, if_neg (by simp)] at hcall
    exact ⟨1, .inl hcall⟩
  · have hname : nameLength 0 > folder.size - 2 := by
      rw [nameLength]
      omega
    rw [if_neg hend] at hcall
    dsimp only at hcall
    rw [if_pos hname] at hcall
    exact .of_failed hcall

/-- With room for the count only there is nothing to walk over. -/
theorem parsersSafe_of_two {readInodeData : Result × Nat} (hpages : folder.reservedPages ≠ 0) (hsize : folder.size = 2)
    (hread : readInodeData = (.ok, folder.size)) (hwf : ¬WellFormed folder.bytes) : ParsersSafe folder readInodeData := by
  have hlen : folder.bytes.length = 2 := hsize
  have hcount : 0 ≠ count folder.bytes := by
    intro hzero
    refine hwf (.inr ⟨hlen.ge, ?_⟩)
    rw [← hzero]
    exact hlen.symm
  refine ⟨fun others hothers name => ?_, fun others hothers => ?_, fun others hothers elem => ?_, fun others hothers => ?_⟩
  · refine safe_of_failed (r := .notFound) 1 ?_
    rw [getInodeNoInDir_delivered name (hothers.trans hread), if_pos hsize.le]
  · refine safe_of_failed (r := .bug) 1 ?_
    rw [checkFolderSanity_delivered hpages (hothers.trans hread), if_neg (by omega), checkEntries, if_pos hlen.le,
      if_pos hcount]
  · refine safe_of_failed (r := .notFound) 1 ?_
    rw [removeInodeFromDir_delivered elem hpages (hothers.trans hread), if_neg (by omega), findInode, if_pos hlen.le]
  · refine safe_of_failed (r := .bug) 1 ?_
    rw [openDir_delivered hpages (hothers.trans hread), if_neg (by omega), if_neg (by omega), readChilds, if_pos hlen.le,
      if_pos hcount]

end WellFormed

/-- The parsers are safe on the sane directories, and on no others. -/
theorem parsersSafe_iff (folder : Folder) (readInodeData : Result × Nat) :
    ParsersSafe folder readInodeData ↔ Sane folder readInodeData := by
  obtain ⟨r, bytesRead⟩ := readInodeData
  have hlen : folder.bytes.length = folder.size := rfl
  constructor
  · intro h
    rw [Sane]
    split_ifs with hpages hread hshort
    · refine ⟨?_, ?_⟩
      · obtain ⟨fuel, ⟨-, hwf⟩ | ⟨r', hr'⟩⟩ := h.checkFolderSanity (agreeing (r, bytesRead)) rfl
        · exact hwf
        · rw [checkFolderSanity, if_pos hpages] at hr'
          cases hr'
      · by_contra hsize
        exact openDir_outside hpages (Nat.not_lt.mp hsize) _ (h.openDir (agreeing (r, bytesRead)) rfl)
    · by_contra hwf
      have hr : r = .ok := not_not.mp hread
      refine not_safe hwf (fun fuel r' => ?_) (h.checkFolderSanity (agreeing (r, bytesRead)) rfl)
      rw [checkFolderSanity_undelivered (r := r) hpages rfl (.inr hshort), hr, ofResult, if_pos rfl]
      exact Outcome.noConfusion
    · have hr : r = .ok := not_not.mp hread
      have hbytes : bytesRead = folder.size := not_not.mp hshort
      subst hr hbytes
      have hcount : 2 ≤ folder.size := by
        by_contra hsize
        refine not_safe_of_outside (fun fuel => ?_) (h.checkFolderSanity (agreeing (.ok, folder.size)) rfl)
        rw [checkFolderSanity_delivered hpages rfl, if_pos (by omega)]
      refine ⟨hcount, ?_⟩
      by_contra hbad
      rw [not_or] at hbad
      exact not_safe hbad.1 (removeInodeFromDir_ne_failed hpages (by omega))
        (h.removeInodeFromDir (agreeing (.ok, folder.size)) rfl _)
  · intro h
    rw [Sane] at h
    split_ifs at h with hpages hread hshort
    · obtain ⟨hwf, hfew⟩ := h
      have hone : folder.size ≠ 1 := by
        rcases hwf with hnil | ⟨hcount, -⟩
        · rw [Folder.size, hnil]
          decide
        · rw [Folder.size]
          omega
      refine ⟨fun others _ name => (getInodeNoInDir_ends hwf name).safe hwf, fun others _ => ?_, fun others _ elem => ?_,
        fun others _ => (openDir_zeros_ends hpages hone hfew).safe hwf⟩
      · exact ⟨0, .inl ⟨if_pos hpages, hwf⟩⟩
      · exact safe_of_failed 0 (if_pos hpages)
    · refine ⟨fun others hothers name => ?_, fun others hothers => ?_, fun others hothers elem => ?_, fun others hothers => ?_⟩
      · obtain ⟨r', hr'⟩ := getInodeNoInDir_undelivered name hothers (.inl hread) 0
        exact safe_of_failed 0 hr'
      · refine safe_of_failed (r := r) 0 ((checkFolderSanity_undelivered hpages hothers (.inl hread) 0).trans ?_)
        exact if_neg hread
      · refine safe_of_failed (r := r) 0 ((removeInodeFromDir_undelivered elem hpages hothers (.inl hread) 0).trans ?_)
        exact if_neg hread
      · exact safe_of_failed 0 (openDir_undelivered hpages hothers (.inl hread) 0)
    · refine ⟨fun others _ name => (getInodeNoInDir_ends h name).safe h, fun others hothers => ?_, fun others hothers elem => ?_,
        fun others hothers => safe_of_failed 0 (openDir_undelivered hpages hothers (.inr hshort) 0)⟩
      · refine Ends.safe ⟨0, ?_⟩ h
        rw [checkFolderSanity_undelivered hpages hothers (.inr hshort)]
        exact ofResult_ends r
      · refine Ends.safe ⟨0, ?_⟩ h
        rw [removeInodeFromDir_undelivered elem hpages hothers (.inr hshort)]
        exact ofResult_ends r
    · obtain ⟨hcount, hgood⟩ := h
      have hdelivered : (r, bytesRead) = (.ok, folder.size) := Prod.ext (not_not.mp hread) (not_not.mp hshort)
      by_cases hwf : WellFormed folder.bytes
      · exact ⟨fun others _ name => (getInodeNoInDir_ends hwf name).safe hwf,
          fun others hothers => (checkFolderSanity_ends hwf hcount hpages (hothers.trans hdelivered)).safe hwf,
          fun others hothers elem => (removeInodeFromDir_ends hwf hcount hpages (hothers.trans hdelivered) elem).safe hwf,
          fun others hothers => (openDir_ends hwf hcount hpages (hothers.trans hdelivered)).safe hwf⟩
      · exact parsersSafe_of_two hpages (hgood.resolve_left hwf) hdelivered hwf

/-- One entry of length zero. -/
def stuck : Folder := ⟨[1, 0, 0, 7, 0, 0, 0], 1, by decide⟩

/-- The search for another inode stays at the entry for ever. -/
theorem removeInodeFromDir_never_ends : ¬ParsersSafe stuck (.ok, 7) := by
  intro h
  have hrunning : ∀ fuel, removeInodeFromDir stuck (agreeing (.ok, 7)) 9 fuel = .running := by
    intro fuel
    rw [removeInodeFromDir_delivered 9 (by decide) rfl, if_neg (by decide)]
    induction fuel with
    | zero => rfl
    | succ fuel ih =>
      rw [findInode, if_neg (by decide), if_neg (by decide), if_neg (by decide)]
      exact ih
  obtain ⟨fuel, ⟨hdone, -⟩ | ⟨r, hfailed⟩⟩ := h.removeInodeFromDir (agreeing (.ok, 7)) rfl 9
  · rw [hrunning] at hdone
    cases hdone
  · rw [hrunning] at hfailed
    cases hfailed

/-! ### The records that are written -/

theorem walk_records (entries : List Entry) (hfits : ∀ e ∈ entries, e.Fits) (pre : List Byte) :
    Walk (pre ++ entries.flatMap Entry.bytes) entries.length pre.length := by
  induction entries generalizing pre with
  | nil => rw [List.flatMap_nil, List.append_nil, List.length_nil, Walk]
  | cons e entries ih =>
    have he := hfits e List.mem_cons_self
    have hlength := length_record e pre (entries.flatMap Entry.bytes)
    have hbyte : byte (pre ++ (e.bytes ++ entries.flatMap Entry.bytes)) pre.length = 5 + e.name.length := getD_record he
    have hnext : pre.length + (5 + e.name.length) = (pre ++ e.bytes).length := by
      rw [List.length_append, e.length_bytes]
    have hrest := ih (fun e' he' => hfits e' (List.mem_cons_of_mem _ he')) (pre ++ e.bytes)
    rw [List.append_assoc] at hrest
    rw [List.flatMap_cons, List.length_cons, Walk, hbyte, hnext]
    refine ⟨by omega, by omega, ?_, hrest⟩
    rw [← hnext]
    omega

/-- What is written for a directory is well formed. -/
theorem wellFormed_encode {entries : List Entry} (hfits : ∀ e ∈ entries, e.Fits) (hlt : entries.length < 2 ^ 16) :
    WellFormed (encode entries) := by
  have hcount : count (encode entries) = entries.length := by
    rw [count, encode, List.take_left' (Bytes.toBytes_length _ _), Bytes.ofBytes_toBytes]
    exact Nat.mod_eq_of_lt (hlt.trans_eq (by norm_num))
  have hwalk := walk_records entries hfits (toBytes 2 entries.length)
  rw [Bytes.toBytes_length] at hwalk
  refine .inr ⟨?_, ?_⟩
  · rw [encode, List.length_append, Bytes.toBytes_length]
    exact Nat.le_add_right ..
  · rw [hcount]
    exact hwalk

end Paffs.Directory.Parsing
