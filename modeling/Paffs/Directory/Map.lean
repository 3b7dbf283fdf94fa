import Paffs.DataIO.Truncate
import Paffs.DataIO.Run
import Paffs.Directory.Records

/-! Runs of insertions and removals in a directory. -/
namespace Paffs.Directory
open Bytes (Byte Memory toBytes toBytes_length)
open DataIO (State Env)
open DataIO.State (lastPage lastPage_spec overwrite)
variable {c : DataIO.Config} {env : Env} {s : State}

/-! ### The data on flash -/

/-- The data of the directory is on flash, in no more pages than one write can have. -/
structure Stores (c : DataIO.Config) (env : Env) (s : State) (data : List Byte) : Prop where
  sound : s.Sound c env
  counted : s.Counted
  size_eq : s.size = data.length
  byteAt_eq : ∀ i < data.length, s.byteAt c i = data.getD i 0
  fits : data.length ≤ c.maxPagesPerWrite * c.dataBytesPerPage
  first : s.page 0 ≠ 0

theorem lastPage_lt {n k : Nat} (hpos : 0 < n) (hle : n ≤ k * c.dataBytesPerPage) : lastPage c n < k :=
  Nat.lt_of_mul_lt_mul_right ((lastPage_spec (c := c) hpos).1.trans_le hle)

theorem fits_lt {n : Nat} (hle : n ≤ c.maxPagesPerWrite * c.dataBytesPerPage) : n < 2 ^ 31 := by
  have hmax := c.write_fits
  rw [Nat.add_mul] at hmax
  omega

/-- The inode counts the pages of a directory that is not empty. -/
theorem reservedPages_ne_zero (hs : s.Sound c env) (hcounted : s.Counted)
    (hfits : s.size ≤ c.maxPagesPerWrite * c.dataBytesPerPage) (hfirst : s.page 0 ≠ 0) : s.reservedPages ≠ 0 := by
  have hsubset : s.mapped ⊆ Set.Iio c.maxPagesPerWrite := fun p hp =>
    Nat.lt_of_mul_lt_mul_right ((hs.beyond p hp).trans_le hfits)
  have hcard := Set.ncard_le_ncard hsubset (Set.finite_Iio _)
  have hpos := (Set.ncard_pos hcounted.finite).mpr ⟨0, hfirst⟩
  have hmax := c.max_lt
  have hbelow : (Set.Iio c.maxPagesPerWrite).ncard = c.maxPagesPerWrite := by
    rw [Set.ncard_eq_toFinset_card', Set.toFinset_Iio, Nat.card_Iio]
  rw [hbelow] at hcard
  rw [hcounted.eq, Nat.mod_eq_of_lt (by omega)]
  omega

theorem Stores.read {data : List Byte} (h : Stores c env s data) (hpos : 0 < data.length) :
    s.readInodeData c env 0 s.size = some (.ok, data) := by
  have hlast := lastPage_lt (c := c) (hpos.trans_eq h.size_eq.symm) (h.size_eq.trans_le h.fits)
  have hmax := c.max_lt
  have hread := DataIO.State.readInodeData_eq h.sound (hpos.trans_eq h.size_eq.symm) (by rw [Nat.zero_add])
    (by rw [Nat.zero_add, Nat.zero_div]; omega)
  rw [hread, h.size_eq]
  refine congrArg some (Prod.ext rfl (List.ext_getElem (by simp) fun i hi hi' => ?_))
  rw [Memory.getElem_read, Nat.zero_add, h.byteAt_eq i hi', List.getD_eq_getElem _ _ hi']

/-- A write of the whole directory. -/
theorem writeDir_ok (hs : s.Sound c env) (hcounted : s.Counted) {data : List Byte} (hpos : 0 < data.length)
    (hfits : data.length ≤ c.maxPagesPerWrite * c.dataBytesPerPage) (hok : (writeDir c env s data).1 = .ok) :
    let s' := (writeDir c env s data).2
    s'.Sound c env ∧ s'.Counted ∧ s'.size = max s.size data.length ∧ (∀ i < data.length, s'.byteAt c i = data.getD i 0) ∧
      s'.page 0 ≠ 0 := by
  have hlt := fits_lt hfits
  have hlast := lastPage_lt hpos hfits
  have hwrite : (s.writeInodeData c env 0 data.length fun i => data.getD i 0).1.1 = .ok := hok
  obtain ⟨hsound, hsize, hbytes, hpages⟩ := DataIO.State.writeInodeData_ok hs (.inl (Nat.zero_le _)) (by omega)
    (by rwa [Nat.zero_add, Nat.zero_div, Nat.zero_add]) hwrite
  have hcount := hcounted.writeInodeData (by omega) hwrite
  rw [Nat.zero_add] at hsize hpages
  refine ⟨hsound, hcount, hsize, fun i hi => ?_, hpages 0 (by rw [Nat.zero_div]) (Nat.zero_le _)⟩
  refine (hbytes i (hi.trans_le ((Nat.le_max_right _ _).trans_eq hsize.symm))).trans ?_
  rw [overwrite, if_pos ⟨Nat.zero_le _, by rwa [Nat.zero_add]⟩, Nat.sub_zero]

theorem commit_ok (h : (commit env s).1 = .ok) : (commit env s).2 = s.tick.tick := by
  unfold commit at h ⊢
  split at h
  · rfl
  · rename_i hne
    exact absurd h hne

theorem Stores.commit {data : List Byte} (h : Stores c env s data) (hok : (commit env s).1 = .ok) :
    Stores c env (commit env s).2 data := by
  rw [commit_ok hok]
  exact ⟨⟨h.sound.used, h.sound.injective, h.sound.beyond, h.sound.size_lt, h.sound.addressable, h.sound.replaced⟩,
    h.counted.tick.tick, h.size_eq, h.byteAt_eq, h.fits, h.first⟩

/-! ### The entries -/

/-- A directory without data. -/
structure Blank (s : State) : Prop where
  size : s.size = 0 ∨ s.size = 2
  page : ∀ p, s.page p = 0
  replaced : s.replaced = []
  reservedPages : s.reservedPages = 0

theorem Blank.counted (h : Blank s) : s.Counted := by
  have hmapped : s.mapped = ∅ := Set.eq_empty_of_forall_notMem fun p hp => hp (h.page p)
  exact ⟨hmapped ▸ Set.finite_empty, by rw [hmapped, Set.ncard_empty]; exact h.reservedPages⟩

theorem Blank.sound (h : Blank s) : s.Sound c env where
  used p hp := absurd (h.page p) hp
  injective p _ hp := absurd (h.page p) hp
  beyond p hp := absurd (h.page p) hp
  size_lt := by
    rcases h.size with hsize | hsize <;> rw [hsize]
    · exact Nat.two_pow_pos 32
    · norm_num
  addressable := by
    have hD := c.page_ge
    have hpos := Nat.mul_le_mul env.addressable_pos hD
    rcases h.size with hsize | hsize <;> rw [hsize]
    · exact Nat.zero_le _
    · exact hpos
  replaced := h.replaced

/-- The directory has these entries. -/
def Holds (c : DataIO.Config) (env : Env) (s : State) (entries : List Entry) : Prop :=
  (∀ e ∈ entries, e.Fits) ∧ if entries = [] then Blank s else Stores c env s (encode entries)

theorem length_encode_pos (entries : List Entry) : 2 ≤ (encode entries).length := by
  rw [encode, List.length_append, toBytes_length]
  exact Nat.le_add_right _ _

theorem length_encode_gt {entries : List Entry} (h : entries ≠ []) (hfits : ∀ e ∈ entries, e.Fits) :
    2 < (encode entries).length := by
  obtain ⟨e, entries, rfl⟩ := List.exists_cons_of_ne_nil h
  rw [encode, List.length_append, toBytes_length, List.flatMap_cons, List.length_append, e.length_bytes]
  omega

theorem entries_length_lt (entries : List Entry) : entries.length < (encode entries).length + 1 := by
  have hle : entries.length ≤ (entries.flatMap Entry.bytes).length := by
    rw [List.length_flatMap]
    refine (List.length_map (f := fun e : Entry => e.bytes.length)).symm.trans_le (List.length_le_sum_of_one_le _ fun i hi => ?_)
    obtain ⟨e, -, rfl⟩ := List.mem_map.mp hi
    rw [e.length_bytes]
    omega
  rw [encode, List.length_append]
  omega

/-- A lookup finds the first entry of the name. -/
theorem Holds.get {entries : List Entry} (h : Holds c env s entries) {name : Name} (hname : name.length < 2 ^ 8) :
    getInodeNoInDir c env s name =
      some (((entries.find? fun e => e.name = name).map Entry.no).elim (.error .notFound) .ok) := by
  obtain ⟨hfits, hstores⟩ := h
  unfold getInodeNoInDir
  split_ifs at hstores with hnil
  · have hsize : s.size ≤ 2 := by rcases hstores.size with hsize | hsize <;> omega
    rw [if_pos hsize, hnil]
    rfl
  · have hlength := length_encode_gt hnil hfits
    rw [if_neg (by rw [hstores.size_eq]; omega), hstores.read (by omega)]
    dsimp only
    rw [if_neg (by rw [hstores.size_eq]; exact not_not_intro rfl)]
    exact findName_records hname entries hfits (toBytes 2 entries.length) _ (entries_length_lt entries)

theorem Holds.entriesOf {entries : List Entry} (h : Holds c env s entries) : Directory.entriesOf c env s = some entries := by
  obtain ⟨hfits, hstores⟩ := h
  unfold Directory.entriesOf
  split_ifs at hstores with hnil
  · rw [if_neg (by rw [hstores.reservedPages]; exact Nat.lt_irrefl 0), hnil]
    rcases hstores.size with hsize | hsize <;> rw [hsize] <;> rfl
  · have hlength := length_encode_gt hnil hfits
    have hreserved := reservedPages_ne_zero hstores.sound hstores.counted (hstores.size_eq.trans_le hstores.fits) hstores.first
    rw [if_pos (Nat.pos_of_ne_zero hreserved), hstores.read (by omega)]
    dsimp only
    rw [if_neg (by rw [hstores.size_eq]; exact not_not_intro rfl)]
    exact readEntries_records entries hfits (toBytes 2 entries.length) _ (entries_length_lt entries)

theorem encode_append (entries : List Entry) (e : Entry) :
    setCount (encode entries ++ record e.name e.no) (· + 1) = encode (entries ++ [e]) := by
  rw [setCount_encode, encode, List.flatMap_append, List.flatMap_singleton, List.length_append, List.length_singleton]
  exact congrArg (· ++ _) (toBytes_congr (by omega))

/-- What an insertion finds in the directory. -/
theorem Holds.dirData {entries : List Entry} (h : Holds c env s entries) :
    let s' := { s with size := if s.size = 0 then 2 else s.size }
    s'.Sound c env ∧ s'.Counted ∧ s'.size = (encode entries).length ∧ Directory.dirData c env s' = some (.ok, encode entries) := by
  obtain ⟨hfits, hstores⟩ := h
  split_ifs at hstores with hnil
  · have hblank : Blank { s with size := if s.size = 0 then 2 else s.size } := by
      refine ⟨.inr ?_, hstores.page, hstores.replaced, hstores.reservedPages⟩
      rcases hstores.size with hsize | hsize <;> simp [hsize]
    have htwo : (if s.size = 0 then 2 else s.size) = 2 := by
      rcases hstores.size with hsize | hsize <;> simp [hsize]
    refine ⟨hblank.sound, hblank.counted, ?_, ?_⟩
    · rw [hnil]
      exact htwo
    · unfold Directory.dirData
      rw [if_neg (by rw [hblank.reservedPages]; exact Nat.lt_irrefl 0), hnil]
      dsimp only
      rw [htwo]
      rfl
  · have hlength := length_encode_pos entries
    have hsame : { s with size := if s.size = 0 then 2 else s.size } = s := by
      rw [if_neg (by rw [hstores.size_eq]; omega)]
    suffices hall : ∀ s', s' = s → s'.Sound c env ∧ s'.Counted ∧ s'.size = (encode entries).length ∧
        Directory.dirData c env s' = some (.ok, encode entries) from hall _ hsame
    rintro s' rfl
    refine ⟨hstores.sound, hstores.counted, hstores.size_eq, ?_⟩
    have hreserved := reservedPages_ne_zero hstores.sound hstores.counted (hstores.size_eq.trans_le hstores.fits) hstores.first
    unfold Directory.dirData
    rw [if_pos (Nat.pos_of_ne_zero hreserved), hstores.read (by omega)]

/-- What an insertion of a name that fits comes down to. -/
theorem Holds.insertInodeInDir_eq {entries : List Entry} (h : Holds c env s entries) {name elem : Name} {no : InodeNo}
    (helem : elemName name = some elem) (hshort : elem.length ≤ 250) : insertInodeInDir c env s name no =
      match writeDir c env { s with size := if s.size = 0 then 2 else s.size } (encode (entries ++ [⟨elem, no⟩])) with
      | (.ok, contDir) => some (commit env contDir)
      | r => some r := by
  obtain ⟨-, -, hlength, hdata⟩ := h.dirData
  unfold insertInodeInDir
  rw [helem]
  dsimp only at hlength ⊢
  rw [if_neg (Nat.not_lt.mpr (hshort.trans (by decide))), if_neg (by omega), hdata]
  dsimp only
  rw [if_neg (by rw [hlength]; exact not_not_intro rfl), encode_append entries ⟨elem, no⟩]
    <;> rfl

theorem length_encode_append (entries : List Entry) (e : Entry) :
    (encode (entries ++ [e])).length = (encode entries).length + (5 + e.name.length) := by
  rw [encode, List.flatMap_append, List.flatMap_singleton, ← List.append_assoc, List.length_append, Entry.length_bytes,
    List.length_append, toBytes_length, encode, List.length_append, toBytes_length]

theorem size_le_max (s : State) : (if s.size = 0 then 2 else s.size) ≤ max 2 s.size := by
  split_ifs
  · exact Nat.le_max_left ..
  · exact Nat.le_max_right ..

/-- A name that fits is put behind the others. -/
theorem Holds.insert {entries : List Entry} (h : Holds c env s entries) {name elem : Name} {no : InodeNo} {s' : State}
    (helem : elemName name = some elem) (he : Entry.Fits ⟨elem, no⟩)
    (hsize : max 2 s.size + (5 + elem.length) ≤ c.maxPagesPerWrite * c.dataBytesPerPage)
    (hok : insertInodeInDir c env s name no = some (.ok, s')) : Holds c env s' (entries ++ [⟨elem, no⟩]) := by
  have hfits : ∀ e ∈ entries ++ [⟨elem, no⟩], e.Fits := by
    intro e hmem
    rcases List.mem_append.mp hmem with hmem | hmem
    · exact h.1 e hmem
    · exact List.mem_singleton.mp hmem ▸ he
  refine ⟨hfits, ?_⟩
  rw [if_neg (by simp)]
  obtain ⟨hsound, hcounted, hlength, -⟩ := h.dirData
  have hle := size_le_max s
  have hlonger := length_encode_append entries ⟨elem, no⟩
  dsimp only at hlength hlonger
  rw [h.insertInodeInDir_eq helem he.2] at hok
  generalize encode (entries ++ [⟨elem, no⟩]) = data at hok hlonger ⊢
  have hpos : 0 < data.length := by omega
  have hfits' : data.length ≤ c.maxPagesPerWrite * c.dataBytesPerPage := by omega
  have hwrite := writeDir_ok hsound hcounted hpos hfits'
  generalize writeDir c env { s with size := if s.size = 0 then 2 else s.size } data = r at hok hwrite
  split at hok
  · obtain ⟨hsound', hcounted', hsize', hbytes, hfirst⟩ := hwrite rfl
    have hstores : Stores c env _ data :=
      ⟨hsound', hcounted', hsize'.trans (max_eq_right (by dsimp only; omega)), hbytes, hfits', hfirst⟩
    have hcommit := Option.some.inj hok
    have hdone := hstores.commit (congrArg Prod.fst hcommit)
    rwa [hcommit] at hdone
  · rename_i hne
    exact (hne _ (Option.some.inj hok)).elim

theorem flatMap_bytes_eq_nil {entries : List Entry} (h : (entries.flatMap Entry.bytes).length = 0) : entries = [] := by
  cases entries with
  | nil => rfl
  | cons e entries =>
    rw [List.flatMap_cons, List.length_append, e.length_bytes] at h
    omega

/-- The directory without one entry, cut out of its data. -/
theorem encode_cut (before after : List Entry) (e : Entry) :
    let data := setCount (encode (before ++ e :: after)) (· + (2 ^ 16 - 1))
    let pointer := (toBytes 2 (before ++ e :: after).length ++ before.flatMap Entry.bytes).length
    data.take pointer ++ data.drop (pointer + (5 + e.name.length)) = encode (before ++ after) := by
  have hcount := setCount_encode (before ++ e :: after) [] (· + (2 ^ 16 - 1))
  rw [List.append_nil, List.append_nil, List.flatMap_append, List.flatMap_cons, ← List.append_assoc] at hcount
  dsimp only
  rw [hcount, ← e.length_bytes, List.take_left' (by simp), ← List.drop_drop, List.drop_left' (by simp), List.drop_left, encode,
    List.flatMap_append, ← List.append_assoc]
  refine congrArg (fun count => count ++ _ ++ _) (toBytes_congr ?_)
  rw [List.length_append, List.length_cons, List.length_append]
  omega

/-- Nothing is left. -/
theorem Stores.clear {data : List Byte} (h : Stores c env s data) (hpos : 0 < data.length)
    (hok : (s.deleteInodeData c env 0).1 = .ok) : Blank (s.deleteInodeData c env 0).2 := by
  have hreserved := reservedPages_ne_zero h.sound h.counted (h.size_eq.trans_le h.fits) h.first
  obtain ⟨hsound, hcounted, hsize, -, hpage⟩ :=
    DataIO.State.deleteInodeData_ok h.sound h.counted hreserved (hpos.trans_eq h.size_eq.symm) hok
  have hunmapped := fun p => (hpage p).trans (if_pos (Nat.zero_le _))
  refine ⟨.inl hsize, hunmapped, hsound.replaced, hcounted.eq.trans ?_⟩
  have hmapped : (s.deleteInodeData c env 0).2.mapped = ∅ := Set.eq_empty_of_forall_notMem fun p hp => hp (hunmapped p)
  rw [hmapped, Set.ncard_empty, Nat.zero_mod]

theorem Blank.commit (h : Blank s) (hok : (Directory.commit env s).1 = .ok) : Blank (Directory.commit env s).2 := by
  rw [commit_ok hok]
  exact ⟨h.size, h.page, h.replaced, h.reservedPages⟩

/-- Shorter data is written, and what is behind it is cut off. -/
theorem Stores.shrink {data data' : List Byte} (h : Stores c env s data) (hpos : 0 < data'.length)
    (hlt : data'.length < data.length) (hok : (writeDir c env s data').1 = .ok)
    (hok' : ((writeDir c env s data').2.deleteInodeData c env data'.length).1 = .ok) :
    Stores c env ((writeDir c env s data').2.deleteInodeData c env data'.length).2 data' := by
  have hfits := hlt.le.trans h.fits
  obtain ⟨hsound, hcounted, hsize, hbytes, hfirst⟩ := writeDir_ok h.sound h.counted hpos hfits hok
  rw [h.size_eq, max_eq_left hlt.le] at hsize
  have hreserved := reservedPages_ne_zero hsound hcounted (hsize.trans_le h.fits) hfirst
  obtain ⟨hsound', hcounted', hsize', hbytes', hpage⟩ :=
    DataIO.State.deleteInodeData_ok hsound hcounted hreserved (hlt.trans_eq hsize.symm) hok'
  refine ⟨hsound', hcounted', hsize', fun i hi => (hbytes' i hi).trans (hbytes i hi), hfits, ?_⟩
  rw [hpage 0, if_neg (by omega)]
  exact hfirst

theorem Holds.removeInodeFromDir_blank (h : Holds c env s []) (elem : InodeNo) :
    removeInodeFromDir c env s elem = some (.notFound, s) := by
  obtain ⟨-, hblank⟩ := h
  rw [if_pos rfl] at hblank
  rw [removeInodeFromDir, if_pos hblank.reservedPages]

/-- No entry has the number. -/
theorem Holds.removeInodeFromDir_none {entries : List Entry} (h : Holds c env s entries) {elem : InodeNo}
    (hnone : ∀ e ∈ entries, e.no ≠ elem) : removeInodeFromDir c env s elem = some (.notFound, s) := by
  by_cases hnil : entries = []
  · exact (hnil ▸ h).removeInodeFromDir_blank elem
  obtain ⟨hfits, hstores⟩ := h
  rw [if_neg hnil] at hstores
  have hlength := length_encode_gt hnil hfits
  have hreserved := reservedPages_ne_zero hstores.sound hstores.counted (hstores.size_eq.trans_le hstores.fits) hstores.first
  have hfound := findInode_none entries hfits hnone (toBytes 2 entries.length) _ (entries_length_lt entries)
  rw [← encode, toBytes_length] at hfound
  unfold removeInodeFromDir
  rw [if_neg hreserved, hstores.read (by omega)]
  dsimp only
  rw [if_neg (by rw [hstores.size_eq]; exact not_not_intro rfl), hfound]

/-- What the removal of an entry comes down to. -/
theorem removeInodeFromDir_eq {before after : List Entry} {e : Entry} (hfits : ∀ b ∈ before ++ e :: after, b.Fits)
    (hstores : Stores c env s (encode (before ++ e :: after))) (hother : ∀ b ∈ before, b.no ≠ e.no) :
    removeInodeFromDir c env s e.no =
      if before ++ after = [] then
        match s.deleteInodeData c env 0 with
        | (.ok, contDir) => some (commit env contDir)
        | r => some r
      else
        match writeDir c env s (encode (before ++ after)) with
        | (.ok, contDir) =>
          match contDir.deleteInodeData c env (encode (before ++ after)).length with
          | (.ok, contDir) => some (commit env contDir)
          | r => some r
        | r => some r := by
  have hlength := length_encode_gt (by simp) hfits
  have hreserved := reservedPages_ne_zero hstores.sound hstores.counted (hstores.size_eq.trans_le hstores.fits) hstores.first
  have hfuel := entries_length_lt (before ++ e :: after)
  have hfound := findInode_some before (after.flatMap Entry.bytes) (fun b hb => hfits b (List.mem_append_left _ hb)) hother
    (hfits e (List.mem_append_right _ List.mem_cons_self)) rfl (toBytes 2 (before ++ e :: after).length) _
    (Nat.lt_of_le_of_lt (by rw [List.length_append]; exact Nat.le_add_right _ _) hfuel)
  have hdata : toBytes 2 (before ++ e :: after).length ++
      (before.flatMap Entry.bytes ++ (e.bytes ++ after.flatMap Entry.bytes)) = encode (before ++ e :: after) := by
    rw [encode, List.flatMap_append, List.flatMap_cons]
  have hlen : (encode (before ++ e :: after)).length =
      2 + (before.flatMap Entry.bytes).length + (5 + e.name.length) + (after.flatMap Entry.bytes).length := by
    simp only [← hdata, List.length_append, toBytes_length, e.length_bytes]
    omega
  rw [hdata, toBytes_length] at hfound
  unfold removeInodeFromDir
  rw [if_neg hreserved, hstores.read (by omega)]
  dsimp only
  rw [if_neg (by rw [hstores.size_eq]; exact not_not_intro rfl), hfound]
  dsimp only
  by_cases hnil : before ++ after = []
  · -- the last entry
    obtain ⟨rfl, rfl⟩ := List.append_eq_nil_iff.mp hnil
    rw [if_pos hnil, if_pos (by rw [hlen]; simp)] <;> rfl
  · have hlast : (encode (before ++ e :: after)).length ≠ 2 + (5 + e.name.length) := by
      intro heq
      have hbefore := @flatMap_bytes_eq_nil before (by omega)
      have hafter := @flatMap_bytes_eq_nil after (by omega)
      exact hnil (by rw [hbefore, hafter]; rfl)
    have hcut := encode_cut before after e
    have hcount : (setCount (encode (before ++ e :: after)) (· + (2 ^ 16 - 1))).length = (encode (before ++ e :: after)).length := by
      rw [setCount, List.length_append, toBytes_length, List.length_drop]
      omega
    have hlen' : (encode (before ++ after)).length = (encode (before ++ e :: after)).length - (5 + e.name.length) := by
      rw [hlen]
      simp only [encode, List.flatMap_append, List.length_append, toBytes_length]
      omega
    dsimp only at hcut
    rw [if_neg hnil, if_neg hlast, if_neg (by rw [hlen, List.length_append, toBytes_length]; omega), hcut, hcount, ← hlen']
      <;> rfl

theorem length_encode_lt (before after : List Entry) (e : Entry) :
    (encode (before ++ after)).length < (encode (before ++ e :: after)).length := by
  simp only [encode, List.flatMap_append, List.flatMap_cons, List.length_append, toBytes_length, e.length_bytes]
  omega

/-- A removal that goes through takes away the first entry of the number. -/
theorem Holds.remove {entries : List Entry} (h : Holds c env s entries) {elem : InodeNo} {s' : State}
    (hok : removeInodeFromDir c env s elem = some (.ok, s')) : Holds c env s' (entries.eraseP fun e => e.no = elem) := by
  by_cases hsome : ∃ e ∈ entries, e.no = elem
  swap
  · rw [h.removeInodeFromDir_none fun e he heq => hsome ⟨e, he, heq⟩] at hok
    cases hok
  obtain ⟨e₀, he₀, helem₀⟩ := hsome
  obtain ⟨e, before, after, hbefore, helem, rfl, herase⟩ :=
    List.exists_of_eraseP (p := fun e => decide (e.no = elem)) he₀ (decide_eq_true helem₀)
  obtain rfl := of_decide_eq_true helem
  obtain ⟨hfits, hstores⟩ := h
  rw [if_neg (by simp)] at hstores
  rw [removeInodeFromDir_eq hfits hstores fun b hb heq => hbefore b hb (decide_eq_true heq)] at hok
  rw [herase]
  have hrest : ∀ e ∈ before ++ after, e.Fits := by
    intro b hb
    rcases List.mem_append.mp hb with hb | hb
    · exact hfits b (List.mem_append_left _ hb)
    · exact hfits b (List.mem_append_right _ (List.mem_cons_of_mem _ hb))
  refine ⟨hrest, ?_⟩
  have hpos := length_encode_pos (before ++ after)
  have hlt := length_encode_lt before after e
  split_ifs at hok ⊢ with hnil
  · have hblank := hstores.clear (by omega)
    generalize s.deleteInodeData c env 0 = r at hok hblank
    split at hok
    · have hcommit := Option.some.inj hok
      have hdone := (hblank rfl).commit (congrArg Prod.fst hcommit)
      rwa [hcommit] at hdone
    · rename_i hne
      exact (hne _ (Option.some.inj hok)).elim
  · have hshrink := @Stores.shrink c env s _ (encode (before ++ after)) hstores (by omega) hlt
    generalize writeDir c env s (encode (before ++ after)) = r at hok hshrink
    obtain ⟨r, s₁⟩ := r
    split at hok
    · rename_i heq
      cases heq
      have hdelete := hshrink rfl
      dsimp only at hdelete
      generalize s₁.deleteInodeData c env (encode (before ++ after)).length = r at hok hdelete
      split at hok
      · have hcommit := Option.some.inj hok
        have hdone := (hdelete rfl).commit (congrArg Prod.fst hcommit)
        rwa [hcommit] at hdone
      · rename_i hne
        exact (hne _ (Option.some.inj hok)).elim
    · rename_i hne
      exact (hne _ (Option.some.inj hok)).elim

/-! ### Runs -/

inductive Op where
  | insert (name : Name) (no : InodeNo)
  | remove (no : InodeNo)

namespace Op

def call (c : DataIO.Config) (env : Env) (s : State) : Op → Option (Result × State)
  | .insert name no => insertInodeInDir c env s name no
  | .remove no => removeInodeFromDir c env s no

/-- What a call is for. A slash at the end of a name does not belong to it. -/
def apply (entries : List Entry) : Op → List Entry
  | .insert name no => entries ++ [⟨(elemName name).getD [], no⟩]
  | .remove no => entries.eraseP fun e => e.no = no

/-- The length of the record fits into its byte, and the directory into the pages of one write. -/
def Keeps (c : DataIO.Config) (s : State) : Op → Prop
  | .insert name no => ∃ elem ∈ elemName name, Entry.Fits ⟨elem, no⟩ ∧
      max 2 s.size + (5 + elem.length) ≤ c.maxPagesPerWrite * c.dataBytesPerPage
  | .remove _ => True

instance (e : Entry) : Decidable e.Fits := inferInstanceAs (Decidable (_ ∧ _))

instance (op : Op) : Decidable (op.Keeps c s) := by
  cases op with
  | insert => exact inferInstanceAs (Decidable (∃ elem ∈ elemName _, _))
  | remove => exact isTrue trivial

end Op

/-- `none` when the call does not return `ok`. -/
def step (c : DataIO.Config) (env : Env) (s : State) (op : Op) : Option State :=
  match op.call c env s with
  | some (.ok, s') => some s'
  | _ => none

def run (c : DataIO.Config) (env : Env) (ops : List Op) (s : State) : Option State := ops.foldlM (step c env) s

/-- Every call of the run keeps to the limits. -/
def AllKeep (c : DataIO.Config) (env : Env) : List Op → State → Prop
  | [], _ => True
  | op :: ops, s => op.Keeps c s ∧ (step c env s op).elim True (AllKeep c env ops)

instance AllKeep.decidable : (ops : List Op) → (s : State) → Decidable (AllKeep c env ops s)
  | [], _ => isTrue trivial
  | op :: ops, s =>
    match h : step c env s op with
    | none => decidable_of_iff (op.Keeps c s) (by rw [AllKeep, h]; exact (and_iff_left trivial).symm)
    | some s' =>
      have := AllKeep.decidable ops s'
      decidable_of_iff (op.Keeps c s ∧ AllKeep c env ops s') (by rw [AllKeep, h]; rfl)

/-- The number of the first entry with exactly this name. -/
def lookup (entries : List Entry) (name : Name) : Option InodeNo := (entries.find? fun e => e.name = name).map Entry.no

theorem Holds.step {entries : List Entry} (h : Holds c env s entries) {op : Op} {s' : State} (hkeep : op.Keeps c s)
    (hstep : Directory.step c env s op = some s') : Holds c env s' (op.apply entries) := by
  have hok : op.call c env s = some (.ok, s') := by
    unfold Directory.step at hstep
    split at hstep
    · rename_i hcall
      rw [hcall, Option.some.inj hstep]
    · cases hstep
  cases op with
  | insert name no =>
    obtain ⟨elem, helem, he, hsize⟩ := hkeep
    rw [Op.apply, Option.mem_def.mp helem]
    exact h.insert helem he hsize hok
  | remove no => exact h.remove hok

theorem Holds.run {entries : List Entry} (ops : List Op) (h : Holds c env s entries) {s' : State}
    (hkeep : AllKeep c env ops s) (hrun : Directory.run c env ops s = some s') :
    Holds c env s' (ops.foldl Op.apply entries) := by
  induction ops generalizing s entries with
  | nil => exact Option.some.inj hrun ▸ h
  | cons op ops ih =>
    obtain ⟨s₁, hstep, hrest⟩ := Option.bind_eq_some_iff.mp hrun
    obtain ⟨hkeep, hkeeps⟩ := hkeep
    rw [hstep] at hkeeps
    exact ih (h.step hkeep hstep) hkeeps hrest

/-- A directory is a map from names to numbers, as long as the names that are put in have at most 250 bytes, those looked
for less than 256, and the directory fits into one write. -/
theorem run_lookup (hblank : Blank s) (ops : List Op) {s' : State} (hrun : run c env ops s = some s')
    (hkeep : AllKeep c env ops s) (name : Name) (hname : name.length < 2 ^ 8) :
    getInodeNoInDir c env s' name = some ((lookup (ops.foldl Op.apply []) name).elim (.error .notFound) .ok) := by
  have hholds : Holds c env s [] := ⟨List.forall_mem_nil _, by rw [if_pos rfl]; exact hblank⟩
  exact (hholds.run ops hkeep hrun).get hname

open DataIO.State (fourBytes nextPage newFile)

theorem newFile_blank : Blank newFile := ⟨.inl rfl, fun _ => rfl, rfl, rfl⟩

def aAndBb : List Op := [.insert [97] 5, .insert [98, 98] 6, .remove 5]

/-- Of the files `a` and `bb`, the first is removed. -/
theorem run_lookup_aAndBb : (run fourBytes nextPage aAndBb newFile).bind (getInodeNoInDir fourBytes nextPage · [98, 98]) =
    some (.ok 6) := by
  have hsome : (run fourBytes nextPage aAndBb newFile).isSome := by decide +kernel
  obtain ⟨s', hrun⟩ := Option.isSome_iff_exists.mp hsome
  have hget := run_lookup newFile_blank aAndBb hrun (by decide +kernel) [98, 98] (by decide)
  rw [hrun, Option.bind_some, hget]
  decide

/-- A name of 257 bytes is taken for the name that is its first byte. -/
theorem long_name_is_found : ¬ ∀ (c : DataIO.Config) (env : Env) (s s' : State), Blank s → ∀ ops, run c env ops s = some s' →
    ∀ name, getInodeNoInDir c env s' name = some ((lookup (ops.foldl Op.apply []) name).elim (.error .notFound) .ok) := by
  intro hall
  have hsome : (run fourBytes nextPage [.insert [97] 5] newFile).isSome := by decide +kernel
  obtain ⟨s', hrun⟩ := Option.isSome_iff_exists.mp hsome
  have hget := hall fourBytes nextPage newFile s' newFile_blank _ hrun (List.replicate 257 97)
  have hfound : (run fourBytes nextPage [.insert [97] 5] newFile).bind (getInodeNoInDir fourBytes nextPage ·
      (List.replicate 257 97)) = some (.ok 5) := by decide +kernel
  rw [hrun, Option.bind_some, hget] at hfound
  exact absurd hfound (by decide +kernel)

end Paffs.Directory
