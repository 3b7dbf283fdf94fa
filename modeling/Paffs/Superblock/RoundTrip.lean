import Paffs.Superblock.Index

/-! Reading a super index back. -/
namespace Paffs.Superblock
open Bytes (Byte Memory Word Member Slot Reader next nextAll next_run nextAll_run toBytes toBytes_length slots endOf endOf_append
  alignUp)
variable {c : Config}

/-! ### The buffer -/

theorem alignUp_one (a : Nat) : alignUp a 1 = a := by
  rw [alignUp, Nat.add_sub_cancel, Nat.div_one, Nat.mul_one]

theorem endOf_replicate (a k w : Nat) : endOf a (List.replicate k (w, 1)) = a + w * k := by
  induction k generalizing a with
  | zero => rfl
  | succ k ih =>
    rw [List.replicate_succ, endOf, alignUp_one, ih, Nat.mul_succ, Nat.add_assoc, Nat.add_comm w]

theorem slots_ofFn (w : Nat) {k : Nat} (f : Fin k → Word w) :
    slots (List.ofFn fun i => ⟨w, 1, f i⟩) = List.replicate k (w, 1) := by
  rw [slots, List.map_ofFn]
  exact List.ofFn_const k (w, 1)

theorem slots_append (xs ys : List Member) : slots (xs ++ ys) = slots xs ++ slots ys := List.map_append

namespace SuperIndex
variable (index entry : SuperIndex c)

theorem slots_header : slots index.header = [(2, 1), (4, 1), (2, 1)] ++ List.replicate c.areasNo (12, 1) ++
    List.replicate typesNo (2, 1) ++ [(8, 1)] ++ List.replicate 2 (2, 1) := by
  rw [header, slots_append, slots_append, slots_append, slots_append, slots_ofFn, slots_ofFn, slots_ofFn]
  rfl

theorem slots_summaries : slots (((List.finRange 2).filter index.isPresent).map fun i => ⟨byteUsage c, 1, index.summaries i⟩) =
    List.replicate ((List.finRange 2).countP index.isPresent) (byteUsage c, 1) := by
  rw [slots, List.map_map, List.countP_eq_length_filter]
  change List.map (fun _ => (byteUsage c, 1)) _ = _
  exact List.map_const'

/-- The summaries begin behind the rest. -/
theorem endOf_header : endOf 0 (slots index.header) = neededFor c 0 := by
  rw [slots_header, endOf_append, endOf_append, endOf_append, endOf_append, endOf_replicate, endOf_replicate, endOf_replicate]
  simp only [endOf, alignUp_one, neededFor, if_pos (Nat.zero_le 2), typesNo]
  omega

theorem endOf_members : endOf 0 (slots index.members) = index.getNeededBytes := by
  have hcount : (List.finRange 2).countP index.isPresent ≤ 2 := List.countP_le_length
  rw [members, slots_append, endOf_append, endOf_header, slots_summaries, endOf_replicate,
    getNeededBytes, neededFor, neededFor, if_pos (Nat.zero_le 2), if_pos hcount, Nat.mul_zero, Nat.add_zero]

theorem serializeToBuffer_eq (buf : Memory) : index.serializeToBuffer buf = (.ok, buf.store 0 index.members) := by
  rw [serializeToBuffer, if_neg (not_not_intro index.endOf_members)]

theorem align_pos : ∀ x ∈ index.members, 0 < x.align := by
  have hone : ∀ s ∈ slots index.members, s.2 = 1 := by
    intro s hs
    rw [members, slots_append, slots_header, slots_summaries] at hs
    simp only [List.mem_append, List.mem_cons, List.not_mem_nil, or_false, List.mem_replicate] at hs
    rcases hs with (((((rfl | rfl | rfl) | ⟨-, rfl⟩) | ⟨-, rfl⟩) | rfl) | ⟨-, rfl⟩) | ⟨-, rfl⟩ <;> rfl
  intro x hx
  exact Nat.pos_of_ne_zero fun hzero => absurd ((hone x.slot (List.mem_map_of_mem hx)).symm.trans hzero) Nat.one_ne_zero

/-- Where the summaries that are there go. -/
def arrived (summaries : Nat → Word (byteUsage c)) : Nat → Word (byteUsage c) :=
  ((List.finRange 2).filter index.isPresent).zipIdx.foldl (fun s p => Function.update s p.2 (index.summaries p.1)) summaries

theorem readSummaries_run {buf : Memory} (is : List (Fin 2)) {a : Nat} (asCount : Nat) (summaries : Nat → Word (byteUsage c))
    (h : buf.Stored a ((is.filter index.isPresent).map fun i => ⟨byteUsage c, 1, index.summaries i⟩)) :
    (readSummaries buf index.areaSummaryPositions is asCount summaries).run a =
      some ((asCount + is.countP index.isPresent,
        ((is.filter index.isPresent).zipIdx asCount).foldl (fun s p => Function.update s p.2 (index.summaries p.1)) summaries),
        endOf a (slots ((is.filter index.isPresent).map fun i => ⟨byteUsage c, 1, index.summaries i⟩))) := by
  induction is generalizing a asCount summaries with
  | nil => rfl
  | cons i is ih =>
    by_cases hpresent : index.isPresent i
    · have hpos : ¬ (index.areaSummaryPositions i).toNat ≤ 0 := Nat.not_le.mpr (of_decide_eq_true hpresent)
      rw [List.filter_cons_of_pos hpresent] at h ⊢
      obtain ⟨hx, hxs⟩ := h
      rw [readSummaries, if_neg hpos, StateT.run_bind, next_run, hx, List.countP_cons_of_pos hpresent]
      have hrest := ih (asCount + 1) (Function.update summaries asCount (index.summaries i)) hxs
      rw [show asCount + (is.countP index.isPresent + 1) = asCount + 1 + is.countP index.isPresent by omega]
      exact hrest
    · have hpos : (index.areaSummaryPositions i).toNat ≤ 0 :=
        Nat.not_lt.mp fun hlt => hpresent (decide_eq_true hlt)
      rw [List.filter_cons_of_neg hpresent] at h ⊢
      rw [readSummaries, if_pos hpos, List.countP_cons_of_neg hpresent]
      exact ih asCount summaries h

/-- What is read over an index, if all of it is in the buffer. -/
def readOver : SuperIndex c where
  no := entry.no
  logPrev := index.logPrev
  rootNode := index.rootNode
  usedAreas := index.usedAreas
  areaMap := index.areaMap
  activeArea := index.activeArea
  overallDeletions := index.overallDeletions
  areaSummaryPositions := index.areaSummaryPositions
  summaries i := index.arrived (fun i => if h : i < 2 then entry.summaries ⟨i, h⟩ else Word.ofNat _ 0) i

theorem deserializeFromBuffer_eq {buf : Memory} (h : buf.Stored 0 index.members) :
    entry.deserializeFromBuffer buf = (.ok, index.readOver entry) := by
  have hrun : (entry.deserialize buf).run 0 = some (((List.finRange 2).countP index.isPresent, index.readOver entry),
      endOf 0 (slots index.members)) := by
    obtain ⟨hheader, hsummaries⟩ := Memory.stored_append.mp h
    have hread := index.readSummaries_run (List.finRange 2) 0
      (fun i => if h : i < 2 then entry.summaries ⟨i, h⟩ else Word.ofNat _ 0) hsummaries
    unfold header at hheader
    obtain ⟨hheader, hpositions⟩ := Memory.stored_append.mp hheader
    obtain ⟨hheader, hdeletions, -⟩ := Memory.stored_append.mp hheader
    obtain ⟨hheader, hactive⟩ := Memory.stored_append.mp hheader
    obtain ⟨⟨hlogPrev, hrootNode, husedAreas, -⟩, hareaMap⟩ := Memory.stored_append.mp hheader
    rw [slots_append, endOf_append, slots_ofFn] at hactive
    rw [slots_append, endOf_append, slots_append, endOf_append, slots_ofFn, slots_ofFn] at hdeletions
    rw [slots_append, endOf_append, slots_append, endOf_append, slots_append, endOf_append, slots_ofFn, slots_ofFn] at hpositions
    have hareaMap := nextAll_run hareaMap
    have hactive := nextAll_run hactive
    have hpositions := nextAll_run hpositions
    rw [slots_header, endOf_append, endOf_append, endOf_append, endOf_append] at hread
    rw [members, slots_append, endOf_append, slots_header, endOf_append, endOf_append, endOf_append, endOf_append]
    simp only [slots, List.map_cons, List.map_nil, endOf] at hlogPrev hrootNode husedAreas hareaMap hactive hdeletions
    simp only [slots, List.map_cons, List.map_nil, endOf] at hpositions hread ⊢
    simp only [deserialize, StateT.run_bind, next_run, hlogPrev, hrootNode, husedAreas, hareaMap, hactive, hdeletions,
      hpositions, hread, Option.bind_eq_bind, Option.bind_some]
    rw [Nat.zero_add]
    rfl
  rw [deserializeFromBuffer, hrun]
  exact Prod.ext (if_neg (not_not_intro index.endOf_members)) rfl

end SuperIndex

/-! ### The pages -/

theorem bytesOnPage_le (pointer neededBytes : Nat) : bytesOnPage c pointer neededBytes ≤ c.dataBytesPerPage - 4 := by
  unfold bytesOnPage
  split_ifs
  · exact Nat.le_refl _
  · omega

/-- All pages but the last are full. -/
theorem bytesOnPage_full {page neededBytes : Nat} (h : (page + 1) * (c.dataBytesPerPage - 4) < neededBytes) :
    bytesOnPage c (page * (c.dataBytesPerPage - 4)) neededBytes = c.dataBytesPerPage - 4 := by
  have hserial := c.serial_lt
  rw [Nat.succ_mul] at h
  rw [bytesOnPage, if_pos (by omega)]

theorem lt_neededPages {page neededBytes : Nat} :
    page < neededPages c neededBytes ↔ page * (c.dataBytesPerPage - 4) < neededBytes := by
  have hserial := c.serial_lt
  have hpos : 0 < c.dataBytesPerPage - 4 := by omega
  rw [neededPages, ← Nat.succ_le_iff, Nat.le_div_iff_mul_le hpos, Nat.succ_mul]
  omega

theorem pageContent_serial (no : SerialNo) (buf : Memory) (pointer btw : Nat) :
    (pageContent no buf pointer btw).readWord 0 4 = no := by
  refine Eq.trans (Memory.readWord_congr fun i hi => ?_) (Memory.readWord_writeWord_self (fun _ => 0xFF) 0 4 no)
  have hlen := Bytes.toBytes_length 4 no.toNat
  rw [pageContent, Memory.writeWord, Memory.write_of_mem (by rw [List.length_append, hlen]; omega),
    Memory.write_of_mem (by rw [hlen]; omega), List.getD_append _ _ _ _ (by rw [hlen]; omega)]

theorem pageContent_bytes (no : SerialNo) (buf : Memory) {pointer btw i : Nat} (hi : i < btw) :
    pageContent no buf pointer btw (4 + i) = buf (pointer + i) := by
  have hlen := Bytes.toBytes_length 4 no.toNat
  rw [pageContent, Memory.write_of_mem (by rw [List.length_append, hlen, Memory.length_read]; omega),
    List.getD_append_right _ _ _ _ (by rw [hlen]; omega), hlen, Nat.sub_zero, Nat.add_sub_cancel_left,
    List.getD_eq_getElem _ _ (by rwa [Memory.length_read]), Memory.getElem_read]

/-- The pages of an index on flash. -/
theorem writePages_ok {outcome : PageAbs → Result} {pageStart : PageAbs} {no : SerialNo} {buf : Memory} {neededBytes : Nat}
    (k : Nat) {page pointer : Nat} {flash : Flash} (hpointer : k = 0 ∨ pointer = page * (c.dataBytesPerPage - 4))
    (hk : page + k ≤ neededPages c neededBytes)
    (hok : (writePages c outcome pageStart no buf neededBytes k page pointer flash).1 = .ok) :
    (∀ p, ¬ (page ≤ p ∧ p < page + k) →
      (writePages c outcome pageStart no buf neededBytes k page pointer flash).2 (pageStart + p) = flash (pageStart + p)) ∧
    ∀ p, page ≤ p → p < page + k → (writePages c outcome pageStart no buf neededBytes k page pointer flash).2 (pageStart + p) =
      pageContent no buf (p * (c.dataBytesPerPage - 4)) (bytesOnPage c (p * (c.dataBytesPerPage - 4)) neededBytes) := by
  induction k generalizing page pointer flash with
  | zero => exact ⟨fun _ _ => rfl, fun p hle hlt => absurd hlt (by omega)⟩
  | succ k ih =>
    have hpointer := hpointer.resolve_left (Nat.succ_ne_zero k)
    rw [writePages] at hok ⊢
    split at hok
    · have hnext : k = 0 ∨ pointer + bytesOnPage c pointer neededBytes = (page + 1) * (c.dataBytesPerPage - 4) := by
        rcases Nat.eq_zero_or_pos k with hzero | hpos
        · exact .inl hzero
        · refine .inr ?_
          rw [hpointer, bytesOnPage_full (lt_neededPages.mp (by omega)), Nat.succ_mul]
      obtain ⟨hother, hwritten⟩ := ih hnext (by omega) hok
      refine ⟨fun p hp => ?_, fun p hle hlt => ?_⟩
      · have hne : p ≠ page := fun heq => hp ⟨heq.ge, by omega⟩
        rw [hother p (by omega), Function.update_of_ne fun heq => hne (Nat.add_left_cancel heq)]
      · rcases Nat.eq_or_lt_of_le hle with rfl | hlt'
        · rw [hother page (by omega), Function.update_self, hpointer]
        · exact hwritten p hlt' (by omega)
    · rename_i hfails
      exact (hfails hok).elim

/-- A page that the reading accepts. -/
def Accepted (status : PageAbs → Result) (flash : Flash) (no : SerialNo) (page : PageAbs) : Prop :=
  status page = .ok ∧ (flash page).readWord 0 4 = no

/-- Reading accepted pages fills the buffer with them. -/
theorem readPages_ok {status : PageAbs → Result} {flash : Flash} {pageBase : PageAbs} {neededBytes : Nat} {no : SerialNo}
    (hno : no ≠ emptySerial) (k : Nat) {page pointer : Nat} {first : SerialNo} {buf : Memory}
    (hfirst : first = no ∨ first = emptySerial ∧ 0 < k) (hpointer : k = 0 ∨ pointer = page * (c.dataBytesPerPage - 4))
    (hk : page + k ≤ neededPages c neededBytes)
    (haccepted : ∀ p, page ≤ p → p < page + k → Accepted status flash no (pageBase + p)) :
    ∃ buf', readPages c status flash pageBase neededBytes k page pointer first buf = .ok (no, buf') ∧
      (∀ i, k = 0 ∨ i < pointer → buf' i = buf i) ∧
      ∀ p, page ≤ p → p < page + k → ∀ i < bytesOnPage c (p * (c.dataBytesPerPage - 4)) neededBytes,
        buf' (p * (c.dataBytesPerPage - 4) + i) = flash (pageBase + p) (4 + i) := by
  induction k generalizing page pointer first buf with
  | zero =>
    have heq : first = no := hfirst.resolve_right fun h => Nat.lt_irrefl 0 h.2
    exact ⟨buf, by rw [readPages, heq], fun _ _ => rfl, fun p hle hlt => absurd hlt (by omega)⟩
  | succ k ih =>
    have hpointer := hpointer.resolve_left (Nat.succ_ne_zero k)
    obtain ⟨hstatus, hserial⟩ := haccepted page (Nat.le_refl _) (by omega)
    have hsame : ¬ (first ≠ emptySerial ∧ no ≠ first) := by
      rintro ⟨hne, hne'⟩
      exact hfirst.elim (fun h => hne' h.symm) fun h => hne h.1
    have hthen : (if first = emptySerial then no else first) = no := by
      split_ifs with hempty
      · rfl
      · exact hfirst.resolve_right fun h => hempty h.1
    have hnext : k = 0 ∨ pointer + bytesOnPage c pointer neededBytes = (page + 1) * (c.dataBytesPerPage - 4) := by
      rcases Nat.eq_zero_or_pos k with hzero | hpos
      · exact .inl hzero
      · refine .inr ?_
        rw [hpointer, bytesOnPage_full (lt_neededPages.mp (by omega)), Nat.succ_mul]
    obtain ⟨buf', hread, hbefore, hpages⟩ := @ih (page + 1) (pointer + bytesOnPage c pointer neededBytes) no
      (buf.write pointer ((flash (pageBase + page)).read 4 (bytesOnPage c pointer neededBytes))) (.inl rfl) hnext (by omega)
      fun p hle hlt => haccepted p (by omega) (by omega)
    refine ⟨buf', ?_, fun i hi => ?_, fun p hle hlt i hi => ?_⟩
    · rw [readPages, hstatus]
      dsimp only
      rw [hserial, if_neg hno, if_neg hsame, hthen, hread]
    · have hi := hi.resolve_left (Nat.succ_ne_zero k)
      rw [hbefore i (by omega), Memory.write_of_not_mem (by omega)]
    · rcases Nat.eq_or_lt_of_le hle with rfl | hlt'
      · have hlen := Memory.length_read (flash (pageBase + page)) 4 (bytesOnPage c pointer neededBytes)
        rw [← hpointer] at hi ⊢
        rw [hbefore _ (by omega), Memory.write_of_mem (by rw [hlen]; omega), Nat.add_sub_cancel_left,
          List.getD_eq_getElem _ _ (by rwa [hlen]), Memory.getElem_read]
      · exact hpages p hlt' (by omega) i hi

/-- A reading that goes through has accepted all pages. -/
theorem accepted_of_readPages {status : PageAbs → Result} {flash : Flash} {pageBase : PageAbs} {neededBytes : Nat} (k : Nat)
    {page pointer : Nat} {first no : SerialNo} {buf buf' : Memory}
    (hread : readPages c status flash pageBase neededBytes k page pointer first buf = .ok (no, buf')) :
    (first ≠ emptySerial → no = first) ∧ ∀ p, page ≤ p → p < page + k → Accepted status flash no (pageBase + p) ∧ no ≠ emptySerial := by
  induction k generalizing page pointer first buf with
  | zero =>
    rw [readPages] at hread
    cases hread
    exact ⟨fun _ => rfl, fun p hle hlt => absurd hlt (by omega)⟩
  | succ k ih =>
    rw [readPages] at hread
    split at hread
    · rename_i hstatus
      dsimp only at hread
      split_ifs at hread with hempty hother hfirst
      · obtain ⟨hno, haccepted⟩ := ih hread
        have hno := hno hempty
        refine ⟨fun hne => absurd hfirst hne, fun p hle hlt => ?_⟩
        rcases Nat.eq_or_lt_of_le hle with rfl | hlt'
        · exact ⟨⟨hstatus, hno.symm⟩, hno ▸ hempty⟩
        · exact haccepted p hlt' (by omega)
      · obtain ⟨hno, haccepted⟩ := ih hread
        have hno := hno hfirst
        have hserial : (flash (pageBase + page)).readWord 0 4 = first := by
          by_contra hne
          exact hother ⟨hfirst, hne⟩
        refine ⟨fun _ => hno, fun p hle hlt => ?_⟩
        rcases Nat.eq_or_lt_of_le hle with rfl | hlt'
        · exact ⟨⟨hstatus, hserial.trans hno.symm⟩, hno ▸ hfirst⟩
        · exact haccepted p hlt' (by omega)
    · cases hread
    · cases hread

/-! ### Both -/

namespace SuperIndex
variable (index entry : SuperIndex c)

/-- An object that equals the index, but for the summaries the index does not have. -/
def into : SuperIndex c :=
  { index with summaries := fun i => if index.isPresent i then index.summaries i else entry.summaries i }

/-- The summaries that are there are the first ones. -/
def InOrder : Prop := index.isPresent ⟨1, Nat.one_lt_two⟩ → index.isPresent ⟨0, Nat.two_pos⟩

instance : Decidable index.InOrder := inferInstanceAs (Decidable (_ → _))

theorem readOver_eq (h : index.InOrder) (hno : entry.no = index.no) : index.readOver entry = index.into entry := by
  have hsummaries : (index.readOver entry).summaries = (index.into entry).summaries := by
    funext i
    simp only [readOver, into, arrived, show List.finRange 2 = [0, 1] from rfl]
    by_cases hzero : index.isPresent 0
    · by_cases hone : index.isPresent 1
      · fin_cases i <;> simp [hzero, hone, List.filter]
      · fin_cases i <;> simp [hzero, hone, List.filter]
    · have hone : index.isPresent 1 = false := by
        by_contra hone
        exact hzero (h (by simpa using hone))
      fin_cases i <;> simp [hzero, hone, List.filter]
  exact SuperIndex.ext hno rfl rfl rfl rfl rfl rfl rfl hsummaries

end SuperIndex

theorem exists_ne {w : Nat} (hw : 0 < w) (x : Word w) : ∃ y : Word w, y ≠ x := by
  have hlt : 1 < 256 ^ w := Nat.one_lt_pow hw.ne' (by decide)
  by_contra hall
  have hequal : ∀ y : Word w, y = x := fun y => by_contra fun hne => hall ⟨y, hne⟩
  have hone := congrArg Word.toNat ((hequal (Word.ofNat w 1)).trans (hequal (Word.ofNat w 0)).symm)
  rw [Word.toNat_ofNat hlt, Word.toNat_ofNat (by omega)] at hone
  exact Nat.one_ne_zero hone

namespace SuperIndex
variable (index : SuperIndex c)

/-- What a reading restores; the serial number is not in the buffer. -/
structure Restored (r : Result × SuperIndex c) : Prop where
  ok : r.1 = .ok
  logPrev : r.2.logPrev = index.logPrev
  rootNode : r.2.rootNode = index.rootNode
  usedAreas : r.2.usedAreas = index.usedAreas
  areaMap : r.2.areaMap = index.areaMap
  activeArea : r.2.activeArea = index.activeArea
  overallDeletions : r.2.overallDeletions = index.overallDeletions
  areaSummaryPositions : r.2.areaSummaryPositions = index.areaSummaryPositions
  summaries : ∀ i, index.isPresent i → r.2.summaries i = index.summaries i

theorem serializeToBuffer_stored (buf : Memory) : (index.serializeToBuffer buf).2.Stored 0 index.members := by
  rw [serializeToBuffer_eq]
  exact Memory.store_stored index.align_pos buf 0

/-- A summary in the second slot alone is read into the first. -/
theorem not_restored {buf : Memory} (hbuf : buf.Stored 0 index.members) (hone : index.isPresent 1) (hzero : ¬ index.isPresent 0) :
    ∃ entry : SuperIndex c, ¬ index.Restored (entry.deserializeFromBuffer buf) := by
  have hbytes : 0 < byteUsage c := Nat.div_pos (by have := c.pages_pos; omega) (by decide)
  obtain ⟨summary, hsummary⟩ := exists_ne hbytes (index.summaries 1)
  refine ⟨{ index with summaries := fun _ => summary }, fun hrestored => ?_⟩
  have hsecond := hrestored.summaries 1 hone
  rw [deserializeFromBuffer_eq _ _ hbuf] at hsecond
  simp only [readOver, arrived, show List.finRange 2 = [0, 1] from rfl] at hsecond
  simp [hone, hzero, List.filter] at hsecond
  exact hsummary hsecond

theorem restored_of_inOrder {buf : Memory} (hbuf : buf.Stored 0 index.members) (hinOrder : index.InOrder) (entry : SuperIndex c) :
    index.Restored (entry.deserializeFromBuffer buf) := by
  rw [deserializeFromBuffer_eq _ _ hbuf]
  have hread := index.readOver_eq { entry with no := index.no } hinOrder rfl
  refine ⟨rfl, rfl, rfl, rfl, rfl, rfl, rfl, rfl, fun i hi => ?_⟩
  have hsummaries : (index.readOver entry).summaries i = (index.into entry).summaries i :=
    congrFun (congrArg SuperIndex.summaries hread) i
  rw [hsummaries]
  exact if_pos hi

/-- The buffer is read back over whatever object, if and only if the summaries are in order. -/
theorem deserializeFromBuffer_iff (buf : Memory) : (index.serializeToBuffer buf).1 = .ok ∧
    ((∀ entry : SuperIndex c, index.Restored (entry.deserializeFromBuffer (index.serializeToBuffer buf).2)) ↔ index.InOrder) := by
  refine ⟨by rw [serializeToBuffer_eq], fun hall hone => ?_, index.restored_of_inOrder (index.serializeToBuffer_stored buf)⟩
  by_contra hzero
  obtain ⟨entry, hentry⟩ := index.not_restored (index.serializeToBuffer_stored buf) hone hzero
  exact hentry (hall entry)

end SuperIndex

section
variable {readOnly : Bool} {outcome status : PageAbs → Result} {pageStart : PageAbs} {index : SuperIndex c}
  {flash flash' flash'' : Flash}

theorem getNeededBytes_le : index.getNeededBytes ≤ neededFor c 2 := by
  have hcount : (List.finRange 2).countP index.isPresent ≤ 2 := List.countP_le_length
  rw [SuperIndex.getNeededBytes, neededFor, neededFor, if_pos hcount, if_pos (Nat.le_refl 2)]
  have hle := Nat.mul_le_mul_left (byteUsage c) hcount
  omega

theorem getNeededBytes_pos : 0 < index.getNeededBytes := by
  have hcount : (List.finRange 2).countP index.isPresent ≤ 2 := List.countP_le_length
  rw [SuperIndex.getNeededBytes, neededFor, if_pos hcount]
  omega

theorem neededPages_pos : 0 < neededPages c index.getNeededBytes :=
  lt_neededPages.mpr (by rw [Nat.zero_mul]; exact getNeededBytes_pos)

theorem lt_neededPages_two {p : Nat} (hp : p < neededPages c index.getNeededBytes) : p < neededPages c (neededFor c 2) :=
  lt_neededPages.mpr ((lt_neededPages.mp hp).trans_le getNeededBytes_le)

/-- What a write that goes through leaves on flash. -/
theorem writeSuperPageIndex_ok (hwrite : writeSuperPageIndex c readOnly outcome pageStart index flash = some (.ok, flash')) :
    index.isPlausible = some true ∧ ∀ p < neededPages c index.getNeededBytes, flash' (pageStart + p) =
      pageContent index.no (Memory.store (fun _ => 0) 0 index.members) (p * (c.dataBytesPerPage - 4))
        (bytesOnPage c (p * (c.dataBytesPerPage - 4)) index.getNeededBytes) := by
  unfold writeSuperPageIndex at hwrite
  rw [index.serializeToBuffer_eq] at hwrite
  split_ifs at hwrite
  · cases hwrite
  · split at hwrite
    · cases hwrite
    · cases hwrite
    · rename_i hplaus
      have hpages := writePages_ok _ (.inr (Nat.zero_mul _).symm) (Nat.zero_add _).le
        (congrArg Prod.fst (Option.some.inj hwrite))
      rw [Option.some.inj hwrite] at hpages
      exact ⟨hplaus, fun p hp => hpages.2 p (Nat.zero_le p) (by rwa [Nat.zero_add])⟩

/-- Once all pages are accepted, the index is read. -/
theorem readSuperPageIndex_accepted (hplaus : index.isPlausible = some true)
    (hpages : ∀ p < neededPages c index.getNeededBytes, flash (pageStart + p) =
      pageContent index.no (Memory.store (fun _ => 0) 0 index.members) (p * (c.dataBytesPerPage - 4))
        (bytesOnPage c (p * (c.dataBytesPerPage - 4)) index.getNeededBytes))
    (hno : index.no ≠ emptySerial)
    (haccepted : ∀ p < neededPages c (neededFor c 2), Accepted status flash index.no (pageStart + p)) (entry : SuperIndex c) :
    readSuperPageIndex c status flash pageStart entry = some (.ok, index.readOver { entry with no := index.no }) := by
  have hserial := c.serial_lt
  have htwo : 0 < neededPages c (neededFor c 2) := lt_neededPages_two (@neededPages_pos c index)
  obtain ⟨buf, hread, -, hbytes⟩ := @readPages_ok c status flash pageStart (neededFor c 2) index.no hno
    (neededPages c (neededFor c 2)) 0 0 emptySerial (fun _ => 0) (.inr ⟨rfl, htwo⟩) (.inr (Nat.zero_mul _).symm)
    (Nat.zero_add _).le fun p _ hp => haccepted p (by rwa [Nat.zero_add] at hp)
  have hstored : buf.Stored 0 index.members := by
    refine (Memory.store_stored index.align_pos (fun _ => 0) 0).congr index.align_pos fun i _ hi => ?_
    rw [index.endOf_members] at hi
    have hpos : 0 < c.dataBytesPerPage - 4 := by omega
    have hdiv := Nat.div_add_mod i (c.dataBytesPerPage - 4)
    have hmod := Nat.mod_lt i hpos
    rw [Nat.mul_comm] at hdiv
    have hpage : i / (c.dataBytesPerPage - 4) < neededPages c index.getNeededBytes := lt_neededPages.mpr (by omega)
    have honpage : ∀ n, i < n → i % (c.dataBytesPerPage - 4) <
        bytesOnPage c (i / (c.dataBytesPerPage - 4) * (c.dataBytesPerPage - 4)) n := by
      intro n hn
      unfold bytesOnPage
      split_ifs
      · exact hmod
      · omega
    rw [← hdiv, hbytes _ (Nat.zero_le _) (by rw [Nat.zero_add]; exact lt_neededPages_two hpage) _
      (honpage _ (hi.trans_le getNeededBytes_le)), hpages _ hpage, pageContent_bytes _ _ (honpage _ hi)]
  unfold readSuperPageIndex
  rw [hread]
  dsimp only
  rw [index.deserializeFromBuffer_eq _ hstored]
  dsimp only
  rw [show (index.readOver { entry with no := index.no }).isPlausible = some true from hplaus]

/-- The reading finds the index, and nothing else, on the pages of the largest index. -/
structure Readable (status : PageAbs → Result) (flash : Flash) (pageStart : PageAbs) (index : SuperIndex c) : Prop where
  inOrder : index.InOrder
  serial : index.no ≠ emptySerial
  status : ∀ p < neededPages c (neededFor c 2), status (pageStart + p) = .ok
  behind : ∀ p, neededPages c index.getNeededBytes ≤ p → p < neededPages c (neededFor c 2) →
    (flash (pageStart + p)).readWord 0 4 = index.no

/-- A super index is read back over whatever object, if and only if its summaries are in order, no page needed a correction,
and the pages behind it that the largest index would take carry its serial number. -/
theorem readSuperPageIndex_iff
    (hwrite : writeSuperPageIndex c readOnly outcome pageStart index flash = some (.ok, flash'))
    (hsame : ∀ p < neededPages c index.getNeededBytes, flash'' (pageStart + p) = flash' (pageStart + p)) :
    (∀ entry, readSuperPageIndex c status flash'' pageStart entry = some (.ok, index.into entry)) ↔
      Readable status flash'' pageStart index := by
  obtain ⟨hplaus, hpages⟩ := writeSuperPageIndex_ok hwrite
  have hpages' := fun p hp => (hsame p hp).trans (hpages p hp)
  have hown : ∀ p < neededPages c index.getNeededBytes, (flash'' (pageStart + p)).readWord 0 4 = index.no := by
    intro p hp
    rw [hsame p hp, hpages p hp, pageContent_serial]
  constructor
  · intro hall
    obtain ⟨rootNode, hroot⟩ := exists_ne (by decide) index.rootNode
    have hbytes : 0 < byteUsage c := Nat.div_pos (by have := c.pages_pos; omega) (by decide)
    obtain ⟨summary, hsummary⟩ := exists_ne hbytes (index.summaries 1)
    have hread := hall { index with rootNode := rootNode, summaries := fun _ => summary }
    -- all pages are accepted, or the root node stays as it was
    have haccepted : index.no ≠ emptySerial ∧
        ∀ p < neededPages c (neededFor c 2), Accepted status flash'' index.no (pageStart + p) := by
      unfold readSuperPageIndex at hread
      split at hread
      · exact absurd (congrArg (fun r => r.2.rootNode) (Option.some.inj hread)) hroot
      · rename_i no buf hpages
        obtain ⟨-, haccepted⟩ := accepted_of_readPages _ hpages
        simp only [Nat.zero_le, Nat.zero_add, forall_const] at haccepted
        obtain ⟨⟨-, hserial⟩, hno⟩ := haccepted 0 (lt_neededPages_two (@neededPages_pos c index))
        have heq : no = index.no := hserial.symm.trans (hown 0 neededPages_pos)
        rw [heq] at haccepted hno
        exact ⟨hno, fun p hp => (haccepted p hp).1⟩
    refine ⟨fun hone => ?_, haccepted.1, fun p hp => (haccepted.2 p hp).1, fun p _ hp => (haccepted.2 p hp).2⟩
    -- the second summary alone would be read into the place of the first
    by_contra hzero
    rw [readSuperPageIndex_accepted hplaus hpages' haccepted.1 haccepted.2] at hread
    have hsecond := congrArg (fun r => r.2.summaries 1) (Option.some.inj hread)
    simp only [SuperIndex.readOver, SuperIndex.arrived, SuperIndex.into, show List.finRange 2 = [0, 1] from rfl] at hsecond
    simp [show index.isPresent 1 = true from hone, show ¬ index.isPresent 0 = true from hzero, List.filter] at hsecond
    exact hsummary hsecond
  · intro hreadable entry
    have haccepted : ∀ p < neededPages c (neededFor c 2), Accepted status flash'' index.no (pageStart + p) := by
      intro p hp
      refine ⟨hreadable.status p hp, ?_⟩
      rcases Nat.lt_or_ge p (neededPages c index.getNeededBytes) with hlt | hge
      · exact hown p hlt
      · exact hreadable.behind p hge hp
    rw [readSuperPageIndex_accepted hplaus hpages' hreadable.serial haccepted]
    exact congrArg (fun e => some (Result.ok, e)) (index.readOver_eq _ hreadable.inOrder rfl)

end

/-- Pages of 512 bytes, areas of 64 data pages. -/
def geometry (areasNo : Nat) (h : 34 + 12 * areasNo + 2 * ((64 + 3) / 4) < 2 ^ 16) : Config := ⟨512, areasNo, 64, by decide, by decide, h⟩

def geometry36 : Config := geometry 36 (by decide)
def geometry39 : Config := geometry 39 (by decide)

/-- All areas are empty, so there is no summary. -/
def newIndex (c : Config) : SuperIndex c where
  no := Word.ofNat 4 1
  logPrev := Word.ofNat 2 0
  rootNode := Word.ofNat 4 7
  usedAreas := Word.ofNat 2 0
  areaMap _ := Word.ofNat 12 (empty * 2 ^ 8)
  activeArea _ := Word.ofNat 2 0
  overallDeletions := Word.ofNat 8 0
  areaSummaryPositions _ := Word.ofNat 2 0
  summaries _ := Word.ofNat _ 0

def erased : Flash := fun _ _ => 0xFF

/-- Only the index area has a summary, in the second slot. -/
def secondOnly : SuperIndex geometry36 :=
  { newIndex geometry36 with areaSummaryPositions := fun i => Word.ofNat 2 (if i.val = 1 then 5 else 0) }

theorem second_summary_alone_is_lost : ¬ ∀ (c : Config) (index entry : SuperIndex c) (buf : Memory),
    index.Restored (entry.deserializeFromBuffer (index.serializeToBuffer buf).2) := by
  intro hall
  obtain ⟨entry, hentry⟩ := secondOnly.not_restored (secondOnly.serializeToBuffer_stored fun _ => 0) (by decide +kernel)
    (by decide +kernel)
  exact hentry (hall _ _ _ _)

/-- With 36 areas, the summaries would be on the same page. -/
theorem readSuperPageIndex_iff_newIndex : ∃ flash,
    writeSuperPageIndex geometry36 false (fun _ => .ok) 10 (newIndex _) erased = some (.ok, flash) ∧
      ∀ entry, readSuperPageIndex geometry36 (fun _ => .ok) flash 10 entry = some (Result.ok, (newIndex _).into entry) := by
  have hok : (writeSuperPageIndex geometry36 false (fun _ => .ok) 10 (newIndex _) erased).map Prod.fst =
      some Result.ok := by decide +kernel
  obtain ⟨⟨_, flash⟩, hwrite, rfl⟩ := Option.map_eq_some_iff.mp hok
  refine ⟨flash, hwrite, (readSuperPageIndex_iff hwrite fun _ _ => rfl).mpr ⟨by decide +kernel, by decide +kernel, fun _ _ => rfl, ?_⟩⟩
  intro p hle hlt
  exact absurd (lt_of_le_of_lt hle hlt) (by decide +kernel)

/-- With 39 areas, the reading goes on to the page behind the index. -/
theorem behind_is_read : ¬ ∀ (c : Config) (outcome status : PageAbs → Result) (pageStart : PageAbs) (index : SuperIndex c)
    (flash flash' : Flash), index.no ≠ emptySerial → (∀ p, status p = .ok ∨ status p = .biterrorCorrected) →
      writeSuperPageIndex c false outcome pageStart index flash = some (.ok, flash') →
      ∀ entry, readSuperPageIndex c status flash' pageStart entry = some (.ok, index.into entry) := by
  intro hall
  have hok : ((writeSuperPageIndex geometry39 false (fun _ => .ok) 10 (newIndex _) erased).bind fun r =>
      (readSuperPageIndex geometry39 (fun _ => .ok) r.2 10 (newIndex _)).map fun r' => (r.1, r'.1)) =
        (some (.ok, .bug) : Option (Result × Result)) := by decide +kernel
  obtain ⟨⟨_, flash⟩, hwrite, hread⟩ := Option.bind_eq_some_iff.mp hok
  obtain ⟨r', hread, heq⟩ := Option.map_eq_some_iff.mp hread
  obtain ⟨rfl, hbug⟩ := Prod.mk.inj heq
  rw [hall _ _ _ _ _ _ _ (by decide +kernel) (fun _ => .inl rfl) hwrite] at hread
  rw [← Option.some.inj hread] at hbug
  exact absurd hbug (by decide)

end Paffs.Superblock
