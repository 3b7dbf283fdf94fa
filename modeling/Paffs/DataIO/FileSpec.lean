import Paffs.DataIO.Read
import Paffs.DataIO.Shared

/-! One file among others: what its calls answer and what they leave of its bytes. -/
namespace Paffs.DataIO
open Bytes (Byte Memory)
variable {c : Config} {env : Env}

namespace State
variable {s s' : State} {f : ByteArray} {data : Memory} {offs bytes n : Nat}

/-- The file holds these bytes, and its inode counts their pages. -/
structure Shows (c : Config) (env : Env) (s : State) (f : ByteArray) : Prop where
  holds : s.Holds c env f
  counted : s.Counted

theorem Empty.shows (h : s.Empty) (hreserved : s.reservedPages = 0) : s.Shows c env .empty := by
  have hmapped : s.mapped = ∅ := Set.eq_empty_of_forall_notMem fun p hp => hp (h.page p)
  refine ⟨⟨h.sound, h.size, fun i hi => absurd hi (Nat.not_lt_zero i)⟩, ?_, ?_⟩
  · rw [hmapped]
    exact Set.finite_empty
  · rw [hmapped, Set.ncard_empty, hreserved, Nat.zero_mod]

/-- A file does not see what happens elsewhere on the flash. -/
theorem Shows.congr (h : s.Shows c env f) (hsize : s'.size = s.size) (hreserved : s'.reservedPages = s.reservedPages)
    (hpage : s'.page = s.page) (hreplaced : s'.replaced = [])
    (hkept : ∀ p, s.page p ≠ 0 → s'.used (s.page p) = true ∧ s'.flash (s.page p) = s.flash (s.page p)) : s'.Shows c env f := by
  obtain ⟨⟨hsound, hlength, hbytes⟩, hcounted⟩ := h
  refine ⟨⟨⟨?_, ?_, ?_, ?_, ?_, hreplaced⟩, hsize.trans hlength, fun i hi => ?_⟩, hcounted.congr hpage hreserved⟩
  · rw [hpage]
    exact fun p hp => (hkept p hp).1
  · rw [hpage]
    exact hsound.injective
  · rw [hpage, hsize]
    exact hsound.beyond
  · rw [hsize]
    exact hsound.size_lt
  · rw [hsize]
    exact hsound.addressable
  · refine Eq.trans ?_ (hbytes i hi)
    unfold byteAt readPage
    rw [hpage]
    by_cases hzero : s.page (i / c.dataBytesPerPage) = 0
    · rw [if_pos hzero, if_pos hzero]
    · rw [if_neg hzero, if_neg hzero, (hkept _ hzero).2]

/-! ### Writing -/

/-- The limits of a write: all its pages can be addressed and are on the list of the state machine, and it leaves no gap inside a
page that is on flash. -/
structure Writable (c : Config) (env : Env) (s : State) (offs bytes : Nat) : Prop where
  pos : 0 < bytes
  noGap : s.NoGap c offs
  sum : offs + bytes < 2 ^ 32
  tracked : lastPage c (offs + bytes) < offs / c.dataBytesPerPage + c.maxPagesPerWrite
  addressable : lastPage c (offs + bytes) < env.addressable

instance : Decidable (s.Writable c env offs bytes) :=
  decidable_of_iff (0 < bytes ∧ (offs ≤ s.size ∨ s.size % c.dataBytesPerPage = 0 ∨ s.page (s.size / c.dataBytesPerPage) = 0) ∧
      offs + bytes < 2 ^ 32 ∧ lastPage c (offs + bytes) < offs / c.dataBytesPerPage + c.maxPagesPerWrite ∧
      lastPage c (offs + bytes) < env.addressable)
    ⟨fun h => ⟨h.1, h.2.1, h.2.2.1, h.2.2.2.1, h.2.2.2.2⟩, fun h => ⟨h.pos, h.noGap, h.sum, h.tracked, h.addressable⟩⟩

theorem first_le_last (c : Config) (offs : Nat) {bytes : Nat} (h : 0 < bytes) :
    offs / c.dataBytesPerPage ≤ lastPage c (offs + bytes) := by
  obtain ⟨-, hlast⟩ := lastPage_spec (c := c) (show 0 < offs + bytes by omega)
  have hoffs := Nat.div_mul_le_self offs c.dataBytesPerPage
  have hlt : offs / c.dataBytesPerPage * c.dataBytesPerPage < (lastPage c (offs + bytes) + 1) * c.dataBytesPerPage := by omega
  exact Nat.le_of_lt_succ (Nat.lt_of_mul_lt_mul_right hlt)

/-- The write is not refused. -/
theorem Writable.pagesBehind_eq (h : s.Writable c env offs bytes) :
    pagesBehind c offs (offs + bytes) = lastPage c (offs + bytes) - offs / c.dataBytesPerPage := by
  have hfirst := first_le_last c offs h.pos
  have hlast := (lastPage_spec (c := c) (show 0 < offs + bytes from Nat.add_pos_right _ h.pos)).1
  have hle : lastPage c (offs + bytes) ≤ lastPage c (offs + bytes) * c.dataBytesPerPage := Nat.le_mul_of_pos_right _ c.page_pos
  have hsum := h.sum
  unfold pagesBehind
  generalize lastPage c (offs + bytes) = last at *
  generalize last * c.dataBytesPerPage = start at *
  generalize offs / c.dataBytesPerPage = first at *
  omega

theorem Writable.goes (h : s.Writable c env offs bytes) (hh : Healthy c env n) (hfree : c.maxPagesPerWrite ≤ (s.freePages n).card)
    (data : Memory) : (s.writeInodeData c env offs bytes data).1.1 = .ok := by
  have hcount := h.pagesBehind_eq
  have hfirst := first_le_last c offs h.pos
  have htracked := h.tracked
  have haddressable := h.addressable
  have hpages : ¬ pagesBehind c offs (offs + bytes) > c.maxPagesPerWrite := by omega
  rw [writeInodeData_eq h.sum (Nat.add_pos_right _ h.pos).ne' hpages]
  have hloop : (writePageData c env (offs / c.dataBytesPerPage) bytes s.size data (pagesBehind c offs (offs + bytes) + 1) 0
      (offs % c.dataBytesPerPage) 0 s).1.1 = .ok := writePageData_total hh _ (by omega) (by omega)
  generalize writePageData c env (offs / c.dataBytesPerPage) bytes s.size data (pagesBehind c offs (offs + bytes) + 1) 0
    (offs % c.dataBytesPerPage) 0 s = r at hloop
  obtain ⟨⟨r, bytesWritten⟩, s'⟩ := r
  dsimp only at hloop
  subst hloop
  unfold finishWrite
  dsimp only
  rw [hh.outcome]

/-- A write that goes through has written all its bytes. -/
theorem Writable.bytesWritten_eq (h : s.Writable c env offs bytes) (hs : s.Sound c env)
    (hok : (s.writeInodeData c env offs bytes data).1.1 = .ok) : (s.writeInodeData c env offs bytes data).1.2 = bytes := by
  have hpos : 0 < offs + bytes := Nat.add_pos_right _ h.pos
  have hcount := h.pagesBehind_eq
  have hfirst := first_le_last c offs h.pos
  have htracked := h.tracked
  have hpages : ¬ pagesBehind c offs (offs + bytes) > c.maxPagesPerWrite := by omega
  rw [writeInodeData_eq h.sum hpos.ne' hpages] at hok ⊢
  generalize pagesBehind c offs (offs + bytes) = pages at hok hcount ⊢
  have hloop := writePageData_ok hs h.noGap h.sum hpos (pages + 1)
    (hs.progress (offs / c.dataBytesPerPage) (max s.size (offs + bytes)) (overwrite (s.byteAt c) s.size offs bytes data))
    (by omega) (by omega) (fun hzero => absurd hzero (Nat.succ_ne_zero _))
    (fun _ => by rw [Nat.zero_add, Nat.add_zero, Nat.mul_comm]; exact (Nat.div_add_mod ..).symm)
    (Nat.mod_lt offs c.page_pos) (Nat.zero_le _) (.inr rfl)
  generalize writePageData c env (offs / c.dataBytesPerPage) bytes s.size data (pages + 1) 0 (offs % c.dataBytesPerPage) 0 s =
    r at hok hloop ⊢
  obtain ⟨⟨r, bytesWritten⟩, s'⟩ := r
  unfold finishWrite at hok ⊢
  split at hok
  · rename_i bytesWritten s' heq
    cases heq
    obtain ⟨hall, -⟩ := hloop rfl
    dsimp only at hall ⊢
    split
    · exact hall
    · exact hall
  · rename_i hne
    exact (hne bytesWritten s' (Prod.ext (Prod.ext hok rfl) rfl)).elim

/-- What a write within the limits comes to. -/
theorem Shows.write (h : s.Shows c env f) (hwritable : s.Writable c env offs bytes) (hh : Healthy c env n)
    (hfree : c.maxPagesPerWrite ≤ (s.freePages n).card) (data : Memory) :
    ∃ s', s.writeInodeData c env offs bytes data = ((.ok, bytes), s') ∧ s'.Shows c env (f.write ⟨offs, bytes, data⟩) ∧ Apart s s' := by
  have hok := hwritable.goes hh hfree data
  have hall := hwritable.bytesWritten_eq h.holds.sound hok
  refine ⟨_, Prod.ext (Prod.ext hok hall) rfl, ⟨?_, ?_⟩, ?_⟩
  · exact h.holds.write (w := ⟨offs, bytes, data⟩) ⟨hwritable.noGap, hwritable.sum, hwritable.tracked⟩ hok
  · exact h.counted.writeInodeData hwritable.sum hok
  · exact writeInodeData_apart h.holds.sound hwritable.noGap hwritable.sum hwritable.tracked hok

/-! ### Reading -/

/-- Of a range that can be read, the part that the file has is read. -/
theorem Holds.read (h : s.Holds c env f) (hbytes : 0 < bytes) (hreadable : s.Readable c env offs bytes) :
    s.readInodeData c env offs bytes = some (.ok, f.content.read offs (min bytes (f.size - offs))) := by
  rw [← h.size_eq]
  change _ = some (Result.ok, Memory.read f.content offs (s.clipped offs bytes))
  by_cases hsize : offs < s.size
  · obtain ⟨hsum, hrange⟩ := hreadable
    rw [if_pos hsize] at hrange
    obtain ⟨hpos, hend, -, -⟩ := clipped_pages (c := c) hbytes hsize
    have hle : s.clipped offs bytes ≤ bytes := Nat.min_le_left ..
    have hidem : s.clipped offs (s.clipped offs bytes) = s.clipped offs bytes := min_eq_left (Nat.min_le_right ..)
    have hcut : s.readInodeData c env offs bytes = s.readInodeData c env offs (s.clipped offs bytes) := by
      rw [readInodeData_clipped hbytes hsum, readInodeData_clipped hpos (by omega), hidem]
    rw [hcut, readInodeData_eq h.sound hpos (by omega) (by rw [hend]; omega), Memory.read_congr fun i hi => h.byteAt_eq _ ?_]
    rw [← h.size_eq]
    omega
  · obtain ⟨-, bytesRead, hread, hlength⟩ := (readInodeData_iff hbytes).mpr hreadable
    have hzero : s.clipped offs bytes = 0 := by
      unfold clipped
      omega
    rw [hzero] at hlength ⊢
    rw [hread, List.eq_nil_of_length_eq_zero hlength]
    rfl

/-! ### Truncating -/

/-- A file of less than `2 ^ 16` pages, for the count in its inode. -/
def Countable (c : Config) (s : State) : Prop := s.size ≤ (2 ^ 16 - 1) * c.dataBytesPerPage

instance : Decidable (s.Countable c) := inferInstanceAs (Decidable (_ ≤ _))

theorem Sound.mapped_eq_empty (h : s.Sound c env) (hcounted : s.Counted) (hfew : s.Countable c) (hreserved : s.reservedPages = 0) :
    s.mapped = ∅ := by
  have hsubset : s.mapped ⊆ Set.Iio (2 ^ 16 - 1) := fun p hp => Nat.lt_of_mul_lt_mul_right ((h.beyond p hp).trans_le hfew)
  have hcard := Set.ncard_le_ncard hsubset (Set.finite_Iio _)
  have hbelow : (Set.Iio (2 ^ 16 - 1) : Set Nat).ncard = 2 ^ 16 - 1 := by
    rw [Set.ncard_eq_toFinset_card', Set.toFinset_Iio, Nat.card_Iio]
  have hzero := hcounted.eq
  rw [hreserved, Nat.mod_eq_of_lt (show s.mapped.ncard < 2 ^ 16 from hcard.trans_lt (by rw [hbelow]; norm_num))] at hzero
  exact (Set.ncard_eq_zero hcounted.finite).mp hzero.symm

/-- The bytes before the new end stay. -/
theorem Shows.shrink (h : s.Shows c env f) (hfew : s.Countable c) (hoffs : offs ≤ f.size)
    (hok : (s.deleteInodeData c env offs).1 = .ok) : (s.deleteInodeData c env offs).2.Shows c env ⟨offs, f.content⟩ := by
  obtain ⟨⟨hsound, hsize, hbytes⟩, hcounted⟩ := h
  have hkept : ∀ i < offs, s.byteAt c i = f.content i := fun i hi => hbytes i (hi.trans_le hoffs)
  rw [← hsize] at hoffs
  rcases hoffs.eq_or_lt with rfl | hlt
  · unfold deleteInodeData
    rw [if_pos rfl]
    exact ⟨⟨hsound, rfl, hkept⟩, hcounted⟩
  by_cases hreserved : s.reservedPages = 0
  · -- the file is one gap, there is nothing to delete
    have hpage : ∀ p, s.page p = 0 := by
      have hmapped := hsound.mapped_eq_empty hcounted hfew hreserved
      exact fun p => by_contra fun hp => (Set.eq_empty_iff_forall_notMem.mp hmapped) p hp
    have htail : s.tailPages c offs = [] := List.eq_nil_iff_forall_not_mem.mpr fun p hp => ((mem_tailPages hlt).mp hp).1 hreserved
    have hdelete : (s.deleteInodeData c env offs).2 = ({ s with size := offs } : State).invalidateOldPages := by
      rw [deleteInodeData_eq hlt, htail]
      rfl
    rw [hdelete]
    refine ⟨⟨⟨?_, ?_, ?_, ?_, ?_, rfl⟩, rfl, hkept⟩, hcounted.congr rfl rfl⟩
    · exact fun p hp => absurd (hpage p) hp
    · exact fun p _ hp => absurd (hpage p) hp
    · exact fun p hp => absurd (hpage p) hp
    · exact hlt.trans hsound.size_lt
    · exact hlt.le.trans hsound.addressable
  · obtain ⟨hsound', hcounted', hsize', hbytes', -⟩ := deleteInodeData_ok hsound hcounted hreserved hlt hok
    exact ⟨⟨hsound', hsize', fun i hi => (hbytes' i hi).trans (hkept i hi)⟩, hcounted'⟩

/-- No free page is taken. -/
theorem Sound.freePages_deleteInodeData (hs : s.Sound c env) (hoffs : offs ≤ s.size) (hok : (s.deleteInodeData c env offs).1 = .ok) :
    s.freePages n ⊆ (s.deleteInodeData c env offs).2.freePages n := by
  intro a ha
  obtain ⟨hlt, hne, hused⟩ := Finset.mem_filter.mp ha
  refine Finset.mem_filter.mpr ⟨hlt, hne, ?_⟩
  rcases hoffs.eq_or_lt with rfl | hless
  · unfold deleteInodeData
    rwa [if_pos rfl]
  · obtain ⟨s', hdone, -, hstate⟩ := deleteInodeData_shrinking hs.replaced hless hok
    refine (congrFun (congrArg State.used hstate) a).trans ?_
    change (s'.used a && _) = false
    rw [hdone.used, hused, Bool.false_and]

/-- What a truncation comes to. -/
theorem Shows.truncate (h : s.Shows c env f) (hfew : s.Countable c) (hh : Healthy c env n) (hoffs : offs ≤ f.size) :
    ∃ s', s.deleteInodeData c env offs = (.ok, s') ∧ s'.Shows c env ⟨offs, f.content⟩ ∧ Apart s s' ∧ s.freePages n ⊆ s'.freePages n := by
  have hsound := h.holds.sound
  have hle := hoffs.trans_eq h.holds.size_eq.symm
  have hok := deleteInodeData_total hh hsound.used hsound.addressable hle
  exact ⟨_, Prod.ext hok rfl, h.shrink hfew hoffs hok, deleteInodeData_apart hsound hok, hsound.freePages_deleteInodeData hle hok⟩

/-- A file without bytes has no pages. -/
theorem Shows.reservedPages_eq_zero (h : s.Shows c env f) (hsize : f.size = 0) : s.reservedPages = 0 := by
  have hmapped : s.mapped = ∅ := by
    refine Set.eq_empty_of_forall_notMem fun p hp => ?_
    have hbeyond := h.holds.sound.beyond p hp
    rw [h.holds.size_eq, hsize] at hbeyond
    exact Nat.not_lt_zero _ hbeyond
  rw [h.counted.eq, hmapped, Set.ncard_empty, Nat.zero_mod]

end State
end Paffs.DataIO
