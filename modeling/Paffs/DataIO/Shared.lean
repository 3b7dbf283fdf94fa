import Paffs.DataIO.Truncate

/-! Files that share a flash: what an operation on one leaves to the others, and when it goes through. -/
namespace Paffs.DataIO
open Bytes (Byte Memory)
variable {c : Config} {env : Env}

namespace State
variable {s s₀ s' s'' : State} {data : Memory}

/-! ### Other files -/

/-- Pages of other files stay as they are, and none of them is taken. -/
structure Apart (s s' : State) : Prop where
  other : ∀ a, a ≠ 0 → s.used a = true → (∀ p, s.page p ≠ a) → s'.used a = true ∧ s'.flash a = s.flash a
  fresh : ∀ p, s'.page p ≠ 0 → s.used (s'.page p) = false ∨ ∃ q, s'.page p = s.page q

theorem Apart.trans (h : Apart s s') (h' : Apart s' s'') : Apart s s'' where
  other a ha hused hpage := by
    obtain ⟨hused', hflash⟩ := h.other a ha hused hpage
    have hpage' : ∀ p, s'.page p ≠ a := by
      rintro p rfl
      rcases h.fresh p ha with hfree | ⟨q, hq⟩
      · rw [hused] at hfree
        cases hfree
      · exact hpage q hq.symm
    obtain ⟨hused'', hflash'⟩ := h'.other a ha hused' hpage'
    exact ⟨hused'', hflash'.trans hflash⟩
  fresh p hp := by
    rcases h'.fresh p hp with hfree | ⟨q, hq⟩
    · by_cases hown : ∃ q, s''.page p = s.page q
      · exact .inr hown
      · refine .inl ?_
        by_contra hused
        rw [(h.other _ hp (by simpa using hused) fun q hq => hown ⟨q, hq.symm⟩).1] at hfree
        cases hfree
    · rw [hq] at hp ⊢
      exact h.fresh q hp

theorem Apart.tick (h : Apart s s') : Apart s s'.tick := ⟨h.other, h.fresh⟩

/-- Only old pages of the file itself are given back. -/
theorem invalidateOldPages_used {a : Addr} (hused : s.used a = true) (hnotOld : ∀ r ∈ s.replaced, r.2 ≠ a) :
    s.invalidateOldPages.used a = true := by
  simp only [invalidateOldPages, hused, Bool.true_and, Bool.not_eq_true', List.any_eq_false]
  intro r hr
  simp [hnotOld r hr]

theorem writeInodeData_apart (hs : s.Sound c env) {offs bytes : Nat} (hgap : s.NoGap c offs) (hbytes : offs + bytes < 2 ^ 32)
    (hpages : lastPage c (offs + bytes) < offs / c.dataBytesPerPage + c.maxPagesPerWrite)
    (hok : (s.writeInodeData c env offs bytes data).1.1 = .ok) : Apart s (s.writeInodeData c env offs bytes data).2 := by
  obtain ⟨s₁, page, -, -, hprogress, hstate⟩ := writeInodeData_progress hs hgap hbytes hpages hok
  rw [hstate]
  constructor
  · intro a ha hused hpage
    obtain ⟨hused', hflash⟩ := hprogress.kept a hused
    refine ⟨invalidateOldPages_used hused' fun r hr heq => ?_, hflash⟩
    obtain ⟨p, -, -, hold⟩ := hprogress.replaced r hr
    exact hpage p (hold.symm.trans heq)
  · intro p _
    by_cases hin : offs / c.dataBytesPerPage ≤ p ∧ p < offs / c.dataBytesPerPage + page
    · exact .inl (hprogress.fresh p hin.1 hin.2).2.1
    · exact .inr ⟨p, hprogress.other p hin⟩

theorem Shrinking.apart {deleted : List PageNo} (h : Shrinking c s s' deleted) (offs : Nat) :
    Apart s ({ s' with size := offs } : State).invalidateOldPages where
  other a _ hused hpage := by
    refine ⟨invalidateOldPages_used ?_ fun r hr heq => ?_, congrFun h.flash a⟩
    · exact (congrFun h.used a).trans hused
    · obtain ⟨p, -, hold⟩ := h.replaced r hr
      exact hpage p (hold.symm.trans heq)
  fresh p hp := by
    change s'.page p ≠ 0 at hp
    have hpage := h.page_eq p
    split_ifs at hpage with hin
    · exact absurd hpage hp
    · exact .inr ⟨p, hpage⟩

theorem deleteInodeData_apart (hs : s.Sound c env) {offs : Nat} (hok : (s.deleteInodeData c env offs).1 = .ok) :
    Apart s (s.deleteInodeData c env offs).2 := by
  have hsame : Apart s s := ⟨fun _ _ hused _ => ⟨hused, rfl⟩, fun p _ => .inr ⟨p, rfl⟩⟩
  by_cases hoffs : offs < s.size
  · obtain ⟨s', hdone, -, hstate⟩ := deleteInodeData_shrinking hs.replaced hoffs hok
    rw [hstate]
    exact hdone.apart offs
  unfold deleteInodeData
  by_cases heq : s.size = offs
  · rwa [if_pos heq]
  · rwa [if_neg heq, if_pos (by omega)]

/-! ### When an operation goes through -/

/-- The pages below `n` that are free. -/
def freePages (s : State) (n : Nat) : Finset Addr := (Finset.range n).filter fun a => a ≠ 0 ∧ s.used a = false

/-- Nothing fails, and a free page is found as long as there is one. -/
structure Healthy (c : Config) (env : Env) (n : Nat) : Prop where
  outcome : ∀ k, env.outcome k = .ok
  findFreePage : ∀ k used, (∃ a < n, a ≠ 0 ∧ used a = false) → ∃ b, env.findFreePage k used = .ok b
  addressable : c.maxPagesPerWrite ≤ env.addressable

variable {n : Nat}

theorem writePage_total (hh : Healthy c env n) {pageFrom page offs bytes filesize bytesWritten : Nat}
    (hfree : (s.freePages n).Nonempty) (hpage : page + pageFrom < env.addressable) :
    (s.writePage c env pageFrom page offs bytes filesize bytesWritten data).1.1 = .ok := by
  obtain ⟨a, ha⟩ := hfree
  obtain ⟨hlt, hne, hused⟩ := Finset.mem_filter.mp ha
  obtain ⟨b, hfind⟩ := hh.findFreePage s.clock s.used ⟨a, Finset.mem_range.mp hlt, hne, hused⟩
  unfold writePage
  rw [hfind]
  dsimp only
  rw [if_neg (Nat.not_le.mpr hpage)]
  have hclock := hh.outcome (s.replacePage c b (s.page (page + pageFrom))).2.clock
  rw [hclock]
  exact hh.outcome _

/-- A page that is written takes one free page. -/
theorem card_freePages_writePage {pageFrom page offs bytes filesize bytesWritten : Nat}
    (hok : (s.writePage c env pageFrom page offs bytes filesize bytesWritten data).1.1 = .ok) :
    (s.freePages n).card ≤ ((s.writePage c env pageFrom page offs bytes filesize bytesWritten data).2.freePages n).card + 1 := by
  obtain ⟨newAddress, hne, -, -, -, hstate⟩ := writePage_ok hok
  have hsubset : (s.freePages n).erase newAddress ⊆
      (s.writePage c env pageFrom page offs bytes filesize bytesWritten data).2.freePages n := by
    intro a ha
    obtain ⟨hnew, ha⟩ := Finset.mem_erase.mp ha
    obtain ⟨hlt, hzero, hused⟩ := Finset.mem_filter.mp ha
    refine Finset.mem_filter.mpr ⟨hlt, hzero, ?_⟩
    rw [hstate]
    change (s.replacePage c newAddress (s.page (page + pageFrom))).2.used a = false
    unfold replacePage
    split
    · exact hused
    · dsimp only
      rw [Function.update_of_ne hnew]
      exact hused
  have hcard := Finset.card_le_card hsubset
  have herase := Finset.pred_card_le_card_erase (s := s.freePages n) (a := newAddress)
  omega

theorem writePageData_total (hh : Healthy c env n) {pageFrom bytes filesize : Nat} (k : Nat) {page offs bytesWritten : Nat}
    (hfree : k ≤ (s.freePages n).card) (hpage : page + pageFrom + k ≤ env.addressable) :
    (writePageData c env pageFrom bytes filesize data k page offs bytesWritten s).1.1 = .ok := by
  induction k generalizing page offs bytesWritten s with
  | zero => rfl
  | succ k ih =>
    have hround : (s.writePage c env pageFrom page offs bytes filesize bytesWritten data).1.1 = .ok :=
      writePage_total hh (Finset.card_pos.mp (by omega)) (by omega)
    have hcard := card_freePages_writePage (n := n) hround
    rw [writePageData]
    generalize s.writePage c env pageFrom page offs bytes filesize bytesWritten data = r at hround hcard
    obtain ⟨⟨r, bytesWritten'⟩, s'⟩ := r
    dsimp only at hround hcard
    subst hround
    exact ih (by omega) (by omega)

theorem writeInodeData_total (hh : Healthy c env n) {offs bytes : Nat} (hpositive : 0 < offs + bytes)
    (hbytes : offs + bytes < 2 ^ 32) (hbounded : pagesBehind c offs (offs + bytes) < c.maxPagesPerWrite)
    (hpages : lastPage c (offs + bytes) < c.maxPagesPerWrite) (hfree : c.maxPagesPerWrite ≤ (s.freePages n).card) :
    (s.writeInodeData c env offs bytes data).1.1 = .ok := by
  have haddressable := hh.addressable
  have hcount := pagesBehind_eq hbytes hpositive (Nat.not_lt.mpr hbounded.le)
  rw [writeInodeData_eq hbytes hpositive.ne' (Nat.not_lt.mpr hbounded.le)]
  have hloop : (writePageData c env (offs / c.dataBytesPerPage) bytes s.size data (pagesBehind c offs (offs + bytes) + 1) 0
      (offs % c.dataBytesPerPage) 0 s).1.1 = .ok := writePageData_total hh _ (by omega) (by omega)
  generalize writePageData c env (offs / c.dataBytesPerPage) bytes s.size data (pagesBehind c offs (offs + bytes) + 1) 0
    (offs % c.dataBytesPerPage) 0 s = r at hloop
  obtain ⟨⟨r, bytesWritten⟩, s'⟩ := r
  dsimp only at hloop
  subst hloop
  unfold finishWrite
  dsimp only
  rw [hh.outcome]

theorem deletePage_total (hh : Healthy c env n) {page : PageNo} (hpage : page < env.addressable)
    (hused : s.page page ≠ 0 → s.used (s.page page) = true) : (s.deletePage c env page).1 = .ok := by
  unfold deletePage
  rw [if_neg (Nat.not_le.mpr hpage)]
  by_cases hzero : s.page page = 0
  · rw [if_pos hzero]
  · rw [if_neg hzero, hused hzero, if_neg (by decide)]
    dsimp only
    rw [hh.outcome]

theorem deletePages_total (hh : Healthy c env n) (pages : List PageNo) (hpages : ∀ p ∈ pages, @LT.lt Nat _ p env.addressable)
    (hused : ∀ p, s.page p ≠ 0 → s.used (s.page p) = true) : (deletePages c env pages s).1 = .ok := by
  induction pages generalizing s with
  | nil => rfl
  | cons page pages ih =>
    have hok : (s.deletePage c env page).1 = .ok := deletePage_total hh (hpages page List.mem_cons_self) (hused page)
    have hnext := @deletePage_kept c env s page
    rw [deletePages]
    generalize s.deletePage c env page = r at hok hnext
    obtain ⟨r, s'⟩ := r
    dsimp only at hok
    subst hok
    refine ih (fun p hp => hpages p (List.mem_cons_of_mem _ hp)) fun p hp => ?_
    rcases hnext.2 p with hpage | hpage
    · exact absurd hpage hp
    · rw [hnext.1, hpage]
      exact hused p (by rwa [← hpage])

theorem deleteInodeData_total (hh : Healthy c env n) (hused : ∀ p, s.page p ≠ 0 → s.used (s.page p) = true)
    (haddressable : s.size ≤ env.addressable * c.dataBytesPerPage) {offs : Nat} (hoffs : offs ≤ s.size) :
    (s.deleteInodeData c env offs).1 = .ok := by
  rcases hoffs.eq_or_lt with rfl | hlt
  · unfold deleteInodeData
    rw [if_pos rfl]
  have hall := @deletePages_total c env s n hh (s.tailPages c offs) (fun p hp => ?_) hused
  · rw [deleteInodeData_eq hlt]
    generalize deletePages c env (s.tailPages c offs) s = r at hall
    obtain ⟨r, s'⟩ := r
    dsimp only at hall
    subst hall
    rfl
  · have hend := ((mem_tailPages hlt).mp hp).2.2
    exact Nat.lt_of_mul_lt_mul_right (hend.trans_le haddressable)

end State
end Paffs.DataIO
