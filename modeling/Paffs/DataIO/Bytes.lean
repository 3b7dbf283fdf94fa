import Paffs.DataIO.Write

/-! A file is an array of bytes. -/
namespace Paffs.DataIO
open Bytes (Byte Memory)
variable {c : Config} {env : Env}

namespace State
variable {s s₀ s' : State} {data : Memory}

/-- The loop of a write: all rounds go through, and together they write all bytes. -/
theorem writePageData_ok {offs bytes pageFrom : Nat} (hs : s₀.Sound c env) (hgap : s₀.NoGap c offs)
    (hbytes : offs + bytes < 2 ^ 32) (hpositive : 0 < offs + bytes) (k : Nat) {page offsInPage bytesWritten : Nat} {s : State}
    (hprogress : Progress c env s₀ s pageFrom page (max s₀.size (offs + bytes))
      (overwrite (s₀.byteAt c) s₀.size offs bytes data))
    (hk : pageFrom + page + k = lastPage c (offs + bytes) + 1) (hmax : page + k ≤ c.maxPagesPerWrite)
    (hall : k = 0 → bytesWritten = bytes)
    (hpos : 0 < k → bytesWritten + offs = (pageFrom + page) * c.dataBytesPerPage + offsInPage)
    (hoffs : offsInPage < c.dataBytesPerPage) (hwritten : bytesWritten ≤ bytes) (hfirst : offsInPage = 0 ∨ bytesWritten = 0)
    (hok : (writePageData c env pageFrom bytes s₀.size data k page offsInPage bytesWritten s).1.1 = .ok) :
    (writePageData c env pageFrom bytes s₀.size data k page offsInPage bytesWritten s).1.2 = bytes ∧
      Progress c env s₀ (writePageData c env pageFrom bytes s₀.size data k page offsInPage bytesWritten s).2 pageFrom
        (page + k) (max s₀.size (offs + bytes)) (overwrite (s₀.byteAt c) s₀.size offs bytes data) := by
  induction k generalizing page offsInPage bytesWritten s with
  | zero => exact ⟨hall rfl, hprogress⟩
  | succ k ih =>
    rw [writePageData] at hok ⊢
    have hpos := hpos (Nat.succ_pos k)
    cases hround : s.writePage c env pageFrom page offsInPage bytes s₀.size bytesWritten data with
    | mk r s' =>
    obtain ⟨r, bytesWritten'⟩ := r
    rw [hround] at hok
    by_cases hr : r = .ok
    · subst hr
      obtain ⟨newAddress, hne, hfree, haddressable, hcount, hstate⟩ :=
        writePage_ok (h := (congrArg (fun x => x.1.1) hround : (s.writePage c env pageFrom page offsInPage bytes s₀.size
          bytesWritten data).1.1 = .ok))
      rw [hround] at hcount hstate
      dsimp only at hok hcount hstate ⊢
      have hold : s.page (page + pageFrom) = s₀.page (page + pageFrom) :=
        hprogress.other _ fun h => absurd h.2 (by rw [Nat.add_comm]; exact Nat.lt_irrefl _)
      have hnext : Progress c env s₀ s' pageFrom (page + 1) (max s₀.size (offs + bytes))
          (overwrite (s₀.byteAt c) s₀.size offs bytes data) := by
        rw [hstate]
        refine hprogress.store hne hfree haddressable (by omega) fun j hj hend => ?_
        rw [hold]
        exact pageContent_target hs hgap hbytes hprogress.kept hpos hoffs hwritten hfirst hj hend
      have hbtw : bytesToWrite c offsInPage bytes bytesWritten =
          if bytes - bytesWritten + offsInPage > c.dataBytesPerPage then c.dataBytesPerPage - offsInPage
          else bytes - bytesWritten := by
        unfold bytesToWrite
        rw [Nat.mod_eq_of_lt (by omega)]
      obtain ⟨hlast, hlast'⟩ := lastPage_spec (c := c) hpositive
      rw [Nat.succ_mul] at hlast'
      have hdone := ih hnext (by omega) (by omega) ?_ ?_ c.page_pos ?_ (.inl rfl) hok
      · rwa [Nat.add_right_comm, Nat.add_assoc] at hdone
      · -- the last page takes the rest
        intro hk₀
        have hpage : pageFrom + page = lastPage c (offs + bytes) := by omega
        rw [hpage] at hpos
        split_ifs at hbtw <;> omega
      · intro hk₀
        have hle : (pageFrom + page + 1) * c.dataBytesPerPage ≤ lastPage c (offs + bytes) * c.dataBytesPerPage :=
          Nat.mul_le_mul_right _ (by omega)
        rw [← Nat.add_assoc, Nat.succ_mul]
        rw [Nat.succ_mul] at hle
        split_ifs at hbtw <;> omega
      · split_ifs at hbtw <;> omega
    · exfalso
      cases r <;> first | exact hr rfl | cases hok

/-- The old pages are no longer in use when the file has the new ones. -/
theorem Progress.sound {pageFrom page end_ : Nat} {target : Memory} (hs : s₀.Sound c env)
    (h : Progress c env s₀ s pageFrom page end_ target) (hsize : s₀.size ≤ end_) (hlt : end_ < 2 ^ 32)
    (hbeyond : ∀ p, pageFrom ≤ p → p < pageFrom + page → p * c.dataBytesPerPage < end_)
    (hend : end_ ≤ env.addressable * c.dataBytesPerPage) :
    ({ s with size := end_ } : State).tick.invalidateOldPages.Sound c env where
  used p hp := by
    have hnotOld : ∀ r ∈ s.replaced, r.2 ≠ s.page p := by
      rintro r hr heq
      obtain ⟨q, hq, hq', hold⟩ := h.replaced r hr
      rw [heq] at hold
      by_cases hin : pageFrom ≤ p ∧ p < pageFrom + page
      · obtain ⟨hne, hfresh, -⟩ := h.fresh p hin.1 hin.2
        rw [hold] at hne hfresh
        rw [hs.used q hne] at hfresh
        cases hfresh
      · rw [h.other p hin] at hold
        have hp₀ : s₀.page p ≠ 0 := by rw [← h.other p hin]; exact hp
        exact hin ((hs.injective p q hp₀ hold).symm ▸ ⟨hq, hq'⟩)
    have hused := h.used p hp
    simp only [invalidateOldPages, tick, hused, Bool.true_and, Bool.not_eq_true', List.any_eq_false]
    intro r hr
    simp [hnotOld r hr]
  injective := h.injective
  beyond p hp := by
    by_cases hin : pageFrom ≤ p ∧ p < pageFrom + page
    · exact hbeyond p hin.1 hin.2
    · have hp₀ : s₀.page p ≠ 0 := by rw [← h.other p hin]; exact hp
      exact (hs.beyond p hp₀).trans_le hsize
  size_lt := hlt
  addressable := hend
  replaced := rfl

/-- The file has the bytes it should have. -/
theorem Progress.byteAt_eq {pageFrom offs bytes : Nat} (hs : s₀.Sound c env) (hgap : s₀.NoGap c offs)
    (hfrom : pageFrom = offs / c.dataBytesPerPage) (hpositive : 0 < offs + bytes) {page : Nat}
    (hpage : pageFrom + page = lastPage c (offs + bytes) + 1)
    (h : Progress c env s₀ s pageFrom page (max s₀.size (offs + bytes)) (overwrite (s₀.byteAt c) s₀.size offs bytes data))
    {i : Nat} (hi : i < max s₀.size (offs + bytes)) :
    s.byteAt c i = overwrite (s₀.byteAt c) s₀.size offs bytes data i := by
  obtain ⟨-, hlast⟩ := lastPage_spec (c := c) hpositive
  have hsplit : i / c.dataBytesPerPage * c.dataBytesPerPage + i % c.dataBytesPerPage = i := by
    rw [Nat.mul_comm]
    exact Nat.div_add_mod ..
  have hmod := Nat.mod_lt i c.page_pos
  by_cases hin : pageFrom ≤ i / c.dataBytesPerPage ∧ i / c.dataBytesPerPage < pageFrom + page
  · have hdone := h.done _ hin.1 hin.2 _ hmod (by rwa [hsplit])
    rw [hsplit] at hdone
    rw [byteAt, readPage, if_neg (h.fresh _ hin.1 hin.2).1, hdone]
  · -- pages that were not written
    have hout : ¬ (offs ≤ i ∧ i < offs + bytes) := by
      rintro ⟨hle, hlt⟩
      refine hin ⟨hfrom ▸ Nat.div_le_div_right hle, ?_⟩
      rw [hpage]
      exact Nat.div_lt_of_lt_mul (by rw [Nat.mul_comm]; omega)
    have hsame : s.byteAt c i = s₀.byteAt c i := by
      rw [byteAt, byteAt, readPage, readPage, h.other _ hin]
      split_ifs with hzero
      · rfl
      · rw [(h.kept _ (hs.used _ hzero)).2]
    rw [hsame, overwrite, if_neg hout]
    split_ifs with hsize
    · rfl
    · have hlt := (lt_max_iff.mp hi).resolve_left hsize
      rw [byteAt, readPage, if_pos (hs.page_eq_zero hgap (Nat.not_lt.mp hsize) (by omega))]

/-- What a write that is not refused comes down to. -/
theorem writeInodeData_eq {offs bytes : Nat} (hbytes : offs + bytes < 2 ^ 32) (hzero : offs + bytes ≠ 0)
    (hpages : ¬ pagesBehind c offs (offs + bytes) > c.maxPagesPerWrite) : s.writeInodeData c env offs bytes data =
      finishWrite env offs (writePageData c env (offs / c.dataBytesPerPage) bytes s.size data
        (pagesBehind c offs (offs + bytes) + 1) 0 (offs % c.dataBytesPerPage) 0 s) := by
  unfold writeInodeData
  rw [Nat.mod_eq_of_lt hbytes]
  exact (if_neg hzero).trans (if_neg hpages)

theorem writeInodeData_accepted {offs bytes : Nat} (hbytes : offs + bytes < 2 ^ 32)
    (hok : (s.writeInodeData c env offs bytes data).1.1 = .ok) :
    offs + bytes ≠ 0 ∧ ¬ pagesBehind c offs (offs + bytes) > c.maxPagesPerWrite := by
  unfold writeInodeData at hok
  rw [Nat.mod_eq_of_lt hbytes] at hok
  constructor
  · intro hzero
    rw [if_pos hzero] at hok
    cases hok
  · intro hpages
    by_cases hzero : offs + bytes = 0
    · rw [if_pos hzero] at hok
      cases hok
    · rw [if_neg hzero, if_pos hpages] at hok
      cases hok

theorem pagesBehind_eq {offs bytes : Nat} (hbytes : offs + bytes < 2 ^ 32) (hpositive : 0 < offs + bytes)
    (hpages : ¬ pagesBehind c offs (offs + bytes) > c.maxPagesPerWrite) :
    offs / c.dataBytesPerPage + pagesBehind c offs (offs + bytes) = lastPage c (offs + bytes) := by
  have hmax := c.max_lt
  obtain ⟨hlast, hlast'⟩ := lastPage_spec (c := c) hpositive
  have hfrom := Nat.div_mul_le_self offs c.dataBytesPerPage
  have hfrom' : offs / c.dataBytesPerPage ≤ lastPage c (offs + bytes) + 1 :=
    Nat.le_of_mul_le_mul_right ((hfrom.trans (Nat.le_add_right _ _)).trans hlast') c.page_pos
  have hlast_lt : lastPage c (offs + bytes) < 2 ^ 32 :=
    lt_of_le_of_lt (Nat.le_mul_of_pos_right _ c.page_pos) (hlast.trans hbytes)
  unfold pagesBehind at hpages ⊢
  generalize offs / c.dataBytesPerPage = pageFrom at hfrom' hpages ⊢
  omega

/-- A write that goes through has written all its pages. -/
theorem writeInodeData_progress (hs : s.Sound c env) {offs bytes : Nat} (hgap : s.NoGap c offs) (hbytes : offs + bytes < 2 ^ 32)
    (hpages : lastPage c (offs + bytes) < offs / c.dataBytesPerPage + c.maxPagesPerWrite)
    (hok : (s.writeInodeData c env offs bytes data).1.1 = .ok) : ∃ s₁ page,
      0 < page ∧ offs / c.dataBytesPerPage + page = lastPage c (offs + bytes) + 1 ∧
      Progress c env s s₁ (offs / c.dataBytesPerPage) page (max s.size (offs + bytes))
        (overwrite (s.byteAt c) s.size offs bytes data) ∧
      (s.writeInodeData c env offs bytes data).2 =
        ({ s₁ with size := max s.size (offs + bytes) } : State).tick.invalidateOldPages := by
  obtain ⟨hzero, haccepted⟩ := writeInodeData_accepted hbytes hok
  have hpositive := Nat.pos_of_ne_zero hzero
  have hcount := pagesBehind_eq hbytes hpositive haccepted
  rw [writeInodeData_eq hbytes hzero haccepted] at hok ⊢
  generalize pagesBehind c offs (offs + bytes) = pages at hok hcount ⊢
  have hloop := writePageData_ok hs hgap hbytes hpositive (pages + 1)
    (hs.progress (offs / c.dataBytesPerPage) (max s.size (offs + bytes)) (overwrite (s.byteAt c) s.size offs bytes data))
    (by omega) (by omega) (fun h => absurd h (Nat.succ_ne_zero _))
    (fun _ => by rw [Nat.zero_add, Nat.add_zero, Nat.mul_comm]; exact (Nat.div_add_mod ..).symm)
    (Nat.mod_lt offs c.page_pos) (Nat.zero_le _) (.inr rfl)
  generalize writePageData c env (offs / c.dataBytesPerPage) bytes s.size data (pages + 1) 0 (offs % c.dataBytesPerPage) 0 s =
    r at hok hloop ⊢
  obtain ⟨⟨r, bytesWritten⟩, s'⟩ := r
  unfold finishWrite at hok ⊢
  split at hok
  · rename_i bytesWritten s' heq
    cases heq
    obtain ⟨hall, hprogress⟩ := hloop rfl
    dsimp only at hall hok hprogress ⊢
    subst hall
    rw [Nat.zero_add] at hprogress
    have hsize : max s'.size ((bytesWritten + offs) % 2 ^ 32) = max s.size (offs + bytesWritten) := by
      rw [hprogress.size_eq, Nat.add_comm, Nat.mod_eq_of_lt hbytes]
    rw [hsize] at hok ⊢
    refine ⟨s', pages + 1, Nat.succ_pos _, by omega, hprogress, ?_⟩
    split at hok
    · rfl
    · rename_i hfails
      exact absurd hok hfails
  · rename_i hne
    exact (hne bytesWritten s' (Prod.ext (Prod.ext hok rfl) rfl)).elim

/-- A write that goes through, with all its pages on the list of the state machine. -/
theorem writeInodeData_ok (hs : s.Sound c env) {offs bytes : Nat} (hgap : s.NoGap c offs) (hbytes : offs + bytes < 2 ^ 32)
    (hpages : lastPage c (offs + bytes) < offs / c.dataBytesPerPage + c.maxPagesPerWrite)
    (hok : (s.writeInodeData c env offs bytes data).1.1 = .ok) : let s' := (s.writeInodeData c env offs bytes data).2
    s'.Sound c env ∧ s'.size = max s.size (offs + bytes) ∧
      (∀ i < s'.size, s'.byteAt c i = overwrite (s.byteAt c) s.size offs bytes data i) ∧
      (∀ p, offs / c.dataBytesPerPage ≤ p → p ≤ lastPage c (offs + bytes) → s'.page p ≠ 0) := by
  have hpositive := Nat.pos_of_ne_zero (writeInodeData_accepted hbytes hok).1
  obtain ⟨hlast, hlast'⟩ := lastPage_spec (c := c) hpositive
  obtain ⟨s₁, page, hsome, hpage, hprogress, hstate⟩ := writeInodeData_progress hs hgap hbytes hpages hok
  dsimp only
  rw [hstate]
  have hend : offs + bytes ≤ env.addressable * c.dataBytesPerPage := by
    have haddressable := (hprogress.fresh (lastPage c (offs + bytes)) (by omega) (by omega)).2.2
    exact hlast'.trans (Nat.mul_le_mul_right _ haddressable)
  have hsound := Progress.sound hs hprogress (Nat.le_max_left ..) (max_lt hs.size_lt hbytes) (fun p _ hp =>
    lt_of_le_of_lt (Nat.mul_le_mul_right _ (Nat.le_of_lt_succ (show p < lastPage c (offs + bytes) + 1 by omega)))
      (hlast.trans_le (Nat.le_max_right ..))) (max_le hs.addressable hend)
  refine ⟨hsound, rfl, fun i hi => ?_, fun p hp hp' => ?_⟩
  · exact hprogress.byteAt_eq hs hgap rfl hpositive hpage hi
  · exact (hprogress.fresh p hp (show p < offs / c.dataBytesPerPage + page by omega)).1

/-! ### Reading -/

theorem readPage_read (s : State) (page : PageNo) {offs n : Nat} (h : offs + n ≤ c.dataBytesPerPage) :
    (s.readPage page).read offs n = Memory.read (s.byteAt c) (page * c.dataBytesPerPage + offs) n := by
  refine Memory.read_congr fun i hi => ?_
  have hlt : offs + i < c.dataBytesPerPage := by omega
  rw [byteAt, Nat.add_assoc, Nat.mul_comm, Nat.mul_add_div c.page_pos, Nat.mul_add_mod, Nat.div_eq_of_lt hlt,
    Nat.mod_eq_of_lt hlt, Nat.add_zero]

theorem readPageData_eq {offs bytes : Nat} (hpositive : 0 < offs + bytes)
    (haddressable : lastPage c (offs + bytes) < env.addressable) (k : Nat) {page offsInPage : Nat} {data : List Byte}
    (hdata : data = Memory.read (s.byteAt c) offs data.length) (hk : page + k = lastPage c (offs + bytes) + 1)
    (hall : k = 0 → data.length = bytes)
    (hpos : 0 < k → data.length + offs = page * c.dataBytesPerPage + offsInPage) (hoffs : offsInPage < c.dataBytesPerPage)
    (hle : data.length ≤ bytes) (hfirst : offsInPage = 0 ∨ data = []) :
    s.readPageData c env bytes k page offsInPage data = (.ok, Memory.read (s.byteAt c) offs bytes) := by
  induction k generalizing page offsInPage data with
  | zero =>
    rw [readPageData, hdata, hall rfl]
  | succ k ih =>
    have hpos := hpos (Nat.succ_pos k)
    obtain ⟨hlast, hlast'⟩ := lastPage_spec (c := c) hpositive
    rw [Nat.succ_mul] at hlast'
    have hlimit : ¬ page ≥ env.addressable := by omega
    have hlen : offsInPage ≤ min (bytes + offsInPage - data.length) c.dataBytesPerPage := le_min (by omega) hoffs.le
    have hsum : offsInPage + (min (bytes + offsInPage - data.length) c.dataBytesPerPage - offsInPage) ≤ c.dataBytesPerPage := by
      rw [Nat.add_sub_cancel' hlen]
      exact Nat.min_le_right ..
    have hread := s.readPage_read page hsum
    rw [readPageData, if_neg hlimit]
    dsimp only
    rw [hread, ← hpos]
    generalize hn : min (bytes + offsInPage - data.length) c.dataBytesPerPage - offsInPage = n
    have hn' : n = if bytes + offsInPage - data.length ≤ c.dataBytesPerPage then bytes - data.length
        else c.dataBytesPerPage - offsInPage := by
      rw [← hn, min_def]
      split_ifs <;> omega
    apply ih
    · rw [List.length_append, Memory.length_read, Memory.read_append, ← hdata, Nat.add_comm data.length offs]
    · omega
    · intro hk₀
      have hpage : page = lastPage c (offs + bytes) := by omega
      rw [hpage] at hpos
      rw [List.length_append, Memory.length_read]
      split_ifs at hn' <;> omega
    · intro hk₀
      have hnext : (page + 1) * c.dataBytesPerPage ≤ lastPage c (offs + bytes) * c.dataBytesPerPage :=
        Nat.mul_le_mul_right _ (by omega)
      rw [List.length_append, Memory.length_read, Nat.succ_mul]
      rw [Nat.succ_mul] at hnext
      split_ifs at hn' <;> omega
    · exact c.page_pos
    · rw [List.length_append, Memory.length_read]
      split_ifs at hn' <;> omega
    · exact .inl rfl

theorem toPage_eq {end_ : Nat} (hpositive : 0 < end_) (hlt : end_ < 2 ^ 32) : toPage c end_ = lastPage c end_ := by
  unfold toPage lastPage
  split_ifs with hzero
  · have hdiv : 0 < end_ / c.dataBytesPerPage := Nat.div_pos (Nat.le_of_dvd hpositive (Nat.dvd_of_mod_eq_zero hzero)) c.page_pos
    have hle := Nat.div_le_self end_ c.dataBytesPerPage
    generalize end_ / c.dataBytesPerPage = n at hdiv hle ⊢
    omega
  · rfl

/-- Any range inside the file is read as it is, as long as the counter of the loop can count its pages. -/
theorem readInodeData_eq (hs : s.Sound c env) {offs bytes : Nat} (hbytes : 0 < bytes) (hsize : offs + bytes ≤ s.size)
    (hpages : lastPage c (offs + bytes) < offs / c.dataBytesPerPage + (2 ^ 16 - 1)) :
    s.readInodeData c env offs bytes = some (.ok, Memory.read (s.byteAt c) offs bytes) := by
  have hpositive : 0 < offs + bytes := by omega
  have hlt : offs + bytes < 2 ^ 32 := hsize.trans_lt hs.size_lt
  obtain ⟨hlast, hlast'⟩ := lastPage_spec (c := c) hpositive
  have hfrom : offs / c.dataBytesPerPage ≤ lastPage c (offs + bytes) := by
    refine Nat.le_of_lt_succ (Nat.div_lt_of_lt_mul ?_)
    rw [Nat.mul_comm]
    exact lt_of_lt_of_le (Nat.lt_add_of_pos_right hbytes) hlast'
  have hround : lastRound (offs / c.dataBytesPerPage) (lastPage c (offs + bytes)) =
      lastPage c (offs + bytes) - offs / c.dataBytesPerPage := by
    unfold lastRound
    exact Nat.mod_eq_of_lt (by omega)
  have haddressable : lastPage c (offs + bytes) < env.addressable :=
    Nat.lt_of_mul_lt_mul_right (hlast.trans_le (hsize.trans hs.addressable))
  unfold readInodeData
  rw [Nat.mod_eq_of_lt hlt, if_neg hpositive.ne', if_neg (Nat.not_lt.mpr hsize)]
  dsimp only
  rw [Nat.mod_eq_of_lt hlt, toPage_eq hpositive hlt, if_neg (Nat.not_lt.mpr hfrom), hround, if_neg fun h => by omega]
  rw [readPageData_eq hpositive haddressable]
  · rfl
  · omega
  · exact fun h => absurd h (Nat.succ_ne_zero _)
  · intro _
    rw [List.length_nil, Nat.zero_add, Nat.mul_comm]
    exact (Nat.div_add_mod ..).symm
  · exact Nat.mod_lt offs c.page_pos
  · exact Nat.zero_le _
  · exact .inr rfl

end State
end Paffs.DataIO
