import Paffs.DataIO.File

/-! What a write leaves in the pages of a file. -/
namespace Paffs.DataIO
open Bytes (Byte Memory)
variable {c : Config} {env : Env}

namespace State
variable {s s₀ s' : State} {data : Memory}

/-! ### One page -/

theorem replacePage_frame (s : State) (neu old : Addr) : let s' := (s.replacePage c neu old).2
    s'.size = s.size ∧ s'.reservedPages = s.reservedPages ∧ s'.page = s.page ∧ s'.flash = s.flash := by
  unfold replacePage
  split
  · exact ⟨rfl, rfl, rfl, rfl⟩
  · exact ⟨rfl, rfl, rfl, rfl⟩

theorem pageContent_congr (h : s'.flash = s.flash) (pageFrom page offs bytes filesize bytesWritten : Nat) (data : Memory)
    (oldAddr : Addr) : s'.pageContent c pageFrom page offs bytes filesize bytesWritten data oldAddr =
      s.pageContent c pageFrom page offs bytes filesize bytesWritten data oldAddr := by
  unfold pageContent pageBuffer
  rw [h]

/-- What a round that goes through does: it takes a free page and puts the content there. -/
theorem writePage_ok {pageFrom page offs bytes filesize bytesWritten : Nat}
    (h : (s.writePage c env pageFrom page offs bytes filesize bytesWritten data).1.1 = .ok) :
    ∃ newAddress, newAddress ≠ 0 ∧ s.used newAddress = false ∧ page + pageFrom < env.addressable ∧
      let oldAddr := s.page (page + pageFrom)
      (s.writePage c env pageFrom page offs bytes filesize bytesWritten data).1.2 =
          bytesWritten + bytesToWrite c offs bytes bytesWritten ∧
        (s.writePage c env pageFrom page offs bytes filesize bytesWritten data).2 =
          ((s.replacePage c newAddress oldAddr).2.storePage (page + pageFrom) newAddress
            (s.pageContent c pageFrom page offs bytes filesize bytesWritten data oldAddr)).tick.tick := by
  unfold writePage at h ⊢
  cases hfind : env.findFreePage s.clock s.used with
  | error r =>
    rw [hfind] at h
    exact absurd h (env.failed hfind)
  | ok newAddress =>
    obtain ⟨hne, hfree⟩ := env.free hfind
    obtain ⟨-, -, -, hflash⟩ := s.replacePage_frame (c := c) newAddress (s.page (page + pageFrom))
    rw [hfind] at h
    dsimp only at h ⊢
    by_cases hlimit : page + pageFrom ≥ env.addressable
    · rw [if_pos hlimit] at h
      cases h
    · rw [if_neg hlimit] at h ⊢
      rw [pageContent_congr hflash] at h ⊢
      split at h
      · exact ⟨newAddress, hne, hfree, Nat.not_le.mp hlimit, rfl, rfl⟩
      · rename_i hfails
        exact absurd h hfails

/-! ### What is in a page afterwards -/

section Content
variable {pageFrom page offs bytes filesize bytesWritten j : Nat} {oldAddr : Addr}

theorem le_pageBuffer (s : State) (pageFrom page offs btw filesize : Nat) (oldAddr : Addr) :
    offs + btw ≤ (s.pageBuffer c pageFrom page offs btw filesize oldAddr).2 := by
  unfold pageBuffer
  dsimp only
  split_ifs with hmisaligned
  all_goals first | exact Nat.le_max_right .. | omega

theorem pageContent_data (hj : offs ≤ j ∧ j < offs + bytesToWrite c offs bytes bytesWritten) :
    s.pageContent c pageFrom page offs bytes filesize bytesWritten data oldAddr j = data (bytesWritten + (j - offs)) := by
  have htotal := s.le_pageBuffer (c := c) pageFrom page offs (bytesToWrite c offs bytes bytesWritten) filesize oldAddr
  have hlength := Memory.length_read data bytesWritten (bytesToWrite c offs bytes bytesWritten)
  unfold pageContent written
  rw [if_pos (by omega), Memory.write_of_mem (by rwa [hlength]), List.getD_eq_getElem _ _ (by omega), Memory.getElem_read]

theorem pageContent_buffer (hj : ¬ (offs ≤ j ∧ j < offs + bytesToWrite c offs bytes bytesWritten))
    (htotal : j < (s.pageBuffer c pageFrom page offs (bytesToWrite c offs bytes bytesWritten) filesize oldAddr).2) :
    s.pageContent c pageFrom page offs bytes filesize bytesWritten data oldAddr j =
      (s.pageBuffer c pageFrom page offs (bytesToWrite c offs bytes bytesWritten) filesize oldAddr).1 j := by
  unfold pageContent written
  rw [if_pos htotal, Memory.write_of_not_mem (by rwa [Memory.length_read])]

/-- Bytes of the file that the data does not reach keep their values. -/
theorem pageContent_old (hj : ¬ (offs ≤ j ∧ j < offs + bytesToWrite c offs bytes bytesWritten)) (hlt : j < c.dataBytesPerPage)
    (hsize : (pageFrom + page) * c.dataBytesPerPage + j < filesize) :
    s.pageContent c pageFrom page offs bytes filesize bytesWritten data oldAddr j =
      if oldAddr = 0 then 0 else s.flash oldAddr j := by
  have hpage : page * c.dataBytesPerPage ≤ (pageFrom + page) * c.dataBytesPerPage :=
    Nat.mul_le_mul_right _ (Nat.le_add_left page pageFrom)
  have hmisaligned : offs > 0 ∨ (bytesToWrite c offs bytes bytesWritten + offs < c.dataBytesPerPage ∧
      page * c.dataBytesPerPage + bytesToWrite c offs bytes bytesWritten < filesize) := by omega
  have hread : j < if (pageFrom + 1 + page) * c.dataBytesPerPage % 2 ^ 32 > filesize then
      if filesize > (pageFrom + page) * c.dataBytesPerPage then filesize - (pageFrom + page) * c.dataBytesPerPage else 0
      else c.dataBytesPerPage := by
    split_ifs <;> omega
  rw [pageContent_buffer hj]
  · unfold pageBuffer
    rw [if_pos hmisaligned]
    dsimp only
    split_ifs <;> simp_all
  · unfold pageBuffer
    rw [if_pos hmisaligned]
    exact lt_max_of_lt_left hread

/-- A page that is new is zero before the data. -/
theorem pageContent_hole (hj : j < offs) :
    s.pageContent c pageFrom page offs bytes filesize bytesWritten data 0 j = 0 := by
  have htotal := s.le_pageBuffer (c := c) pageFrom page offs (bytesToWrite c offs bytes bytesWritten) filesize 0
  rw [pageContent_buffer (by omega) (by omega)]
  unfold pageBuffer
  rw [if_pos (.inl (Nat.zero_lt_of_lt hj))]
  rfl

end Content

/-! ### All pages -/

/-- Byte `i` of the file. -/
def byteAt (c : Config) (s : State) (i : Nat) : Byte := s.readPage (i / c.dataBytesPerPage) (i % c.dataBytesPerPage)

/-- The file after `bytes` bytes are put at `offs`. -/
def overwrite (m : Memory) (size offs bytes : Nat) (data : Memory) : Memory := fun i =>
  if offs ≤ i ∧ i < offs + bytes then data (i - offs) else if i < size then m i else 0

/-- The pages of the file that are on flash. -/
def mapped (s : State) : Set PageNo := {p | s.page p ≠ 0}

/-- The inode knows their number, in 16 bits. -/
structure Counted (s : State) : Prop where
  finite : s.mapped.Finite
  eq : s.reservedPages = s.mapped.ncard % 2 ^ 16

/-- The pages of a file are used, each for one page only, and none is behind its end. -/
structure Sound (c : Config) (env : Env) (s : State) : Prop where
  used : ∀ p, s.page p ≠ 0 → s.used (s.page p) = true
  injective : ∀ p q, s.page p ≠ 0 → s.page p = s.page q → p = q
  beyond : ∀ p, s.page p ≠ 0 → p * c.dataBytesPerPage < s.size
  size_lt : s.size < 2 ^ 32
  addressable : s.size ≤ env.addressable * c.dataBytesPerPage
  replaced : s.replaced = []

/-- A write there leaves no gap inside a page that is on flash. -/
def NoGap (c : Config) (s : State) (offs : Nat) : Prop :=
  offs ≤ s.size ∨ s.size % c.dataBytesPerPage = 0 ∨ s.page (s.size / c.dataBytesPerPage) = 0

/-- A file whose pages from `pageFrom` on are written, `page` of them so far. -/
structure Progress (c : Config) (env : Env) (s₀ s : State) (pageFrom page end_ : Nat) (target : Memory) : Prop where
  used : ∀ p, s.page p ≠ 0 → s.used (s.page p) = true
  injective : ∀ p q, s.page p ≠ 0 → s.page p = s.page q → p = q
  size_eq : s.size = s₀.size
  kept : ∀ a, s₀.used a = true → s.used a = true ∧ s.flash a = s₀.flash a
  other : ∀ p, ¬ (pageFrom ≤ p ∧ p < pageFrom + page) → s.page p = s₀.page p
  fresh : ∀ p, pageFrom ≤ p → p < pageFrom + page → s.page p ≠ 0 ∧ s₀.used (s.page p) = false ∧ p < env.addressable
  done : ∀ p, pageFrom ≤ p → p < pageFrom + page → ∀ j < c.dataBytesPerPage, p * c.dataBytesPerPage + j < end_ →
    s.flash (s.page p) j = target (p * c.dataBytesPerPage + j)
  length : s.replaced.length = page
  replaced : ∀ r ∈ s.replaced, ∃ p, pageFrom ≤ p ∧ p < pageFrom + page ∧ r.2 = s₀.page p

theorem Sound.progress (h : s.Sound c env) (pageFrom end_ : Nat) (target : Memory) :
    Progress c env s s pageFrom 0 end_ target where
  used := h.used
  injective := h.injective
  size_eq := rfl
  kept _ hused := ⟨hused, rfl⟩
  other _ _ := rfl
  fresh p _ _ := by omega
  done p _ _ := by omega
  length := by rw [h.replaced]; rfl
  replaced := by simp [h.replaced]

/-- The next page is written to a place that was free. -/
theorem Progress.store {pageFrom page end_ : Nat} {target : Memory} (h : Progress c env s₀ s pageFrom page end_ target)
    {newAddress : Addr} {m : Memory} (hne : newAddress ≠ 0) (hfree : s.used newAddress = false)
    (haddressable : page + pageFrom < env.addressable) (hmax : page < c.maxPagesPerWrite)
    (hm : ∀ j < c.dataBytesPerPage, (pageFrom + page) * c.dataBytesPerPage + j < end_ →
      m j = target ((pageFrom + page) * c.dataBytesPerPage + j)) :
    Progress c env s₀ (((s.replacePage c newAddress (s.page (page + pageFrom))).2.storePage (page + pageFrom) newAddress m).tick.tick)
      pageFrom (page + 1) end_ target := by
  have hnotFull : s.replaced.length ≠ c.maxPagesPerWrite := by rw [h.length]; exact hmax.ne
  have hfresh : ∀ p, s.page p ≠ newAddress := by
    rintro p rfl
    rw [h.used p hne] at hfree
    cases hfree
  have hfresh₀ : s₀.used newAddress = false := by
    by_contra hused
    rw [(h.kept newAddress (by simpa using hused)).1] at hfree
    cases hfree
  rw [Nat.add_comm page pageFrom] at haddressable ⊢
  rw [replacePage, if_neg hnotFull, if_neg hne]
  constructor
  · intro p hp
    by_cases hpp : p = pageFrom + page
    · subst hpp
      simp [storePage, tick]
    · simp only [storePage, tick, Function.update_of_ne hpp] at hp ⊢
      rw [Function.update_of_ne (hfresh p)]
      exact h.used p hp
  · intro p q hp hpq
    simp only [storePage, tick] at hp hpq
    by_cases hpp : p = pageFrom + page
    · by_cases hqq : q = pageFrom + page
      · rw [hpp, hqq]
      · rw [hpp, Function.update_self, Function.update_of_ne hqq] at hpq
        exact absurd hpq.symm (hfresh q)
    · rw [Function.update_of_ne hpp] at hp hpq
      by_cases hqq : q = pageFrom + page
      · rw [hqq, Function.update_self] at hpq
        exact absurd hpq (hfresh p)
      · rw [Function.update_of_ne hqq] at hpq
        exact h.injective p q hp hpq
  · exact h.size_eq
  · intro a ha
    have hne' : a ≠ newAddress := by
      rintro rfl
      rw [hfresh₀] at ha
      cases ha
    simp only [storePage, tick, Function.update_of_ne hne']
    exact h.kept a ha
  · intro p hp
    have hpp : p ≠ pageFrom + page := by
      rintro rfl
      exact hp ⟨Nat.le_add_right .., Nat.lt_succ_self _⟩
    simp only [storePage, tick]
    rw [Function.update_of_ne hpp]
    exact h.other p fun hlt => hp ⟨hlt.1, Nat.lt_succ_of_lt hlt.2⟩
  · intro p hp hp'
    simp only [storePage, tick]
    by_cases hpp : p = pageFrom + page
    · subst hpp
      rw [Function.update_self]
      exact ⟨hne, hfresh₀, haddressable⟩
    · rw [Function.update_of_ne hpp]
      exact h.fresh p hp (lt_of_le_of_ne (Nat.le_of_lt_succ hp') hpp)
  · intro p hp hp' j hj hend
    simp only [storePage, tick]
    by_cases hpp : p = pageFrom + page
    · subst hpp
      rw [Function.update_self, Function.update_self]
      exact hm j hj hend
    · rw [Function.update_of_ne hpp, Function.update_of_ne (hfresh p)]
      exact h.done p hp (lt_of_le_of_ne (Nat.le_of_lt_succ hp') hpp) j hj hend
  · simp only [storePage, tick, List.length_append, List.length_singleton, h.length]
  · intro r hr
    simp only [storePage, tick, List.mem_append, List.mem_singleton] at hr
    rcases hr with hr | rfl
    · obtain ⟨p, hp, hp', heq⟩ := h.replaced r hr
      exact ⟨p, hp, by omega, heq⟩
    · exact ⟨pageFrom + page, by omega, by omega, h.other _ (by omega)⟩

theorem lastPage_spec {end_ : Nat} (h : 0 < end_) :
    lastPage c end_ * c.dataBytesPerPage < end_ ∧ end_ ≤ (lastPage c end_ + 1) * c.dataBytesPerPage := by
  have hdiv := Nat.div_add_mod end_ c.dataBytesPerPage
  have hmod := Nat.mod_lt end_ c.page_pos
  rw [Nat.mul_comm] at hdiv
  unfold lastPage
  split_ifs with hzero
  · have hpos : 0 < end_ / c.dataBytesPerPage := by
      by_contra hnot
      rw [Nat.eq_zero_of_not_pos hnot, Nat.zero_mul] at hdiv
      omega
    obtain ⟨n, hn⟩ := Nat.exists_eq_add_of_lt hpos
    rw [hn] at hdiv ⊢
    rw [Nat.succ_mul] at hdiv
    have := c.page_pos
    simp only [Nat.zero_add, Nat.add_sub_cancel] at hdiv ⊢
    rw [Nat.succ_mul]
    omega
  · rw [Nat.succ_mul]
    omega

/-- The pages of a gap are new. -/
theorem Sound.page_eq_zero (hs : s.Sound c env) {offs i : Nat} (hgap : s.NoGap c offs) (hsize : s.size ≤ i) (hlt : i < offs) :
    s.page (i / c.dataBytesPerPage) = 0 := by
  by_contra hold
  have hbeyond := hs.beyond _ hold
  have hsplit := Nat.div_add_mod i c.dataBytesPerPage
  have hmod := Nat.mod_lt i c.page_pos
  rw [Nat.mul_comm] at hsplit
  rcases hgap with hle | hfull | hhole
  · omega
  · obtain ⟨n, hn⟩ := Nat.dvd_of_mod_eq_zero hfull
    rw [hn, Nat.mul_comm c.dataBytesPerPage] at hbeyond hsize
    have hle := Nat.mul_le_mul_right c.dataBytesPerPage (Nat.succ_le_of_lt (Nat.lt_of_mul_lt_mul_right hbeyond))
    rw [Nat.succ_mul] at hle
    omega
  · have heq : s.size / c.dataBytesPerPage = i / c.dataBytesPerPage := by
      refine Nat.div_eq_of_lt_le (Nat.le_of_lt hbeyond) ?_
      rw [Nat.succ_mul]
      omega
    rw [heq] at hhole
    exact hold hhole

/-- What the round has to write: the data, what the file held, zero in a gap. -/
theorem pageContent_target {offs bytes pageFrom page offsInPage bytesWritten j : Nat} (hs : s₀.Sound c env)
    (hgap : s₀.NoGap c offs) (hbytes : offs + bytes < 2 ^ 32)
    (hprogress : ∀ a, s₀.used a = true → s.used a = true ∧ s.flash a = s₀.flash a)
    (hpos : bytesWritten + offs = (pageFrom + page) * c.dataBytesPerPage + offsInPage) (hoffs : offsInPage < c.dataBytesPerPage)
    (hwritten : bytesWritten ≤ bytes) (hfirst : offsInPage = 0 ∨ bytesWritten = 0) (hj : j < c.dataBytesPerPage)
    (hend : (pageFrom + page) * c.dataBytesPerPage + j < max s₀.size (offs + bytes)) :
    s.pageContent c pageFrom page offsInPage bytes s₀.size bytesWritten data (s₀.page (page + pageFrom)) j =
      overwrite (s₀.byteAt c) s₀.size offs bytes data ((pageFrom + page) * c.dataBytesPerPage + j) := by
  have hdiv : ((pageFrom + page) * c.dataBytesPerPage + j) / c.dataBytesPerPage = pageFrom + page := by
    rw [Nat.mul_comm, Nat.mul_add_div c.page_pos, Nat.div_eq_of_lt hj, Nat.add_zero]
  have hmod : ((pageFrom + page) * c.dataBytesPerPage + j) % c.dataBytesPerPage = j := by
    rw [Nat.mul_comm, Nat.mul_add_mod, Nat.mod_eq_of_lt hj]
  have hbtw : bytesToWrite c offsInPage bytes bytesWritten =
      if bytes - bytesWritten + offsInPage > c.dataBytesPerPage then c.dataBytesPerPage - offsInPage else bytes - bytesWritten := by
    unfold bytesToWrite
    rw [Nat.mod_eq_of_lt (by omega)]
  have hsum := Nat.add_comm page pageFrom
  rw [hsum]
  by_cases hdata : offsInPage ≤ j ∧ j < offsInPage + bytesToWrite c offsInPage bytes bytesWritten
  · have hin : offs ≤ (pageFrom + page) * c.dataBytesPerPage + j ∧
        (pageFrom + page) * c.dataBytesPerPage + j < offs + bytes := by
      split_ifs at hbtw <;> omega
    rw [pageContent_data hdata, overwrite, if_pos hin]
    congr 1
    omega
  · have hout : ¬ (offs ≤ (pageFrom + page) * c.dataBytesPerPage + j ∧
        (pageFrom + page) * c.dataBytesPerPage + j < offs + bytes) := by
      split_ifs at hbtw <;> omega
    rw [overwrite, if_neg hout]
    by_cases hsize : (pageFrom + page) * c.dataBytesPerPage + j < s₀.size
    · rw [if_pos hsize, pageContent_old hdata hj hsize, byteAt, hdiv, hmod, readPage]
      split_ifs with hzero
      · rfl
      · rw [(hprogress _ (hs.used _ hzero)).2]
    · -- a gap: the page is new, and the data starts in it
      have hlt := (lt_max_iff.mp hend).resolve_left hsize
      clear hend
      have hbefore : j < offsInPage := by
        split_ifs at hbtw <;> omega
      have hnew := hs.page_eq_zero hgap (Nat.not_lt.mp hsize) (show _ < offs by omega)
      rw [hdiv] at hnew
      rw [if_neg hsize, hnew, pageContent_hole hbefore]

end State
end Paffs.DataIO
