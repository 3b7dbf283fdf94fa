import Paffs.Superblock.Chain

/-! Which pages the super chain is looked for on, and that what was written last is found there. -/
namespace Paffs.Superblock
open Bytes (Memory Word)

variable {g : Geometry} {d : Driver} {flash flash' : Flash} {area block : Nat} {logPrev next : AreaPos}

/-! ### The pages of an area -/

/-- The last page of the area can still be counted in 16 bits. -/
def InRange (g : Geometry) (area : Nat) : Prop := (area + 1) * (g.blocksPerArea * g.pagesPerBlock) ≤ 2 ^ 16

theorem Geometry.pagesPerBlock_pos (g : Geometry) : 0 < g.pagesPerBlock := by
  refine Nat.pos_of_ne_zero fun hzero => ?_
  have hpos := g.total_pos
  rw [hzero, Nat.mul_zero] at hpos
  exact absurd hpos (by decide)

theorem Geometry.blocksPerArea_pos (g : Geometry) : 0 < g.blocksPerArea := by
  refine Nat.pos_of_ne_zero fun hzero => ?_
  have hpos := g.total_pos
  rw [hzero, Nat.zero_mul] at hpos
  exact absurd hpos (by decide)

theorem Geometry.two_le (hinit : g.initializeDevice false = .ok) : 2 ≤ g.blocksPerArea := by
  by_contra hfew
  rw [Geometry.initializeDevice, if_neg Bool.false_ne_true, if_pos (Nat.lt_of_not_le hfew), ite_self] at hinit
  cases hinit

namespace InRange

theorem total_eq (h : InRange g area) : g.totalPagesPerArea = g.blocksPerArea * g.pagesPerBlock := by
  have hpos := g.total_pos
  have hle : g.blocksPerArea * g.pagesPerBlock ≤ 2 ^ 16 := (Nat.le_mul_of_pos_left _ (Nat.succ_pos area)).trans h
  unfold Geometry.totalPagesPerArea
  omega

theorem absolute_lt (h : InRange g area) {page : Nat} (hblock : block < g.blocksPerArea) (hpage : page < g.pagesPerBlock) :
    g.absolute area block page < 2 ^ 16 := by
  have hlast : block * g.pagesPerBlock + g.pagesPerBlock ≤ g.blocksPerArea * g.pagesPerBlock := by
    rw [← Nat.succ_mul]
    exact Nat.mul_le_mul_right _ hblock
  have hrange : area * (g.blocksPerArea * g.pagesPerBlock) + g.blocksPerArea * g.pagesPerBlock ≤ 2 ^ 16 := by
    rw [← Nat.succ_mul]
    exact h
  unfold Geometry.absolute
  rw [h.total_eq]
  omega

/-- The first page of a block, as it is computed. -/
theorem base_eq (h : InRange g area) (block page : Nat) :
    page + g.pagesPerBlock * (area * g.blocksPerArea + block) = g.absolute area block page := by
  unfold Geometry.absolute
  rw [h.total_eq]
  ring

end InRange

/-- With the start of the block in 16 bits, and with it in 32 bits. -/
theorem InRange.page_eq (h : InRange g area) {page : Nat} (hblock : block < g.blocksPerArea) (hpage : page < g.pagesPerBlock) :
    page + g.pagesPerBlock * (area * g.blocksPerArea + block) % 2 ^ 16 = g.absolute area block page ∧
      (page + g.pagesPerBlock * (block + area * g.blocksPerArea) % 2 ^ 32) % 2 ^ 32 = g.absolute area block page := by
  have hbase := h.base_eq block page
  have hlt := h.absolute_lt hblock hpage
  rw [Nat.add_comm block]
  omega

/-! ### The pages read for a free one -/

theorem freeInBlock_reads (pageOffs requiredPages n i : Nat) (s : Search) : ∃ m ≤ n,
    (freeInBlock d flash pageOffs requiredPages n i s).2.reads = s.reads ++ (List.range' i m).map fun page => page + pageOffs := by
  induction n generalizing i s with
  | zero => exact ⟨0, Nat.le_refl 0, (List.append_nil _).symm⟩
  | succ n ih =>
    have hlast : ∀ reads : List PageAbs, reads = s.reads ++ [i + pageOffs] →
        ∃ m ≤ n + 1, reads = s.reads ++ (List.range' i m).map fun page => page + pageOffs :=
      fun _ h => ⟨1, by omega, h⟩
    have hmore : ∀ s' : Search, s'.reads = s.reads ++ [i + pageOffs] → ∃ m ≤ n + 1,
        (freeInBlock d flash pageOffs requiredPages n (i + 1) s').2.reads =
          s.reads ++ (List.range' i m).map fun page => page + pageOffs := by
      intro s' hs'
      obtain ⟨m, hle, hm⟩ := ih (i + 1) s'
      refine ⟨m + 1, by omega, ?_⟩
      rw [hm, hs', List.range'_succ, List.map_cons, List.append_assoc, List.singleton_append]
    unfold freeInBlock
    dsimp only
    split_ifs
    · exact hlast _ rfl
    · exact hmore _ rfl
    · exact hmore _ rfl
    · exact hlast _ rfl
    · exact hmore _ rfl
    · exact hlast _ rfl
    · exact hmore _ rfl

theorem InRange.reads_eq (h : InRange g area) (hblock : block < g.blocksPerArea) (requiredPages : Nat) : ∃ m,
    (findFirstFreeEntryInBlock g d flash area block requiredPages).2.reads = (List.range m).map (g.absolute area block) := by
  obtain ⟨m, hm, hreads⟩ := @freeInBlock_reads d flash (g.pagesPerBlock * (area * g.blocksPerArea + block) % 2 ^ 16)
    requiredPages g.pagesPerBlock 0 ⟨0, 0, []⟩
  refine ⟨m, hreads.trans ?_⟩
  rw [List.nil_append, List.range_eq_range']
  refine List.map_congr_left fun page hpage => ?_
  have hlt : page < m := by simpa using hpage
  exact (h.page_eq hblock (by omega)).1

/-! ### The entry found -/

/-- A page that can be read, perhaps corrected. -/
def CanRead (d : Driver) (page : PageAbs) : Prop := d.readPage page = .ok ∨ d.readPage page = .biterrorCorrected

theorem CanRead.not_error {page : PageAbs} (h : CanRead d page) :
    ¬ (d.readPage page ≠ .ok ∧ d.readPage page ≠ .biterrorCorrected) := by
  rintro ⟨hok, hcorrected⟩
  exact h.elim hok hcorrected

/-- What was handed out lies on the page. -/
structure Found (flash : Flash) (page : PageAbs) (e : Recent) : Prop where
  outIndex : e.outIndex = serialOn flash page
  logPrev : e.logPrev = (flash page).readWord 4 2
  next : e.next = (flash page).readWord 6 2

def recorded (flash : Flash) (basePage : PageAbs) (page : Nat) : Recent where
  outPos := (page + basePage) % 2 ^ 32 % 2 ^ 16
  outIndex := serialOn flash ((page + basePage) % 2 ^ 32)
  overflow := (serialOn flash ((page + basePage) % 2 ^ 32)).toNat = 0
  logPrev := (flash ((page + basePage) % 2 ^ 32)).readWord 4 2
  next := (flash ((page + basePage) % 2 ^ 32)).readWord 6 2

theorem found_recorded (flash : Flash) (basePage : PageAbs) (page : Nat) :
    Found flash ((page + basePage) % 2 ^ 32) (recorded flash basePage page) := ⟨rfl, rfl, rfl⟩

variable {basePage : PageAbs} {e e' : Recent}

theorem toNat_zero (w : Nat) : (Word.ofNat w 0).toNat = 0 := Word.toNat_ofNat (Nat.pow_pos (by decide))

/-- On whichever flash: what is handed out was read on a page of the block. -/
theorem recentInBlock_recorded {n page : Nat} (h : recentInBlock d flash basePage n page e = (.ok, e'))
    (hpage : page = 0 → 0 < n ∧ e.outIndex.toNat = 0 ∧ e.overflow = false)
    (he : page ≠ 0 → ∃ k < page, e = recorded flash basePage k) : ∃ k < page + n, e' = recorded flash basePage k := by
  induction n generalizing page e with
  | zero =>
    obtain ⟨k, hk, hrecorded⟩ := he fun hzero => Nat.lt_irrefl 0 (hpage hzero).1
    injection h with _ he'
    exact ⟨k, hk, he' ▸ hrecorded⟩
  | succ n ih =>
    unfold recentInBlock at h
    dsimp only at h
    have hlater : ∀ e'', recentInBlock d flash basePage n (page + 1) e'' = (.ok, e') →
        (∃ k < page + 1, e'' = recorded flash basePage k) → ∃ k < page + (n + 1), e' = recorded flash basePage k := by
      intro e'' hrun hrecorded
      obtain ⟨k, hk, he'⟩ := ih hrun (fun hzero => absurd hzero (Nat.succ_ne_zero page)) fun _ => hrecorded
      exact ⟨k, by omega, he'⟩
    split_ifs at h with herror hempty hsome hgreater
    · injection h with hr _
      exact absurd hr herror.1
    · -- an empty page ends the search
      injection h with _ he'
      have hne : page ≠ 0 := by
        intro hzero
        obtain ⟨_, hindex, hover⟩ := hpage hzero
        rw [hindex, hover] at hsome
        simp at hsome
      obtain ⟨k, hk, hrecorded⟩ := he hne
      exact ⟨k, by omega, he' ▸ hrecorded⟩
    · cases h
    · exact hlater _ h ⟨page, Nat.lt_succ_self page, rfl⟩
    · have hne : page ≠ 0 := by
        intro hzero
        rw [(hpage hzero).2.1] at hgreater
        omega
      obtain ⟨k, hk, hrecorded⟩ := he hne
      exact hlater _ h ⟨k, by omega, hrecorded⟩

/-- A block as the chain writes it: smaller serial numbers, the entry, and nothing behind it. -/
structure Block (serial : Nat → SerialNo) (n first needed : Nat) (no : SerialNo) : Prop where
  before : ∀ page < first, serial page ≠ emptySerial ∧ (serial page).toNat < no.toNat
  entry : ∀ page, first ≤ page → page < first + needed → serial page = no
  behind : ∀ page, first + needed ≤ page → page < n → serial page = emptySerial
  needed_pos : 0 < needed
  fits : first + needed ≤ n
  no_ne : no ≠ emptySerial

variable {n first needed : Nat} {no : SerialNo}

/-- The page of an entry that is found: each page with serial number 0 counts as more recent than the one before. -/
def foundAt (needed : Nat) (no : SerialNo) : Nat := if no.toNat = 0 then needed - 1 else 0

def Written.found (w : Written) : Nat := w.page + foundAt w.entry.needed w.no

/-- Once a page of the entry was seen. -/
theorem recentInBlock_behind (hreads : ∀ page < n, CanRead d ((page + basePage) % 2 ^ 32))
    (hblock : Block (fun page => serialOn flash ((page + basePage) % 2 ^ 32)) n first needed no) {m page k : Nat}
    (hm : page + m = n) (hpage : first < page ∧ page ≤ first + needed) (hk : first + k = if no.toNat = 0 then page - 1 else first) :
    recentInBlock d flash basePage m page (recorded flash basePage (first + k)) =
      (.ok, recorded flash basePage (first + foundAt needed no)) := by
  have hfits := hblock.fits
  induction m generalizing page k with
  | zero =>
    have hfound : k = foundAt needed no := by
      unfold foundAt
      split_ifs at hk ⊢
      · omega
      · omega
    rw [hfound]
    rfl
  | succ m ih =>
    have hseen : first + k < first + needed := by
      split_ifs at hk
      · omega
      · omega
    have hentry : serialOn flash ((first + k + basePage) % 2 ^ 32) = no := hblock.entry _ (Nat.le_add_right _ _) hseen
    unfold recentInBlock
    dsimp only
    rw [if_neg (hreads page (by omega)).not_error]
    split_ifs with hempty hsome hgreater
    · have hbehind : page = first + needed := by
        by_contra hne
        have hserial : serialOn flash ((page + basePage) % 2 ^ 32) = no := hblock.entry page hpage.1.le (by omega)
        exact hblock.no_ne (hserial.symm.trans hempty)
      have hfound : k = foundAt needed no := by
        unfold foundAt
        split_ifs at hk ⊢
        · omega
        · omega
      rw [hfound]
    · refine absurd ?_ hsome
      rw [recorded]
      dsimp only
      rcases Nat.eq_zero_or_pos (serialOn flash ((first + k + basePage) % 2 ^ 32)).toNat with hzero | hpos
      · exact .inr (decide_eq_true hzero)
      · exact .inl (Nat.ne_of_gt hpos)
    · have hmine : page < first + needed := by
        by_contra hbehind
        exact hempty (hblock.behind page (Nat.le_of_not_lt hbehind) (by omega))
      have hserial : serialOn flash ((page + basePage) % 2 ^ 32) = no := hblock.entry page hpage.1.le hmine
      have hzero : no.toNat = 0 := by
        rw [recorded] at hgreater
        dsimp only at hgreater
        rw [hentry, hserial] at hgreater
        exact hgreater.resolve_left (Nat.lt_irrefl _)
      obtain ⟨k', rfl⟩ := Nat.exists_eq_add_of_le hpage.1.le
      refine @ih (first + k' + 1) k' (by omega) (by omega) ?_
      rw [if_pos hzero]
      rfl
    · have hmine : page < first + needed := by
        by_contra hbehind
        exact hempty (hblock.behind page (Nat.le_of_not_lt hbehind) (by omega))
      have hserial : serialOn flash ((page + basePage) % 2 ^ 32) = no := hblock.entry page hpage.1.le hmine
      have hne : no.toNat ≠ 0 := by
        intro hzero
        rw [hserial] at hgreater
        exact hgreater (.inr hzero)
      refine ih (by omega) (by omega) ?_
      rw [if_neg hne] at hk ⊢
      exact hk

/-- A page of the entry is found. -/
theorem recentInBlock_block (hreads : ∀ page < n, CanRead d ((page + basePage) % 2 ^ 32))
    (hblock : Block (fun page => serialOn flash ((page + basePage) % 2 ^ 32)) n first needed no) {m page : Nat}
    (hm : page + m = n) (hpage : page ≤ first) (hstart : page = 0 → e.outIndex.toNat = 0)
    (hsmall : page ≠ 0 → e.outIndex.toNat < no.toNat) :
    recentInBlock d flash basePage m page e = (.ok, recorded flash basePage (first + foundAt needed no)) := by
  have hpos := hblock.needed_pos
  have hfits := hblock.fits
  induction m generalizing page e with
  | zero => omega
  | succ m ih =>
    unfold recentInBlock
    dsimp only
    rw [if_neg (hreads page (by omega)).not_error]
    rcases Nat.lt_or_ge page first with hbefore | hentry
    · obtain ⟨hne, hlt⟩ := hblock.before page hbefore
      rw [if_neg hne]
      split_ifs with hgreater
      · exact ih (by omega) hbefore (fun hzero => absurd hzero (Nat.succ_ne_zero page)) fun _ => hlt
      · refine ih (by omega) hbefore (fun hzero => absurd hzero (Nat.succ_ne_zero page)) fun _ => ?_
        refine hsmall fun hzero => ?_
        rw [hstart hzero] at hgreater
        omega
    · have hfirst : page = first := Nat.le_antisymm hpage hentry
      subst hfirst
      have hserial : serialOn flash ((page + basePage) % 2 ^ 32) = no := hblock.entry page hentry (by omega)
      have hne : serialOn flash ((page + basePage) % 2 ^ 32) ≠ emptySerial := hserial.symm ▸ hblock.no_ne
      have hgreater : (serialOn flash ((page + basePage) % 2 ^ 32)).toNat > e.outIndex.toNat ∨
          (serialOn flash ((page + basePage) % 2 ^ 32)).toNat = 0 := by
        rw [hserial]
        rcases Nat.eq_zero_or_pos page with hzero | hpos
        · rw [hstart hzero]
          omega
        · exact .inl (hsmall (Nat.ne_of_gt hpos))
      rw [if_neg hne, if_pos hgreater]
      refine @recentInBlock_behind d flash basePage n page needed no hreads hblock m (page + 1) 0 (by omega) (by omega) ?_
      rw [Nat.add_sub_cancel, ite_self]
      rfl

/-- Nothing is found in an empty block. -/
theorem recentInBlock_empty (hpos : 0 < n) (hread : CanRead d (basePage % 2 ^ 32))
    (hempty : serialOn flash (basePage % 2 ^ 32) = emptySerial) :
    recentInBlock d flash basePage n 0 ⟨0, Word.ofNat 4 0, false, logPrev, next⟩ =
      (.notFound, ⟨0, Word.ofNat 4 0, false, logPrev, next⟩) := by
  obtain ⟨m, rfl⟩ := Nat.exists_eq_succ_of_ne_zero (Nat.ne_of_gt hpos)
  unfold recentInBlock
  dsimp only
  rw [Nat.zero_add, if_neg hread.not_error, if_pos hempty, toNat_zero]
  rfl

/-! ### The entry found in an area -/

theorem recentInArea_found {addr : Addr} {i : Nat}
    (h : recentInArea g d flash area logPrev next n i = (.ok, some (addr, e))) : ∃ block logPrev next, block < i + n ∧
      readMostRecentEntryInBlock g d flash area block logPrev next = (.ok, e) ∧
      addr = combineAddress (e.outPos / g.totalPagesPerArea) (e.outPos % g.totalPagesPerArea) := by
  induction n generalizing i logPrev next with
  | zero => cases h
  | succ n ih =>
    unfold recentInArea at h
    split at h
    · rename_i e' hblock
      injection h with _ h
      injection h with h
      injection h with haddr he
      subst he
      exact ⟨i, logPrev, next, by omega, hblock, haddr.symm⟩
    · obtain ⟨block, logPrev', next', hlt, hrest⟩ := ih h
      exact ⟨block, logPrev', next', by omega, hrest⟩
    · injection h with _ h
      cases h

/-- The blocks before are empty. -/
theorem recentInArea_first {i : Nat} (hi : i ≤ block) (hblock : block < i + n)
    (hempty : ∀ j, i ≤ j → j < block → ∀ logPrev next, readMostRecentEntryInBlock g d flash area j logPrev next =
      (.notFound, ⟨0, Word.ofNat 4 0, false, logPrev, next⟩))
    (hfound : readMostRecentEntryInBlock g d flash area block logPrev next = (.ok, e)) :
    recentInArea g d flash area logPrev next n i =
      (.ok, some (combineAddress (e.outPos / g.totalPagesPerArea) (e.outPos % g.totalPagesPerArea), e)) := by
  induction n generalizing i with
  | zero => omega
  | succ n ih =>
    unfold recentInArea
    rcases Nat.lt_or_eq_of_le hi with hlt | rfl
    · rw [hempty i (Nat.le_refl i) hlt]
      exact ih hlt (by omega) fun j hj => hempty j (by omega)
    · rw [hfound]

/-- The address of a page below 2^16. -/
theorem InRange.div_mod (h : InRange g area) {page : Nat} (hblock : block < g.blocksPerArea) (hpage : page < g.pagesPerBlock) :
    g.absolute area block page / g.totalPagesPerArea = area ∧
      g.absolute area block page % g.totalPagesPerArea = block * g.pagesPerBlock + page := by
  have hlast : block * g.pagesPerBlock + g.pagesPerBlock ≤ g.totalPagesPerArea := by
    rw [← Nat.succ_mul, h.total_eq]
    exact Nat.mul_le_mul_right _ hblock
  have habsolute : g.absolute area block page = g.totalPagesPerArea * area + (block * g.pagesPerBlock + page) := by
    unfold Geometry.absolute
    ring
  have hlt : block * g.pagesPerBlock + page < g.totalPagesPerArea := by omega
  rw [habsolute, Nat.mul_add_div (by omega), Nat.mul_add_mod, Nat.div_eq_of_lt hlt, Nat.mod_eq_of_lt hlt]
  exact ⟨Nat.add_zero _, rfl⟩

theorem extract_combine {logicalArea page : Nat} (harea : logicalArea < 2 ^ 16) (hpage : page < 2 ^ 16) :
    extractLogicalArea (combineAddress logicalArea page) = logicalArea ∧ extractPageOffs (combineAddress logicalArea page) = page := by
  have hnat : (combineAddress logicalArea page).toNat = page + 2 ^ 16 * logicalArea := by
    unfold combineAddress
    rw [Nat.mod_eq_of_lt harea, Nat.mod_eq_of_lt hpage]
    exact Word.toNat_ofNat (by omega)
  unfold extractLogicalArea extractPageOffs
  rw [hnat]
  omega

theorem InRange.block_found (h : InRange g area) (hblock : block < g.blocksPerArea)
    (hrun : readMostRecentEntryInBlock g d flash area block logPrev next = (.ok, e)) :
    ∃ page < g.pagesPerBlock, e.outPos = g.absolute area block page ∧ Found flash (g.absolute area block page) e := by
  obtain ⟨page, hpage, rfl⟩ := recentInBlock_recorded hrun (fun _ => ⟨g.pagesPerBlock_pos, toNat_zero 4, rfl⟩)
    fun hne => absurd rfl hne
  rw [Nat.zero_add] at hpage
  have habs := (h.page_eq hblock hpage).2
  refine ⟨page, hpage, ?_, ?_⟩
  · rw [recorded, habs]
    exact Nat.mod_eq_of_lt (h.absolute_lt hblock hpage)
  · have hfound := found_recorded flash (g.pagesPerBlock * (block + area * g.blocksPerArea) % 2 ^ 32) page
    rwa [habs] at hfound

theorem InRange.area_lt (h : InRange g area) : area < 2 ^ 16 := by
  have hpos := Nat.mul_pos g.blocksPerArea_pos g.pagesPerBlock_pos
  have hle := Nat.le_mul_of_pos_right (area + 1) hpos
  unfold InRange at h
  omega

/-- The address of a page, and back. -/
theorem InRange.getPageNumber (h : InRange g area) (harea : area < g.areasNo) {page : Nat} (hblock : block < g.blocksPerArea)
    (hpage : page < g.pagesPerBlock) :
    getPageNumberFromDirect g (combineAddress area (block * g.pagesPerBlock + page)) = g.absolute area block page := by
  have hlt := h.absolute_lt hblock hpage
  have habsolute : g.absolute area block page = area * g.totalPagesPerArea + (block * g.pagesPerBlock + page) :=
    Nat.add_assoc _ _ _
  have hpageOffs : block * g.pagesPerBlock + page < 2 ^ 16 := by omega
  obtain ⟨hextract, hoffs⟩ := extract_combine h.area_lt hpageOffs
  have hpos : 0 < g.totalPagesPerArea := g.total_pos
  have hdevice : (area + 1) * g.totalPagesPerArea ≤ g.areasNo * g.totalPagesPerArea := Nat.mul_le_mul_right _ harea
  have hmod : g.absolute area block page < (area + 1) * g.totalPagesPerArea :=
    (Nat.div_lt_iff_lt_mul hpos).mp ((h.div_mod hblock hpage).1.symm ▸ Nat.lt_succ_self area)
  unfold getPageNumberFromDirect
  dsimp only
  rw [hextract, hoffs, ← habsolute, Nat.mod_eq_of_lt (by omega), if_neg (by omega)]

theorem InRange.area_found (h : InRange g area) {addr : Addr}
    (hrun : readMostRecentEntryInArea g d flash area logPrev next = (.ok, some (addr, e))) :
    ∃ block < g.blocksPerArea, ∃ page < g.pagesPerBlock, addr = combineAddress area (block * g.pagesPerBlock + page) ∧
      Found flash (g.absolute area block page) e := by
  obtain ⟨block, _, _, hblock, hfound, haddr⟩ := recentInArea_found hrun
  rw [Nat.zero_add] at hblock
  obtain ⟨page, hpage, hpos, hfound⟩ := h.block_found hblock hfound
  obtain ⟨hdiv, hmod⟩ := h.div_mod hblock hpage
  rw [hpos, hdiv, hmod] at haddr
  exact ⟨block, hblock, page, hpage, haddr, hfound⟩

end Paffs.Superblock
