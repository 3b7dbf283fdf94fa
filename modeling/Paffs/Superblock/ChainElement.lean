import Paffs.Superblock.ChainPages

/-! An element of the super chain: the block that holds its entries, and the entry that is found there. -/
namespace Paffs.Superblock
open Bytes (Memory Word)

variable {g : Geometry} {d : Driver} {flash flash' : Flash} {area block first needed : Nat} {no : SerialNo} {entry : Entry} {content : Nat → Memory}
  {logPrev next : AreaPos}

/-! ### A block with room behind its entries -/

/-- The first pages are programmed, and the others are not. -/
def Filled (serial : Nat → SerialNo) (n used : Nat) : Prop :=
  (∀ page < used, serial page ≠ emptySerial) ∧ ∀ page, used ≤ page → page < n → serial page = emptySerial

theorem Block.filled {serial : Nat → SerialNo} {n needed : Nat} (h : Block serial n first needed no) :
    Filled serial n (first + needed) := by
  refine ⟨fun page hpage => ?_, h.behind⟩
  rcases Nat.lt_or_ge page first with hbefore | hentry
  · exact (h.before page hbefore).1
  · exact (h.entry page hentry hpage).symm ▸ h.no_ne

/-- There is room, or there is none. -/
def Searched (n used requiredPages : Nat) (r : Result × Search) : Prop :=
  if used + requiredPages ≤ n then r.1 = .ok ∧ r.2.outPos = used else r.1 = .notFound

theorem Block.congr {serial serial' : Nat → SerialNo} {n needed : Nat} (h : Block serial n first needed no)
    (heq : ∀ page < n, serial' page = serial page) : Block serial' n first needed no := by
  have hfits := h.fits
  refine ⟨fun page hlt => ?_, fun page hge hlt => ?_, fun page hge hlt => ?_, h.needed_pos, hfits, h.no_ne⟩
  · rw [heq page (by omega)]
    exact h.before page hlt
  · rw [heq page (by omega)]
    exact h.entry page hge hlt
  · rw [heq page hlt]
    exact h.behind page hge hlt

theorem Filled.congr {serial serial' : Nat → SerialNo} {n used : Nat} (h : Filled serial n used) (hused : used ≤ n)
    (heq : ∀ page < n, serial' page = serial page) : Filled serial' n used :=
  ⟨fun page hlt => (heq page (by omega)).symm ▸ h.1 page hlt, fun page hge hlt => (heq page hlt).trans (h.2 page hge hlt)⟩

/-- Free pages, some of which were counted already. -/
theorem freeInBlock_free {n used requiredPages pageOffs m i : Nat} (hreads : ∀ page < n, CanRead d (page + pageOffs))
    (hfilled : Filled (fun page => serialOn flash (page + pageOffs)) n used) (hm : i + m = n) {s : Search}
    (hi : used + s.inARow = i) (hpos : s.inARow = 0 ∨ s.outPos = used) (hlt : s.inARow < requiredPages) :
    Searched n used requiredPages (freeInBlock d flash pageOffs requiredPages m i s) := by
  induction m generalizing i s with
  | zero =>
    have hfull : ¬ used + requiredPages ≤ n := by omega
    unfold Searched
    rw [if_neg hfull]
    rfl
  | succ m ih =>
    have hempty : serialOn flash (i + pageOffs) = emptySerial := hfilled.2 i (by omega) (by omega)
    unfold freeInBlock
    dsimp only
    rw [if_neg (hreads i (by omega)).not_error, if_neg (not_not.mpr hempty)]
    have hnext : ∀ s₁ : Search, s₁.inARow = s.inARow → s₁.outPos = used →
        Searched n used requiredPages
          (if s₁.inARow + 1 = requiredPages then (.ok, ⟨s₁.outPos, s₁.inARow + 1, s₁.reads⟩)
            else freeInBlock d flash pageOffs requiredPages m (i + 1) ⟨s₁.outPos, s₁.inARow + 1, s₁.reads⟩) := by
      intro s₁ hrow hout
      split_ifs with hall
      · have hroom : used + requiredPages ≤ n := by omega
        unfold Searched
        rw [if_pos hroom]
        exact ⟨rfl, hout⟩
      · exact ih (by omega) (by dsimp only; omega) (.inr hout) (by dsimp only; omega)
    refine hnext (if s.inARow = 0 then ⟨i, s.inARow, s.reads ++ [i + pageOffs]⟩
      else ⟨s.outPos, s.inARow, s.reads ++ [i + pageOffs]⟩) ?_ ?_
    · split_ifs
      · rfl
      · rfl
    · split_ifs with hfirst
      · dsimp only
        omega
      · exact hpos.resolve_left hfirst

theorem freeInBlock_filled {n used requiredPages pageOffs m i : Nat} (hreads : ∀ page < n, CanRead d (page + pageOffs))
    (hfilled : Filled (fun page => serialOn flash (page + pageOffs)) n used) (hm : i + m = n) (hi : i ≤ used) (hused : used ≤ n)
    (hpos : 0 < requiredPages) (reads : List PageAbs) :
    Searched n used requiredPages (freeInBlock d flash pageOffs requiredPages m i ⟨0, 0, reads⟩) := by
  induction m generalizing i reads with
  | zero => exact freeInBlock_free hreads hfilled hm (by dsimp only; omega) (.inl rfl) hpos
  | succ m ih =>
    rcases Nat.lt_or_eq_of_le hi with hlt | rfl
    · unfold freeInBlock
      dsimp only
      rw [if_neg (hreads i (by omega)).not_error, if_pos (hfilled.1 i hlt), if_neg (not_not.mpr rfl)]
      exact ih (by omega) hlt _
    · exact freeInBlock_free hreads hfilled hm rfl (.inl rfl) hpos

/-- All pages of an area can be read. -/
def AreaReadable (g : Geometry) (d : Driver) (area : Nat) : Prop :=
  ∀ block < g.blocksPerArea, ∀ page < g.pagesPerBlock, CanRead d (g.absolute area block page)

theorem findFirstFreeEntryInBlock_filled {used requiredPages : Nat} (hrange : InRange g area) (hreads : AreaReadable g d area)
    (hblock : block < g.blocksPerArea)
    (hfilled : Filled (fun page => serialOn flash (g.absolute area block page)) g.pagesPerBlock used)
    (hused : used ≤ g.pagesPerBlock) (hpos : 0 < requiredPages) :
    Searched g.pagesPerBlock used requiredPages (findFirstFreeEntryInBlock g d flash area block requiredPages) := by
  have hpage := fun page hpage => (@InRange.page_eq g area block hrange page hblock hpage).1
  refine freeInBlock_filled (fun page hlt => ?_) (hfilled.congr hused fun page hlt => congrArg (serialOn flash) (hpage page hlt))
    (Nat.zero_add _) (Nat.zero_le _) hused hpos []
  rw [hpage page hlt]
  exact hreads block hblock page hlt

/-- Nothing is programmed in a block. -/
def Empty (g : Geometry) (flash : Flash) (area block : Nat) : Prop :=
  ∀ page < g.pagesPerBlock, serialOn flash (g.absolute area block page) = emptySerial

theorem Empty.filled (h : Empty g flash area block) :
    Filled (fun page => serialOn flash (g.absolute area block page)) g.pagesPerBlock 0 :=
  ⟨fun _ hpage => absurd hpage (Nat.not_lt_zero _), fun page _ hpage => h page hpage⟩

/-- In an empty block the first page is free. -/
theorem Empty.searched {requiredPages : Nat} (h : Empty g flash area block) (hrange : InRange g area)
    (hreads : AreaReadable g d area) (hblock : block < g.blocksPerArea) (hpos : 0 < requiredPages)
    (hfits : requiredPages ≤ g.pagesPerBlock) :
    (findFirstFreeEntryInBlock g d flash area block requiredPages).1 = .ok ∧
      (findFirstFreeEntryInBlock g d flash area block requiredPages).2.outPos = 0 := by
  have hsearched := findFirstFreeEntryInBlock_filled hrange hreads hblock h.filled (Nat.zero_le _) hpos
  unfold Searched at hsearched
  rw [Nat.zero_add, if_pos hfits] at hsearched
  exact hsearched

/-- All entries of a chain element lie in one block of its area, and the one given is the last. The serial numbers start with
0 or 1. -/
structure Holds (g : Geometry) (flash : Flash) (area block first needed : Nat) (no : SerialNo) (content : Nat → Memory) : Prop where
  block_lt : block < g.blocksPerArea
  others : ∀ b < g.blocksPerArea, b ≠ block → Empty g flash area b
  entries : Block (fun page => serialOn flash (g.absolute area block page)) g.pagesPerBlock first needed no
  pages : ∀ k < needed, flash (g.absolute area block (first + k)) = content k
  no_le : no.toNat ≤ first + 1

theorem InRange.offset_lt (h : InRange g area) {page : Nat} (hblock : block < g.blocksPerArea) (hpage : page < g.pagesPerBlock) :
    block * g.pagesPerBlock + page < 2 ^ 16 := by
  have hlt := h.absolute_lt hblock hpage
  unfold Geometry.absolute at hlt
  omega

/-- Behind the entries; else in the next block. -/
theorem Holds.findFirstFree (h : Holds g flash area block first needed no content) (hrange : InRange g area)
    (hreads : AreaReadable g d area) {requiredPages : Nat} (hpos : 0 < requiredPages) (hfits : requiredPages ≤ g.pagesPerBlock) :
    findFirstFreeEntryInArea g d flash area requiredPages =
      if first + needed + requiredPages ≤ g.pagesPerBlock then (.ok, block * g.pagesPerBlock + (first + needed))
      else if block + 1 = g.blocksPerArea then (.notFound, 0)
      else (.ok, (block + 1) * g.pagesPerBlock) := by
  have hblock := h.block_lt
  have hloop : ∀ n i, i + n = g.blocksPerArea → i ≤ block → freeInArea g d flash area requiredPages n i =
      if first + needed + requiredPages ≤ g.pagesPerBlock then (.ok, block * g.pagesPerBlock + (first + needed))
      else if block + 1 = g.blocksPerArea then (.notFound, 0)
      else (.ok, (block + 1) * g.pagesPerBlock) := by
    intro n
    induction n with
    | zero =>
      intro i hn hi
      omega
    | succ n ih =>
      intro i hn hi
      unfold freeInArea
      rcases Nat.lt_or_eq_of_le hi with hlt | rfl
      · obtain ⟨hok, hout⟩ := (h.others i (by omega) (Nat.ne_of_lt hlt)).searched hrange hreads (by omega) hpos hfits
        generalize findFirstFreeEntryInBlock g d flash area i requiredPages = r at hok hout
        obtain ⟨r, s⟩ := r
        dsimp only at hok hout
        subst hok
        dsimp only
        rw [hout, if_neg (not_not.mpr rfl)]
        exact ih (i + 1) (by omega) hlt
      · have hsearched := findFirstFreeEntryInBlock_filled hrange hreads hblock h.entries.filled h.entries.fits hpos
        unfold Searched at hsearched
        generalize findFirstFreeEntryInBlock g d flash area i requiredPages = r at hsearched
        obtain ⟨r, s⟩ := r
        dsimp only at hsearched
        by_cases hroom : first + needed + requiredPages ≤ g.pagesPerBlock
        · rw [if_pos hroom] at hsearched ⊢
          obtain ⟨hok, hout⟩ := hsearched
          subst hok
          have hneeded := h.entries.needed_pos
          have hne : s.outPos ≠ 0 := by omega
          have hlt := hrange.offset_lt hblock (show first + needed < g.pagesPerBlock by omega)
          dsimp only
          rw [if_pos hne, hout, Nat.mod_eq_of_lt hlt]
        · rw [if_neg hroom] at hsearched ⊢
          subst hsearched
          dsimp only
          by_cases hlast : i + 1 = g.blocksPerArea
          · rw [if_pos hlast, if_pos hlast]
          · rw [if_neg hlast, if_neg hlast]
            obtain ⟨hok, hout⟩ :=
              (h.others (i + 1) (by omega) (Nat.succ_ne_self i)).searched hrange hreads (by omega) hpos hfits
            have hlt := hrange.offset_lt (show i + 1 < g.blocksPerArea by omega) g.pagesPerBlock_pos
            rw [hok, hout, Nat.mod_eq_of_lt hlt, Nat.add_zero]
  exact hloop g.blocksPerArea 0 (Nat.zero_add _) (Nat.zero_le _)

theorem findFirstFree_empty (h : ∀ block < g.blocksPerArea, Empty g flash area block) (hrange : InRange g area)
    (hreads : AreaReadable g d area) {requiredPages : Nat} (hpos : 0 < requiredPages) (hfits : requiredPages ≤ g.pagesPerBlock) :
    findFirstFreeEntryInArea g d flash area requiredPages = (.ok, 0) := by
  have hloop : ∀ n i, i + n = g.blocksPerArea → freeInArea g d flash area requiredPages n i = (.ok, 0) := by
    intro n
    induction n with
    | zero =>
      intro i _
      rfl
    | succ n ih =>
      intro i hn
      obtain ⟨hok, hout⟩ := (h i (by omega)).searched hrange hreads (by omega) hpos hfits
      unfold freeInArea
      generalize findFirstFreeEntryInBlock g d flash area i requiredPages = r at hok hout
      obtain ⟨r, s⟩ := r
      dsimp only at hok hout
      subst hok
      dsimp only
      rw [hout, if_neg (not_not.mpr rfl)]
      exact ih (i + 1) (by omega)
  exact hloop g.blocksPerArea 0 (Nat.zero_add _)

/-! ### The entry found -/

theorem Empty.not_found (h : Empty g flash area block) (hrange : InRange g area) (hreads : AreaReadable g d area)
    (hblock : block < g.blocksPerArea) (logPrev next : AreaPos) :
    readMostRecentEntryInBlock g d flash area block logPrev next =
      (.notFound, ⟨0, Word.ofNat 4 0, false, logPrev, next⟩) := by
  have hpos := g.pagesPerBlock_pos
  have hpage := (hrange.page_eq hblock hpos).2
  rw [Nat.zero_add] at hpage
  refine recentInBlock_empty hpos ?_ ?_
  · rw [hpage]
    exact hreads block hblock 0 hpos
  · rw [hpage]
    exact h 0 hpos

theorem foundAt_lt (hpos : 0 < needed) (no : SerialNo) : foundAt needed no < needed := by
  unfold foundAt
  split_ifs
  · omega
  · exact hpos

theorem Holds.recent (h : Holds g flash area block first needed no content) (hrange : InRange g area) (hreads : AreaReadable g d area)
    (logPrev next : AreaPos) : ∃ e,
      readMostRecentEntryInArea g d flash area logPrev next =
        (.ok, some (combineAddress area (block * g.pagesPerBlock + first + foundAt needed no), e)) ∧
      e.outIndex = no ∧ Found flash (g.absolute area block (first + foundAt needed no)) e := by
  have hblock := h.block_lt
  have hfits := h.entries.fits
  have hpage := fun page hpage => (@InRange.page_eq g area block hrange page hblock hpage).2
  have hentries : Block (fun page => serialOn flash
      ((page + g.pagesPerBlock * (block + area * g.blocksPerArea) % 2 ^ 32) % 2 ^ 32)) g.pagesPerBlock first needed no :=
    h.entries.congr fun page hlt => congrArg (serialOn flash) (hpage page hlt)
  have hrun := @recentInBlock_block d flash _ ⟨0, Word.ofNat 4 0, false, logPrev, next⟩ _ _ _ _
    (fun page hlt => (hpage page hlt).symm ▸ hreads block hblock page hlt) hentries _ 0 (Nat.zero_add _) (Nat.zero_le _)
    (fun _ => toNat_zero 4) fun hne => absurd rfl hne
  have hat := foundAt_lt h.entries.needed_pos no
  generalize foundAt needed no = k at hrun hat
  have hlt : first + k < g.pagesPerBlock := by omega
  have habs := hpage _ hlt
  refine ⟨recorded flash (g.pagesPerBlock * (block + area * g.blocksPerArea) % 2 ^ 32) (first + k), ?_, ?_, ?_⟩
  · refine (recentInArea_first (Nat.zero_le _) (by omega) (fun j _ hj => (h.others j (by omega) (Nat.ne_of_lt hj)).not_found
      hrange hreads (by omega)) hrun).trans ?_
    obtain ⟨hdiv, hmod⟩ := hrange.div_mod hblock hlt
    rw [recorded, habs, Nat.add_assoc]
    dsimp only
    rw [Nat.mod_eq_of_lt (hrange.absolute_lt hblock hlt), hdiv, hmod]
  · exact hentries.entry _ (Nat.le_add_right _ _) (Nat.add_lt_add_left hat first)
  · have hfound := found_recorded flash (g.pagesPerBlock * (block + area * g.blocksPerArea) % 2 ^ 32) (first + k)
    rwa [habs] at hfound

/-! ### The entry written -/

variable {free : Option Nat} {left : AreaPos} {prev : Addr} {w w' : Written}

theorem writeEntry_ok {pageStart n k : Nat} (h : writeEntry d pageStart content n k flash = (.ok, flash')) (p : Nat) :
    flash' p = if pageStart + k ≤ p ∧ p < pageStart + k + n then content (p - pageStart) else flash p := by
  induction n generalizing k flash with
  | zero =>
    have hnot : ¬ (pageStart + k ≤ p ∧ p < pageStart + k + 0) := by omega
    injection h with _ hflash
    rw [if_neg hnot, hflash]
  | succ n ih =>
    unfold writeEntry at h
    split at h
    · rw [ih h]
      by_cases hp : p = pageStart + k
      · have hnot : ¬ (pageStart + (k + 1) ≤ p ∧ p < pageStart + (k + 1) + n) := by omega
        have hhere : pageStart + k ≤ p ∧ p < pageStart + k + (n + 1) := by omega
        have hk : p - pageStart = k := by omega
        rw [if_neg hnot, if_pos hhere, hk, hp, Function.update_self]
      · have hiff : (pageStart + (k + 1) ≤ p ∧ p < pageStart + (k + 1) + n) ↔ (pageStart + k ≤ p ∧ p < pageStart + k + (n + 1)) := by
          omega
        rw [Function.update_of_ne hp]
        simp only [hiff]
    · rename_i r herror
      injection h with hr _
      exact absurd hr herror

/-- The steps of an insertion that went through. -/
structure Inserted (g : Geometry) (d : Driver) (flash : Flash) (prev : Addr) (no : SerialNo) (entry : Entry) (w : Written)
    (flash' : Flash) : Prop where
  entry_eq : w.entry = entry
  isPlausible : entry.isPlausible
  pages : ∃ flash₁, handleBlockOverflow g d flash ((w.area * g.totalPagesPerArea + w.page) % 2 ^ 32) prev no = (.ok, w.no, flash₁) ∧
    writeEntry d ((w.area * g.totalPagesPerArea + w.page) % 2 ^ 32) w.content entry.needed 0 flash₁ = (.ok, flash')

theorem insertAt_ok {page : Nat} (h : insertAt g d flash area page logPrev prev no entry = (.ok, some w, flash')) :
    w.area = area ∧ w.page = page ∧ w.logPrev = logPrev ∧ Inserted g d flash prev no entry w flash' := by
  unfold insertAt at h
  dsimp only at h
  split at h
  · rename_i no₁ flash₁ hoverflow
    by_cases hplausible : entry.isPlausible = true
    · rw [if_neg (not_not.mpr hplausible)] at h
      split at h
      · rename_i flash₂ hpages
        simp only [Prod.mk.injEq, Option.some.injEq, true_and] at h
        obtain ⟨rfl, rfl⟩ := h
        exact ⟨rfl, rfl, rfl, rfl, hplausible, flash₁, hoverflow, hpages⟩
      · simp at h
    · rw [if_pos hplausible] at h
      simp at h
  · simp at h

/-- An insertion that went through has written an entry. -/
theorem insertAt_some {area page : Nat} {o : Option Written}
    (h : insertAt g d flash area page logPrev prev no entry = (.ok, o, flash')) : ∃ w, o = some w := by
  unfold insertAt at h
  dsimp only at h
  split at h
  · split_ifs at h
    · split at h
      · simp only [Prod.mk.injEq, true_and] at h
        exact ⟨_, h.1.symm⟩
      · rename_i herror _
        injection h with hr _
        exact absurd hr herror
    · cases h
  · rename_i herror _
    injection h with hr _
    exact absurd hr herror

theorem insertNewEntry_some {o : Option Written}
    (h : insertNewEntry g d flash area free left prev no entry = (.ok, o, flash')) : ∃ w, o = some w := by
  unfold insertNewEntry at h
  split at h
  · split at h
    · exact insertAt_some h
    · exact insertAt_some h
  · exact insertAt_some h
  · rename_i herror _
    injection h with hr _
    exact absurd hr herror

/-- In the same area, or on the first page of another. -/
theorem insertNewEntry_ok (h : insertNewEntry g d flash area free left prev no entry = (.ok, some w, flash')) :
    Inserted g d flash prev no entry w flash' ∧
      (findFirstFreeEntryInArea g d flash area entry.needed = (.ok, w.page) ∧ w.area = area ∨
        (findFirstFreeEntryInArea g d flash area entry.needed).1 = .notFound ∧ w.page = 0 ∧ w.area = free.getD area) := by
  unfold insertNewEntry at h
  split at h
  · rename_i page hfind
    rw [hfind]
    split at h
    · obtain ⟨harea, hpage, _, hinserted⟩ := insertAt_ok h
      exact ⟨hinserted, .inr ⟨rfl, hpage, harea⟩⟩
    · obtain ⟨harea, hpage, _, hinserted⟩ := insertAt_ok h
      exact ⟨hinserted, .inr ⟨rfl, hpage, harea⟩⟩
  · rename_i page hfind
    obtain ⟨harea, hpage, _, hinserted⟩ := insertAt_ok h
    exact ⟨hinserted, .inl ⟨by rw [hfind, hpage], harea⟩⟩
  · simp at h

/-- The block of a page. -/
theorem InRange.block_of (h : InRange g area) {page : Nat} (hblock : block < g.blocksPerArea) (hpage : page < g.pagesPerBlock) :
    g.absolute area block page / g.pagesPerBlock = area * g.blocksPerArea + block ∧ area * g.blocksPerArea + block < 2 ^ 16 := by
  have hbase := h.base_eq block page
  have hlt := h.absolute_lt hblock hpage
  have hle := Nat.le_mul_of_pos_left (area * g.blocksPerArea + block) g.pagesPerBlock_pos
  refine ⟨?_, by omega⟩
  rw [← hbase, Nat.add_mul_div_left _ _ g.pagesPerBlock_pos, Nat.div_eq_of_lt hpage, Nat.zero_add]

theorem InRange.newblock (h : InRange g area) {page : Nat} (hblock : block < g.blocksPerArea) (hpage : page < g.pagesPerBlock) :
    g.absolute area block page / g.pagesPerBlock % 2 ^ 16 = area * g.blocksPerArea + block := by
  obtain ⟨hdiv, hlt⟩ := h.block_of hblock hpage
  rw [hdiv, Nat.mod_eq_of_lt hlt]

theorem InRange.getBlockNumber (h : InRange g area) {page : Nat} (hblock : block < g.blocksPerArea)
    (hpage : page < g.pagesPerBlock) :
    getBlockNumberFromDirect g (combineAddress area (block * g.pagesPerBlock + page)) = area * g.blocksPerArea + block := by
  obtain ⟨hextract, hoffs⟩ := extract_combine h.area_lt (h.offset_lt hblock hpage)
  have hdiv : (block * g.pagesPerBlock + page) / g.pagesPerBlock = block := by
    rw [Nat.mul_comm, Nat.mul_add_div g.pagesPerBlock_pos, Nat.div_eq_of_lt hpage, Nat.add_zero]
  unfold getBlockNumberFromDirect
  rw [hextract, hoffs, hdiv]
  exact Nat.mod_eq_of_lt (h.block_of hblock hpage).2

/-- The page that is written. -/
theorem InRange.pageStart (h : InRange g area) {page : Nat} (hblock : block < g.blocksPerArea) (hpage : page < g.pagesPerBlock) :
    (area * g.totalPagesPerArea + (block * g.pagesPerBlock + page)) % 2 ^ 32 = g.absolute area block page := by
  have hlt := h.absolute_lt hblock hpage
  have habsolute : g.absolute area block page = area * g.totalPagesPerArea + (block * g.pagesPerBlock + page) :=
    Nat.add_assoc _ _ _
  rw [← habsolute]
  exact Nat.mod_eq_of_lt (by omega)

/-- Blocks of areas are told apart. -/
theorem block_ne {area' b : Nat} (hb : b < g.blocksPerArea) (hblock : block < g.blocksPerArea) (hne : area ≠ area' ∨ b ≠ block) :
    area * g.blocksPerArea + b ≠ area' * g.blocksPerArea + block := by
  intro heq
  have hdiv := congrArg (· / g.blocksPerArea) heq
  rw [Nat.mul_comm area, Nat.mul_comm area', Nat.mul_add_div g.blocksPerArea_pos, Nat.mul_add_div g.blocksPerArea_pos,
    Nat.div_eq_of_lt hb, Nat.div_eq_of_lt hblock] at hdiv
  have harea : area = area' := by omega
  subst harea
  omega

/-- The other blocks are as they were. -/
theorem InRange.eraseBlock_other (h : InRange g area) {b number : Nat} (hb : b < g.blocksPerArea) {page : Nat}
    (hpage : page < g.pagesPerBlock) (hne : area * g.blocksPerArea + b ≠ number) :
    eraseBlock g flash number (g.absolute area b page) = flash (g.absolute area b page) := by
  have hdiv := (h.block_of hb hpage).1
  unfold eraseBlock
  rw [hdiv, if_neg hne]

theorem InRange.eraseBlock_self (h : InRange g area) (hblock : block < g.blocksPerArea) :
    Empty g (eraseBlock g flash (area * g.blocksPerArea + block)) area block := by
  intro page hpage
  have hdiv := (h.block_of hblock hpage).1
  unfold serialOn eraseBlock
  rw [hdiv, if_pos rfl]
  rfl

theorem handleBlockOverflow_same {newPage : PageAbs}
    (h : newPage / g.pagesPerBlock % 2 ^ 16 = getBlockNumberFromDirect g prev) :
    handleBlockOverflow g d flash newPage prev no = (.ok, no, flash) := if_neg (not_not.mpr h)

theorem handleBlockOverflow_other {newPage : PageAbs} {no' : SerialNo}
    (h : newPage / g.pagesPerBlock % 2 ^ 16 ≠ getBlockNumberFromDirect g prev)
    (hok : handleBlockOverflow g d flash newPage prev no = (.ok, no', flash')) :
    no' = Word.ofNat 4 0 ∧ flash' = eraseBlock g flash (getBlockNumberFromDirect g prev) := by
  unfold handleBlockOverflow at hok
  dsimp only at hok
  rw [if_pos h] at hok
  split at hok
  · simp only [Prod.mk.injEq, true_and] at hok
    exact ⟨hok.1.symm, hok.2.symm⟩
  · rename_i r herror
    injection hok with hr _
    exact absurd hr herror

/-- The pages of an entry in a block, and those of all other blocks. -/
theorem writeEntry_pages (hrange : InRange g area) (hblock : block < g.blocksPerArea) (hfits : first + needed ≤ g.pagesPerBlock)
    (hwrite : writeEntry d (g.absolute area block first) content needed 0 flash = (.ok, flash')) :
    (∀ k < needed, flash' (g.absolute area block (first + k)) = content k) ∧
      ∀ area' b, InRange g area' → b < g.blocksPerArea → ∀ page < g.pagesPerBlock,
        area' ≠ area ∨ b ≠ block ∨ page < first ∨ first + needed ≤ page →
        flash' (g.absolute area' b page) = flash (g.absolute area' b page) := by
  have hpages := writeEntry_ok hwrite
  have hin : ∀ page, g.absolute area block page = g.absolute area block 0 + page := fun page => rfl
  refine ⟨fun k hk => ?_, fun area' b hrange' hb page hpage hother => ?_⟩
  · have hhere : g.absolute area block first + 0 ≤ g.absolute area block (first + k) ∧
        g.absolute area block (first + k) < g.absolute area block first + 0 + needed := by
      rw [hin first, hin (first + k)]
      omega
    have hoffs : g.absolute area block (first + k) - g.absolute area block first = k := by
      rw [hin first, hin (first + k)]
      omega
    rw [hpages, if_pos hhere, hoffs]
  · refine (hpages _).trans (if_neg ?_)
    rintro ⟨hge, hlt⟩
    -- the pages written lie in one block
    have hpage' : g.absolute area' b page = g.absolute area block (g.absolute area' b page - g.absolute area block 0) := by
      rw [hin (g.absolute area' b page - g.absolute area block 0)]
      rw [hin first] at hge
      omega
    have hinside : g.absolute area' b page - g.absolute area block 0 < g.pagesPerBlock := by
      rw [hin first] at hge hlt
      omega
    have hdiv := (hrange'.block_of hb hpage).1
    rw [hpage', (hrange.block_of hblock hinside).1] at hdiv
    by_cases hsame : area' = area ∧ b = block
    · obtain ⟨rfl, rfl⟩ := hsame
      rw [hin first, hin page] at hge hlt
      omega
    · refine block_ne hblock hb ?_ hdiv
      by_cases harea : area = area'
      · exact .inr fun heq => hsame ⟨harea.symm, heq.symm⟩
      · exact .inl harea

/-- The next entry in a block, or the first. -/
theorem holds_of_written (hrange : InRange g area) (hblock : block < g.blocksPerArea)
    (hothers : ∀ b < g.blocksPerArea, b ≠ block → Empty g flash area b)
    (hbefore : ∀ page < first, serialOn flash (g.absolute area block page) ≠ emptySerial ∧
      (serialOn flash (g.absolute area block page)).toNat < no.toNat)
    (hbehind : ∀ page, first ≤ page → page < g.pagesPerBlock → serialOn flash (g.absolute area block page) = emptySerial)
    (hpos : 0 < needed) (hfits : first + needed ≤ g.pagesPerBlock) (hno : no.toNat ≤ first + 1)
    (hserial : ∀ k, (content k).readWord 0 4 = no)
    (hwrite : writeEntry d (g.absolute area block first) content needed 0 flash = (.ok, flash')) :
    Holds g flash' area block first needed no content := by
  have hempty : emptySerial.toNat = 2 ^ 32 - 1 := Word.toNat_ofNat (by decide)
  have hlt := g.pagesPerBlock_lt
  obtain ⟨hmine, hother⟩ := writeEntry_pages hrange hblock hfits hwrite
  refine ⟨hblock, fun b hb hne page hpage => ?_, ⟨fun page hpage => ?_, fun page hge hlt => ?_, fun page hge hlt => ?_, hpos, hfits, ?_⟩,
    hmine, hno⟩
  · unfold serialOn
    rw [hother area b hrange hb page hpage (.inr (.inl hne))]
    exact hothers b hb hne page hpage
  · unfold serialOn
    rw [hother area block hrange hblock page (by omega) (.inr (.inr (.inl hpage)))]
    exact hbefore page hpage
  · obtain ⟨k, rfl⟩ := Nat.exists_eq_add_of_le hge
    unfold serialOn
    rw [hmine k (by omega)]
    exact hserial k
  · unfold serialOn
    rw [hother area block hrange hblock page hlt (.inr (.inr (.inr hge)))]
    exact hbehind page (by omega) hlt
  · rintro rfl
    omega

/-- The first entry in an empty block. -/
theorem holds_first (hrange : InRange g area) (hblock : block < g.blocksPerArea)
    (hempty : ∀ b < g.blocksPerArea, Empty g flash area b) (hpos : 0 < needed) (hfits : needed ≤ g.pagesPerBlock)
    (hno : no.toNat ≤ 1) (hserial : ∀ k, (content k).readWord 0 4 = no)
    (hwrite : writeEntry d (g.absolute area block 0) content needed 0 flash = (.ok, flash')) :
    Holds g flash' area block 0 needed no content :=
  holds_of_written hrange hblock (fun b hb _ => hempty b hb) (fun _ hpage => absurd hpage (Nat.not_lt_zero _))
    (fun page _ hpage => hempty block hblock page hpage) hpos (by omega) (by omega) hserial hwrite

/-- An area in which the block of the entries was erased. -/
theorem Holds.erased (h : Holds g flash area block first needed no content) (hrange : InRange g area) :
    ∀ b < g.blocksPerArea, Empty g (eraseBlock g flash (area * g.blocksPerArea + block)) area b := by
  intro b hb
  by_cases heq : b = block
  · rw [heq]
    exact hrange.eraseBlock_self h.block_lt
  · intro page hpage
    unfold serialOn
    rw [hrange.eraseBlock_other hb hpage (block_ne hb h.block_lt (.inr heq))]
    exact h.others b hb heq page hpage

/-! ### One entry after the other -/

/-- What was written last is where it says. -/
def Kept (g : Geometry) (flash : Flash) (area : Nat) (w : Written) : Prop :=
  ∃ block first, w.area = area ∧ w.page = block * g.pagesPerBlock + first ∧
    Holds g flash area block first w.entry.needed w.no w.content

theorem Kept.recent (h : Kept g flash area w) (hrange : InRange g area) (hreads : AreaReadable g d area)
    (logPrev next : AreaPos) : ∃ e,
      readMostRecentEntryInArea g d flash area logPrev next = (.ok, some (combineAddress area w.found, e)) ∧
      e.outIndex = w.no ∧ e.logPrev = (w.content (foundAt w.entry.needed w.no)).readWord 4 2 ∧
      e.next = (w.content (foundAt w.entry.needed w.no)).readWord 6 2 ∧
      flash (area * g.totalPagesPerArea + w.found) = w.content (foundAt w.entry.needed w.no) := by
  obtain ⟨block, first, _, hpage, hholds⟩ := h
  obtain ⟨e, hrun, hindex, hfound⟩ := hholds.recent hrange hreads logPrev next
  have hcontent := hholds.pages _ (foundAt_lt w.entry.needed_pos w.no)
  have habsolute : area * g.totalPagesPerArea + w.found = g.absolute area block (first + foundAt w.entry.needed w.no) := by
    unfold Geometry.absolute Written.found
    omega
  refine ⟨e, ?_, hindex, ?_, ?_, ?_⟩
  · unfold Written.found
    rwa [hpage]
  · rw [hfound.logPrev, hcontent]
  · rw [hfound.next, hcontent]
  · rw [habsolute]
    exact hcontent

theorem Written.serial (w : Written) (k : Nat) : (w.content k).readWord 0 4 = w.no := w.entry.serial _ _ _

theorem handleBlockOverflow_cases {newPage : PageAbs} {no' : SerialNo}
    (hok : handleBlockOverflow g d flash newPage prev no = (.ok, no', flash')) :
    flash' = flash ∨ flash' = eraseBlock g flash (getBlockNumberFromDirect g prev) := by
  by_cases h : newPage / g.pagesPerBlock % 2 ^ 16 = getBlockNumberFromDirect g prev
  · rw [handleBlockOverflow_same h] at hok
    injection hok with _ hok
    injection hok with _ hflash
    exact .inl hflash.symm
  · exact .inr (handleBlockOverflow_other h hok).2

/-- Blocks of other areas stay, but for the block that is deleted. -/
theorem Inserted.other (h : Inserted g d flash prev no entry w flash') (hrange : InRange g w.area)
    (hblock : block < g.blocksPerArea) (hpage : w.page = block * g.pagesPerBlock + first)
    (hfits : first + entry.needed ≤ g.pagesPerBlock) {area' b page : Nat} (hrange' : InRange g area') (hb : b < g.blocksPerArea)
    (hlt : page < g.pagesPerBlock) (harea : area' ≠ w.area)
    (hprev : area' * g.blocksPerArea + b ≠ getBlockNumberFromDirect g prev) :
    flash' (g.absolute area' b page) = flash (g.absolute area' b page) := by
  obtain ⟨flash₁, hoverflow, hwrite⟩ := h.pages
  have hpos := entry.needed_pos
  rw [hpage, hrange.pageStart hblock (by omega)] at hoverflow hwrite
  rw [(writeEntry_pages hrange hblock hfits hwrite).2 area' b hrange' hb page hlt (.inl harea)]
  rcases handleBlockOverflow_cases hoverflow with rfl | rfl
  · rfl
  · exact hrange'.eraseBlock_other hb hlt hprev

/-- There is room behind the entry in its block. -/
def Written.Room (g : Geometry) (w : Written) (needed : Nat) : Prop :=
  w.page % g.pagesPerBlock + w.entry.needed + needed ≤ g.pagesPerBlock

instance (w : Written) (needed : Nat) : Decidable (w.Room g needed) := inferInstanceAs (Decidable (_ ≤ _))

theorem page_mod (hfirst : first < g.pagesPerBlock) : (block * g.pagesPerBlock + first) % g.pagesPerBlock = first := by
  rw [Nat.mul_comm, Nat.mul_add_mod, Nat.mod_eq_of_lt hfirst]

/-- The entry after another one in the same area. -/
theorem Kept.inserted (h : Kept g flash area w) (hrange : InRange g area) (htwo : 2 ≤ g.blocksPerArea)
    (hreads : AreaReadable g d area) (hfits : entry.needed ≤ g.pagesPerBlock)
    (hinsert : insertNewEntry g d flash area free left (combineAddress area w.found) (Word.ofNat 4 (w.no.toNat + 1)) entry =
      (.ok, some w', flash')) (harea : w'.area = area) :
    Kept g flash' area w' ∧ (w.Room g entry.needed → w'.no.toNat ≠ 0) := by
  obtain ⟨block, first, _, hwpage, h⟩ := h
  have hblock := h.block_lt
  have hroom := h.entries.fits
  have hneeded := h.entries.needed_pos
  have hpages := g.pagesPerBlock_lt
  have hpos := entry.needed_pos
  have hat := foundAt_lt hneeded w.no
  have hprev := hrange.getBlockNumber hblock (show first + foundAt w.entry.needed w.no < g.pagesPerBlock by omega)
  rw [← Nat.add_assoc, ← hwpage] at hprev
  obtain ⟨⟨hentry, _, flash₁, hoverflow, hwrite⟩, hfind⟩ := insertNewEntry_ok hinsert
  change getBlockNumberFromDirect g (combineAddress area w.found) = _ at hprev
  rw [harea] at hoverflow hwrite
  have hfree := h.findFirstFree hrange hreads hpos hfits
  have hother : ∀ block' < g.blocksPerArea, block' ≠ block → w'.page = block' * g.pagesPerBlock + 0 → Kept g flash' area w' := by
    intro block' hblock' hne hpage
    have hnewblock : g.absolute area block' 0 / g.pagesPerBlock % 2 ^ 16 ≠
        getBlockNumberFromDirect g (combineAddress area w.found) := by
      rw [hprev, hrange.newblock hblock' g.pagesPerBlock_pos]
      exact block_ne hblock' hblock (.inr hne)
    rw [hpage, hrange.pageStart hblock' g.pagesPerBlock_pos] at hoverflow hwrite
    obtain ⟨hno, hflash⟩ := handleBlockOverflow_other hnewblock hoverflow
    rw [hprev] at hflash
    subst hflash
    rw [← hentry] at hwrite hfits
    refine ⟨block', 0, harea, hpage, holds_first hrange hblock' (h.erased hrange) w'.entry.needed_pos hfits ?_ w'.serial hwrite⟩
    rw [hno, toNat_zero]
    omega
  by_cases hfit : first + w.entry.needed + entry.needed ≤ g.pagesPerBlock
  · -- there is room in the block
    rw [if_pos hfit] at hfree
    have hpage : w'.page = block * g.pagesPerBlock + (first + w.entry.needed) := by
      rcases hfind with ⟨hok, _⟩ | ⟨hnot, _⟩
      · rw [hfree] at hok
        injection hok with _ hpage
        exact hpage.symm
      · rw [hfree] at hnot
        cases hnot
    have hlt : first + w.entry.needed < g.pagesPerBlock := by omega
    rw [hpage, hrange.pageStart hblock hlt] at hoverflow hwrite
    rw [handleBlockOverflow_same ((hrange.newblock hblock hlt).trans hprev.symm)] at hoverflow
    injection hoverflow with _ hoverflow
    injection hoverflow with hno hflash
    have hsucc : w'.no.toNat = w.no.toNat + 1 := by
      have hle := h.no_le
      rw [← hno]
      exact Word.toNat_ofNat (by omega)
    rw [← hflash, ← hentry] at hwrite
    rw [← hentry] at hfit
    refine ⟨⟨block, _, harea, hpage, holds_of_written hrange hblock h.others (fun page hlt => ?_) h.entries.behind
      w'.entry.needed_pos hfit ?_ w'.serial hwrite⟩, fun _ => by omega⟩
    · refine ⟨h.entries.filled.1 page hlt, ?_⟩
      rw [hsucc]
      rcases Nat.lt_or_ge page first with hbefore | hentry
      · exact Nat.lt_succ_of_lt (h.entries.before page hbefore).2
      · have hserial : serialOn flash (g.absolute area block page) = w.no := h.entries.entry page hentry hlt
        rw [hserial]
        exact Nat.lt_succ_self _
    · have hle := h.no_le
      rw [hsucc]
      omega
  · have hnoroom : ¬ w.Room g entry.needed := by
      unfold Written.Room
      rwa [hwpage, page_mod (by omega)]
    rw [if_neg hfit] at hfree
    refine ⟨?_, fun hroom => absurd hroom hnoroom⟩
    by_cases hlast : block + 1 = g.blocksPerArea
    · -- the first block is taken again
      rw [if_pos hlast] at hfree
      have hpage : w'.page = 0 := by
        rcases hfind with ⟨hok, _⟩ | ⟨_, hpage, _⟩
        · rw [hfree] at hok
          cases hok
        · exact hpage
      exact hother 0 (by omega) (by omega) (by rw [hpage, Nat.zero_mul])
    · rw [if_neg hlast] at hfree
      have hpage : w'.page = (block + 1) * g.pagesPerBlock + 0 := by
        rcases hfind with ⟨hok, _⟩ | ⟨hnot, _⟩
        · rw [hfree] at hok
          injection hok with _ hpage
          exact hpage.symm
        · rw [hfree] at hnot
          cases hnot
      exact hother (block + 1) (by omega) (by omega) hpage

/-- Nothing is programmed in an area. -/
def Fresh (g : Geometry) (flash : Flash) (area : Nat) : Prop := ∀ block < g.blocksPerArea, Empty g flash area block

/-- The first entry of a new chain. -/
theorem kept_created (hfresh : Fresh g flash area) (hrange : InRange g area) (hreads : AreaReadable g d area)
    (hfits : entry.needed ≤ g.pagesPerBlock)
    (hinsert : insertNewEntry g d flash area free left (combineAddress area 0) (Word.ofNat 4 1) entry = (.ok, some w, flash')) :
    Kept g flash' area w ∧ w.no.toNat ≠ 0 := by
  have hblocks := g.blocksPerArea_pos
  obtain ⟨⟨hentry, _, flash₁, hoverflow, hwrite⟩, hfind⟩ := insertNewEntry_ok hinsert
  have hfree := findFirstFree_empty hfresh hrange hreads entry.needed_pos hfits
  have hpage : w.page = 0 ∧ w.area = area := by
    rcases hfind with ⟨hok, harea⟩ | ⟨hnot, _⟩
    · rw [hfree] at hok
      injection hok with _ hpage
      exact ⟨hpage.symm, harea⟩
    · rw [hfree] at hnot
      cases hnot
  have hzero : w.page = 0 * g.pagesPerBlock + 0 := by rw [hpage.1, Nat.zero_mul]
  have hprev := hrange.getBlockNumber hblocks g.pagesPerBlock_pos
  rw [Nat.zero_mul] at hprev
  rw [hpage.2, hzero, hrange.pageStart hblocks g.pagesPerBlock_pos] at hoverflow hwrite
  rw [handleBlockOverflow_same ((hrange.newblock hblocks g.pagesPerBlock_pos).trans hprev.symm)] at hoverflow
  injection hoverflow with _ hoverflow
  injection hoverflow with hno hflash
  have hone : w.no.toNat = 1 := by
    rw [← hno]
    exact Word.toNat_ofNat (by decide)
  rw [← hflash, ← hentry] at hwrite
  rw [← hentry] at hfits
  exact ⟨⟨0, 0, hpage.2, hzero, holds_first hrange hblocks hfresh w.entry.needed_pos hfits (by omega) w.serial hwrite⟩, by omega⟩

/-- The block of an address in an area of the device. -/
theorem getBlockNumber_old {old : Nat} (htotal : g.totalPagesPerArea = g.blocksPerArea * g.pagesPerBlock) (hold : old < g.areasNo)
    (hprev : extractLogicalArea prev = old ∧ extractPageOffs prev < g.totalPagesPerArea) :
    ∃ b < g.blocksPerArea, getBlockNumberFromDirect g prev = old * g.blocksPerArea + b := by
  have hdevice : (old + 1) * g.blocksPerArea ≤ g.blocksTotal := (Nat.mul_le_mul_right _ hold).trans (Nat.div_mul_le_self _ _)
  have hoffs : extractPageOffs prev / g.pagesPerBlock < g.blocksPerArea := by
    refine (Nat.div_lt_iff_lt_mul g.pagesPerBlock_pos).mpr ?_
    rw [← htotal]
    exact hprev.2
  have hlt := g.blocksTotal_lt
  refine ⟨_, hoffs, ?_⟩
  unfold getBlockNumberFromDirect
  rw [hprev.1]
  rw [Nat.add_mul, Nat.one_mul] at hdevice
  exact Nat.mod_eq_of_lt (by omega)

/-- The first entry in an area to which an element moves. -/
theorem kept_moved {old : Nat} (hfresh : Fresh g flash area) (hrange : InRange g area) (hfits : entry.needed ≤ g.pagesPerBlock)
    (hold : old ≠ area ∧ old < g.areasNo) (hprev : extractLogicalArea prev = old ∧ extractPageOffs prev < g.totalPagesPerArea)
    (hinsert : insertNewEntry g d flash old free left prev no entry = (.ok, some w, flash')) (harea : w.area = area) :
    Kept g flash' area w ∧ w.no.toNat = 0 := by
  have hblocks := g.blocksPerArea_pos
  obtain ⟨⟨hentry, _, flash₁, hoverflow, hwrite⟩, hfind⟩ := insertNewEntry_ok hinsert
  have hpage : w.page = 0 := by
    rcases hfind with ⟨_, hsame⟩ | ⟨_, hpage, _⟩
    · exact absurd (hsame.symm.trans harea) hold.1
    · exact hpage
  have hzero : w.page = 0 * g.pagesPerBlock + 0 := by rw [hpage, Nat.zero_mul]
  rw [harea, hzero, hrange.pageStart hblocks g.pagesPerBlock_pos] at hoverflow hwrite
  -- the entry before lies in another area
  obtain ⟨b, hb, hblock⟩ := getBlockNumber_old hrange.total_eq hold.2 hprev
  have hnewblock : g.absolute area 0 0 / g.pagesPerBlock % 2 ^ 16 ≠ getBlockNumberFromDirect g prev := by
    rw [hrange.newblock hblocks g.pagesPerBlock_pos, hblock]
    exact block_ne hblocks hb (.inl (Ne.symm hold.1))
  obtain ⟨hno, hflash⟩ := handleBlockOverflow_other hnewblock hoverflow
  have hempty : Fresh g flash₁ area := by
    intro b' hb' page hlt
    have hne : area * g.blocksPerArea + b' ≠ old * g.blocksPerArea + b := block_ne hb' hb (.inl (Ne.symm hold.1))
    rw [hflash, hblock]
    unfold serialOn
    rw [hrange.eraseBlock_other hb' hlt hne]
    exact hfresh b' hb' page hlt
  have hnozero : w.no.toNat = 0 := by rw [hno, toNat_zero]
  rw [← hentry] at hwrite hfits
  exact ⟨⟨0, 0, harea, hzero, holds_first hrange hblocks hempty w.entry.needed_pos hfits (by omega) w.serial hwrite⟩, hnozero⟩

theorem Kept.page_lt (h : Kept g flash area w) : w.found < g.blocksPerArea * g.pagesPerBlock := by
  obtain ⟨block, first, _, hpage, hholds⟩ := h
  have hat := foundAt_lt hholds.entries.needed_pos w.no
  have hfits := hholds.entries.fits
  have hlast : block * g.pagesPerBlock + g.pagesPerBlock ≤ g.blocksPerArea * g.pagesPerBlock := by
    rw [← Nat.succ_mul]
    exact Nat.mul_le_mul_right _ hholds.block_lt
  unfold Written.found
  omega

/-- The address that is found lies in the area. -/
theorem Kept.extract (h : Kept g flash area w) (hrange : InRange g area) :
    extractLogicalArea (combineAddress area w.found) = area ∧ extractPageOffs (combineAddress area w.found) = w.found := by
  have hlt := h.page_lt
  have hle : g.blocksPerArea * g.pagesPerBlock ≤ 2 ^ 16 := (Nat.le_mul_of_pos_left _ (Nat.succ_pos area)).trans hrange
  exact extract_combine hrange.area_lt (by omega)

/-- The page that is found, as an address and as it lies on flash. -/
theorem Kept.getPageNumber (h : Kept g flash area w) (hrange : InRange g area) (harea : area < g.areasNo) :
    getPageNumberFromDirect g (combineAddress area w.found) = area * g.totalPagesPerArea + w.found := by
  obtain ⟨block, first, _, hpage, hholds⟩ := h
  have hat := foundAt_lt hholds.entries.needed_pos w.no
  have hfits := hholds.entries.fits
  have hnumber := hrange.getPageNumber harea hholds.block_lt
    (show first + foundAt w.entry.needed w.no < g.pagesPerBlock by omega)
  unfold Geometry.absolute at hnumber
  rw [← Nat.add_assoc, ← hpage] at hnumber
  refine hnumber.trans ?_
  unfold Written.found
  rw [hpage]
  ring

/-- All pages of the entry. -/
theorem Kept.pages (h : Kept g flash area w) {k : Nat} (hk : k < w.entry.needed) :
    flash (area * g.totalPagesPerArea + w.page + k) = w.content k := by
  obtain ⟨block, first, _, hpage, hholds⟩ := h
  have habsolute : area * g.totalPagesPerArea + w.page + k = g.absolute area block (first + k) := by
    unfold Geometry.absolute
    omega
  rw [habsolute]
  exact hholds.pages k hk

theorem Kept.no_ne (h : Kept g flash area w) : w.no ≠ emptySerial := by
  obtain ⟨_, _, _, _, hholds⟩ := h
  exact hholds.entries.no_ne

/-- An area with an entry is not empty. -/
theorem Kept.not_fresh (h : Kept g flash area w) : ¬ Fresh g flash area := by
  obtain ⟨block, first, _, _, hholds⟩ := h
  have hpos := hholds.entries.needed_pos
  have hfits := hholds.entries.fits
  intro hfresh
  have hempty : serialOn flash (g.absolute area block first) = emptySerial := hfresh block hholds.block_lt first (by omega)
  have hserial : serialOn flash (g.absolute area block first) = w.no := hholds.entries.entry first (Nat.le_refl _) (by omega)
  exact hholds.entries.no_ne (hserial.symm.trans hempty)

/-- All pages of an area are as they were. -/
def Same (g : Geometry) (flash flash' : Flash) (area : Nat) : Prop :=
  ∀ block < g.blocksPerArea, ∀ page < g.pagesPerBlock, flash' (g.absolute area block page) = flash (g.absolute area block page)

theorem Kept.congr (h : Kept g flash area w) (hsame : Same g flash flash' area) : Kept g flash' area w := by
  obtain ⟨block, first, harea, hpage, hholds⟩ := h
  have hfits := hholds.entries.fits
  have hserial : ∀ b < g.blocksPerArea, ∀ page < g.pagesPerBlock,
      serialOn flash' (g.absolute area b page) = serialOn flash (g.absolute area b page) :=
    fun b hb page hpage => congrArg (fun m => Memory.readWord m 0 4) (hsame b hb page hpage)
  refine ⟨block, first, harea, hpage, hholds.block_lt, fun b hb hne page hlt => ?_,
    hholds.entries.congr fun page hlt => hserial block hholds.block_lt page hlt, fun k hk => ?_, hholds.no_le⟩
  · rw [hserial b hb page hlt]
    exact hholds.others b hb hne page hlt
  · rw [hsame block hholds.block_lt (first + k) (by omega)]
    exact hholds.pages k hk

/-- What is asked of the area that is taken: it is one of the device, and it is erased. -/
structure Vacant (g : Geometry) (flash : Flash) (area : Nat) : Prop where
  area_lt : area < g.areasNo
  fresh : Fresh g flash area
  inRange : InRange g area

/-- An insertion leaves all areas as they are, but for its own and the one of the entry before. -/
theorem Inserted.same (h : Inserted g d flash prev no entry w flash') (hkept : Kept g flash' w.area w) (hrange : InRange g w.area)
    {old b : Nat} (hb : b < g.blocksPerArea) (hprev : getBlockNumberFromDirect g prev = old * g.blocksPerArea + b) :
    ∀ area, InRange g area → area ≠ old → area ≠ w.area → Same g flash flash' area := by
  intro area hrangea hne hne' b' hb' page hlt
  obtain ⟨block, first, _, hpage, hholds⟩ := hkept
  have hfits := hholds.entries.fits
  rw [h.entry_eq] at hfits
  refine h.other hrange hholds.block_lt hpage hfits hrangea hb' hlt hne' ?_
  rw [hprev]
  exact block_ne hb' hb (.inl hne)

/-- The same for the first entry of a new chain. -/
theorem created_same (h : Inserted g d flash (combineAddress area 0) no entry w flash') (hkept : Kept g flash' area w)
    (hrange : InRange g area) : ∀ area', InRange g area' → area' ≠ area → Same g flash flash' area' := by
  have hprev := hrange.getBlockNumber g.blocksPerArea_pos g.pagesPerBlock_pos
  rw [Nat.zero_mul] at hprev
  obtain ⟨_, _, harea, _⟩ := id hkept
  subst harea
  exact fun area' hrange' hne => h.same hkept hrange g.blocksPerArea_pos hprev area' hrange' hne hne

/-- What an insertion leaves behind it. -/
structure Follows (g : Geometry) (flash : Flash) (w : Written) (entry : Entry) (w' : Written) (flash' : Flash) : Prop where
  kept : Kept g flash' w'.area w'
  entry_eq : w'.entry = entry
  isPlausible : entry.isPlausible
  vacant : w'.area ≠ w.area → Vacant g flash w'.area
  same : ∀ area, InRange g area → area ≠ w.area → area ≠ w'.area → Same g flash flash' area
  stays : w.Room g entry.needed → w'.area = w.area
  found : entry.needed = 1 ∨ w.Room g entry.needed → w'.found = w'.page

theorem found_eq (h : w.entry.needed = 1 ∨ w.no.toNat ≠ 0) : w.found = w.page := by
  have hzero : foundAt w.entry.needed w.no = 0 := by
    unfold foundAt
    rcases h with hone | hne
    · rw [hone, ite_self]
    · rw [if_neg hne]
  unfold Written.found
  rw [hzero, Nat.add_zero]

theorem writeEntry_one (pageStart : PageAbs) :
    (writeEntry d pageStart content 1 0 flash).1 = .ok ∨ (writeEntry d pageStart content 1 0 flash).2 = flash := by
  unfold writeEntry
  split
  · exact .inl rfl
  · exact .inr rfl

/-- With room behind the entry, the next one goes to the same block. -/
theorem Kept.findFirstFree {requiredPages : Nat} (h : Kept g flash w.area w) (hrange : InRange g w.area)
    (hreads : AreaReadable g d w.area) (hpos : 0 < requiredPages) (hroom : w.Room g requiredPages) :
    findFirstFreeEntryInArea g d flash w.area requiredPages = (.ok, w.page + w.entry.needed) ∧
      (w.area * g.totalPagesPerArea + (w.page + w.entry.needed)) % 2 ^ 32 / g.pagesPerBlock % 2 ^ 16 =
        getBlockNumberFromDirect g (combineAddress w.area w.found) := by
  obtain ⟨block, first, _, hpage, hholds⟩ := h
  have hblock := hholds.block_lt
  have hfits := hholds.entries.fits
  have hneeded := hholds.entries.needed_pos
  have hat := foundAt_lt hneeded w.no
  have hfit : first + w.entry.needed + requiredPages ≤ g.pagesPerBlock := by
    unfold Written.Room at hroom
    rwa [hpage, page_mod (by omega)] at hroom
  have hfind := hholds.findFirstFree hrange hreads hpos (by omega)
  rw [if_pos hfit] at hfind
  have hprev := hrange.getBlockNumber hblock (show first + foundAt w.entry.needed w.no < g.pagesPerBlock by omega)
  rw [← Nat.add_assoc, ← hpage] at hprev
  change getBlockNumberFromDirect g (combineAddress w.area w.found) = _ at hprev
  refine ⟨by rw [hfind, hpage, Nat.add_assoc], ?_⟩
  have hlt : first + w.entry.needed < g.pagesPerBlock := by omega
  rw [hpage, Nat.add_assoc, hrange.pageStart hblock hlt, hrange.newblock hblock hlt, hprev]

/-- An entry of one page in the same block is written as a whole or not at all. -/
theorem Kept.interrupted {o : Option Written} {r : Result} (h : Kept g flash w.area w) (hrange : InRange g w.area)
    (hreads : AreaReadable g d w.area) (hone : entry.needed = 1) (hroom : w.Room g 1)
    (hinsert : insertNewEntry g d flash w.area free left (combineAddress w.area w.found) (Word.ofNat 4 (w.no.toNat + 1)) entry =
      (r, o, flash')) (hr : r ≠ .ok) : flash' = flash := by
  obtain ⟨hfind, hblock⟩ := h.findFirstFree hrange hreads Nat.one_pos hroom
  unfold insertNewEntry at hinsert
  rw [hone, hfind] at hinsert
  dsimp only at hinsert
  unfold insertAt at hinsert
  dsimp only at hinsert
  rw [handleBlockOverflow_same hblock] at hinsert
  dsimp only at hinsert
  split_ifs at hinsert
  · rw [hone] at hinsert
    have hwrite := @writeEntry_one d flash (entry.page (Word.ofNat 2 0) (Word.ofNat 4 (w.no.toNat + 1)))
      ((w.area * g.totalPagesPerArea + (w.page + w.entry.needed)) % 2 ^ 32)
    split at hinsert
    · injection hinsert with hok
      exact absurd hok.symm hr
    · rename_i hpages
      injection hinsert with hresult hinsert
      injection hinsert with _ hflash
      rw [hpages] at hwrite
      exact hflash ▸ hwrite.resolve_left fun hok => hr (hresult.symm.trans hok)
  · injection hinsert with _ hinsert
    injection hinsert with _ hflash
    exact hflash.symm

/-- One element is written, in its area or in another. -/
theorem Kept.follows (h : Kept g flash w.area w) (hrange : InRange g w.area) (harea : w.area < g.areasNo)
    (htwo : 2 ≤ g.blocksPerArea) (hreads : AreaReadable g d w.area) (hfits : entry.needed ≤ g.pagesPerBlock)
    (hfree : ∀ area, free = some area → Vacant g flash area)
    (hinsert : insertNewEntry g d flash w.area free left (combineAddress w.area w.found) (Word.ofNat 4 (w.no.toNat + 1)) entry =
      (.ok, some w', flash')) : Follows g flash w entry w' flash' := by
  obtain ⟨hinserted, hfind⟩ := insertNewEntry_ok hinsert
  have hextract := h.extract hrange
  obtain ⟨block, first, _, hpage, hholds⟩ := id h
  have hfits' := hholds.entries.fits
  have hpos := hholds.entries.needed_pos
  have hat := foundAt_lt hpos w.no
  have hprev := hrange.getBlockNumber hholds.block_lt (show first + foundAt w.entry.needed w.no < g.pagesPerBlock by omega)
  rw [← Nat.add_assoc, ← hpage] at hprev
  change getBlockNumberFromDirect g (combineAddress w.area w.found) = _ at hprev
  have hwhole := fun hkept hrange' => hinserted.same hkept hrange' hholds.block_lt hprev
  by_cases hsame : w'.area = w.area
  · obtain ⟨hkept, hroom⟩ := h.inserted hrange htwo hreads hfits hinsert hsame
    rw [← hsame] at hkept
    refine ⟨hkept, hinserted.entry_eq, hinserted.isPlausible, fun hne => absurd hsame hne,
      hwhole hkept (hsame.symm ▸ hrange), fun _ => hsame, fun hfound => found_eq ?_⟩
    rw [hinserted.entry_eq]
    exact hfound.imp_right hroom
  · have hmoved : w'.area = free.getD w.area ∧ (findFirstFreeEntryInArea g d flash w.area entry.needed).1 = .notFound := by
      rcases hfind with ⟨_, heq⟩ | ⟨hnot, _, heq⟩
      · exact absurd heq hsame
      · exact ⟨heq, hnot⟩
    have hfull : ¬ w.Room g entry.needed := by
      intro hroom
      rw [(h.findFirstFree hrange hreads entry.needed_pos hroom).1] at hmoved
      cases hmoved.2
    have hvacant : Vacant g flash w'.area := by
      rw [hmoved.1] at hsame ⊢
      cases hfreeArea : free with
      | none =>
        rw [hfreeArea] at hsame
        exact absurd rfl hsame
      | some area => exact hfree area hfreeArea
    have hoffs : extractPageOffs (combineAddress w.area w.found) < g.totalPagesPerArea := by
      rw [hextract.2, hrange.total_eq]
      exact h.page_lt
    obtain ⟨hkept, _⟩ :=
      kept_moved hvacant.fresh hvacant.inRange hfits ⟨Ne.symm hsame, harea⟩ ⟨hextract.1, hoffs⟩ hinsert rfl
    refine ⟨hkept, hinserted.entry_eq, hinserted.isPlausible, fun _ => hvacant, hwhole hkept hvacant.inRange,
      fun hroom => absurd hroom hfull, fun hfound => found_eq ?_⟩
    rw [hinserted.entry_eq]
    exact hfound.imp_right fun hroom => absurd hroom hfull

end Paffs.Superblock
