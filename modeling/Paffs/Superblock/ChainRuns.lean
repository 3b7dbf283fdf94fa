import Paffs.Superblock.ChainElement

/-! Chain elements from one entry to the next: the entry found is the one written, where pages are counted in 16 bits. -/
namespace Paffs.Superblock
open Bytes (Memory Word)

variable {g : Geometry} {d : Driver} {flash flash' : Flash} {area : Nat} {w : Written}

/-- What a chain element in one area went through: it was created or moved there, and each later entry came after the one before
was read. Entries fit into a block, and an area to which an element moves is erased. -/
inductive Committed (g : Geometry) (area : Nat) : Flash → Written → Prop
  | created {d : Driver} {flash flash' : Flash} {free : Option Nat} {left : AreaPos} {entry : Entry} {w : Written}
      (hfresh : Fresh g flash area) (hreads : AreaReadable g d area) (hfits : entry.needed ≤ g.pagesPerBlock)
      (hinsert : insertNewEntry g d flash area free left (combineAddress area 0) (Word.ofNat 4 1) entry = (.ok, some w, flash')) :
      Committed g area flash' w
  | moved {d : Driver} {flash flash' : Flash} {old : Nat} {free : Option Nat} {left : AreaPos} {prev : Addr} {no : SerialNo}
      {entry : Entry} {w : Written} (hfresh : Fresh g flash area) (hfits : entry.needed ≤ g.pagesPerBlock)
      (hold : old ≠ area ∧ old < g.areasNo) (hprev : extractLogicalArea prev = old ∧ extractPageOffs prev < g.totalPagesPerArea)
      (hinsert : insertNewEntry g d flash old free left prev no entry = (.ok, some w, flash')) (harea : w.area = area) :
      Committed g area flash' w
  | later {d d' : Driver} {flash flash' : Flash} {free : Option Nat} {left : AreaPos} {entry : Entry} {w w' : Written} {addr : Addr}
      {e : Recent} {logPrev next : AreaPos} (hbefore : Committed g area flash w) (hreads : AreaReadable g d area)
      (hrecent : readMostRecentEntryInArea g d flash area logPrev next = (.ok, some (addr, e))) (hreads' : AreaReadable g d' area)
      (hfits : entry.needed ≤ g.pagesPerBlock)
      (hinsert : insertNewEntry g d' flash area free left addr (Word.ofNat 4 (e.outIndex.toNat + 1)) entry = (.ok, some w', flash'))
      (harea : w'.area = area) :
      Committed g area flash' w'

theorem Committed.kept (h : Committed g area flash w) (hrange : InRange g area) (htwo : 2 ≤ g.blocksPerArea) :
    Kept g flash area w := by
  induction h with
  | created hfresh hreads hfits hinsert => exact (kept_created hfresh hrange hreads hfits hinsert).1
  | moved hfresh hfits hold hprev hinsert harea => exact (kept_moved hfresh hrange hfits hold hprev hinsert harea).1
  | later hbefore hreads hrecent hreads' hfits hinsert harea ih =>
    obtain ⟨e', hrun, hindex, _⟩ := ih.recent hrange hreads _ _
    rw [hrun] at hrecent
    simp only [Prod.mk.injEq, Option.some.injEq, true_and] at hrecent
    obtain ⟨rfl, rfl⟩ := hrecent
    rw [hindex] at hinsert
    exact (ih.inserted hrange htwo hreads' hfits hinsert harea).1

/-! ### The areas whose pages are found -/

/-- The pages of an area are read where they are, on every flash, and the entry written last is found. -/
structure Exact (g : Geometry) (area : Nat) : Prop where
  reads : ∀ d flash block requiredPages, block < g.blocksPerArea → ∃ m,
    (findFirstFreeEntryInBlock g d flash area block requiredPages).2.reads = (List.range m).map (g.absolute area block)
  inBlock : ∀ d flash block logPrev next e, block < g.blocksPerArea →
    readMostRecentEntryInBlock g d flash area block logPrev next = (.ok, e) →
    ∃ page < g.pagesPerBlock, e.outPos = g.absolute area block page ∧ Found flash (g.absolute area block page) e
  inArea : ∀ d flash logPrev next addr e, readMostRecentEntryInArea g d flash area logPrev next = (.ok, some (addr, e)) →
    ∃ block < g.blocksPerArea, ∃ page < g.pagesPerBlock, addr = combineAddress area (block * g.pagesPerBlock + page) ∧
      getPageNumberFromDirect g addr = g.absolute area block page ∧ Found flash (g.absolute area block page) e
  written : ∀ d flash logPrev next w, Committed g area flash w → AreaReadable g d area → ∃ k < w.entry.needed, ∃ e,
    readMostRecentEntryInArea g d flash area logPrev next = (.ok, some (combineAddress area (w.page + k), e)) ∧
      e.outIndex = w.no ∧ flash (area * g.totalPagesPerArea + (w.page + k)) = w.content k

theorem InRange.exact (h : InRange g area) (harea : area < g.areasNo) (htwo : 2 ≤ g.blocksPerArea) : Exact g area where
  reads _ _ _ requiredPages hblock := h.reads_eq hblock requiredPages
  inBlock _ _ _ _ _ _ hblock hrun := h.block_found hblock hrun
  inArea _ _ _ _ addr e hrun := by
    obtain ⟨block, hblock, page, hpage, haddr, hfound⟩ := h.area_found hrun
    exact ⟨block, hblock, page, hpage, haddr, haddr ▸ h.getPageNumber harea hblock hpage, hfound⟩
  written _ _ logPrev next w hcommitted hreads := by
    obtain ⟨e, hrun, hindex, _, _, hcontent⟩ := (hcommitted.kept h htwo).recent h hreads logPrev next
    exact ⟨_, foundAt_lt w.entry.needed_pos w.no, e, hrun, hindex, hcontent⟩

/-- A flash on which each page carries its own number, and one more. -/
def numbered : Flash := fun page => Memory.writeWord (fun _ => 0xFF) 0 4 (Word.ofNat 4 (page + 1))

theorem serialOn_numbered (page : PageAbs) : serialOn numbered page = Word.ofNat 4 (page + 1) :=
  Memory.readWord_writeWord_self _ _ _ _

def answering : Driver := ⟨fun _ => .ok, fun _ => .ok, fun _ => .ok⟩

/-- The last page of the area would have to be told from all those that can be counted. -/
theorem InRange.of_exact (h : Exact g area) (harea : area < g.areasNo) : InRange g area := by
  have hpos := g.pagesPerBlock_pos
  have hblocks := g.blocksPerArea_pos
  have hpages := g.pagesPerBlock_lt
  have htotal := g.blocksTotal_lt
  have hdevice : (area + 1) * g.blocksPerArea ≤ g.blocksTotal :=
    (Nat.mul_le_mul_right _ harea).trans (Nat.div_mul_le_self _ _)
  have hsize : (area + 1) * g.blocksPerArea * g.pagesPerBlock ≤ (2 ^ 16 - 1) * (2 ^ 16 - 1) :=
    Nat.mul_le_mul (by omega) (by omega)
  -- the pages of the last block, as they are counted in 32 bits
  generalize hbase : g.pagesPerBlock * (g.blocksPerArea - 1 + area * g.blocksPerArea) = base
  have hend : base + g.pagesPerBlock = (area + 1) * g.blocksPerArea * g.pagesPerBlock := by
    have hlast : g.blocksPerArea - 1 + area * g.blocksPerArea + 1 = (area + 1) * g.blocksPerArea := by
      rw [Nat.add_mul, Nat.one_mul]
      omega
    rw [← hbase, ← hlast]
    ring
  have hpage : ∀ page < g.pagesPerBlock, (page + base % 2 ^ 32) % 2 ^ 32 = page + base := by
    intro page hlt
    omega
  have hserial : ∀ page : Nat, page < 2 ^ 32 - 1 → (serialOn numbered page).toNat = page + 1 := by
    intro page hlt
    rw [serialOn_numbered]
    exact Word.toNat_ofNat (by omega)
  have hempty : emptySerial.toNat = 2 ^ 32 - 1 := Word.toNat_ofNat (by decide)
  have hblock : Block (fun page => serialOn numbered ((page + base % 2 ^ 32) % 2 ^ 32)) g.pagesPerBlock (g.pagesPerBlock - 1) 1
      (serialOn numbered (g.pagesPerBlock - 1 + base)) := by
    have hlarge : (serialOn numbered (g.pagesPerBlock - 1 + base)).toNat = g.pagesPerBlock - 1 + base + 1 :=
      hserial _ (by omega)
    refine ⟨fun page hlt => ?_, fun page hge hlt => ?_, fun page hge hlt => ?_, Nat.one_pos, by omega, ?_⟩
    · rw [hpage page (by omega)]
      have hsmall := hserial (page + base) (by omega)
      refine ⟨fun heq => ?_, by omega⟩
      rw [heq] at hsmall
      omega
    · have heq : page = g.pagesPerBlock - 1 := by omega
      rw [heq, hpage _ (by omega)]
    · omega
    · intro heq
      rw [heq] at hlarge
      omega
  have hrun := @recentInBlock_block answering numbered (base % 2 ^ 32)
    ⟨0, Word.ofNat 4 0, false, Word.ofNat 2 0, Word.ofNat 2 0⟩ _ _ _ _ (fun _ _ => .inl rfl) hblock _ 0 (Nat.zero_add _)
    (Nat.zero_le _) (fun _ => toNat_zero 4) fun hne => absurd rfl hne
  have hlastpage : g.pagesPerBlock - 1 + foundAt 1 (serialOn numbered (g.pagesPerBlock - 1 + base)) = g.pagesPerBlock - 1 := by
    unfold foundAt
    split_ifs
    · rfl
    · rfl
  rw [hlastpage, ← hbase] at hrun
  obtain ⟨page', hpage', hpos', hfound⟩ := h.inBlock answering numbered (g.blocksPerArea - 1) (Word.ofNat 2 0) (Word.ofNat 2 0) _
    (by omega) hrun
  have hindex := hfound.outIndex
  generalize g.absolute area (g.blocksPerArea - 1) page' = absolute at hpos' hindex
  rw [hbase, recorded, hpage _ (by omega)] at hpos' hindex
  dsimp only at hpos' hindex
  have habsolute : absolute < 2 ^ 16 := by
    rw [← hpos']
    exact Nat.mod_lt _ (by decide)
  have hnumber := congrArg Word.toNat hindex
  rw [hserial _ (by omega), hserial _ (by omega)] at hnumber
  unfold InRange
  rw [← Nat.mul_assoc]
  omega

/-- In which areas of a device the pages of a chain element are found. -/
theorem chain_exact_iff (hinit : g.initializeDevice false = .ok) (harea : area < g.areasNo) :
    Exact g area ↔ (area + 1) * (g.blocksPerArea * g.pagesPerBlock) ≤ 2 ^ 16 :=
  ⟨fun h => InRange.of_exact h harea, fun h => InRange.exact h harea (Geometry.two_le hinit)⟩

/-! ### A flash with 4096 blocks -/

theorem bytes_lt : 4096 < 2 ^ 16 := by decide
theorem pages_lt : 64 < 2 ^ 16 := by decide
theorem blocks_lt : 4 < 2 ^ 8 := by decide
theorem pages_pos : 0 < 4 * 64 % 2 ^ 16 := by decide

def nand : Geometry where
  dataBytesPerPage := 4096
  pagesPerBlock := 64
  blocksTotal := 4096
  blocksPerArea := 4
  dataBytesPerPage_lt := bytes_lt
  pagesPerBlock_lt := pages_lt
  blocksTotal_lt := bytes_lt
  blocksPerArea_lt := blocks_lt
  total_pos := pages_pos

/-- The last area whose pages are found. -/
theorem exact_nand : Exact nand 255 := (chain_exact_iff (by decide) (by decide)).mpr (by decide)

/-- In the next area other pages are read. -/
theorem next_area_is_not_exact : ¬ ∀ (g : Geometry) (area : Nat), g.initializeDevice false = .ok → area < g.areasNo → Exact g area :=
  fun h => absurd (InRange.of_exact (h nand 256 (by decide) (by decide)) (by decide)) (by decide : ¬ 257 * (4 * 64) ≤ 2 ^ 16)

end Paffs.Superblock
