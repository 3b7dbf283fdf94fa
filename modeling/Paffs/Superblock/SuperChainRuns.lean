import Paffs.Superblock.ChainRuns
import Paffs.Superblock.SuperChainSpec

/-! Runs of commits: the newest index is found, where its pages are, and it outlives an interruption in a block with room. -/
namespace Paffs.Superblock
open Bytes (Memory Word)

variable {g : Geometry} {c : Config} {d : Driver} {param : Memory} {jumpPadNo : Nat} {flash flash' : Flash} {w : Written}
  {ws : List Written} {path : List Link} {index before : SuperIndex c} {p : Progress}

/-! ### What is looked for -/

/-- An index as it lies on flash. -/
def SuperIndex.written (index : SuperIndex c) (w : Written) : SuperIndex c := { index with no := w.no, logPrev := w.logPrev }

/-- The path leads through the areas in use, each entry names the area of the next one, and the last address is the first page of
the index. -/
structure Leads (ws : List Written) (path : List Link) : Prop where
  areas : path.map (fun l => extractLogicalArea l.1) = ws.map Written.area
  names : path.IsChain Follow
  last : path.getLast?.map Prod.fst = ws.getLast?.map fun w => combineAddress w.area w.page

/-- Whatever driver reads the pages, those of the index without a correction, the index is found. -/
def NewestFound (g : Geometry) (c : Config) (param : Memory) (jumpPadNo : Nat) (flash : Flash) (ws : List Written)
    (index : SuperIndex c) : Prop :=
  ∀ d, (∀ page, CanRead d page) → ∃ path, getPathToMostRecentSuperIndex g d flash jumpPadNo = (.ok, path) ∧ Leads ws path ∧
    ∀ addr, path.getLast?.map Prod.fst = some addr →
      (∀ k < neededPages c (neededFor c 2), d.readPage (getPageNumberFromDirect g addr + k) = .ok) → ∀ entry,
        readSuperPageIndex c d.readPage flash (getPageNumberFromDirect g addr) entry = some (.ok, index.into entry) ∧
          readSuperIndex g d c param flash jumpPadNo entry = checkSuperIndex path (index.into entry)

/-! ### Runs -/

/-- The elements of the chain when some of them were written. -/
def Progress.elements (p : Progress) (ws : List Written) : List Written := ws.take (ws.length - p.written.length) ++ p.written

/-- The index of the chain. It is the first thing that is written. -/
def Progress.newest (p : Progress) (index before : SuperIndex c) : SuperIndex c := (p.written.getLast?.map index.written).getD before

/-- A commit: the areas it may take, the elements it finds, and the index. -/
structure Commit (c : Config) where
  taken : Nat → Prop
  testmode : Bool
  before : List Written
  index : SuperIndex c
  interrupted : Bool

/-- A chain is created in empty areas, the anchor in area 0. -/
inductive Creates (g : Geometry) (param : Memory) (jumpPadNo : Nat) : Commit c → Progress → Flash → Prop
  | intro {d : Driver} {places : Places} {testmode asDirty mRootnodeDirty : Bool} {areas : List Nat} {index : SuperIndex c}
      {flash flash' : Flash} {p : Progress} (hlength : areas.length = jumpPadNo + 2) (hhead : areas.head? = some 0)
      (hnodup : areas.Nodup) (hempty : ∀ area ∈ areas, area < g.areasNo ∧ Fresh g flash area) (hreads : ∀ page, CanRead d page)
      (hcommit : commitSuperIndex g d places true testmode param (indexEntry c index) asDirty mRootnodeDirty (firstPath areas) flash =
        (.ok, p, flash')) :
      Creates g param jumpPadNo ⟨(· ∈ areas), testmode, [], index, false⟩ p flash'

/-- Later commits begin with the path that was read. They go through unless they are interrupted: a write or an erase fails. The
areas that are taken are empty. -/
inductive Commits (g : Geometry) (param : Memory) (jumpPadNo : Nat) : Flash → Commit c → Progress → Flash → Prop
  | intro {d d' : Driver} {places : Places} {testmode asDirty mRootnodeDirty interrupted : Bool} {index : SuperIndex c}
      {flash flash' : Flash} {ws : List Written} {path : List Link} {r : Result} {p : Progress}
      (hempty : ∀ i flash area, places.findBestNextFreeArea i flash = some area → area < g.areasNo ∧ Fresh g flash area)
      (hreads : ∀ page, CanRead d page) (hpath : getPathToMostRecentSuperIndex g d flash jumpPadNo = (.ok, path))
      (hreads' : ∀ page, CanRead d' page)
      (hcommit : commitSuperIndex g d' places false testmode param (indexEntry c index) asDirty mRootnodeDirty path flash =
        (r, p, flash'))
      (hends : interrupted = false → r = .ok) :
      Commits g param jumpPadNo flash
        ⟨fun area => ∃ i flash, places.findBestNextFreeArea i flash = some area, testmode, ws, index, interrupted⟩ p flash'

/-- One commit after the other, each of which meets what is asked of it. -/
inductive Run (g : Geometry) (c : Config) (param : Memory) (jumpPadNo : Nat) (holds : Commit c → Prop) :
    Flash → List Written → SuperIndex c → Prop
  | created {k : Commit c} {p : Progress} {flash' : Flash} {w : Written} (hcreates : Creates g param jumpPadNo k p flash')
      (hlast : p.written.getLast? = some w) (hholds : holds k) :
      Run g c param jumpPadNo holds flash' p.written (k.index.written w)
  | committed {k : Commit c} {p : Progress} {flash flash' : Flash} {before : SuperIndex c}
      (hrun : Run g c param jumpPadNo holds flash k.before before) (hcommits : Commits g param jumpPadNo flash k p flash')
      (hholds : holds k) :
      Run g c param jumpPadNo holds flash' (p.elements k.before) (p.newest k.index before)

theorem Run.mono {holds holds' : Commit c → Prop} (h : Run g c param jumpPadNo holds flash ws index)
    (himp : ∀ k, holds k → holds' k) : Run g c param jumpPadNo holds' flash ws index := by
  induction h with
  | created hcreates hlast hholds => exact .created hcreates hlast (himp _ hholds)
  | committed _ hcommits hholds ih => exact .committed ih hcommits (himp _ hholds)

/-- What a commit needs. The areas it takes are counted in 16 bits; the index fits into a block and takes as many pages as the
largest one would; its summaries are in order; and an index of several pages finds room behind the last one in its block. -/
structure Plain (g : Geometry) (k : Commit c) : Prop where
  inRange : ∀ area, k.taken area → InRange g area
  fits : neededPages c k.index.getNeededBytes ≤ g.pagesPerBlock
  whole : neededPages c (neededFor c 2) = neededPages c k.index.getNeededBytes
  inOrder : k.index.InOrder
  found : neededPages c k.index.getNeededBytes = 1 ∨
    ∀ w ∈ k.before.getLast?, w.Room g (neededPages c k.index.getNeededBytes)

/-- It may be interrupted if it stays in the blocks that it writes to. -/
def Safe (g : Geometry) (k : Commit c) : Prop := k.interrupted = true → Calm g k.testmode (indexEntry c k.index) k.before

/-! ### What holds between two commits -/

/-- The element of the index. -/
structure Newest (w : Written) (index : SuperIndex c) : Prop where
  entry : w.entry = indexEntry c index
  isPlausible : index.isPlausible = some true
  found : w.found = w.page
  whole : neededPages c (neededFor c 2) = neededPages c index.getNeededBytes
  inOrder : index.InOrder

structure Sound (g : Geometry) (param : Memory) (jumpPadNo : Nat) (flash : Flash) (ws : List Written) (index : SuperIndex c) :
    Prop where
  intact : Intact g flash ws
  length_eq : ws.length = jumpPadNo + 2
  zero : ws.head?.map Written.area = some 0
  anchor : ∃ w area, ws.head? = some w ∧ w.entry = anchorEntry param area
  newest : ∃ w index', ws.getLast? = some w ∧ Newest w index' ∧ index = index'.written w

theorem forall₂_getLast {α β : Type} {R : α → β → Prop} {xs : List α} {ys : List β} (h : List.Forall₂ R xs ys) {y : β}
    (hy : ys.getLast? = some y) : ∃ x, xs.getLast? = some x ∧ R x y := by
  induction h with
  | nil => cases hy
  | @cons x y' xs ys hR hrest ih =>
    cases hrest with
    | nil => exact ⟨x, rfl, Option.some.inj hy ▸ hR⟩
    | cons _ _ =>
      rw [List.getLast?_cons_cons] at hy ⊢
      exact ih hy

/-- The pages of the index are read back. -/
theorem Newest.readSuperPageIndex_eq (h : Newest w index) (hkept : Kept g flash w.area w) {status : PageAbs → Result}
    (hok : ∀ k < neededPages c (neededFor c 2), status (w.area * g.totalPagesPerArea + w.page + k) = .ok) (entry : SuperIndex c) :
    readSuperPageIndex c status flash (w.area * g.totalPagesPerArea + w.page) entry = some (.ok, (index.written w).into entry) := by
  have hneeded : w.entry.needed = neededPages c index.getNeededBytes := by rw [h.entry]; rfl
  have hpages : ∀ k < neededPages c index.getNeededBytes, flash (w.area * g.totalPagesPerArea + w.page + k) =
      pageContent w.no (Memory.store (fun _ => 0) 0 (index.written w).members) (k * (c.dataBytesPerPage - 4))
        (bytesOnPage c (k * (c.dataBytesPerPage - 4)) index.getNeededBytes) := by
    intro k hk
    rw [hkept.pages (hneeded.symm ▸ hk)]
    unfold Written.content
    rw [h.entry]
    change pageContent w.no ((index.written w).serializeToBuffer fun _ => 0).2 _ _ = _
    rw [SuperIndex.serializeToBuffer_eq]
  have haccepted : ∀ k < neededPages c (neededFor c 2),
      Accepted status flash w.no (w.area * g.totalPagesPerArea + w.page + k) := by
    intro k hk
    refine ⟨hok k hk, ?_⟩
    rw [hpages k (h.whole ▸ hk)]
    exact pageContent_serial _ _ _ _
  have hread := @readSuperPageIndex_accepted c status _ (index.written w) flash h.isPlausible hpages hkept.no_ne haccepted entry
  rw [hread]
  exact congrArg (fun e => some (Result.ok, e)) ((index.written w).readOver_eq _ h.inOrder rfl)

theorem areas_of_linked (hlinked : List.Forall₂ Linked path ws) (h : Intact g flash ws) :
    path.map (fun l => extractLogicalArea l.1) = ws.map Written.area := by
  induction hlinked with
  | nil => rfl
  | @cons l w path ws hl _ ih =>
    rw [List.map_cons, List.map_cons, ih h.tail, hl.1, (h.kept_head.extract (h.inRange w List.mem_cons_self)).1]

/-- The parameters of the device lie behind the link. -/
theorem anchor_params {k : Nat} {next : AreaPos} (hentry : w.entry = anchorEntry param next) :
    (w.content k).read 8 29 = param.read 8 29 := by
  unfold Written.content
  rw [hentry]
  change ((((param.writeWord 0 4 w.no).writeWord 4 2 w.logPrev).writeWord 6 2 next)).read 8 29 = _
  unfold Memory.writeWord
  rw [Memory.read_write_of_disjoint (.inr ?_), Memory.read_write_of_disjoint (.inr ?_), Memory.read_write_of_disjoint (.inr ?_)]
  · rw [Bytes.toBytes_length]
    decide
  · rw [Bytes.toBytes_length]
    decide
  · rw [Bytes.toBytes_length]

/-- The chain is read. -/
theorem Sound.getPath (h : Sound g param jumpPadNo flash ws index) (hreads : ∀ page, CanRead d page) :
    ∃ path, getPathToMostRecentSuperIndex g d flash jumpPadNo = (.ok, path) ∧ List.Forall₂ Linked path ws ∧ path.IsChain Follow := by
  obtain ⟨u, _, hhead, _⟩ := h.anchor
  have hintact := h.intact
  have hlength := h.length_eq
  have hzero := h.zero
  obtain ⟨ws, rfl⟩ : ∃ vs, ws = u :: vs := by
    cases ws with
    | nil => cases hhead
    | cons v vs => exact ⟨vs, by rw [Option.some.inj hhead]⟩
  have harea : u.area = 0 := Option.some.inj hzero
  obtain ⟨path, hpath, hlinked⟩ := readPath_intact hintact (fun v _ block _ page _ => hreads _) (i := 0)
    (fun h => absurd h (Nat.lt_irrefl 0))
    fun v hv hzero => (List.nodup_cons.mp hintact.nodup).1 (harea.trans hzero.symm ▸ List.mem_map_of_mem hv)
  rw [List.length_cons] at hlength
  rw [hlength, harea] at hpath
  exact ⟨path, hpath, hlinked⟩

/-- The index is found. -/
theorem Sound.newestFound (h : Sound g param jumpPadNo flash ws index) : NewestFound g c param jumpPadNo flash ws index := by
  intro d hreads
  obtain ⟨path, hpath, hlinked, hfollow⟩ := h.getPath hreads
  obtain ⟨hintact, _, _, ⟨u, next, hhead, hanchor⟩, w, index', hlast, hnewest, rfl⟩ := h
  have hmem : w ∈ ws := List.mem_of_getLast? hlast
  obtain ⟨⟨addr, e⟩, hend, haddr, hindex⟩ := forall₂_getLast hlinked hlast
  dsimp only at haddr hindex
  have hkept := hintact.kept w hmem
  have hpage := hkept.getPageNumber (hintact.inRange w hmem) (hintact.area_lt w hmem)
  rw [← haddr, hnewest.found] at hpage
  refine ⟨path, hpath, ⟨areas_of_linked hlinked hintact, hfollow, ?_⟩, fun addr' haddr' hok entry => ?_⟩
  · rw [hend, hlast, Option.map_some, Option.map_some, haddr, hnewest.found]
  · rw [hend] at haddr'
    obtain rfl : addr = addr' := Option.some.inj haddr'
    rw [hpage] at hok
    have hread := hnewest.readSuperPageIndex_eq hkept hok entry
    rw [← hpage] at hread
    refine ⟨hread, ?_⟩
    -- the anchor has the parameters
    cases hlinked with
    | nil => cases hhead
    | @cons l v path _ hl _ =>
      obtain rfl : v = u := Option.some.inj hhead
      obtain ⟨anchor, first⟩ := l
      have hfirst := hintact.kept_head.recent (hintact.inRange v List.mem_cons_self) (fun block _ page _ => hreads _)
        (Word.ofNat 2 0) (Word.ofNat 2 0)
      obtain ⟨_, _, _, _, _, hcontent⟩ := hfirst
      have hnumber := hintact.kept_head.getPageNumber (hintact.inRange v List.mem_cons_self) (hintact.area_lt v List.mem_cons_self)
      have hanchorPage : anchor = combineAddress v.area v.found := hl.1
      rw [← hanchorPage] at hnumber
      rw [← hnumber] at hcontent
      have hparams : (flash (getPageNumberFromDirect g anchor)).read 8 29 = param.read 8 29 := by
        rw [hcontent]
        exact anchor_params hanchor
      have hserial : e.outIndex ≠ emptySerial := hindex ▸ hkept.no_ne
      unfold readSuperIndex
      rw [hpath]
      dsimp only
      rw [List.head?_cons, hend]
      dsimp only
      rw [if_neg hserial, if_neg (hreads _).not_error, if_neg (not_not.mpr hparams), hread]

/-! ### Every run -/

/-- A new chain. -/
theorem Creates.sound {k : Commit c} (h : Creates g param jumpPadNo k p flash') (hlast : p.written.getLast? = some w)
    (hplain : Plain g k) : Sound g param jumpPadNo flash' p.written (k.index.written w) := by
  obtain ⟨hlength, hhead, hnodup, hempty, hreads, hcommit⟩ := h
  rename_i areas index flash
  have hne : areas ≠ [] := by
    rintro rfl
    cases hhead
  unfold commitSuperIndex at hcommit
  split_ifs at hcommit
  · simp only [Prod.mk.injEq, true_and] at hcommit
    obtain ⟨rfl, _⟩ := hcommit
    cases hlast
  · have hcreated := commitFrom_created hne (fun area ha => ⟨(hempty area ha).1, (hempty area ha).2, hplain.inRange area ha⟩) hnodup
      (fun area _ block _ page _ => hreads _) hplain.fits hcommit
    have hmap := hcreated.areas_eq
    obtain ⟨hentry, hplausible, hfound⟩ := hcreated.last w hlast
    refine ⟨hcreated.intact, ?_, ?_, hcreated.anchor rfl (by omega), w, index, hlast,
      ⟨hentry, of_decide_eq_true hplausible, hfound, hplain.whole, hplain.inOrder⟩, rfl⟩
    · rw [← hlength, ← hmap, List.length_map]
    · rw [← hhead, ← hmap, List.head?_map]

/-- A later commit. -/
theorem Sound.committed {k : Commit c} (h : Sound g param jumpPadNo flash k.before before) (htwo : 2 ≤ g.blocksPerArea)
    (hcommits : Commits g param jumpPadNo flash k p flash') (hplain : Plain g k) (hsafe : Safe g k) :
    Sound g param jumpPadNo flash' (p.elements k.before) (p.newest k.index before) := by
  obtain ⟨hempty, hreads, hpath, hreads', hcommit, hends⟩ := hcommits
  rename_i places testmode asDirty mRootnodeDirty interrupted index ws path r
  dsimp only at h ⊢
  obtain ⟨path', hpath', hlinked, _⟩ := h.getPath hreads
  rw [hpath] at hpath'
  obtain rfl : path = path' := congrArg Prod.snd hpath'
  have hsame : ∀ goOn, Sound g param jumpPadNo flash ((⟨[], goOn⟩ : Progress).elements ws)
      ((⟨[], goOn⟩ : Progress).newest index before) := by
    intro goOn
    unfold Progress.elements Progress.newest
    rw [List.length_nil, Nat.sub_zero, List.take_length, List.append_nil]
    exact h
  have hlength := h.length_eq
  unfold commitSuperIndex at hcommit
  split_ifs at hcommit
  · simp only [Prod.mk.injEq] at hcommit
    obtain ⟨_, rfl, rfl⟩ := hcommit
    exact hsame _
  · have hne : ws ≠ [] := by
      rintro rfl
      simp at hlength
    have hgoes : r = .ok ∨ Calm g testmode (indexEntry c index) ws := by
      cases interrupted
      · exact .inl (hends rfl)
      · exact .inr (hsafe rfl)
    obtain ⟨ws', hadvanced⟩ := commitFrom_advanced hlinked hne h.intact htwo (fun v _ block _ page _ => hreads' _) hplain.fits
      (fun i flash area hfree => ⟨(hempty i flash area hfree).1, (hempty i flash area hfree).2, hplain.inRange area ⟨i, flash, hfree⟩⟩)
      hgoes hcommit
    obtain rfl : ws' = p.elements ws := hadvanced.written
    have hzero := hadvanced.head_area (.inr (.inr ⟨rfl, by omega⟩))
    refine ⟨hadvanced.intact, hadvanced.length_eq.trans hlength, hzero.trans h.zero, ?_, ?_⟩
    · rcases hadvanced.anchor rfl (by omega) with hhead | hanchor
      · rw [hhead]
        exact h.anchor
      · exact hanchor
    · obtain ⟨u, _, hold, _⟩ := id h.newest
      cases hlast : p.written.getLast? with
      | none =>
        obtain ⟨written, goOn⟩ := p
        obtain rfl : written = [] := List.getLast?_eq_none_iff.mp hlast
        exact (hsame goOn).newest
      | some w =>
        obtain ⟨hentry, hplausible, hfound⟩ := hadvanced.last w hlast
        have hfound := hfound u hold (hplain.found.imp_right fun hroom => hroom u hold)
        refine ⟨w, index, ?_, ⟨hentry, of_decide_eq_true hplausible, hfound, hplain.whole, hplain.inOrder⟩, ?_⟩
        · unfold Progress.elements
          rw [List.getLast?_append, hlast, Option.some_or]
        · unfold Progress.newest
          rw [hlast]
          rfl

theorem Run.sound (h : Run g c param jumpPadNo (fun k => Plain g k ∧ Safe g k) flash ws index) (htwo : 2 ≤ g.blocksPerArea) :
    Sound g param jumpPadNo flash ws index := by
  induction h with
  | created hcreates hlast hholds => exact hcreates.sound hlast hholds.1
  | committed _ hcommits hholds ih => exact ih.committed htwo hcommits hholds.1 hholds.2

/-- After commits that went through, the newest index is found. -/
theorem newest_found (hinit : g.initializeDevice false = .ok)
    (h : Run g c param jumpPadNo (fun k => k.interrupted = false ∧ Plain g k) flash ws index) :
    NewestFound g c param jumpPadNo flash ws index :=
  (Run.sound (h.mono fun _ hk => ⟨hk.2, fun hinterrupted => absurd (hk.1.symm.trans hinterrupted) Bool.false_ne_true⟩)
    (Geometry.two_le hinit)).newestFound

/-! ### A small device -/

theorem blocks_of_ten_lt : 10 < 2 ^ 16 := by decide
theorem two_blocks_lt : 2 < 2 ^ 8 := by decide

/-- Five areas of two blocks. -/
def small (dataBytesPerPage pagesPerBlock : Nat) (hbytes : dataBytesPerPage < 2 ^ 16) (hpages : pagesPerBlock < 2 ^ 16)
    (hpos : 0 < 2 * pagesPerBlock % 2 ^ 16) : Geometry where
  dataBytesPerPage := dataBytesPerPage
  pagesPerBlock := pagesPerBlock
  blocksTotal := 10
  blocksPerArea := 2
  dataBytesPerPage_lt := hbytes
  pagesPerBlock_lt := hpages
  blocksTotal_lt := blocks_of_ten_lt
  blocksPerArea_lt := two_blocks_lt
  total_pos := hpos

theorem three_pos : 0 < 3 := by decide
theorem small_index_lt : 34 + 12 * 5 + 2 * ((3 + 3) / 4) < 2 ^ 16 := by decide

def smallConfig (dataBytesPerPage : Nat) (hbytes : 4 < dataBytesPerPage) : Config where
  dataBytesPerPage := dataBytesPerPage
  areasNo := 5
  dataPagesPerArea := 3
  serial_lt := hbytes
  pages_pos := three_pos
  index_lt := small_index_lt

/-- The chain is in areas 0 and 1, and area 2 is the active index area. The others are empty. -/
def smallIndex (dataBytesPerPage : Nat) (hbytes : 4 < dataBytesPerPage) : SuperIndex (smallConfig dataBytesPerPage hbytes) where
  no := Word.ofNat 4 0
  logPrev := Word.ofNat 2 0
  rootNode := combineAddress 2 0
  usedAreas := Word.ofNat 2 3
  areaMap i := Word.ofNat 12 ((if i.val < 2 then Area.superblock else if i.val = 2 then 3 else 0) +
    (if i.val < 3 then Area.active else empty) * 2 ^ 8 + i.val * 2 ^ 64)
  activeArea i := Word.ofNat 2 (if i.val = 3 then 2 else 0)
  overallDeletions := Word.ofNat 8 0
  areaSummaryPositions i := Word.ofNat 2 (if i.val = 0 then 2 else 0)
  summaries _ := Word.ofNat _ 0

/-- No other area is free. -/
def noPlaces : Places := ⟨fun _ _ => none, Word.ofNat 2⟩

/-- A new chain on an erased flash. -/
abbrev newChain (g : Geometry) (index : SuperIndex c) : Result × Progress × Flash :=
  commitSuperIndex g answering noPlaces true false (fun _ => 0) (indexEntry c index) true false (firstPath [0, 1]) erased

abbrev nextCommit (g : Geometry) (d : Driver) (index : SuperIndex c) (flash : Flash) : Result × Progress × Flash :=
  commitSuperIndex g d noPlaces false false (fun _ => 0) (indexEntry c index) true false
    (getPathToMostRecentSuperIndex g answering flash 0).2 flash

theorem serialOn_erased (page : PageAbs) : serialOn erased page = emptySerial := by
  unfold serialOn erased
  rfl

theorem newChain_creates (g : Geometry) (index : SuperIndex c) (hok : (newChain g index).1 = .ok) (hareas : 1 < g.areasNo) :
    Creates g (fun _ => 0) 0 ⟨(· ∈ [0, 1]), false, [], index, false⟩ (newChain g index).2.1 (newChain g index).2.2 := by
  refine .intro rfl rfl (by decide) (fun area harea => ⟨?_, fun _ _ _ _ => serialOn_erased _⟩) (fun _ => .inl rfl) (Prod.ext hok rfl)
  simp only [List.mem_cons, List.not_mem_nil, or_false] at harea
  omega

theorem newChain_run (g : Geometry) (index : SuperIndex c) (holds : Commit c → Prop) (hok : (newChain g index).1 = .ok)
    (hareas : 1 < g.areasNo) (hsome : ((newChain g index).2.1.written.getLast?).isSome)
    (hholds : holds ⟨(· ∈ [0, 1]), false, [], index, false⟩) :
    ∃ w, Run g c (fun _ => 0) 0 holds (newChain g index).2.2 (newChain g index).2.1.written (index.written w) := by
  obtain ⟨w, hlast⟩ := Option.isSome_iff_exists.mp hsome
  exact ⟨w, .created (newChain_creates g index hok hareas) hlast hholds⟩

theorem nextCommit_commits (g : Geometry) (d : Driver) (index : SuperIndex c) (flash : Flash) (ws : List Written)
    (interrupted : Bool) (hreads : ∀ page, CanRead d page)
    (hpath : (getPathToMostRecentSuperIndex g answering flash 0).1 = .ok)
    (hends : interrupted = false → (nextCommit g d index flash).1 = .ok) :
    Commits g (fun _ => 0) 0 flash
      ⟨fun area => ∃ i flash, noPlaces.findBestNextFreeArea i flash = some area, false, ws, index, interrupted⟩
      (nextCommit g d index flash).2.1 (nextCommit g d index flash).2.2 :=
  @Commits.intro c g (fun _ => 0) 0 answering d noPlaces false true false interrupted index flash _ ws _ _ _
    (fun _ _ _ hfree => absurd hfree (Option.some_ne_none _).symm) (fun _ => .inl rfl) (Prod.ext hpath rfl) hreads rfl hends

theorem bytes64_lt : 64 < 2 ^ 16 := by decide
theorem serial64_lt : 4 < 64 := by decide
theorem two_pages_lt : 2 < 2 ^ 16 := by decide
theorem two_pages_pos : 0 < 2 * 2 % 2 ^ 16 := by decide

/-- A block takes one index of two pages. -/
def tight : Geometry := small 64 2 bytes64_lt two_pages_lt two_pages_pos

def tightIndex : SuperIndex (smallConfig 64 serial64_lt) := smallIndex 64 serial64_lt

/-- The second index is found on its last page. -/
theorem second_page_is_found : ¬ ∀ (g : Geometry) (c : Config) (param : Memory) (jumpPadNo : Nat) (flash : Flash) (ws : List Written)
    (index : SuperIndex c), g.initializeDevice false = .ok →
      Run g c param jumpPadNo (fun k => k.interrupted = false) flash ws index → NewestFound g c param jumpPadNo flash ws index := by
  intro hall
  obtain ⟨_, hcreated⟩ := newChain_run tight tightIndex (fun k => k.interrupted = false) (by decide +kernel) (by decide)
    (by decide +kernel) rfl
  have hcommits := nextCommit_commits tight answering tightIndex (newChain tight tightIndex).2.2
    (newChain tight tightIndex).2.1.written false (fun _ => .inl rfl) (by decide +kernel) fun _ => by decide +kernel
  have hrun := @Run.committed tight _ (fun _ => 0) 0 (fun k => k.interrupted = false) _ _ _ _ _ hcreated hcommits rfl
  obtain ⟨path, hpath, hleads, _⟩ := hall tight _ _ _ _ _ _ (by decide) hrun answering fun _ => .inl rfl
  have hnot : (getPathToMostRecentSuperIndex tight answering (nextCommit tight answering tightIndex (newChain tight tightIndex).2.2).2.2
      0).2.getLast?.map Prod.fst ≠ (((nextCommit tight answering tightIndex (newChain tight tightIndex).2.2).2.1.elements
        (newChain tight tightIndex).2.1.written).getLast?.map fun w => combineAddress w.area w.page) := by decide +kernel
  rw [hpath] at hnot
  exact hnot hleads.last

theorem four_pages_lt : 4 < 2 ^ 16 := by decide
theorem four_pages_pos : 0 < 2 * 4 % 2 ^ 16 := by decide

/-- A block takes two indexes. -/
def roomy : Geometry := small 64 4 bytes64_lt four_pages_lt four_pages_pos

theorem plain_created (g : Geometry) (index : SuperIndex c) (hrange : InRange g 1)
    (hfits : neededPages c index.getNeededBytes ≤ g.pagesPerBlock)
    (hwhole : neededPages c (neededFor c 2) = neededPages c index.getNeededBytes) (hinOrder : index.InOrder) :
    Plain g ⟨(· ∈ [0, 1]), false, [], index, false⟩ := by
  refine ⟨fun area harea => ?_, hfits, hwhole, hinOrder, .inr fun w hw => by cases hw⟩
  have hle : area ≤ 1 := by
    simp only [List.mem_cons, List.not_mem_nil, or_false] at harea
    omega
  exact (Nat.mul_le_mul_right _ (Nat.succ_le_succ hle)).trans hrange

theorem plain_committed {g : Geometry} {index : SuperIndex c} (ws : List Written) (interrupted : Bool)
    (h : Plain g ⟨(· ∈ [0, 1]), false, [], index, false⟩)
    (hfound : ∀ w ∈ ws.getLast?, w.Room g (neededPages c index.getNeededBytes)) :
    Plain g ⟨fun area => ∃ i flash, noPlaces.findBestNextFreeArea i flash = some area, false, ws, index, interrupted⟩ :=
  ⟨fun _ ⟨_, _, hfree⟩ => absurd hfree (Option.some_ne_none _).symm, h.fits, h.whole, h.inOrder, .inr hfound⟩

/-- The second index is found behind the first one. -/
theorem newest_found_roomy : ∃ w, NewestFound roomy (smallConfig 64 serial64_lt) (fun _ => 0) 0
    (nextCommit roomy answering tightIndex (newChain roomy tightIndex).2.2).2.2
    ((nextCommit roomy answering tightIndex (newChain roomy tightIndex).2.2).2.1.elements (newChain roomy tightIndex).2.1.written)
    ((nextCommit roomy answering tightIndex (newChain roomy tightIndex).2.2).2.1.newest tightIndex (tightIndex.written w)) := by
  have hplain := plain_created roomy tightIndex (show 2 * (2 * 4) ≤ 2 ^ 16 by decide) (by decide +kernel) (by decide +kernel)
    (by decide +kernel)
  obtain ⟨w, hrun⟩ := newChain_run roomy tightIndex (fun k => k.interrupted = false ∧ Plain roomy k) (by decide +kernel)
    (by decide) (by decide +kernel) ⟨rfl, hplain⟩
  have hcommits := nextCommit_commits roomy answering tightIndex (newChain roomy tightIndex).2.2
    (newChain roomy tightIndex).2.1.written false (fun _ => .inl rfl) (by decide +kernel) fun _ => by decide +kernel
  have hplain' := plain_committed (newChain roomy tightIndex).2.1.written false hplain (by decide +kernel)
  exact ⟨w, newest_found (by decide) (Run.committed hrun hcommits ⟨rfl, hplain'⟩)⟩

/-- A commit that is interrupted leaves the index before or the new one, and a chain that goes on. -/
theorem survives_interruption {k : Commit c} (hinit : g.initializeDevice false = .ok)
    (hrun : Run g c param jumpPadNo (fun k => Plain g k ∧ Safe g k) flash k.before before)
    (hcommits : Commits g param jumpPadNo flash k p flash') (hplain : Plain g k) (hsafe : Safe g k) :
    ∃ ws' index', (index' = before ∨ ∃ w, index' = k.index.written w) ∧ NewestFound g c param jumpPadNo flash' ws' index' ∧
      Run g c param jumpPadNo (fun k => Plain g k ∧ Safe g k) flash' ws' index' := by
  have hnext := Run.committed hrun hcommits ⟨hplain, hsafe⟩
  refine ⟨p.elements k.before, p.newest k.index before, ?_, (hnext.sound (Geometry.two_le hinit)).newestFound, hnext⟩
  unfold Progress.newest
  cases p.written.getLast? with
  | none => exact .inl rfl
  | some w => exact .inr ⟨w, rfl⟩

/-- Blocks are erased, and nothing is written. -/
def failing : Driver := ⟨fun _ => .ok, fun _ => .fail, fun _ => .ok⟩

/-- The block of the first index is erased before the second one is written. -/
theorem erased_before_written : ¬ ∀ (g : Geometry) (c : Config) (param : Memory) (jumpPadNo : Nat) (flash flash' : Flash)
    (k : Commit c) (before : SuperIndex c) (p : Progress), g.initializeDevice false = .ok →
      Run g c param jumpPadNo (fun _ => True) flash k.before before → Commits g param jumpPadNo flash k p flash' →
      ∃ ws' index', (index' = before ∨ ∃ w, index' = k.index.written w) ∧ NewestFound g c param jumpPadNo flash' ws' index' := by
  intro hall
  obtain ⟨w, hrun⟩ := newChain_run tight tightIndex (fun _ => True) (by decide +kernel) (by decide) (by decide +kernel) trivial
  have hcommits := nextCommit_commits tight failing tightIndex (newChain tight tightIndex).2.2
    (newChain tight tightIndex).2.1.written true (fun _ => .inl rfl) (by decide +kernel) fun h => absurd h.symm Bool.false_ne_true
  obtain ⟨_, _, _, hfound⟩ := hall tight _ _ _ _ _ _ _ _ (by decide) hrun hcommits
  obtain ⟨path, hpath, _⟩ := hfound answering fun _ => .inl rfl
  have hnot : (getPathToMostRecentSuperIndex tight answering (nextCommit tight failing tightIndex (newChain tight tightIndex).2.2).2.2
      0).1 = .notFound := by decide +kernel
  rw [hpath] at hnot
  cases hnot

theorem bytes128_lt : 128 < 2 ^ 16 := by decide
theorem serial128_lt : 4 < 128 := by decide

/-- An index takes one page, and there are two in a block. -/
def wide : Geometry := small 128 2 bytes128_lt two_pages_lt two_pages_pos

def wideIndex : SuperIndex (smallConfig 128 serial128_lt) := smallIndex 128 serial128_lt

/-- The second index is not written, and the first one is found. -/
theorem survives_interruption_wide : ∃ ws w, NewestFound wide (smallConfig 128 serial128_lt) (fun _ => 0) 0
    (nextCommit wide failing wideIndex (newChain wide wideIndex).2.2).2.2 ws (wideIndex.written w) := by
  have hplain := plain_created wide wideIndex (show 2 * (2 * 2) ≤ 2 ^ 16 by decide) (by decide +kernel) (by decide +kernel)
    (by decide +kernel)
  obtain ⟨w, hrun⟩ := newChain_run wide wideIndex (fun k => Plain wide k ∧ Safe wide k) (by decide +kernel) (by decide)
    (by decide +kernel) ⟨hplain, fun h => absurd h Bool.false_ne_true⟩
  have hcommits := nextCommit_commits wide failing wideIndex (newChain wide wideIndex).2.2 (newChain wide wideIndex).2.1.written true
    (fun _ => .inl rfl) (by decide +kernel) fun h => absurd h.symm Bool.false_ne_true
  have hplain' := plain_committed (newChain wide wideIndex).2.1.written true hplain (by decide +kernel)
  have hsafe : Calm wide false (indexEntry (smallConfig 128 serial128_lt) wideIndex) (newChain wide wideIndex).2.1.written :=
    ⟨by decide +kernel, by decide +kernel⟩
  obtain ⟨ws, index', hindex, hfound, _⟩ := survives_interruption (by decide) hrun hcommits hplain' fun _ => hsafe
  rcases hindex with rfl | ⟨u, rfl⟩
  · exact ⟨ws, w, hfound⟩
  · exact ⟨ws, u, hfound⟩

end Paffs.Superblock
