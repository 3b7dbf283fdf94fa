import Paffs.Area.PageStatus
import Paffs.Area.Placement
import Paffs.Area.Reading

/-! What is left in the cache by a summary that cannot be loaded. -/
namespace Paffs.Areas
variable {P : Type} (c : Config) (faults : Faults P) (reads : Reads)

namespace Device

/-- The element is entered before anything is read; `pos` is a free slot. -/
def loadElemFrom (d : Device P) (pos : Nat) (area : AreaPos) : Result × Device P :=
  let d := d.enableSummaryElem pos area
  let (r, list) := d.readAreasummaryInto c reads area fun _ => .free
  let e : Elem := { Elem.fresh area with entries := list }
  if r = .ok ∨ r = .biterrorCorrected then
    let e := { e with isAreaSummaryWritten := true, isDirty := r = .biterrorCorrected, dirtyPages := countPages c .dirty list }
    (.ok, { d with cache := d.cache.set pos (some e) })
  else (if r = .notFound then .ok else r, { d with cache := d.cache.set pos (some e) })

/-- `freeNextBestSummaryCacheEntry` -/
def freeNextBest (urgent : Bool) (order : List AreaPos) (d : Device P) : Result × Device P :=
  if urgent then d.freeNextBestUrgent c faults order else d.freeNextBestSummaryCacheEntry c faults

/-- `loadUnbufferedArea` -/
def loadUnbufferedAreaFrom (urgent : Bool) (order : List AreaPos) (d : Device P) (area : AreaPos) : Result × Device P :=
  match d.findNextFreeCacheEntry with
  | some pos => d.loadElemFrom c reads pos area
  | none =>
    match d.freeNextBest c faults urgent order with
    | (.ok, d) =>
      match d.findNextFreeCacheEntry with
      | some pos => d.loadElemFrom c reads pos area
      | none => (.bug, d)
    | (r, d) => (if !urgent ∧ r = .notFound then .noSpace else r, d)

/-- `setPageStatus` -/
def setPageStatusFrom (order : List AreaPos) (d : Device P) (area : AreaPos) (page : PageOffs) (state : SummaryEntry) :
    Result × Device P :=
  if area = 0 then (.bug, d)
  else if page > c.dataPagesPerArea then (.invalidInput, d)
  else
    let (r, d) := if d.existsSummaryElem area then (.ok, d) else d.loadUnbufferedAreaFrom c faults reads true order area
    if r ≠ .ok then (r, d)
    else if d.getType c area = .unset then (.bug, d)
    else
      match d.findElem area with
      | some e => d.setCachedStatus c faults e page state
      | none => (.bug, d)

/-- `getPageStatus` -/
def getPageStatusFrom (d : Device P) (area : AreaPos) (page : PageOffs) : (Result × SummaryEntry) × Device P :=
  if page > c.dataPagesPerArea then ((.invalidInput, .error), d)
  else if d.existsSummaryElem area then ((.ok, statusAt c (d.getSummaryStatus c area) page), d)
  else
    match d.loadUnbufferedAreaFrom c faults reads false [] area with
    | (.ok, d) => ((.ok, statusAt c (d.getSummaryStatus c area) page), d)
    | (.noSpace, d) =>
      let (r, buf) := d.readAreasummaryInto c reads area fun _ => .free
      if r = .ok ∨ r = .biterrorCorrected then ((.ok, statusAt c buf page), d)
      else if r = .notFound then ((.ok, .free), d)
      else ((r, .error), d)
    | (r, d) => ((r, .error), d)

/-- `setSummaryStatus` -/
def setSummaryStatusFrom (d : Device P) (area : AreaPos) (summary : Summary) : Result × Device P :=
  let pack (d : Device P) : Result × Device P :=
    let d := d.updateElem area (·.setAll c summary)
    (.ok, d.addEvent (.setStatusBlock area (d.getSummaryStatus c area)))
  if d.existsSummaryElem area then pack d
  else
    match d.loadUnbufferedAreaFrom c faults reads false [] area with
    | (.notFound, d) =>
      let tmp := (Elem.fresh (d.getActiveArea .garbageBuffer)).setAll c summary
      (.ok, (d.writeAreasummary c faults tmp).2)
    | (.ok, d) => pack d
    | (r, d) => (r, d)

/-! ### What a failed load should leave -/

variable {c faults reads} {d d' : Device P} {area : AreaPos}

variable (c faults) in
/-- The area is not cached, its statuses are asked for again, and those of all others are as they were. -/
structure NoTrace (d d' : Device P) (area : AreaPos) : Prop where
  uncached : d'.existsSummaryElem area = false
  asks : ∀ page, (d'.getPageStatusFrom c faults (fun _ _ => .fail) area page).1.1 ≠ .ok
  elsewhere : ∀ a < c.areasNo, a ≠ area → ∀ page, d'.getSummaryStatus c a page = d.getSummaryStatus c a page

variable (c reads) in
/-- The summary is there and can be read, or there is none. -/
def ReadsWell (d : Device P) (area : AreaPos) : Prop :=
  (d.readAreasummaryInto c reads area fun _ => .free).1 = .ok ∨
    (d.readAreasummaryInto c reads area fun _ => .free).1 = .biterrorCorrected ∨
    (d.readAreasummaryInto c reads area fun _ => .free).1 = .notFound

variable (c faults) in
/-- A slot is free or can be freed without garbage collection. -/
def HasRoom (d : Device P) : Prop :=
  d.findNextFreeCacheEntry.isSome = true ∨ d.cache.reduceOption.any (d.isUnchanged c) = true ∨
    (d.findUncommitted c).isSome = true ∧ d.journalReplayMode = false ∧ faults.succeeds d.nand.clock = true

variable (c faults reads) in
/-- Where there is room the summary has to be readable; where garbage is collected for it, it has to be readable afterwards,
and a collection in vain may not change anything. -/
def LoadsCleanly (urgent : Bool) (order : List AreaPos) (d : Device P) (area : AreaPos) : Prop :=
  (d.HasRoom c faults → d.ReadsWell c reads area) ∧
    (¬ d.HasRoom c faults → urgent = true → d.findUncommitted c = none →
      if (d.freeNextBestUrgent c faults order).1 = .ok ∧ (d.freeNextBestUrgent c faults order).2.findNextFreeCacheEntry.isSome then
        (d.freeNextBestUrgent c faults order).2.ReadsWell c reads area
      else NoTrace c faults d (d.freeNextBestUrgent c faults order).2 area)

/-- The areas lie as they should, and only areas that exist are cached. -/
structure Keyed (c : Config) (d : Device P) : Prop where
  placed : d.Placed c
  lt : ∀ e ∈ d.cache.reduceOption, e.area < c.areasNo

/-! ### The element of a load -/

theorem findNextFreeCacheEntry_some {pos : Nat} (h : d.findNextFreeCacheEntry = some pos) : ∃ hlt : pos < d.cache.length,
    d.cache[pos] = none := by
  obtain ⟨hlt, hnone, -⟩ := List.findIdx?_eq_some_iff_getElem.mp h
  exact ⟨hlt, by simpa using hnone⟩

theorem existsSummaryElem_iff : d.existsSummaryElem area = true ↔ ∃ e, some e ∈ d.cache ∧ e.area = area := by
  rw [existsSummaryElem, findElem, List.find?_isSome]
  simp only [List.reduceOption_mem_iff, decide_eq_true_eq]

/-- An area is cached whether it could be read or not. -/
theorem loadElemFrom_existsSummaryElem {pos : Nat} (h : d.findNextFreeCacheEntry = some pos) :
    (d.loadElemFrom c reads pos area).2.existsSummaryElem area = true := by
  obtain ⟨hlt, -⟩ := findNextFreeCacheEntry_some h
  have hlt' : pos < (d.enableSummaryElem pos area).cache.length := by rwa [enableSummaryElem, List.length_set]
  unfold loadElemFrom
  dsimp only
  split_ifs
  · exact existsSummaryElem_iff.mpr ⟨_, List.mem_set hlt' _, rfl⟩
  · exact existsSummaryElem_iff.mpr ⟨_, List.mem_set hlt' _, rfl⟩
  · exact existsSummaryElem_iff.mpr ⟨_, List.mem_set hlt' _, rfl⟩

theorem loadElemFrom_ok {pos : Nat} : (d.loadElemFrom c reads pos area).1 = .ok ↔ d.ReadsWell c reads area := by
  have hread : (d.enableSummaryElem pos area).readAreasummaryInto c reads area = d.readAreasummaryInto c reads area :=
    readAreasummaryInto_congr rfl rfl
  unfold loadElemFrom ReadsWell
  dsimp only
  rw [hread]
  split_ifs with hok hnotFound
  · exact iff_of_true rfl (hok.imp_right .inl)
  · exact iff_of_true rfl (.inr (.inr hnotFound))
  · refine iff_of_false (fun h => hok (.inl h)) ?_
    rintro (h | h | h)
    · exact hok (.inl h)
    · exact hok (.inr h)
    · exact hnotFound h

theorem loadUnbufferedAreaFrom_of_unreadable (urgent : Bool) (order : List AreaPos) (d : Device P) (area : AreaPos) :
    (d.loadUnbufferedAreaFrom c faults (fun _ _ => .fail) urgent order area).1 ≠ .ok := by
  have helem : ∀ (d : Device P) pos, (d.loadElemFrom c (fun _ _ => .fail) pos area).1 ≠ .ok := by
    intro d pos hok
    rcases loadElemFrom_ok.mp hok with h | h | h <;> cases h
  unfold loadUnbufferedAreaFrom
  split
  · exact helem _ _
  · split
    · split
      · exact helem _ _
      · exact nofun
    · rename_i hne heq
      dsimp only
      split_ifs
      · exact nofun
      · rintro rfl
        exact hne rfl

/-- If nothing can be read, an area that is not cached has no statuses. -/
theorem getPageStatusFrom_of_uncached (h : d.existsSummaryElem area = false) (page : PageOffs) :
    (d.getPageStatusFrom c faults (fun _ _ => .fail) area page).1.1 ≠ .ok := by
  have hload : (d.loadUnbufferedAreaFrom c faults (fun _ _ => .fail) false [] area).1 ≠ .ok :=
    loadUnbufferedAreaFrom_of_unreadable false [] d area
  unfold getPageStatusFrom
  split_ifs with hpage hcached
  · exact nofun
  · rw [h] at hcached
    cases hcached
  · split
    · rename_i heq
      rw [heq] at hload
      exact absurd rfl hload
    · exact nofun
    · rename_i heq
      rw [heq] at hload
      exact hload

theorem NoTrace.of_uncached (h : d'.existsSummaryElem area = false)
    (helsewhere : ∀ a < c.areasNo, a ≠ area → ∀ page, d'.getSummaryStatus c a page = d.getSummaryStatus c a page) :
    NoTrace c faults d d' area :=
  ⟨h, getPageStatusFrom_of_uncached h, helsewhere⟩

/-! ### Room -/

theorem findNextFreeCacheEntry_isSome : d.findNextFreeCacheEntry.isSome = true ↔ none ∈ d.cache := by
  rw [findNextFreeCacheEntry, List.findIdx?_isSome, List.any_eq_true]
  simp

theorem mem_of_findUncommitted {e : Elem} (h : d.findUncommitted c = some e) :
    some e ∈ d.cache ∧ e.isAreaSummaryWritten = false ∧ d.getStatus c e.area ≠ .active := by
  have hfold : ∀ (elems : List Elem) (fav : Option Elem),
      (∀ e ∈ fav, some e ∈ d.cache ∧ e.isAreaSummaryWritten = false ∧ d.getStatus c e.area ≠ .active) →
      (∀ e ∈ elems, some e ∈ d.cache) →
      ∀ e ∈ elems.foldl (fun fav e =>
        if !e.isAreaSummaryWritten ∧ d.getStatus c e.area ≠ .active ∧ countUnusedPages c e ≥ (fav.map (countUnusedPages c)).getD 0
        then some e else fav) fav,
        some e ∈ d.cache ∧ e.isAreaSummaryWritten = false ∧ d.getStatus c e.area ≠ .active := by
    intro elems
    induction elems with
    | nil => exact fun fav hfav _ => hfav
    | cons a elems ih =>
      intro fav hfav helems
      rw [List.foldl_cons]
      refine ih _ ?_ fun e he => helems e (List.mem_cons_of_mem _ he)
      split_ifs with hbetter
      · rintro e he
        cases he
        exact ⟨helems a List.mem_cons_self, by simpa using hbetter.1, hbetter.2.1⟩
      · exact hfav
  exact hfold _ none nofun (fun e he => List.reduceOption_mem_iff.mp he) e h

/-- What making room leaves of the rest. -/
structure Frees (c : Config) (d d' : Device P) (area : AreaPos) : Prop where
  free : d'.findNextFreeCacheEntry.isSome = true
  pos : d'.getPos c area = d.getPos c area
  flash : d'.nand.flash (d.getPos c area) = d.nand.flash (d.getPos c area)

theorem getPos_ne (h : d.Keyed c) (hlt : area < c.areasNo) {e : Elem} (he : some e ∈ d.cache) (hne : e.area ≠ area) :
    d.getPos c area ≠ d.getPos c e.area := by
  have helt : e.area < c.areasNo := h.lt e (List.reduceOption_mem_iff.mpr he)
  rw [getPos_of_lt hlt, getPos_of_lt helt]
  exact fun heq => hne (h.placed.bijOn.injOn hlt helt heq).symm

theorem ne_of_uncached (h : d.existsSummaryElem area = false) {e : Elem} (he : some e ∈ d.cache) : e.area ≠ area := by
  intro heq
  rw [existsSummaryElem_iff.mpr ⟨e, he, heq⟩] at h
  cases h

/-- Where there is room, it is made without a change to what is on flash of the area. -/
theorem freeNextBest_of_hasRoom (h : d.Keyed c) (hlt : area < c.areasNo) (huncached : d.existsSummaryElem area = false)
    (hfull : d.findNextFreeCacheEntry = none) (hroom : d.HasRoom c faults) :
    ∃ d', d.freeNextBestSummaryCacheEntry c faults = (.ok, d') ∧ Frees c d d' area := by
  unfold freeNextBestSummaryCacheEntry
  by_cases hunchanged : d.cache.reduceOption.any (d.isUnchanged c) = true
  · rw [if_pos hunchanged]
    refine ⟨_, rfl, ?_, rfl, rfl⟩
    obtain ⟨e, he, hdrop⟩ := List.any_eq_true.mp hunchanged
    refine findNextFreeCacheEntry_isSome.mpr (List.mem_map.mpr ⟨some e, List.reduceOption_mem_iff.mp he, ?_⟩)
    simp [hdrop]
  rw [if_neg hunchanged]
  rcases hroom with hfree | hany | ⟨huncommitted, hreplay, hsucceeds⟩
  · rw [hfull] at hfree
    cases hfree
  · exact absurd hany hunchanged
  obtain ⟨e, hfind⟩ := Option.isSome_iff_exists.mp huncommitted
  obtain ⟨hmem, hwritten, -⟩ := mem_of_findUncommitted hfind
  rw [hfind]
  simp only [commitAndEraseElem, writeAreasummary, hwritten, hreplay, Bool.false_eq_true, if_false, Nand.writePage, hsucceeds,
    if_true]
  refine ⟨_, rfl, ?_, rfl, ?_⟩
  · refine findNextFreeCacheEntry_isSome.mpr (List.mem_map.mpr ⟨some e, hmem, ?_⟩)
    simp
  · exact Function.update_of_ne (getPos_ne h hlt hmem (ne_of_uncached huncached hmem)) _ _

/-- Where there is none, and nothing is left to be committed, nothing is done. -/
theorem freeNextBest_of_committed (hroom : ¬ d.HasRoom c faults) (hnone : d.findUncommitted c = none) :
    d.freeNextBestSummaryCacheEntry c faults = (.notFound, d) := by
  unfold freeNextBestSummaryCacheEntry
  rw [if_neg fun h => hroom (.inr (.inl h)), hnone]

/-- Otherwise the summary that was to be written could not be. -/
theorem freeNextBest_of_failed (hroom : ¬ d.HasRoom c faults) {e : Elem} (hsome : d.findUncommitted c = some e) :
    ∃ r d', d.freeNextBestSummaryCacheEntry c faults = (r, d') ∧ r ≠ .ok ∧ r ≠ .notFound ∧ d'.cache = d.cache ∧ d'.sb = d.sb ∧
      ∀ place, place ≠ d.getPos c e.area → d'.nand.flash place = d.nand.flash place := by
  obtain ⟨-, hwritten, -⟩ := mem_of_findUncommitted hsome
  unfold freeNextBestSummaryCacheEntry
  rw [if_neg fun h => hroom (.inr (.inl h)), hsome]
  simp only [commitAndEraseElem, writeAreasummary, hwritten, Bool.false_eq_true, if_false]
  by_cases hreplay : d.journalReplayMode = true
  · simp only [hreplay, if_true]
    exact ⟨_, _, rfl, by decide, by decide, rfl, rfl, fun _ _ => rfl⟩
  · have hfails : faults.succeeds d.nand.clock = false := by
      by_contra hsucceeds
      exact hroom (.inr (.inr ⟨by rw [hsome]; rfl, by simpa using hreplay, by simpa using hsucceeds⟩))
    simp only [hreplay, if_false, Nand.writePage, hfails, Bool.false_eq_true]
    exact ⟨_, _, rfl, by decide, by decide, rfl, rfl, fun _ hne => Function.update_of_ne hne _ _⟩

theorem ReadsWell.congr (h : Frees c d d' area) : d'.ReadsWell c reads area ↔ d.ReadsWell c reads area := by
  unfold ReadsWell
  rw [readAreasummaryInto_congr h.pos h.flash]

theorem readsWell_iff_noTrace {pos : Nat} (h : d'.findNextFreeCacheEntry = some pos) :
    ((d'.loadElemFrom c reads pos area).1 ≠ .ok → NoTrace c faults d (d'.loadElemFrom c reads pos area).2 area) ↔
      d'.ReadsWell c reads area := by
  have hok : (d'.loadElemFrom c reads pos area).1 = .ok ↔ d'.ReadsWell c reads area := loadElemFrom_ok
  rw [← hok]
  constructor
  · intro hno
    by_contra herror
    have := (hno herror).uncached
    rw [loadElemFrom_existsSummaryElem h] at this
    cases this
  · exact fun hok herror => absurd hok herror

instance : Decidable (d.HasRoom c faults) := inferInstanceAs (Decidable (_ ∨ _ ∨ _))

/-- Six areas with data, each on its own place. -/
def sixFull (cache : List (Option Elem)) : Device Unit :=
  { initial sixAreas (fun _ _ => .blank) fun _ => false with
    sb := ⟨fun area => ⟨.data, .closed, 0, area⟩, fun _ => 0, 6, 0⟩, cache := cache }

theorem sixFull_keyed {cache : List (Option Elem)} (h : ∀ e ∈ cache.reduceOption, e.area < 6) : (sixFull cache).Keyed sixAreas :=
  ⟨⟨Set.bijOn_id _, rfl⟩, h⟩

end Device
end Paffs.Areas
