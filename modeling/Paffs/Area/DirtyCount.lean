import Paffs.Area.Loading

/-! The number of dirty pages that every cached summary carries. -/
namespace Paffs.Areas
variable {P : Type} (c : Config) (faults : Faults P)

/-- The counter is the number of dirty entries. -/
def Elem.Exact (e : Elem) : Prop := e.dirtyPages = countPages c .dirty e.entries

/-- What is called of the summary cache, and of others while it is used. In a replay the calls are those of the entries. -/
inductive CacheCall (P : Type) where
  | setPageStatus (reads : Reads) (order : List AreaPos) (area : AreaPos) (page : PageOffs) (state : SummaryEntry)
  | getPageStatus (reads : Reads) (area : AreaPos) (page : PageOffs)
  | setSummaryStatus (reads : Reads) (area : AreaPos) (summary : Summary)
  | freeNextBest (urgent : Bool) (order : List AreaPos)
  | deleteSummary (area : AreaPos)
  | resetASWritten (area : AreaPos)
  | loadAreaSummaries (summaries : List (AreaPos × Summary × Bool))
  | setReplayMode (on : Bool)
  | areas (op : Op P)

namespace Device

/-- An element from the superpage; `written` if its summary page is not blank. -/
def loadedFromSuperPage (area : AreaPos) (summary : Summary) (written : Bool) : Elem :=
  ⟨area, summary, false, written, true, countPages c .dirty summary⟩

def loadAreaSummaries (d : Device P) (summaries : List (AreaPos × Summary × Bool)) : Device P :=
  let loaded := (summaries.take 2).map fun (area, summary, written) => some (loadedFromSuperPage c area summary written)
  { d with cache := loaded ++ List.replicate (c.areaSummaryCacheSize - loaded.length) none }

def cacheStep (d : Device P) : CacheCall P → Device P
  | .setPageStatus reads order area page state => (d.setPageStatusFrom c faults reads order area page state).2
  | .getPageStatus reads area page => (d.getPageStatusFrom c faults reads area page).2
  | .setSummaryStatus reads area summary => (d.setSummaryStatusFrom c faults reads area summary).2
  | .freeNextBest urgent order => (d.freeNextBest c faults urgent order).2
  | .deleteSummary area => d.deleteSummary area
  | .resetASWritten area => d.resetASWritten area
  | .loadAreaSummaries summaries => d.loadAreaSummaries c summaries
  | .setReplayMode on => { d with journalReplayMode := on }
  | .areas op => d.step c faults op

def cacheRun (d : Device P) (calls : List (CacheCall P)) : Device P := calls.foldl (cacheStep c faults) d

/-- The counters of all cached summaries are right. -/
def Exact (d : Device P) : Prop := ∀ e, some e ∈ d.cache → e.Exact c

/-! ### When a call keeps them right -/

/-- A whole summary is only set where nothing is dirty. -/
def Undirtied (d : Device P) (area : AreaPos) : Prop :=
  ∀ e, some e ∈ d.cache → e.area = area → countPages c .dirty e.entries = 0

/-- The area is cached first. -/
def PacksClean (d : Device P) (area : AreaPos) : Prop :=
  (if d.existsSummaryElem area then d else (d.loadUnbufferedArea c faults area).2).Undirtied c area

/-- The state in which `clearOldPlace` sets the summary. -/
def clearedPlace (d : Device P) (fav : Candidate) : Device P :=
  let (r, d) := d.deleteAreaContents c faults fav.area (d.getActiveArea .garbageBuffer) false
  if r = .ok then d else d.setActiveArea .garbageBuffer 0

/-- Of a round of a collection: the new place of what is moved has no summary with dirty pages. -/
def MovesClean (target : AreaType) (d : Device P) : Prop :=
  let fav := d.findNextBestArea c target
  let moved := (d.moveValidDataToNewArea c faults fav.area (d.getActiveArea .garbageBuffer) fav.summary).2
  fav.containsValidData = true →
    ((moved.swapAreaPosition c fav.area (moved.getActiveArea .garbageBuffer)).clearedPlace c faults fav).PacksClean c faults fav.area

def CollectsClean (target : AreaType) (d : Device P) : Prop :=
  ∀ s ∈ d.rounds c faults (c.areasNo + 1) target, MovesClean c faults target s

/-- The same for `commitAreaSummaryHard`. -/
def HardClean (order : List AreaPos) (d : Device P) : Prop :=
  ∀ area e, d.favouriteArea c order = some (area, e) →
    let moved := (d.moveValidDataToNewArea c faults area (d.getActiveArea .garbageBuffer) e.entries).2
    let swapped := moved.swapAreaPosition c area (d.getActiveArea .garbageBuffer)
    (swapped.deleteAreaContents c faults area (d.getActiveArea .garbageBuffer) false).2.PacksClean c faults area

def OpClean (d : Device P) : Op P → Prop
  | .collectGarbage target => CollectsClean c faults target d
  | .commitAreaSummaryHard order => HardClean c faults order d
  | .pages _ _ cache _ => cache = d.cache
  | _ => True

/-- Room that is made by garbage collection. -/
def RoomClean (order : List AreaPos) (d : Device P) : Prop :=
  (d.freeNextBestSummaryCacheEntry c faults).1 = .notFound →
    let collected := (d.freeNextBestSummaryCacheEntry c faults).2
    CollectsClean c faults .unset collected ∧ HardClean c faults order (collected.collectGarbage c faults .unset).2

variable (reads : Reads)

/-- A read that fails has not come to a dirty page yet. -/
def ReadsClean (d : Device P) (area : AreaPos) : Prop :=
  let (r, list) := d.readAreasummaryInto c reads area fun _ => .free
  r = .ok ∨ r = .biterrorCorrected ∨ countPages c .dirty list = 0

/-- The state in which `loadUnbufferedArea` reads. -/
def withRoom (urgent : Bool) (order : List AreaPos) (d : Device P) : Device P :=
  if d.findNextFreeCacheEntry.isSome then d else (d.freeNextBest c faults urgent order).2

def LoadsExact (urgent : Bool) (order : List AreaPos) (d : Device P) (area : AreaPos) : Prop :=
  (d.findNextFreeCacheEntry = none → urgent = true → RoomClean c faults order d) ∧ (d.withRoom c faults urgent order).ReadsClean c reads area

/-- The state in which an area is cached. -/
def cached (urgent : Bool) (order : List AreaPos) (d : Device P) (area : AreaPos) : Device P :=
  if d.existsSummaryElem area then d else (d.loadUnbufferedAreaFrom c faults reads urgent order area).2

/-- The page has the status already; or it is a page of the area if it becomes dirty, and was not dirty before. -/
def SetsExact (d : Device P) (area : AreaPos) (page : PageOffs) (state : SummaryEntry) : Prop :=
  (∃ e, d.findElem area = some e ∧ e.getStatus c page = state) ∨
    (state = .dirty → page < c.dataPagesPerArea) ∧ ∀ e, some e ∈ d.cache → e.area = area → e.getStatus c page ≠ .dirty

/-- What a call has to meet. -/
def CallExact (d : Device P) : CacheCall P → Prop
  | .setPageStatus reads order area page state => area ≠ 0 → page ≤ c.dataPagesPerArea →
      (d.existsSummaryElem area = false → LoadsExact c faults reads true order d area) ∧
        (d.cached c faults reads true order area).SetsExact c area page state
  | .getPageStatus reads area page => page ≤ c.dataPagesPerArea → d.existsSummaryElem area = false →
      LoadsExact c faults reads false [] d area
  | .setSummaryStatus reads area _ => (d.existsSummaryElem area = false → LoadsExact c faults reads false [] d area) ∧
      (d.cached c faults reads false [] area).Undirtied c area
  | .freeNextBest urgent order => urgent = true → RoomClean c faults order d
  | .areas op => OpClean c faults d op
  | _ => True

def CallsExact : List (CacheCall P) → Device P → Prop
  | [], _ => True
  | call :: calls, d => CallExact c faults d call ∧ CallsExact calls (d.cacheStep c faults call)

end Device

/-! ### Single elements -/

section Elem
variable {c} {e : Elem} {page : PageOffs} {state : SummaryEntry}

theorem countPages_congr {s s' : Summary} (status : SummaryEntry) (h : ∀ page < c.dataPagesPerArea, s' page = s page) :
    countPages c status s' = countPages c status s := by
  refine List.countP_congr fun page hpage => ?_
  rw [h page (List.mem_range.mp hpage)]

/-- A page that is not dirty and becomes dirty is one more. -/
theorem countPages_update {s : Summary} (hpage : page < c.dataPagesPerArea) (hclean : s page ≠ .dirty) :
    countPages c .dirty (Function.update s page state) = countPages c .dirty s + (if state = .dirty then 1 else 0) := by
  have hgeneral : ∀ n, (List.range n).countP (fun i => Function.update s page state i = .dirty) =
      (List.range n).countP (fun i => s i = .dirty) + (if page < n ∧ state = .dirty then 1 else 0) := by
    intro n
    induction n with
    | zero => simp
    | succ n ih =>
      rw [List.range_succ, List.countP_append, List.countP_append, ih, List.countP_singleton, List.countP_singleton]
      by_cases heq : n = page
      · subst heq
        simp [hclean]
      · rw [Function.update_of_ne heq]
        have hlt : page < n + 1 ↔ page < n :=
          ⟨fun h => Nat.lt_of_le_of_ne (Nat.lt_succ_iff.mp h) (Ne.symm heq), Nat.lt_succ_of_lt⟩
        simp only [hlt]
        exact Nat.add_right_comm ..
  have := hgeneral c.dataPagesPerArea
  simpa [countPages, hpage] using this

theorem Elem.setStatus_spec (e : Elem) (page : PageOffs) (state : SummaryEntry) :
    (e.setStatus c page state).dirtyPages = e.dirtyPages + (if state = .dirty then 1 else 0) ∧
      (e.setStatus c page state).entries =
        if page ≥ c.dataPagesPerArea then e.entries else Function.update e.entries page state := by
  unfold Elem.setStatus
  dsimp only
  split_ifs <;> exact ⟨rfl, rfl⟩

theorem Elem.Exact.setStatus (h : e.Exact c) (hpage : state = .dirty → page < c.dataPagesPerArea)
    (hclean : e.getStatus c page ≠ .dirty) : (e.setStatus c page state).Exact c := by
  obtain ⟨hcount, hentries⟩ := e.setStatus_spec (c := c) page state
  rw [Elem.Exact, hcount, hentries]
  by_cases hlt : page < c.dataPagesPerArea
  · rw [Elem.getStatus, if_neg (Nat.not_le.mpr hlt)] at hclean
    rw [if_neg (Nat.not_le.mpr hlt), countPages_update hlt hclean, h]
  · have hstate : state ≠ .dirty := fun hstate => hlt (hpage hstate)
    rw [if_neg hstate, if_pos (Nat.not_lt.mp hlt), h]
    rfl

/-- A whole summary is added to the counter. -/
theorem Elem.setAll_spec (e : Elem) (summary : Summary) :
    (e.setAll c summary).dirtyPages = e.dirtyPages + countPages c .dirty summary ∧
      ∀ page < c.dataPagesPerArea, (e.setAll c summary).entries page = summary page := by
  have hlist : ∀ (pages : List PageOffs) (e : Elem), (∀ i ∈ pages, i < c.dataPagesPerArea) →
      (pages.foldl (fun e i => e.setStatus c i (summary i)) e).dirtyPages =
          e.dirtyPages + pages.countP (fun i => summary i = .dirty) ∧
        ∀ page, (pages.foldl (fun e i => e.setStatus c i (summary i)) e).entries page =
          if page ∈ pages then summary page else e.entries page := by
    intro pages
    induction pages with
    | nil => exact fun e _ => ⟨rfl, fun _ => by simp⟩
    | cons i pages ih =>
      intro e hpages
      have hi := hpages i List.mem_cons_self
      have hstep := e.setStatus_spec (c := c) i (summary i)
      rw [if_neg (Nat.not_le.mpr hi)] at hstep
      obtain ⟨hcount, hentries⟩ := ih (e.setStatus c i (summary i)) fun j hj => hpages j (List.mem_cons_of_mem _ hj)
      rw [List.foldl_cons]
      refine ⟨?_, fun page => ?_⟩
      · rw [hcount, hstep.1, List.countP_cons]
        simp only [decide_eq_true_eq]
        omega
      · rw [hentries, hstep.2]
        by_cases hpage : page = i
        · simp [hpage]
        · simp [hpage]
  obtain ⟨hcount, hentries⟩ := hlist (List.range c.dataPagesPerArea) e fun i => List.mem_range.mp
  refine ⟨hcount, fun page hpage => ?_⟩
  exact (hentries page).trans (if_pos (List.mem_range.mpr hpage))

theorem Elem.Exact.setAll (h : e.Exact c) (hclean : countPages c .dirty e.entries = 0) (summary : Summary) :
    (e.setAll c summary).Exact c := by
  obtain ⟨hcount, hentries⟩ := e.setAll_spec (c := c) summary
  rw [Elem.Exact, hcount, countPages_congr .dirty hentries, h, hclean, Nat.zero_add]

theorem countPages_dirty_free : countPages c .dirty (fun _ => .free) = 0 :=
  Device.countPages_eq_zero.mpr fun _ _ h => by cases h

theorem Elem.fresh_exact (area : AreaPos) : (Elem.fresh area).Exact c := countPages_dirty_free.symm

end Elem

namespace Device
variable {c faults} {d d' : Device P} {area : AreaPos}

/-! ### What is done with the cache -/

theorem Exact.of_subset (h : d.Exact c) (hsub : ∀ e, some e ∈ d'.cache → some e ∈ d.cache) : d'.Exact c :=
  fun e he => h e (hsub e he)

theorem Exact.congr (h : d.Exact c) (hcache : d'.cache = d.cache) : d'.Exact c :=
  h.of_subset fun _ he => hcache ▸ he

theorem Exact.updateElem (h : d.Exact c) {f : Elem → Elem}
    (hf : ∀ e, some e ∈ d.cache → e.area = area → e.Exact c → (f e).Exact c) : (d.updateElem area f).Exact c := by
  intro e he
  obtain ⟨slot, hslot, heq⟩ := List.mem_map.mp he
  obtain ⟨e₀, rfl, rfl⟩ := Option.map_eq_some_iff.mp heq
  split
  · rename_i harea
    exact hf e₀ hslot harea (h e₀ hslot)
  · exact h e₀ hslot

theorem Exact.set (h : d.Exact c) {e : Elem} (he : e.Exact c) (pos : Nat) :
    { d with cache := d.cache.set pos (some e) }.Exact c := by
  intro e' he'
  rcases List.mem_or_eq_of_mem_set he' with hmem | heq
  · exact h e' hmem
  · cases heq
    exact he

theorem Exact.dropped (h : d.Exact c) {p : Elem → Bool} (hcache : d'.cache = d.cache.map fun slot => slot.filter p) :
    d'.Exact c := by
  refine h.of_subset fun e he => ?_
  rw [hcache] at he
  obtain ⟨slot, hslot, heq⟩ := List.mem_map.mp he
  obtain ⟨rfl, -⟩ := Option.filter_eq_some_iff.mp heq
  exact hslot

theorem Exact.deleteSummary (h : d.Exact c) (area : AreaPos) : (d.deleteSummary area).Exact c := by
  unfold Device.deleteSummary
  split
  · exact h.dropped rfl
  · exact h

theorem Exact.resetASWritten (h : d.Exact c) (area : AreaPos) : (d.resetASWritten area).Exact c := by
  unfold Device.resetASWritten
  split
  · exact Exact.updateElem (d := d.addEvent (.reset area)) h fun _ _ _ he => he
  · exact h

theorem writeAreasummary_cache (e : Elem) : (d.writeAreasummary c faults e).2.cache = d.cache := by
  unfold writeAreasummary
  split_ifs
  · rfl
  · rfl
  · dsimp only
    split <;> rfl

theorem Exact.commitAndEraseElem (h : d.Exact c) (e : Elem) : (d.commitAndEraseElem c faults e).2.Exact c := by
  have hwrite : (d.writeAreasummary c faults e).2.cache = d.cache := writeAreasummary_cache e
  unfold Device.commitAndEraseElem
  split
  · rename_i d' heq
    rw [heq] at hwrite
    exact Exact.dropped (h.congr hwrite) rfl
  · rename_i r d' _ heq
    rw [heq] at hwrite
    exact h.congr hwrite

theorem Exact.freeNextBestSummaryCacheEntry (h : d.Exact c) : (d.freeNextBestSummaryCacheEntry c faults).2.Exact c := by
  unfold Device.freeNextBestSummaryCacheEntry
  split_ifs
  · exact h.dropped rfl
  · split
    · exact h.commitAndEraseElem _
    · exact h

theorem Exact.loadElem (h : d.Exact c) (pos : Nat) (area : AreaPos) : (d.loadElem c pos area).Exact c := by
  have henabled : (d.enableSummaryElem pos area).Exact c := h.set (Elem.fresh_exact area) pos
  unfold Device.loadElem
  dsimp only
  split
  · exact henabled.updateElem fun _ _ _ _ => rfl
  · exact henabled

theorem Exact.loadUnbufferedArea (h : d.Exact c) (area : AreaPos) : (d.loadUnbufferedArea c faults area).2.Exact c := by
  have hfree : (d.freeNextBestSummaryCacheEntry c faults).2.Exact c := h.freeNextBestSummaryCacheEntry
  unfold Device.loadUnbufferedArea
  split
  · exact h.loadElem _ _
  · split
    · rename_i heq
      rwa [heq] at hfree
    · rename_i heq
      rw [heq] at hfree
      split
      · exact hfree.loadElem _ _
      · exact hfree
    · rename_i heq
      rwa [heq] at hfree

theorem Exact.setAll (h : d.Exact c) (hclean : d.Undirtied c area) (summary : Summary) :
    (d.updateElem area (·.setAll c summary)).Exact c :=
  h.updateElem fun e he harea hexact => hexact.setAll (hclean e he harea) summary

theorem Exact.setSummaryStatus (h : d.Exact c) (hclean : d.PacksClean c faults area) (summary : Summary) :
    (d.setSummaryStatus c faults area summary).2.Exact c := by
  have hload : (d.loadUnbufferedArea c faults area).2.Exact c := h.loadUnbufferedArea area
  unfold PacksClean at hclean
  unfold Device.setSummaryStatus
  dsimp only
  split_ifs at hclean ⊢ with hcached
  · exact h.setAll hclean summary
  · split
    · rename_i heq
      rw [heq] at hload
      exact hload.congr (writeAreasummary_cache _)
    · rename_i heq
      rw [heq] at hload hclean
      exact hload.setAll hclean summary
    · rename_i heq
      rwa [heq] at hload

/-! ### Collections -/

theorem eraseOrRetire_cache (area : AreaPos) : (d.eraseOrRetire c faults area).2.cache = d.cache := by
  unfold eraseOrRetire
  split
  · rfl
  · exact retireArea_cache ..

theorem Exact.deleteAreaContents (h : d.Exact c) (area swappedArea : AreaPos) (quiet : Bool) :
    (d.deleteAreaContents c faults area swappedArea quiet).2.Exact c := by
  unfold Device.deleteAreaContents
  split_ifs
  · exact h
  · exact h
  · dsimp only
    refine Exact.congr ?_ (addEventUnless_cache ..)
    refine Exact.deleteSummary (Exact.resetASWritten (h.congr ?_) area) area
    rw [increaseErasecount_cache, eraseOrRetire_cache, addEventUnless_cache]

theorem Exact.deleteArea (h : d.Exact c) (area : AreaPos) : (d.deleteArea c faults area).2.Exact c := by
  have hevent : (d.addEvent (.deleteArea area)).Exact c := h
  have hcontents : ((d.addEvent (.deleteArea area)).deleteAreaContents c faults area 0 true).2.Exact c :=
    hevent.deleteAreaContents area 0 true
  unfold Device.deleteArea
  split_ifs
  · exact h
  · exact h
  · split
    · rename_i heq
      rw [heq] at hcontents
      refine hcontents.congr ?_
      rw [addEvent_cache, decreaseUsedAreas_cache, setType_cache, setStatus_cache]
    · rename_i heq
      rwa [heq] at hcontents

theorem Exact.clearOldPlace (h : d.Exact c) {fav : Candidate} (hclean : (d.clearedPlace c faults fav).PacksClean c faults fav.area) :
    (d.clearOldPlace c faults fav).2.Exact c := by
  refine Exact.setSummaryStatus (d := d.clearedPlace c faults fav) ?_ hclean _
  have hcontents : (d.deleteAreaContents c faults fav.area (d.getActiveArea .garbageBuffer) false).2.Exact c :=
    h.deleteAreaContents fav.area (d.getActiveArea .garbageBuffer) false
  unfold clearedPlace
  dsimp only
  split
  · exact hcontents
  · exact hcontents.congr (setActiveArea_cache ..)

theorem Exact.finishCollection (h : d.Exact c) {target : AreaType} {fav : Candidate}
    (hclean : fav.containsValidData = true →
      ((d.swapAreaPosition c fav.area (d.getActiveArea .garbageBuffer)).clearedPlace c faults fav).PacksClean c faults fav.area) :
    (d.finishCollection c faults target fav).2.Exact c := by
  have hswap : (d.swapAreaPosition c fav.area (d.getActiveArea .garbageBuffer)).Exact c := h.congr (swapAreaPosition_cache ..)
  have hcleared : (if fav.containsValidData then
      (d.swapAreaPosition c fav.area (d.getActiveArea .garbageBuffer)).clearOldPlace c faults fav
      else (.ok, d.swapAreaPosition c fav.area (d.getActiveArea .garbageBuffer))).2.Exact c := by
    split
    · rename_i hvalid
      exact hswap.clearOldPlace (hclean hvalid)
    · exact hswap
  unfold Device.finishCollection
  dsimp only
  generalize (if fav.containsValidData then
      (d.swapAreaPosition c fav.area (d.getActiveArea .garbageBuffer)).clearOldPlace c faults fav
      else (.ok, d.swapAreaPosition c fav.area (d.getActiveArea .garbageBuffer))) = r at hcleared ⊢
  split_ifs
  · exact hcleared
  · exact hcleared
  · exact hcleared.congr (initAreaAs_cache ..)

theorem Exact.collectGarbage (h : d.Exact c) {target : AreaType} (hclean : CollectsClean c faults target d) :
    (d.collectGarbage c faults target).2.Exact c := by
  refine collectRounds_induction c faults (Exact c) (MovesClean c faults target) (fun r => r.2.Exact c)
    (fun _ h => h) (fun _ h _ => h) ?_ ?_ (c.areasNo + 1) h hclean
  · intro s hs hmeets _ hvalid _ fav r
    have hmoved : r.2.Exact c := hs
    split
    · exact hmoved.finishCollection fun _ => hmeets hvalid
    · exact hmoved
  · intro s hs _ _ hvalid fav r
    have hdeleted : r.2.Exact c := hs.deleteArea fav.area
    split
    · exact hdeleted.finishCollection fun hyes => by rw [hvalid] at hyes; cases hyes
    · exact hdeleted

theorem Exact.commitAreaSummaryHard (h : d.Exact c) {order : List AreaPos} (hclean : HardClean c faults order d) :
    (d.commitAreaSummaryHard c faults order).2.Exact c := by
  unfold Device.commitAreaSummaryHard
  split
  · exact h
  · rename_i area e hfav
    have hpack := hclean area e hfav
    dsimp only at hpack ⊢
    split
    · rename_i heq
      rw [← congrArg Prod.snd heq]
      exact h
    · rename_i d' heq
      obtain rfl : _ = d' := congrArg Prod.snd heq
      split
      · exact Exact.deleteArea (d := (d.moveValidDataToNewArea c faults area (d.getActiveArea .garbageBuffer) e.entries).2) h area
      · refine Exact.setSummaryStatus ?_ hpack _
        refine Exact.deleteAreaContents ?_ area _ false
        exact h.congr (swapAreaPosition_cache ..)

/-! ### Calls -/

theorem Exact.commitAfterCollection (h : d.Exact c) {order : List AreaPos} (hclean : HardClean c faults order d) :
    (d.commitAfterCollection c faults order).2.Exact c := by
  have hhard := h.commitAreaSummaryHard hclean
  unfold Device.commitAfterCollection
  split
  · exact h.commitAndEraseElem _
  · dsimp only
    split
    · rename_i heq
      rw [heq] at hhard
      split
      · unfold commitAndEraseSlot
        split
        · exact hhard.commitAndEraseElem _
        · exact hhard
      · exact hhard
    · rename_i heq
      rwa [heq] at hhard

theorem Exact.freeNextBest (h : d.Exact c) {urgent : Bool} {order : List AreaPos}
    (hclean : urgent = true → RoomClean c faults order d) : (d.freeNextBest c faults urgent order).2.Exact c := by
  have hfree : (d.freeNextBestSummaryCacheEntry c faults).2.Exact c := h.freeNextBestSummaryCacheEntry
  cases urgent with
  | false => exact hfree
  | true =>
    have hroom := hclean rfl
    unfold RoomClean at hroom
    change (d.freeNextBestUrgent c faults order).2.Exact c
    unfold freeNextBestUrgent
    split
    · rename_i heq
      rw [heq] at hfree hroom
      obtain ⟨hcollects, hhard⟩ := hroom rfl
      have hcollected := hfree.collectGarbage hcollects
      dsimp only
      split
      · exact hcollected
      · exact hcollected.commitAfterCollection hhard
    · rename_i heq
      rwa [heq] at hfree

variable {reads : Reads} {urgent : Bool} {order : List AreaPos}

theorem Exact.loadElemFrom (h : d.Exact c) (pos : Nat) (hclean : d.ReadsClean c reads area) :
    (d.loadElemFrom c reads pos area).2.Exact c := by
  have henabled : (d.enableSummaryElem pos area).Exact c := h.set (Elem.fresh_exact area) pos
  unfold ReadsClean at hclean
  have hread : (d.enableSummaryElem pos area).readAreasummaryInto c reads area = d.readAreasummaryInto c reads area :=
    readAreasummaryInto_congr rfl rfl
  unfold Device.loadElemFrom
  dsimp only at hclean ⊢
  rw [hread]
  split_ifs with hok
  · refine henabled.set ?_ pos
    exact rfl
  · rw [← or_assoc] at hclean
    refine henabled.set ?_ pos
    exact (hclean.resolve_left hok).symm
  · rw [← or_assoc] at hclean
    refine henabled.set ?_ pos
    exact (hclean.resolve_left hok).symm

theorem Exact.loadUnbufferedAreaFrom (h : d.Exact c) (hclean : LoadsExact c faults reads urgent order d area) :
    (d.loadUnbufferedAreaFrom c faults reads urgent order area).2.Exact c := by
  obtain ⟨hroom, hread⟩ := hclean
  unfold withRoom at hread
  unfold Device.loadUnbufferedAreaFrom
  cases hslot : d.findNextFreeCacheEntry with
  | some pos =>
    rw [hslot, if_pos (by rfl)] at hread
    exact h.loadElemFrom pos hread
  | none =>
    rw [hslot, if_neg (by exact Bool.false_ne_true)] at hread
    have hfree := h.freeNextBest (hroom hslot)
    dsimp only
    split
    · rename_i heq
      rw [heq] at hfree hread
      split
      · exact hfree.loadElemFrom _ hread
      · exact hfree
    · rename_i heq
      rwa [heq] at hfree

theorem Exact.setCachedStatus (h : d.Exact c) {e : Elem} {page : PageOffs} {state : SummaryEntry}
    (he : d.findElem area = some e) (harea : e.area = area) (hsets : d.SetsExact c area page state) :
    (d.setCachedStatus c faults e page state).2.Exact c := by
  unfold Device.setCachedStatus
  split
  · exact h
  · rename_i hne
    have hset : (d.updateElem e.area (·.setStatus c page state)).Exact c := by
      rcases hsets with ⟨e', he', hstate⟩ | ⟨hpage, hclean⟩
      · rw [he] at he'
        cases he'
        exact absurd hstate hne
      · exact h.updateElem fun e' hmem harea' hexact => hexact.setStatus hpage (hclean e' hmem (harea'.trans harea))
    have hset' : ((d.addEvent (.setStatus e.area page state)).updateElem e.area (·.setStatus c page state)).Exact c := hset
    dsimp only
    split
    · split
      · rename_i heq
        have hwrite := congrArg (fun r => r.2.cache) heq
        rw [writeAreasummary_cache] at hwrite
        exact (hset'.congr hwrite.symm).updateElem fun _ _ _ hexact => hexact
      · rename_i heq
        have hwrite := congrArg (fun r => r.2.cache) heq
        rw [writeAreasummary_cache] at hwrite
        exact hset'.congr hwrite.symm
    · exact hset'

theorem area_of_findElem {e : Elem} (h : d.findElem area = some e) : e.area = area := by
  simpa using List.find?_some h

theorem Exact.setPageStatusFrom (h : d.Exact c) {page : PageOffs} {state : SummaryEntry}
    (hmeets : CallExact c faults d (.setPageStatus reads order area page state)) :
    (d.setPageStatusFrom c faults reads order area page state).2.Exact c := by
  unfold Device.setPageStatusFrom
  by_cases hzero : area = 0
  · rw [if_pos hzero]
    exact h
  by_cases hpage : page > c.dataPagesPerArea
  · rw [if_neg hzero, if_pos hpage]
    exact h
  · obtain ⟨hload, hsets⟩ := hmeets hzero (Nat.not_lt.mp hpage)
    rw [if_neg hzero, if_neg hpage]
    have hcached : (d.cached c faults reads true order area).Exact c := by
      unfold cached
      split_ifs with hcached
      · exact h
      · exact h.loadUnbufferedAreaFrom (hload (by simpa using hcached))
    have hstate : (if d.existsSummaryElem area then (.ok, d) else d.loadUnbufferedAreaFrom c faults reads true order area :
        Result × Device P).2 = d.cached c faults reads true order area := by
      unfold cached
      split_ifs <;> rfl
    generalize (if d.existsSummaryElem area then (.ok, d) else d.loadUnbufferedAreaFrom c faults reads true order area :
      Result × Device P) = r at hstate ⊢
    obtain ⟨r, d'⟩ := r
    dsimp only at hstate ⊢
    subst hstate
    split_ifs
    · exact hcached
    · exact hcached
    · split
      · rename_i e he
        exact hcached.setCachedStatus he (area_of_findElem he) hsets
      · exact hcached

theorem Exact.getPageStatusFrom (h : d.Exact c) {page : PageOffs} (hmeets : CallExact c faults d (.getPageStatus reads area page)) :
    (d.getPageStatusFrom c faults reads area page).2.Exact c := by
  unfold Device.getPageStatusFrom
  split_ifs with hpage hcached
  · exact h
  · exact h
  · have hload := h.loadUnbufferedAreaFrom (hmeets (Nat.not_lt.mp hpage) (by simpa using hcached))
    split
    · rename_i heq
      rwa [heq] at hload
    · rename_i heq
      rw [heq] at hload
      dsimp only
      split_ifs <;> exact hload
    · rename_i heq
      rwa [heq] at hload

theorem Exact.setSummaryStatusFrom (h : d.Exact c) {summary : Summary}
    (hmeets : CallExact c faults d (.setSummaryStatus reads area summary)) :
    (d.setSummaryStatusFrom c faults reads area summary).2.Exact c := by
  obtain ⟨hload, hclean⟩ := hmeets
  unfold cached at hclean
  unfold Device.setSummaryStatusFrom
  dsimp only
  split_ifs at hclean ⊢ with hcached
  · exact h.setAll hclean summary
  · have hload := h.loadUnbufferedAreaFrom (hload (by simpa using hcached))
    split
    · rename_i heq
      rw [heq] at hload
      exact hload.congr (writeAreasummary_cache _)
    · rename_i heq
      rw [heq] at hload hclean
      exact hload.setAll hclean summary
    · rename_i heq
      rwa [heq] at hload

theorem Exact.loadAreaSummaries (summaries : List (AreaPos × Summary × Bool)) : (d.loadAreaSummaries c summaries).Exact c := by
  intro e he
  unfold Device.loadAreaSummaries at he
  rcases List.mem_append.mp he with he | he
  · obtain ⟨⟨area, summary, written⟩, -, heq⟩ := List.mem_map.mp he
    cases heq
    rfl
  · cases List.eq_of_mem_replicate he

theorem Exact.step (h : d.Exact c) {op : Op P} (hclean : OpClean c faults d op) : (d.step c faults op).Exact c := by
  cases op with
  | initAreaAs area type => exact h.congr (initAreaAs_cache ..)
  | closeArea area => exact h.congr (closeArea_cache ..)
  | retireArea area => exact h.congr (retireArea_cache ..)
  | deleteArea area => exact h.deleteArea area
  | deleteAreaContents area swappedArea => exact h.deleteAreaContents area swappedArea false
  | collectGarbage target => exact h.collectGarbage hclean
  | commitAreaSummaryHard order => exact h.commitAreaSummaryHard hclean
  | pages flash writes cache log => exact h.congr hclean

theorem Exact.cacheStep (h : d.Exact c) {call : CacheCall P} (hmeets : CallExact c faults d call) :
    (d.cacheStep c faults call).Exact c := by
  cases call with
  | setPageStatus reads order area page state => exact h.setPageStatusFrom hmeets
  | getPageStatus reads area page => exact h.getPageStatusFrom hmeets
  | setSummaryStatus reads area summary => exact h.setSummaryStatusFrom hmeets
  | freeNextBest urgent order => exact h.freeNextBest hmeets
  | deleteSummary area => exact h.deleteSummary area
  | resetASWritten area => exact h.resetASWritten area
  | loadAreaSummaries summaries => exact Exact.loadAreaSummaries summaries
  | setReplayMode on => exact h
  | areas op => exact h.step hmeets

theorem Exact.cacheRun (h : d.Exact c) {calls : List (CacheCall P)} (hmeets : CallsExact c faults calls d) :
    (d.cacheRun c faults calls).Exact c := by
  induction calls generalizing d with
  | nil => exact h
  | cons call calls ih => exact ih (h.cacheStep hmeets.1) hmeets.2

/-! ### Summaries that are written early -/

variable (c faults) in
/-- Setting a status of a cached area makes its summary written. -/
def WritesEarly (d : Device P) (e : Elem) (page : PageOffs) (state : SummaryEntry) : Prop :=
  (d.setCachedStatus c faults e page state).2.nand.clock ≠ d.nand.clock

theorem writeAreasummary_clock {e : Elem} (hwritten : e.isAreaSummaryWritten = false) (hreplay : d.journalReplayMode = false) :
    (d.writeAreasummary c faults e).2.nand.clock = d.nand.clock + 1 := by
  rw [writeAreasummary, hwritten, hreplay, if_neg Bool.false_ne_true, if_neg Bool.false_ne_true]
  dsimp only
  split <;> rfl

/-- With the right counter a summary is written early exactly when all data pages have become dirty. -/
theorem writesEarly_iff {e : Elem} (he : e.Exact c) {page : PageOffs} {state : SummaryEntry}
    (hsets : e.getStatus c page = state ∨ (state = .dirty → page < c.dataPagesPerArea) ∧ e.getStatus c page ≠ .dirty) :
    d.WritesEarly c faults e page state ↔ e.getStatus c page ≠ state ∧ state = .dirty ∧ d.journalReplayMode = false ∧
      e.isAreaSummaryWritten = false ∧ ∀ i < c.dataPagesPerArea, (e.setStatus c page state).entries i = .dirty := by
  unfold WritesEarly Device.setCachedStatus
  by_cases hsame : e.getStatus c page = state
  · rw [if_pos hsame]
    exact iff_of_false (fun h => h rfl) fun h => h.1 hsame
  rw [if_neg hsame]
  obtain ⟨hpage, hclean⟩ := hsets.resolve_left hsame
  have hexact := he.setStatus hpage hclean
  have hall : (e.setStatus c page state).dirtyPages = c.dataPagesPerArea ↔
      ∀ i < c.dataPagesPerArea, (e.setStatus c page state).entries i = .dirty := by
    rw [hexact]
    exact countPages_eq_all
  have hwritten : (e.setStatus c page state).isAreaSummaryWritten = e.isAreaSummaryWritten := by
    unfold Elem.setStatus
    dsimp only
    split_ifs <;> rfl
  dsimp only
  rw [← hall, hwritten]
  split_ifs with hcond
  · obtain ⟨hreplay, hdirty, hcount, hunwritten⟩ := hcond
    rw [Bool.not_eq_true'] at hreplay
    have hreplay' : d.journalReplayMode = false := hreplay
    have hunwritten' : e.isAreaSummaryWritten = false := by simpa using hunwritten
    refine iff_of_true ?_ ⟨hsame, hdirty, hreplay', hunwritten', hcount⟩
    have hclock : (((d.addEvent (.setStatus e.area page state)).updateElem e.area (·.setStatus c page state)).writeAreasummary
        c faults (e.setStatus c page state)).2.nand.clock = d.nand.clock + 1 :=
      writeAreasummary_clock (hwritten.trans hunwritten') hreplay'
    split
    · rename_i heq
      rw [heq] at hclock
      exact fun h => Nat.succ_ne_self _ (hclock.symm.trans h)
    · rename_i heq
      rw [heq] at hclock
      exact fun h => Nat.succ_ne_self _ (hclock.symm.trans h)
  · refine iff_of_false (fun h => h rfl) fun h => hcond ?_
    obtain ⟨-, hdirty, hreplay, hunwritten, hcount⟩ := h
    refine ⟨?_, hdirty, hcount, by simpa using hunwritten⟩
    rw [Bool.not_eq_true']
    exact hreplay

/-- If each call keeps the counters right, they are right in the end, and a next status makes a summary written early exactly
when all data pages are dirty then. -/
theorem cacheRun_exact (h : d.Exact c) (calls : List (CacheCall P)) (hmeets : CallsExact c faults calls d) :
    let d' := d.cacheRun c faults calls
    d'.Exact c ∧ ∀ area e page state, d'.findElem area = some e → d'.SetsExact c area page state →
      (d'.WritesEarly c faults e page state ↔ e.getStatus c page ≠ state ∧ state = .dirty ∧ d'.journalReplayMode = false ∧
        e.isAreaSummaryWritten = false ∧ ∀ i < c.dataPagesPerArea, (e.setStatus c page state).entries i = .dirty) := by
  intro d'
  have hexact : d'.Exact c := h.cacheRun hmeets
  refine ⟨hexact, fun area e page state he hsets => ?_⟩
  have hmem : some e ∈ d'.cache := List.reduceOption_mem_iff.mp (List.mem_of_find?_eq_some he)
  refine writesEarly_iff (hexact e hmem) ?_
  rcases hsets with ⟨e', he', hstate⟩ | ⟨hpage, hclean⟩
  · rw [he] at he'
    cases he'
    exact .inl hstate
  · exact .inr ⟨hpage, hclean e hmem (area_of_findElem he)⟩

theorem exact_of_empty (h : d.cache.reduceOption = []) : d.Exact c := by
  intro e he
  have hmem := List.reduceOption_mem_iff.mpr he
  rw [h] at hmem
  cases hmem

/-- A page of an area that is loaded becomes dirty. -/
theorem cacheRun_exact_dirty :
    ((sixFull [none, none]).cacheRun sixAreas (failsAt []) [.setPageStatus (fun _ _ => .ok) [] 3 1 .dirty]).Exact sixAreas := by
  have hmeets : CallsExact sixAreas (failsAt []) [.setPageStatus (fun _ _ => .ok) [] 3 1 .dirty] (sixFull [none, none]) := by
    refine ⟨fun _ _ => ⟨fun _ => ⟨fun h => ?_, ?_⟩, ?_⟩, trivial⟩
    · cases h
    · exact Or.inr (Or.inr countPages_dirty_free)
    · refine Or.inr ⟨fun _ => by decide, fun e he _ => ?_⟩
      rcases List.mem_cons.mp he with he | he
      · cases he
        decide
      · cases List.mem_singleton.mp he
  exact (cacheRun_exact (exact_of_empty rfl) _ hmeets).1

/-- The page behind the last, which is accepted, is counted without an entry. -/
theorem page_behind_the_last_is_counted : ¬ ∀ (P : Type) (c : Config) (faults : Faults P) (d : Device P)
    (calls : List (CacheCall P)), d.Exact c → (d.cacheRun c faults calls).Exact c := by
  intro hall
  have hexact := hall Unit sixAreas (failsAt []) (sixFull [none, none]) [.setPageStatus (fun _ _ => .ok) [] 3 2 .dirty]
    (exact_of_empty rfl)
  have hcounted := hexact _ (List.mem_cons_self)
  exact absurd hcounted (by unfold Elem.Exact; decide)

end Device
end Paffs.Areas
