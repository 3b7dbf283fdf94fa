import Paffs.Area.Reading

/-! Which area garbage collection takes, when summaries have to be read for it. -/
namespace Paffs.Areas
variable {P : Type} (c : Config)

namespace Device

section Search
variable (read : AreaPos → Result × Summary)

/-- Nothing better than this area can be found. -/
def isExhausted (d : Device P) (i : AreaPos) : Bool :=
  countPages c .dirty (read i).2 = c.dataPagesPerArea ∧
    (d.sb.overallDeletions < c.areasNo ∨ d.getErasecount c i < d.sb.overallDeletions / c.areasNo)

/-- The loop of `findNextBestArea`. -/
def searchLoop (d : Device P) (target : AreaType) : List AreaPos → Candidate → Candidate
  | [], fav => fav
  | i :: rest, fav =>
    if d.isCollectable c i then
      if (read i).1 ≠ .ok then { fav with area := 0 }
      else
        let curr := (read i).2
        let dirtyPages := countPages c .dirty curr
        let usedPages := countPages c .used curr
        if target ≠ .unset then
          if d.isExhausted c read i then { fav with area := i, containsValidData := false, summary := curr }
          else if d.getType c i ≠ target then searchLoop d target rest fav
          else if d.isBetter c fav i dirtyPages then
            searchLoop d target rest ⟨i, dirtyPages, d.getErasecount c i, usedPages > 0, curr⟩
          else searchLoop d target rest fav
        else if d.shouldClearArea i ∧ dirtyPages ≥ fav.dirtyPages then
          searchLoop d target rest
            { fav with area := i, dirtyPages := dirtyPages, containsValidData := usedPages > 0, summary := curr }
        else searchLoop d target rest fav
    else searchLoop d target rest fav

/-- The summary and the flag that are given back before anything is found do not matter. -/
def noCandidate : Candidate := ⟨0, 0, 2 ^ 32 - 1, false, fun _ => .error⟩

def search (d : Device P) (target : AreaType) : Candidate :=
  d.searchLoop c read target (List.range c.areasNo) noCandidate

end Search

/-- `findNextBestArea` -/
def nextBestArea (reads : Reads) (d : Device P) (target : AreaType) : Candidate := d.search c (d.readSummaryStatus c reads) target

variable {c} {d : Device P} {target : AreaType}

/-- Where nothing has to be read the search is the one of the collections. -/
theorem searchLoop_getSummaryStatus (areas : List AreaPos) (fav : Candidate) :
    d.searchLoop c (fun i => (.ok, d.getSummaryStatus c i)) target areas fav = d.findLoop c target areas fav := by
  induction areas generalizing fav with
  | nil => rfl
  | cons i rest ih =>
    rw [searchLoop, findLoop]
    simp only [ne_eq, not_true_eq_false, if_false, isExhausted, ih, decide_eq_true_eq]

theorem search_getSummaryStatus :
    d.search c (fun i => (.ok, d.getSummaryStatus c i)) target = d.findNextBestArea c target := searchLoop_getSummaryStatus ..

/-! ### What a search should find -/

variable {read : AreaPos → Result × Summary} {fav : Candidate} {areas : List AreaPos}

variable (c read) in
def dirtyPagesOf (area : AreaPos) : Nat := countPages c .dirty (read area).2

variable (c read) in
/-- Nothing is found only where no area of the type has a dirty page; an area that is found is the right one, and what comes
with it is about this area. -/
structure Finds (d : Device P) (target : AreaType) (fav : Candidate) : Prop where
  nothing : target = .data ∨ target = .index → fav.area = 0 →
    ∀ a, d.isCollectable c a → d.getType c a = target → dirtyPagesOf c read a = 0
  collectable : fav.area ≠ 0 → d.isCollectable c fav.area
  summary : fav.area ≠ 0 → fav.summary = (read fav.area).2
  containsValidData : fav.area ≠ 0 →
    (fav.containsValidData = true ↔ ∃ page < c.dataPagesPerArea, (read fav.area).2 page = .used)
  wanted : target = .data ∨ target = .index → fav.area ≠ 0 → 0 < dirtyPagesOf c read fav.area ∧
    (dirtyPagesOf c read fav.area = c.dataPagesPerArea ∨ d.getType c fav.area = target ∧
      ∀ a, d.isCollectable c a → d.getType c a = target → dirtyPagesOf c read a ≤ dirtyPagesOf c read fav.area)
  cleared : target = .unset → fav.area ≠ 0 → d.shouldClearArea fav.area ∧
    ∀ a, d.isCollectable c a → d.shouldClearArea a → dirtyPagesOf c read a ≤ dirtyPagesOf c read fav.area

variable (c read) in
/-- What the search knows of the areas that are done. -/
structure Leads (d : Device P) (target : AreaType) (done : List AreaPos) (fav : Candidate) : Prop where
  most : ∀ a ∈ done, d.isCollectable c a → d.getType c a = target → dirtyPagesOf c read a ≤ fav.dirtyPages
  none_area : fav.dirtyPages = 0 → fav.area = 0
  some_area : fav.dirtyPages ≠ 0 → fav.area ∈ done ∧ d.isCollectable c fav.area ∧ d.getType c fav.area = target ∧
    fav.dirtyPages = dirtyPagesOf c read fav.area ∧ fav.summary = (read fav.area).2 ∧
    fav.containsValidData = decide (countPages c .used (read fav.area).2 > 0)

variable (c read) in
/-- At this area the search ends. -/
def stops (d : Device P) (a : AreaPos) : Bool := d.isCollectable c a ∧ ((read a).1 ≠ .ok ∨ d.isExhausted c read a)

theorem stops_iff {a : AreaPos} : d.stops c read a = true ↔
    d.isCollectable c a = true ∧ ((read a).1 ≠ .ok ∨ d.isExhausted c read a = true) := decide_eq_true_iff

variable (c read) in
def candidateOf (d : Device P) (a : AreaPos) : Candidate :=
  ⟨a, dirtyPagesOf c read a, d.getErasecount c a, countPages c .used (read a).2 > 0, (read a).2⟩

variable (c read) in
/-- Whether an area displaces the favourite. -/
def Displaces (d : Device P) (target : AreaType) (fav : Candidate) (a : AreaPos) : Prop :=
  d.isCollectable c a = true ∧ d.getType c a = target ∧ d.isBetter c fav a (dirtyPagesOf c read a) = true

instance (a : AreaPos) : Decidable (d.Displaces c read target fav a) := inferInstanceAs (Decidable (_ ∧ _))

/-- Where the search goes on, the area is compared with the favourite. -/
theorem searchLoop_of_goes (htarget : target ≠ .unset) {a : AreaPos} (hgoes : d.stops c read a = false)
    (rest : List AreaPos) (fav : Candidate) : d.searchLoop c read target (a :: rest) fav =
      d.searchLoop c read target rest (if d.Displaces c read target fav a then d.candidateOf c read a else fav) := by
  rw [searchLoop]
  by_cases hcollectable : d.isCollectable c a
  swap
  · rw [if_neg hcollectable, if_neg fun h => hcollectable h.1]
  have hends : ¬((read a).1 ≠ .ok ∨ d.isExhausted c read a) := by
    intro h
    rw [stops_iff.mpr ⟨hcollectable, h⟩] at hgoes
    cases hgoes
  rw [not_or] at hends
  rw [if_pos hcollectable, if_neg hends.1]
  dsimp only
  rw [if_pos htarget, if_neg hends.2]
  by_cases htype : d.getType c a = target
  swap
  · rw [if_pos htype, if_neg fun h => htype h.2.1]
  rw [if_neg (not_not.mpr htype)]
  by_cases hbetter : d.isBetter c fav a (countPages c .dirty (read a).2)
  · have hdisplaces : d.Displaces c read target fav a := ⟨hcollectable, htype, hbetter⟩
    rw [if_pos hbetter, if_pos hdisplaces]
    rfl
  · have hkeeps : ¬ d.Displaces c read target fav a := fun h => hbetter h.2.2
    rw [if_neg hbetter, if_neg hkeeps]

theorem searchLoop_reaches (htarget : target ≠ .unset) {i : AreaPos} (hfind : areas.find? (d.stops c read) = some i)
    (fav : Candidate) : ∃ rest fav', d.searchLoop c read target areas fav = d.searchLoop c read target (i :: rest) fav' := by
  induction areas generalizing fav with
  | nil => cases hfind
  | cons a rest ih =>
    cases hstop : d.stops c read a with
    | true =>
      rw [List.find?_cons_of_pos hstop] at hfind
      cases hfind
      exact ⟨rest, fav, rfl⟩
    | false =>
      rw [List.find?_cons_of_neg (by rw [hstop]; exact Bool.false_ne_true)] at hfind
      rw [searchLoop_of_goes htarget hstop]
      exact ih hfind _

/-- An area that cannot be read without an error ends it in vain. -/
theorem searchLoop_of_unreadable (htarget : target ≠ .unset) {i : AreaPos} (hfind : areas.find? (d.stops c read) = some i)
    (hread : (read i).1 ≠ .ok) (fav : Candidate) : (d.searchLoop c read target areas fav).area = 0 := by
  obtain ⟨rest, fav', hreach⟩ := searchLoop_reaches htarget hfind fav
  obtain ⟨hcollectable, -⟩ := stops_iff.mp (List.find?_some hfind)
  rw [hreach, searchLoop, if_pos hcollectable, if_pos hread]

/-- One in which everything is dirty is taken. -/
theorem searchLoop_of_exhausted (htarget : target ≠ .unset) {i : AreaPos} (hfind : areas.find? (d.stops c read) = some i)
    (hread : (read i).1 = .ok) (fav : Candidate) :
    (d.searchLoop c read target areas fav).area = i ∧ (d.searchLoop c read target areas fav).containsValidData = false ∧
      (d.searchLoop c read target areas fav).summary = (read i).2 ∧ dirtyPagesOf c read i = c.dataPagesPerArea := by
  obtain ⟨rest, fav', hreach⟩ := searchLoop_reaches htarget hfind fav
  obtain ⟨hcollectable, hend⟩ := stops_iff.mp (List.find?_some hfind)
  have hexhausted := hend.resolve_left (not_not.mpr hread)
  rw [hreach, searchLoop, if_pos hcollectable, if_neg (not_not.mpr hread)]
  dsimp only
  rw [if_pos htarget, if_pos hexhausted]
  exact ⟨rfl, rfl, rfl, (of_decide_eq_true hexhausted).1⟩

/-- Otherwise all areas are compared. -/
theorem searchLoop_leads (htarget : target ≠ .unset) (hgoes : ∀ a ∈ areas, d.stops c read a = false) {done : List AreaPos}
    (h : d.Leads c read target done fav) :
    d.Leads c read target (done ++ areas) (d.searchLoop c read target areas fav) := by
  induction areas generalizing done fav with
  | nil => rwa [List.append_nil]
  | cons a rest ih =>
    rw [searchLoop_of_goes htarget (hgoes a List.mem_cons_self)]
    have hnext : d.Leads c read target (done ++ [a])
        (if d.Displaces c read target fav a then d.candidateOf c read a else fav) := by
      by_cases hdisplaces : d.Displaces c read target fav a
      · rw [if_pos hdisplaces]
        have hbetter := of_decide_eq_true hdisplaces.2.2
        refine ⟨fun b hb hb₁ hb₂ => ?_, fun hzero => ?_, fun _ => ?_⟩
        · rcases List.mem_append.mp hb with hb | hb
          · have := h.most b hb hb₁ hb₂
            dsimp only [candidateOf]
            omega
          · rw [List.mem_singleton.mp hb]
            exact le_rfl
        · dsimp only [candidateOf] at hzero
          omega
        · exact ⟨List.mem_append_right _ (List.mem_singleton.mpr rfl), hdisplaces.1, hdisplaces.2.1, rfl, rfl, rfl⟩
      · rw [if_neg hdisplaces]
        refine ⟨fun b hb hb₁ hb₂ => ?_, h.none_area, fun hne => ?_⟩
        · rcases List.mem_append.mp hb with hb | hb
          · exact h.most b hb hb₁ hb₂
          · rw [List.mem_singleton.mp hb] at hb₁ hb₂ ⊢
            by_contra hlt
            exact hdisplaces ⟨hb₁, hb₂, decide_eq_true (.inl (Nat.not_le.mp hlt))⟩
        · obtain ⟨hmem, hfav⟩ := h.some_area hne
          exact ⟨List.mem_append_left _ hmem, hfav⟩
    have := ih (fun b hb => hgoes b (List.mem_cons_of_mem _ hb)) hnext
    rwa [List.append_assoc] at this

/-- Among areas with other numbers than 0 a search that goes on yields area 0 only if it had it all the time. -/
theorem searchLoop_area_eq_zero (htarget : target ≠ .unset) (hgoes : ∀ a ∈ areas, d.stops c read a = false)
    (hzero : 0 ∉ areas) : (d.searchLoop c read target areas fav).area = 0 ↔
      fav.area = 0 ∧ ∀ a ∈ areas, ¬ d.Displaces c read target fav a := by
  induction areas generalizing fav with
  | nil => simp [searchLoop]
  | cons a rest ih =>
    rw [List.mem_cons, not_or] at hzero
    rw [searchLoop_of_goes htarget (hgoes a List.mem_cons_self), ih (fun b hb => hgoes b (List.mem_cons_of_mem _ hb)) hzero.2,
      List.forall_mem_cons]
    by_cases hdisplaces : d.Displaces c read target fav a
    · rw [if_pos hdisplaces]
      exact iff_of_false (fun h => hzero.1 h.1.symm) fun h => h.2.1 hdisplaces
    · rw [if_neg hdisplaces]
      exact and_congr_right fun _ => (and_iff_right hdisplaces).symm

/-- For the special case the areas are compared that should be cleared. -/
def Clears (c : Config) (read : AreaPos → Result × Summary) (d : Device P) (fav : Candidate) (a : AreaPos) : Prop :=
  d.isCollectable c a = true ∧ d.shouldClearArea a = true ∧ fav.dirtyPages ≤ dirtyPagesOf c read a

instance (a : AreaPos) : Decidable (d.Clears c read fav a) := inferInstanceAs (Decidable (_ ∧ _))

theorem searchLoop_unset_cons {a : AreaPos} (hread : d.isCollectable c a = true → (read a).1 = .ok)
    (rest : List AreaPos) (fav : Candidate) : d.searchLoop c read .unset (a :: rest) fav =
      d.searchLoop c read .unset rest
        (if d.Clears c read fav a then { d.candidateOf c read a with erases := fav.erases } else fav) := by
  rw [searchLoop]
  by_cases hcollectable : d.isCollectable c a
  swap
  · rw [if_neg hcollectable, if_neg fun h => hcollectable h.1]
  rw [if_pos hcollectable, if_neg (not_not.mpr (hread hcollectable))]
  simp only [ne_eq, not_true_eq_false, if_false]
  by_cases hclear : d.shouldClearArea a ∧ countPages c .dirty (read a).2 ≥ fav.dirtyPages
  · have hclears : d.Clears c read fav a := ⟨hcollectable, hclear⟩
    rw [if_pos hclear, if_pos hclears]
    rfl
  · have hkeeps : ¬ d.Clears c read fav a := fun h => hclear h.2
    rw [if_neg hclear, if_neg hkeeps]

variable (c read) in
/-- `Leads` for the special case. -/
structure LeadsCleared (d : Device P) (done : List AreaPos) (fav : Candidate) : Prop where
  most : ∀ a ∈ done, d.isCollectable c a = true → d.shouldClearArea a = true → dirtyPagesOf c read a ≤ fav.dirtyPages
  some_area : fav.area ≠ 0 → d.isCollectable c fav.area = true ∧ d.shouldClearArea fav.area = true ∧
    fav.dirtyPages = dirtyPagesOf c read fav.area ∧ fav.summary = (read fav.area).2 ∧
    fav.containsValidData = decide (countPages c .used (read fav.area).2 > 0)

theorem searchLoop_unset {done : List AreaPos} (h : d.LeadsCleared c read done fav)
    (hne : (d.searchLoop c read .unset areas fav).area ≠ 0) :
    d.LeadsCleared c read (done ++ areas) (d.searchLoop c read .unset areas fav) := by
  induction areas generalizing done fav with
  | nil => rwa [List.append_nil]
  | cons a rest ih =>
    have hread : d.isCollectable c a = true → (read a).1 = .ok := by
      intro hcollectable
      by_contra hread
      rw [searchLoop, if_pos hcollectable, if_pos hread] at hne
      exact hne rfl
    rw [searchLoop_unset_cons hread] at hne ⊢
    have hnext : d.LeadsCleared c read (done ++ [a])
        (if d.Clears c read fav a then { d.candidateOf c read a with erases := fav.erases } else fav) := by
      by_cases hclears : d.Clears c read fav a
      · rw [if_pos hclears]
        refine ⟨fun b hb hb₁ hb₂ => ?_, fun _ => ⟨hclears.1, hclears.2.1, rfl, rfl, rfl⟩⟩
        rcases List.mem_append.mp hb with hb | hb
        · exact (h.most b hb hb₁ hb₂).trans hclears.2.2
        · rw [List.mem_singleton.mp hb]
          exact le_rfl
      · rw [if_neg hclears]
        refine ⟨fun b hb hb₁ hb₂ => ?_, h.some_area⟩
        rcases List.mem_append.mp hb with hb | hb
        · exact h.most b hb hb₁ hb₂
        · rw [List.mem_singleton.mp hb] at hb₁ hb₂ ⊢
          by_contra hlt
          exact hclears ⟨hb₁, hb₂, (Nat.not_le.mp hlt).le⟩
    have := ih hnext hne
    rwa [List.append_assoc] at this

/-! ### When it is found -/

theorem used_iff {summary : Summary} :
    decide (countPages c .used summary > 0) = true ↔ ∃ page < c.dataPagesPerArea, summary page = .used := by
  rw [decide_eq_true_iff, gt_iff_lt, Nat.pos_iff_ne_zero, ne_eq, countPages_eq_zero]
  push Not
  rfl

theorem leads_nothing : d.Leads c read target [] noCandidate :=
  ⟨fun _ h => absurd h List.not_mem_nil, fun _ => rfl, fun h => absurd rfl h⟩

/-- Where the search is over all areas, or ends at an exhausted one. -/
theorem search_cases (htarget : target ≠ .unset) :
    (∃ i < c.areasNo, d.stops c read i = true ∧ (∀ j < i, d.stops c read j = false) ∧
      ((read i).1 ≠ .ok ∧ (d.search c read target).area = 0 ∨
        (read i).1 = .ok ∧ (d.search c read target).area = i ∧ (d.search c read target).containsValidData = false ∧
          (d.search c read target).summary = (read i).2 ∧ dirtyPagesOf c read i = c.dataPagesPerArea)) ∨
    (∀ a < c.areasNo, d.stops c read a = false) ∧ d.Leads c read target (List.range c.areasNo) (d.search c read target) := by
  cases hfind : (List.range c.areasNo).find? (d.stops c read) with
  | some i =>
    obtain ⟨hstops, hlt, hbefore⟩ := List.find?_range_eq_some.mp hfind
    refine .inl ⟨i, List.mem_range.mp hlt, hstops, fun j hj => by simpa using hbefore j hj, ?_⟩
    by_cases hread : (read i).1 = .ok
    · exact .inr ⟨hread, searchLoop_of_exhausted htarget hfind hread _⟩
    · exact .inl ⟨hread, searchLoop_of_unreadable htarget hfind hread _⟩
  | none =>
    have hgoes : ∀ a ∈ List.range c.areasNo, d.stops c read a = false := by simpa using List.find?_eq_none.mp hfind
    exact .inr ⟨fun a ha => hgoes a (List.mem_range.mpr ha), searchLoop_leads htarget hgoes leads_nothing⟩

/-- What is found is right. -/
theorem search_sound (hpages : 0 < c.dataPagesPerArea) (hne : (d.search c read target).area ≠ 0)
    (hnothing : target = .data ∨ target = .index → (d.search c read target).area = 0 →
      ∀ a, d.isCollectable c a → d.getType c a = target → dirtyPagesOf c read a = 0) :
    Finds c read d target (d.search c read target) := by
  by_cases htarget : target = .unset
  · subst htarget
    have hstart : d.LeadsCleared c read [] noCandidate := ⟨fun _ h => absurd h List.not_mem_nil, fun h => absurd rfl h⟩
    have hleads := searchLoop_unset hstart hne
    rw [List.nil_append] at hleads
    obtain ⟨hcollectable, hclear, hdirty, hsummary, hvalid⟩ := hleads.some_area hne
    refine ⟨hnothing, fun _ => hcollectable, fun _ => hsummary, fun _ => ?_, fun h => ?_, fun _ _ => ⟨hclear, fun a ha hc => ?_⟩⟩
    · exact hvalid ▸ used_iff
    · rcases h with h | h <;> cases h
    · exact (hleads.most a (List.mem_range.mpr (lt_of_isCollectable ha)) ha hc).trans hdirty.le
  · rcases search_cases htarget with ⟨i, hlt, hstops, -, hend⟩ | ⟨-, hleads⟩
    · rcases hend with ⟨-, hzero⟩ | ⟨-, harea, hvalid, hsummary, hall⟩
      · exact absurd hzero hne
      · refine ⟨hnothing, fun _ => ?_, fun _ => ?_, fun _ => ?_, fun _ _ => ?_, fun h => absurd h htarget⟩
        · rw [harea]
          exact (stops_iff.mp hstops).1
        · rw [harea, hsummary]
        · rw [hvalid, harea]
          refine iff_of_false Bool.false_ne_true ?_
          rintro ⟨page, hpage, hused⟩
          rw [countPages_eq_all.mp hall page hpage] at hused
          cases hused
        · rw [harea, hall]
          exact ⟨hpages, .inl rfl⟩
    · have hdirty : (d.search c read target).dirtyPages ≠ 0 := fun h => hne (hleads.none_area h)
      obtain ⟨-, hcollectable, htype, hcount, hsummary, hvalid⟩ := hleads.some_area hdirty
      refine ⟨hnothing, fun _ => hcollectable, fun _ => hsummary, fun _ => ?_, fun _ _ => ?_, fun h => absurd h htarget⟩
      · exact hvalid ▸ used_iff
      · rw [hcount] at hdirty
        refine ⟨Nat.pos_of_ne_zero hdirty, .inr ⟨htype, fun a ha htype => ?_⟩⟩
        exact (hleads.most a (List.mem_range.mpr (lt_of_isCollectable ha)) ha htype).trans hcount.le

variable (c read) in
/-- Area 0 comes first and nothing displaces it. -/
def FirstStays (d : Device P) (target : AreaType) : Prop :=
  d.Displaces c read target noCandidate 0 ∧ ∀ a, a ≠ 0 → d.isCollectable c a = true →
    d.isExhausted c read a = false ∧ ¬ d.Displaces c read target (d.candidateOf c read 0) a

variable (c read) in
/-- Where there is something to find, every area up to the first exhausted one is read without a bit error, and the search
does not fall on area 0. -/
def Undisturbed (d : Device P) (target : AreaType) : Prop :=
  target = .data ∨ target = .index →
    (∃ a, d.isCollectable c a = true ∧ d.getType c a = target ∧ dirtyPagesOf c read a ≠ 0) →
      (∀ i, d.isCollectable c i = true → (∀ j < i, d.isCollectable c j = true → d.isExhausted c read j = false) → (read i).1 = .ok) ∧
        ¬(d.isCollectable c 0 = true ∧ d.isExhausted c read 0 = true) ∧ ¬ d.FirstStays c read target

theorem search_zero_goes (htarget : target ≠ .unset) (hgoes : ∀ a < c.areasNo, d.stops c read a = false) :
    (d.search c read target).area = 0 ↔ ∀ a, a ≠ 0 → a < c.areasNo → ¬ d.Displaces c read target
      (if d.Displaces c read target noCandidate 0 then d.candidateOf c read 0 else noCandidate) a := by
  obtain ⟨n, hn⟩ := Nat.exists_eq_succ_of_ne_zero (Nat.ne_of_gt c.areas_pos)
  have hrest : ∀ a ∈ (List.range n).map Nat.succ, d.stops c read a = false := by
    intro a ha
    obtain ⟨b, hb, rfl⟩ := List.mem_map.mp ha
    rw [List.mem_range] at hb
    exact hgoes _ (by omega)
  rw [search, hn, List.range_succ_eq_map, searchLoop_of_goes htarget (hgoes 0 c.areas_pos),
    searchLoop_area_eq_zero htarget hrest (by simp)]
  have hfirst : (if d.Displaces c read target noCandidate 0 then d.candidateOf c read 0 else noCandidate).area = 0 := by
    split_ifs <;> rfl
  rw [and_iff_right hfirst]
  constructor
  · intro h a ha hlt
    obtain ⟨b, rfl⟩ := Nat.exists_eq_succ_of_ne_zero ha
    exact h _ (List.mem_map.mpr ⟨b, List.mem_range.mpr (by omega), rfl⟩)
  · intro h a ha
    obtain ⟨b, hb, rfl⟩ := List.mem_map.mp ha
    rw [List.mem_range] at hb
    exact h _ (Nat.succ_ne_zero b) (by omega)

/-- An area is found where there is one to find, if and only if the search is not disturbed. -/
theorem search_ne_zero_iff (htarget : target ≠ .unset)
    (hexists : ∃ a, d.isCollectable c a = true ∧ d.getType c a = target ∧ dirtyPagesOf c read a ≠ 0) :
    (d.search c read target).area ≠ 0 ↔
      (∀ i, d.isCollectable c i = true → (∀ j < i, d.isCollectable c j = true → d.isExhausted c read j = false) → (read i).1 = .ok) ∧
        ¬(d.isCollectable c 0 = true ∧ d.isExhausted c read 0 = true) ∧ ¬ d.FirstStays c read target := by
  rcases search_cases htarget with ⟨i, hlt, hstops, hbefore, hend⟩ | ⟨hgoes, hleads⟩
  · obtain ⟨hcollectable, -⟩ := stops_iff.mp hstops
    have hearlier : ∀ j < i, d.isCollectable c j = true → (read j).1 = .ok ∧ d.isExhausted c read j = false := by
      intro j hj hcollectable
      have := hbefore j hj
      rw [stops, decide_eq_false_iff_not, not_and, not_or, not_not, Bool.not_eq_true] at this
      exact this hcollectable
    rcases hend with ⟨hread, hzero⟩ | ⟨hread, harea, -, -, hall⟩
    · refine iff_of_false (not_not.mpr hzero) fun h => hread ?_
      exact h.1 i hcollectable fun j hj hj' => (hearlier j hj hj').2
    · have hexhausted := (stops_iff.mp hstops).2.resolve_left (not_not.mpr hread)
      rw [harea]
      constructor
      · intro hne
        refine ⟨fun k hk hbeforek => ?_, fun h => ?_, fun h => ?_⟩
        · rcases Nat.lt_trichotomy k i with h | h | h
          · exact (hearlier k h hk).1
          · rwa [h]
          · rw [hbeforek i h hcollectable] at hexhausted
            cases hexhausted
        · have := (hearlier 0 (Nat.pos_of_ne_zero hne) h.1).2
          rw [h.2] at this
          cases this
        · have := (h.2 i hne hcollectable).1
          rw [hexhausted] at this
          cases this
      · rintro ⟨-, hfirst, -⟩ rfl
        exact hfirst ⟨hcollectable, hexhausted⟩
  · have hclean : ∀ a, d.isCollectable c a = true → (read a).1 = .ok ∧ d.isExhausted c read a = false := by
      intro a ha
      have := hgoes a (lt_of_isCollectable ha)
      rw [stops, decide_eq_false_iff_not, not_and, not_or, not_not, Bool.not_eq_true] at this
      exact this ha
    have hzero := search_zero_goes htarget hgoes
    rw [← not_iff_not, not_not]
    constructor
    · intro h
      rintro ⟨-, -, hstays⟩
      have hdirty : (d.search c read target).dirtyPages ≠ 0 := by
        obtain ⟨a, ha, htype, hne⟩ := hexists
        have := hleads.most a (List.mem_range.mpr (lt_of_isCollectable ha)) ha htype
        omega
      obtain ⟨-, hcollectable, htype, hcount, -⟩ := hleads.some_area hdirty
      rw [h] at hcollectable htype hcount
      have hdisplaces : d.Displaces c read target noCandidate 0 :=
        ⟨hcollectable, htype, decide_eq_true (.inl (Nat.pos_of_ne_zero (hcount ▸ hdirty)))⟩
      refine hstays ⟨hdisplaces, fun a ha hc => ⟨(hclean a hc).2, ?_⟩⟩
      have := hzero.mp h a ha (lt_of_isCollectable hc)
      rwa [if_pos hdisplaces] at this
    · intro h
      have hstays : d.FirstStays c read target := by
        by_contra hnot
        refine h ⟨fun i hi _ => (hclean i hi).1, fun hfirst => ?_, hnot⟩
        rw [(hclean 0 hfirst.1).2] at hfirst
        cases hfirst.2
      refine hzero.mpr fun a ha hlt hdisplaces => ?_
      rw [if_pos hstays.1] at hdisplaces
      exact (hstays.2 a ha hdisplaces.1).2 hdisplaces

theorem search_finds_iff (hpages : 0 < c.dataPagesPerArea) (target : AreaType) :
    Finds c read d target (d.search c read target) ↔ d.Undisturbed c read target := by
  have htarget : target = .data ∨ target = .index → target ≠ .unset := by
    rintro (rfl | rfl) <;> decide
  constructor
  · intro h hkind hexists
    refine (search_ne_zero_iff (htarget hkind) hexists).mp fun hzero => ?_
    obtain ⟨a, ha, htype, hne⟩ := hexists
    exact hne (h.nothing hkind hzero a ha htype)
  · intro h
    have hnothing : target = .data ∨ target = .index → (d.search c read target).area = 0 →
        ∀ a, d.isCollectable c a → d.getType c a = target → dirtyPagesOf c read a = 0 := by
      intro hkind hzero a ha htype
      by_contra hne
      exact (search_ne_zero_iff (htarget hkind) ⟨a, ha, htype, hne⟩).mpr (h hkind ⟨a, ha, htype, hne⟩) hzero
    by_cases hzero : (d.search c read target).area = 0
    · exact ⟨hnothing, fun h => absurd hzero h, fun h => absurd hzero h, fun h => absurd hzero h,
        fun _ h => absurd hzero h, fun _ h => absurd hzero h⟩
    · exact search_sound hpages hzero hnothing

variable (c) in
/-- The summaries that are looked at can be read, if need be with corrected bit errors. -/
def Readable (d : Device P) (reads : Reads) : Prop := ∀ a, d.isCollectable c a = true →
  (d.readSummaryStatus c reads a).1 = .ok ∨ (d.readSummaryStatus c reads a).1 = .biterrorCorrected

/-- Where the summaries can be read the search for garbage is right if and only if no bit error and no area 0 disturbs it. -/
theorem nextBestArea_iff (reads : Reads) (d : Device P) (target : AreaType) (hpages : 0 < c.dataPagesPerArea) :
    (d.Readable c reads → Finds c (d.readSummaryStatus c reads) d target (d.nextBestArea c reads target)) ↔
      (d.Readable c reads → d.Undisturbed c (d.readSummaryStatus c reads) target) :=
  imp_congr_right fun _ => search_finds_iff hpages target

/-- Of six areas the fourth is closed and has a page that is dirty. -/
def withGarbage : Device Unit :=
  { initial sixAreas (fun place page => if place = 3 ∧ page = 2 then .summary fun page => if page = 0 then .dirty else .used else .blank)
      fun _ => false with
    sb := ⟨fun area => if area = 3 then ⟨.data, .closed, 0, 3⟩ else ⟨.unset, .active, 0, area⟩, fun _ => 0, 6, 8⟩ }

/-- Nothing disturbs the search if the page is read as it is. -/
theorem withGarbage_finds : let reads : Reads := fun _ _ => .ok
    Finds sixAreas (withGarbage.readSummaryStatus sixAreas reads) withGarbage .data (withGarbage.nextBestArea sixAreas reads .data) := by
  intro reads
  have hreads : ∀ a < 6, (withGarbage.readSummaryStatus sixAreas reads a).1 = .ok := by decide
  refine (nextBestArea_iff reads withGarbage .data (by decide)).mpr (fun _ _ _ => ⟨?_, ?_, ?_⟩) fun a ha => ?_
  · exact fun i hi _ => hreads i (lt_of_isCollectable hi)
  · decide
  · exact fun h => absurd h.1 (by decide)
  · exact .inl (hreads a (lt_of_isCollectable ha))

/-- A bit error in the summary that was corrected hides it. -/
theorem corrected_bit_error_hides_garbage : ¬ ∀ (P : Type) (c : Config) (reads : Reads) (d : Device P) (target : AreaType),
    0 < c.dataPagesPerArea → d.Readable c reads →
      Finds c (d.readSummaryStatus c reads) d target (d.nextBestArea c reads target) := by
  intro hall
  have hreads : ∀ a < 6, (withGarbage.readSummaryStatus sixAreas (fun _ page => if page = 2 then .biterrorCorrected else .ok) a).1 = .ok ∨
      (withGarbage.readSummaryStatus sixAreas (fun _ page => if page = 2 then .biterrorCorrected else .ok) a).1 = .biterrorCorrected := by
    decide
  have hfinds := hall Unit sixAreas (fun _ page => if page = 2 then .biterrorCorrected else .ok) withGarbage .data (by decide)
    fun a ha => hreads a (lt_of_isCollectable ha)
  exact absurd (hfinds.nothing (.inl rfl) (by decide) 3 (by decide) (by decide)) (by decide)

end Device
end Paffs.Areas
