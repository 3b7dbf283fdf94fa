import Paffs.Area.Frame

/-! Runs of the operations on areas, and the states a collection goes through. -/
namespace Paffs.Areas
variable {P : Type} (c : Config) (faults : Faults P)

/-- `pages` stands for all that is done with pages and cached summaries between the operations on areas, with a number
of writes. -/
inductive Op (P : Type) where
  | initAreaAs (area : AreaPos) (type : AreaType)
  | closeArea (area : AreaPos)
  | retireArea (area : AreaPos)
  | deleteArea (area : AreaPos)
  | deleteAreaContents (area swappedArea : AreaPos)
  | collectGarbage (target : AreaType)
  | commitAreaSummaryHard (order : List AreaPos)
  | pages (flash : AreaPos → PageOffs → Page P) (writes : Nat) (cache : List (Option Elem)) (log : List Event)

namespace Device

def step (d : Device P) : Op P → Device P
  | .initAreaAs area type => d.initAreaAs c area type
  | .closeArea area => d.closeArea c area
  | .retireArea area => d.retireArea c area
  | .deleteArea area => (d.deleteArea c faults area).2
  | .deleteAreaContents area swappedArea => (d.deleteAreaContents c faults area swappedArea false).2
  | .collectGarbage target => (d.collectGarbage c faults target).2
  | .commitAreaSummaryHard order => (d.commitAreaSummaryHard c faults order).2
  | .pages flash writes cache log =>
    { d with nand := { d.nand with flash := flash, clock := d.nand.clock + writes }, cache := cache, log := log }

def run (d : Device P) (ops : List (Op P)) : Device P := ops.foldl (step c faults) d

/-- Every step of a run meets a condition in the state before it. -/
def Along (Meets : Op P → Device P → Prop) : List (Op P) → Device P → Prop
  | [], _ => True
  | op :: ops, d => Meets op d ∧ Along Meets ops (d.step c faults op)

theorem run_induction (Inv : Device P → Prop) (Meets : Op P → Device P → Prop)
    (hstep : ∀ d op, Inv d → Meets op d → Inv (d.step c faults op)) {d : Device P} (hd : Inv d) {ops : List (Op P)}
    (hops : Along c faults Meets ops d) : Inv (d.run c faults ops) := by
  induction ops generalizing d with
  | nil => exact hd
  | cons op ops ih =>
    obtain ⟨hop, hrest⟩ := hops
    exact ih (hstep d op hd hop) hrest

theorem Along.and {Meets Meets' : Op P → Device P → Prop} {d : Device P} {ops : List (Op P)}
    (h : Along c faults Meets ops d) (h' : Along c faults Meets' ops d) :
    Along c faults (fun op d => Meets op d ∧ Meets' op d) ops d := by
  induction ops generalizing d with
  | nil => trivial
  | cons op ops ih => exact ⟨⟨h.1, h'.1⟩, ih h.2 h'.2⟩

/-- The states in which a collection looks for an area. -/
def rounds : Nat → Device P → AreaType → List (Device P)
  | 0, _, _ => []
  | k + 1, d, target =>
    let fav := d.findNextBestArea c target
    d :: if fav.area = 0 ∨ fav.containsValidData then []
      else match d.deleteArea c faults fav.area with
        | (.ok, _) => []
        | (_, d) => rounds k d target

/-- A rule for collections: what `Inv` says of the state in which one looks for an area has to be kept by a deletion that
fails, and each way out of a round has to end in `Post`. -/
theorem collectRounds_induction {target : AreaType} (Inv Meets : Device P → Prop) (Post : Result × Device P → Prop)
    (hfail : ∀ d, Inv d → Post (.fail, d)) (hnoSpace : ∀ d, Inv d → Meets d → Post (.noSpace, d))
    (hmove : ∀ d, Inv d → Meets d → (d.findNextBestArea c target).area ≠ 0 →
      (d.findNextBestArea c target).containsValidData = true → d.getActiveArea .garbageBuffer ≠ 0 →
      let fav := d.findNextBestArea c target
      let r := d.moveValidDataToNewArea c faults fav.area (d.getActiveArea .garbageBuffer) fav.summary
      Post (if r.1 then r.2.finishCollection c faults target fav else (.badFlash, r.2)))
    (hdelete : ∀ d, Inv d → Meets d → (d.findNextBestArea c target).area ≠ 0 →
      (d.findNextBestArea c target).containsValidData = false →
      let fav := d.findNextBestArea c target
      let r := d.deleteArea c faults fav.area
      if r.1 = .ok then Post (r.2.finishCollection c faults target fav) else Inv r.2)
    (k : Nat) {d : Device P} (hd : Inv d) (hrounds : ∀ s ∈ d.rounds c faults k target, Meets s) :
    Post (d.collectRounds c faults k target) := by
  induction k generalizing d with
  | zero => exact hfail d hd
  | succ k ih =>
    have hmeets : Meets d := hrounds d List.mem_cons_self
    rw [collectRounds]
    split_ifs with hnone hvalid
    · exact hnoSpace d hd hmeets
    · rw [not_or, not_and] at hnone
      have h := hmove d hd hmeets hnone.1 hvalid (hnone.2 hvalid)
      split
      · rename_i d' heq
        simpa [heq] using h
      · rename_i d' heq
        simpa [heq] using h
    · rw [not_or] at hnone
      rw [Bool.not_eq_true] at hvalid
      have h := hdelete d hd hmeets hnone.1 hvalid
      have hlater : ∀ s ∈ d.rounds c faults (k + 1) target, Meets s := hrounds
      rw [rounds] at hlater
      simp only [hnone.1, hvalid, Bool.false_eq_true, or_self, if_false] at hlater
      split
      · rename_i d' heq
        simpa [heq] using h
      · rename_i r d' hne heq
        simp only [heq] at h hlater
        rw [if_neg hne] at h
        refine ih h fun s hs => hlater s (List.mem_cons_of_mem _ ?_)
        cases r <;> exact hs

end Device

/-! ### Which writes and erases go through -/

namespace Nand
variable (n : Nand P)

/-- The next `k` writes or erases succeed. -/
def Proceeds (k : Nat) : Prop := ∀ i < k, faults.succeeds (n.clock + i)

instance (k : Nat) : Decidable (n.Proceeds faults k) := inferInstanceAs (Decidable (∀ i < k, _))

theorem proceeds_succ (n' : Nand P) (hclock : n'.clock = n.clock + 1) (k : Nat) :
    n.Proceeds faults (k + 1) ↔ faults.succeeds n.clock ∧ n'.Proceeds faults k := by
  constructor
  · intro h
    refine ⟨h 0 (Nat.succ_pos k), fun i hi => ?_⟩
    rw [hclock, Nat.add_assoc, Nat.add_comm 1]
    exact h (i + 1) (Nat.succ_lt_succ hi)
  · rintro ⟨hfirst, hrest⟩ i hi
    cases i with
    | zero => exact hfirst
    | succ i =>
      have := hrest i (Nat.lt_of_succ_lt_succ hi)
      rwa [hclock, Nat.add_assoc, Nat.add_comm 1] at this

theorem proceeds_add (n' : Nand P) (a b : Nat) (hclock : n'.clock = n.clock + a) (h : n.Proceeds faults (a + b)) :
    n.Proceeds faults a ∧ n'.Proceeds faults b := by
  refine ⟨fun i hi => h i (by omega), fun i hi => ?_⟩
  rw [hclock, Nat.add_assoc]
  exact h (a + i) (by omega)

theorem eraseBlocks_ok (area : AreaPos) (i k : Nat) : (eraseBlocks c faults area i k n).1 ↔ n.Proceeds faults k := by
  induction k generalizing i n with
  | zero => simp [eraseBlocks, Proceeds]
  | succ k ih =>
    rw [proceeds_succ faults n (n.eraseBlock c faults area i).2 rfl, ← ih _ (i + 1)]
    cases hok : faults.succeeds n.clock <;> simp [eraseBlocks, eraseBlock, hok]

theorem eraseArea_ok (area : AreaPos) : (n.eraseArea c faults area).1 ↔ n.Proceeds faults c.blocksPerArea :=
  eraseBlocks_ok ..

end Nand

namespace Device

theorem movePages_ok (src dst : AreaPos) (summary : Summary) (pages : List PageOffs) (n : Nand P) :
    (movePages faults src dst summary pages n).1 ↔ n.Proceeds faults (pages.countP (summary · = .used)) := by
  induction pages generalizing n with
  | nil => simp [movePages, Nand.Proceeds]
  | cons page pages ih =>
    by_cases hused : summary page = .used
    · rw [List.countP_cons_of_pos (by simpa using hused),
        Nand.proceeds_succ faults n (n.writePage faults dst page (n.flash src page)).2 rfl, ← ih]
      simp [movePages, hused, Nand.writePage]
    · rw [List.countP_cons_of_neg (by simpa using hused), ← ih]
      simp [movePages, hused]

theorem movePages_clock (src dst : AreaPos) (summary : Summary) (pages : List PageOffs) (n : Nand P) :
    (movePages faults src dst summary pages n).2.clock = n.clock + pages.countP (summary · = .used) := by
  induction pages generalizing n with
  | nil => rfl
  | cons page pages ih =>
    by_cases hused : summary page = .used
    · rw [movePages, if_pos hused, List.countP_cons_of_pos (by simpa using hused)]
      exact (ih _).trans (by simp only [Nand.writePage]; omega)
    · rw [movePages, if_neg hused, List.countP_cons_of_neg (by simpa using hused)]
      exact ih n

theorem moveValidDataToNewArea_clock (d : Device P) (src dst : AreaPos) (summary : Summary) :
    (d.moveValidDataToNewArea c faults src dst summary).2.nand.clock = d.nand.clock + countPages c .used summary :=
  movePages_clock ..

theorem moveValidDataToNewArea_ok (d : Device P) (src dst : AreaPos) (summary : Summary) :
    (d.moveValidDataToNewArea c faults src dst summary).1 ↔ d.nand.Proceeds faults (countPages c .used summary) :=
  movePages_ok ..

/-! ### What is collected -/

variable {c : Config} {d : Device P}

theorem countPages_eq_zero {status : SummaryEntry} {summary : Summary} :
    countPages c status summary = 0 ↔ ∀ page < c.dataPagesPerArea, summary page ≠ status := by
  simp [countPages, List.countP_eq_zero]

theorem countPages_eq_all {status : SummaryEntry} {summary : Summary} :
    countPages c status summary = c.dataPagesPerArea ↔ ∀ page < c.dataPagesPerArea, summary page = status := by
  have h : countPages c status summary = (List.range c.dataPagesPerArea).length ↔ _ := List.countP_eq_length
  simpa using h

/-- What a collection knows of an area it has chosen. -/
structure Candidate.Sound (c : Config) (d : Device P) (target : AreaType) (fav : Candidate) : Prop where
  lt : fav.area < c.areasNo
  collectable : d.isCollectable c fav.area = true
  summary_eq : fav.summary = d.getSummaryStatus c fav.area
  containsValidData_iff : fav.containsValidData = true ↔ countPages c .used fav.summary ≠ 0
  type_eq : target ≠ .unset → fav.containsValidData = true → d.getType c fav.area = target

theorem findLoop_sound {target : AreaType} {areas : List AreaPos} (hareas : ∀ area ∈ areas, area < c.areasNo)
    {fav : Candidate} (hfav : fav.area = 0 ∨ fav.Sound c d target) :
    (d.findLoop c target areas fav).area = 0 ∨ (d.findLoop c target areas fav).Sound c d target := by
  induction areas generalizing fav with
  | nil => exact hfav
  | cons i rest ih =>
    have hrest : ∀ area ∈ rest, area < c.areasNo := fun area h => hareas area (List.mem_cons_of_mem _ h)
    have hi : i < c.areasNo := hareas i List.mem_cons_self
    have hvalid : decide (countPages c .used (d.getSummaryStatus c i) > 0) = true ↔
        countPages c .used (d.getSummaryStatus c i) ≠ 0 := by simp [Nat.pos_iff_ne_zero]
    rw [findLoop]
    dsimp only
    split_ifs with hcollectable htarget hall htype hbetter hclear
    · have hused : countPages c .used (d.getSummaryStatus c i) = 0 := by
        rw [countPages_eq_zero]
        intro page hpage
        rw [countPages_eq_all.mp hall.1 page hpage]
        decide
      exact .inr ⟨hi, hcollectable, rfl, by simp [hused], fun _ h => by cases h⟩
    · exact ih hrest hfav
    · exact ih hrest (.inr ⟨hi, hcollectable, rfl, hvalid, fun _ _ => not_not.mp htype⟩)
    · exact ih hrest hfav
    · exact ih hrest (.inr ⟨hi, hcollectable, rfl, hvalid, fun h => absurd h htarget⟩)
    · exact ih hrest hfav
    · exact ih hrest hfav

theorem findNextBestArea_sound (target : AreaType) (h : (d.findNextBestArea c target).area ≠ 0) :
    (d.findNextBestArea c target).Sound c d target :=
  (findLoop_sound (fun _ => List.mem_range.mp) (.inl rfl)).resolve_left h

theorem isCollectable_iff {area : AreaPos} (hlt : area < c.areasNo) : d.isCollectable c area = true ↔
    d.statusOf area ≠ .active ∧ (d.typeOf area = .data ∨ d.typeOf area = .index) := by
  rw [isCollectable, getStatus_of_lt hlt, getType_of_lt hlt, decide_eq_true_iff]

theorem lt_of_isCollectable {area : AreaPos} (h : d.isCollectable c area = true) : area < c.areasNo := by
  by_contra hge
  rw [isCollectable, getStatus, if_pos (Nat.not_lt.mp hge)] at h
  simp at h

theorem foldl_hardStep_sound (desperate : Bool) (order : List AreaPos) {fav₀ : Option (AreaPos × Elem)}
    (h₀ : ∀ fav ∈ fav₀, d.findElem fav.1 = some fav.2 ∧ d.isCollectable c fav.1 = true) :
    ∀ fav ∈ order.foldl (d.hardStep c desperate) fav₀, d.findElem fav.1 = some fav.2 ∧ d.isCollectable c fav.1 = true := by
  induction order generalizing fav₀ with
  | nil => exact h₀
  | cons a order ih =>
    refine ih fun fav hfav => ?_
    rw [hardStep] at hfav
    split at hfav
    · exact h₀ fav hfav
    · rename_i e' helem
      split_ifs at hfav with hcond
      · cases hfav
        exact ⟨helem, hcond.2.2.1⟩
      · exact h₀ fav hfav

/-- What a hard commit knows of the area it has chosen. -/
theorem favouriteArea_sound {order : List AreaPos} {area : AreaPos} {e : Elem}
    (h : d.favouriteArea c order = some (area, e)) : d.findElem area = some e ∧ d.isCollectable c area = true := by
  have hcandidate : ∀ desperate, ∀ fav ∈ d.hardCandidate c order desperate,
      d.findElem fav.1 = some fav.2 ∧ d.isCollectable c fav.1 = true := by
    intro desperate fav hfav
    exact foldl_hardStep_sound desperate order (fun _ h => by cases h) fav (Option.mem_filter_iff.mp hfav).1
  rw [favouriteArea, Option.or_eq_some_iff] at h
  rcases h with h | ⟨-, h⟩
  · exact hcandidate _ _ h
  · exact hcandidate _ _ h

end Device
end Paffs.Areas
