import Paffs.Area.Device

/-! The area map after a power loss: the super index that was written last, and the journal on top of it. -/
namespace Paffs.Areas

variable {P : Type} {c : Config}

/-! ### The replay -/

/-- A device of which only the superblock counts. -/
def bare (sb : Superblock) : Device Unit := ⟨sb, ⟨fun _ _ => .blank, fun _ => false, 0, fun _ => 0⟩, [], false, []⟩

namespace Device

/-- The operation on areas that an entry stands for. -/
def operation (c : Config) (d : Device P) : Event → Device P
  | .type area type => d.setType c area type
  | .status area status => d.setStatus c area status
  | .increaseErasecount area => d.increaseErasecount c area
  | .position area pos => d.setPos c area pos
  | .swap a b => d.swapAreaPosition c a b
  | .activeArea type area => d.setActiveArea type area
  | .usedAreas num => d.setUsedAreas num
  | _ => d

/-- Nothing is logged while the journal is replayed. -/
def preScan (c : Config) (d : Device P) (entry : Event) : Device P := { d.operation c entry with log := d.log }

end Device

/-- What an entry does to the superblock. -/
def Event.on (c : Config) (sb : Superblock) (entry : Event) : Superblock := ((bare sb).operation c entry).sb

/-- An entry of the superblock. -/
def Event.ofSuperblock : Event → Bool
  | .type _ _ | .status _ _ | .increaseErasecount _ | .position _ _ | .swap _ _ | .activeArea _ _ | .usedAreas _ => true
  | _ => false

/-- The operation is not refused. -/
def Event.accepted (c : Config) : Event → Bool
  | .type area _ | .status area _ | .increaseErasecount area | .position area _ => area < c.areasNo
  | .swap a b => a < c.areasNo && b < c.areasNo
  | .activeArea areaType _ => areaType ≠ .no
  | .usedAreas _ => true
  | _ => false

/-- An entry that says what is assigned. -/
def Event.assigns : Event → Bool
  | .increaseErasecount _ | .swap _ _ => false
  | _ => true

theorem Event.on_of_not {entry : Event} (h : entry.ofSuperblock = false) (sb : Superblock) : entry.on c sb = sb := by
  cases entry with
  | type | status | increaseErasecount | position | swap | activeArea | usedAreas => cases h
  | _ => rfl

/-- An operation does the same to the superblock of every device. -/
theorem Device.operation_on (d : Device P) (entry : Event) : (d.operation c entry).sb = entry.on c d.sb := by
  unfold Event.on
  cases entry with
  | type area type =>
    change (d.setType c area type).sb = ((bare d.sb).setType c area type).sb
    unfold Device.setType
    split_ifs <;> rfl
  | status area status =>
    change (d.setStatus c area status).sb = ((bare d.sb).setStatus c area status).sb
    unfold Device.setStatus
    split_ifs <;> rfl
  | increaseErasecount area =>
    change (d.increaseErasecount c area).sb = ((bare d.sb).increaseErasecount c area).sb
    unfold Device.increaseErasecount
    split_ifs <;> rfl
  | position area pos =>
    change (d.setPos c area pos).sb = ((bare d.sb).setPos c area pos).sb
    unfold Device.setPos
    split_ifs <;> rfl
  | swap a b =>
    change (d.swapAreaPosition c a b).sb = ((bare d.sb).swapAreaPosition c a b).sb
    unfold Device.swapAreaPosition
    split_ifs <;> rfl
  | activeArea type area =>
    change (d.setActiveArea type area).sb = ((bare d.sb).setActiveArea type area).sb
    unfold Device.setActiveArea
    split_ifs <;> rfl
  | _ => rfl

/-- A log, entry by entry. -/
def replayed (c : Config) (log : List Event) (sb : Superblock) : Superblock := log.foldl (Event.on c) sb

section Replayed
variable (log log' : List Event) (sb : Superblock)

theorem replayed_append : replayed c (log ++ log') sb = replayed c log' (replayed c log sb) := List.foldl_append

theorem replayed_of_not (h : ∀ entry ∈ log, entry.ofSuperblock = false) : replayed c log sb = sb := by
  induction log generalizing sb with
  | nil => rfl
  | cons entry log ih =>
    rw [replayed, List.foldl_cons, Event.on_of_not (h entry List.mem_cons_self)]
    exact ih sb fun e he => h e (List.mem_cons_of_mem _ he)

theorem preScan_sb (d : Device P) : (log.foldl (Device.preScan c) d).sb = replayed c log d.sb := by
  induction log generalizing d with
  | nil => rfl
  | cons entry log ih =>
    rw [List.foldl_cons, ih]
    exact congrArg (replayed c log) (d.operation_on entry)

end Replayed

/-! ### Assignments -/

/-- What is assigned, field by field. -/
structure Assignment where
  type : AreaPos → Option AreaType
  status : AreaPos → Option AreaStatus
  position : AreaPos → Option AreaPos
  activeArea : AreaType → Option AreaPos
  usedAreas : Option Nat

namespace Assignment

def nothing : Assignment := ⟨fun _ => none, fun _ => none, fun _ => none, fun _ => none, none⟩

def on (x : Assignment) (sb : Superblock) : Superblock where
  map area :=
    { type := (x.type area).getD (sb.map area).type
      status := (x.status area).getD (sb.map area).status
      erasecount := (sb.map area).erasecount
      position := (x.position area).getD (sb.map area).position }
  activeArea type := (x.activeArea type).getD (sb.activeArea type)
  usedAreas := x.usedAreas.getD sb.usedAreas
  overallDeletions := sb.overallDeletions

/-- The later one wins. -/
def atop (y x : Assignment) : Assignment where
  type area := (y.type area).or (x.type area)
  status area := (y.status area).or (x.status area)
  position area := (y.position area).or (x.position area)
  activeArea type := (y.activeArea type).or (x.activeArea type)
  usedAreas := y.usedAreas.or x.usedAreas

theorem on_nothing (sb : Superblock) : nothing.on sb = sb := rfl

theorem on_on (y x : Assignment) (sb : Superblock) : y.on (x.on sb) = (y.atop x).on sb := by
  unfold on atop
  simp only [Option.getD_or]

/-- What is assigned twice is assigned once. -/
theorem on_self (x : Assignment) (sb : Superblock) : x.on (x.on sb) = x.on sb := by
  rw [on_on]
  unfold atop
  simp only [Option.or_self]

end Assignment

/-- What an entry assigns. -/
def assignmentOf (c : Config) : Event → Assignment
  | .type area type =>
    if area ≥ c.areasNo then .nothing
    else { Assignment.nothing with type := Function.update Assignment.nothing.type area (some type) }
  | .status area status =>
    if area ≥ c.areasNo then .nothing
    else { Assignment.nothing with status := Function.update Assignment.nothing.status area (some status) }
  | .position area pos =>
    if area ≥ c.areasNo then .nothing
    else { Assignment.nothing with position := Function.update Assignment.nothing.position area (some pos) }
  | .activeArea type area =>
    if type = .no then .nothing
    else
      { Assignment.nothing with
        status := Function.update Assignment.nothing.status area (some .active)
        activeArea := Function.update Assignment.nothing.activeArea type (some area) }
  | .usedAreas num => { Assignment.nothing with usedAreas := some num }
  | _ => .nothing

theorem Superblock.ext' {s s' : Superblock} (hmap : ∀ area, s.map area = s'.map area) (hactive : s.activeArea = s'.activeArea)
    (hused : s.usedAreas = s'.usedAreas) (hdeletions : s.overallDeletions = s'.overallDeletions) : s = s' := by
  obtain ⟨map, activeArea, usedAreas, overallDeletions⟩ := s
  obtain rfl : map = s'.map := funext hmap
  cases hactive
  cases hused
  cases hdeletions
  rfl

/-- An assignment to one area. -/
theorem modify_sb {x : Assignment} {area : AreaPos} {f : Area → Area} (d : Device P)
    (hself : f (d.sb.map area) = (x.on d.sb).map area)
    (hother : ∀ a, a ≠ area → x.type a = none ∧ x.status a = none ∧ x.position a = none)
    (hactive : x.activeArea = fun _ => none) (hused : x.usedAreas = none) : (d.modify area f).sb = x.on d.sb := by
  refine Superblock.ext' (fun a => ?_) ?_ ?_ rfl
  · by_cases heq : a = area
    · subst heq
      exact (Function.update_self a _ d.sb.map).trans hself
    · obtain ⟨htype, hstatus, hposition⟩ := hother a heq
      refine (Function.update_of_ne heq _ d.sb.map).trans ?_
      unfold Assignment.on
      dsimp only
      rw [htype, hstatus, hposition]
      rfl
  · unfold Assignment.on
    rw [hactive]
    rfl
  · unfold Assignment.on
    rw [hused]
    rfl

/-- What an entry does when it assigns. -/
theorem operation_sb {entry : Event} (h : entry.assigns = true) (d : Device P) :
    (d.operation c entry).sb = (assignmentOf c entry).on d.sb := by
  cases entry with
  | type area type =>
    change (d.setType c area type).sb = Assignment.on (if area ≥ c.areasNo then _ else _) d.sb
    unfold Device.setType
    split_ifs
    · rfl
    · refine modify_sb (d.addEvent _) ?_ (fun a ha => ⟨Function.update_of_ne ha _ _, rfl, rfl⟩) rfl rfl
      unfold Assignment.on
      dsimp only
      rw [Function.update_self]
      rfl
  | status area status =>
    change (d.setStatus c area status).sb = Assignment.on (if area ≥ c.areasNo then _ else _) d.sb
    unfold Device.setStatus
    split_ifs
    · rfl
    · refine modify_sb (d.addEvent _) ?_ (fun a ha => ⟨rfl, Function.update_of_ne ha _ _, rfl⟩) rfl rfl
      unfold Assignment.on
      dsimp only
      rw [Function.update_self]
      rfl
  | position area pos =>
    change (d.setPos c area pos).sb = Assignment.on (if area ≥ c.areasNo then _ else _) d.sb
    unfold Device.setPos
    split_ifs
    · rfl
    · refine modify_sb (d.addEvent _) ?_ (fun a ha => ⟨rfl, rfl, Function.update_of_ne ha _ _⟩) rfl rfl
      unfold Assignment.on
      dsimp only
      rw [Function.update_self]
      rfl
  | activeArea type area =>
    change (d.setActiveArea type area).sb = Assignment.on (if type = .no then _ else _) d.sb
    unfold Device.setActiveArea
    split_ifs
    · rfl
    · have hstatus : (d.modify area ({ · with status := .active })).sb =
          ({ Assignment.nothing with status := Function.update Assignment.nothing.status area (some .active) } : Assignment).on
            d.sb := by
        refine modify_sb d ?_ (fun a ha => ⟨rfl, Function.update_of_ne ha _ _, rfl⟩) rfl rfl
        unfold Assignment.on
        dsimp only
        rw [Function.update_self]
        rfl
      change ({ (d.modify area ({ · with status := .active })).sb with
        activeArea := Function.update d.sb.activeArea type area } : Superblock) = _
      rw [hstatus]
      refine Superblock.ext' (fun _ => rfl) (funext fun t => ?_) rfl rfl
      unfold Assignment.on
      dsimp only
      by_cases heq : t = type
      · subst heq
        rw [Function.update_self, Function.update_self]
        rfl
      · rw [Function.update_of_ne heq, Function.update_of_ne heq]
        rfl
  | usedAreas num => rfl
  | increaseErasecount area => cases h
  | swap a b => cases h
  | _ => rfl

/-- What a whole log assigns. -/
def assignmentsOf (c : Config) (log : List Event) : Assignment :=
  log.foldl (fun x entry => (assignmentOf c entry).atop x) .nothing

theorem replayed_assigning {log : List Event} (h : ∀ entry ∈ log, entry.assigns = true) (x : Assignment) (sb : Superblock) :
    replayed c log (x.on sb) = (log.foldl (fun x entry => (assignmentOf c entry).atop x) x).on sb := by
  induction log generalizing x with
  | nil => rfl
  | cons entry log ih =>
    have hon : entry.on c (x.on sb) = ((assignmentOf c entry).atop x).on sb := by
      rw [← Assignment.on_on]
      exact operation_sb (h entry List.mem_cons_self) (bare (x.on sb))
    rw [replayed, List.foldl_cons, hon, List.foldl_cons]
    exact ih (fun e he => h e (List.mem_cons_of_mem _ he)) _

/-- A log that only assigns is replayed twice as well as once. -/
theorem replayed_twice {log : List Event} (h : ∀ entry ∈ log, entry.assigns = true) (sb : Superblock) :
    replayed c log (replayed c log sb) = replayed c log sb := by
  have hall : ∀ sb, replayed c log sb = (assignmentsOf c log).on sb := fun sb => replayed_assigning h .nothing sb
  rw [hall sb, hall, Assignment.on_self]

end Paffs.Areas
