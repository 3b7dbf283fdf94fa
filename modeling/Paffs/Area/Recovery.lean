import Paffs.Area.Mounting
import Paffs.Lib.Resume

/-! What area management does with an operation that a power loss has cut off. -/
namespace Paffs.Areas
open Resume
variable {P : Type} (c : Config) (faults : Faults P)

/-! ### What the journal tells of the operation -/

/-- The last that was seen of the superblock and the summary cache. -/
inductive ExternOp where
  | none | setType | setStatus | increaseErasecount | setActiveArea | changeUsedAreas | deleteSummary | resetASWritten
  deriving DecidableEq

/-- Entries that are not listed are ignored. -/
def ExternOp.seen (last : ExternOp) : Event → ExternOp
  | .type _ _ => .setType
  | .status _ _ => .setStatus
  | .increaseErasecount _ => .increaseErasecount
  | .activeArea _ _ => .setActiveArea
  | .usedAreas _ => .changeUsedAreas
  | .remove _ => .deleteSummary
  | .reset _ => .resetASWritten
  | _ => last

/-- An entry of area management. -/
def Event.ofAreaMgmt : Event → Bool
  | .initAreaAs _ _ | .closeArea _ | .retireArea _ | .deleteAreaContents _ _ | .deleteArea _ => true
  | _ => false

/-- `mLastOp` and `mLastExternOp`, where a transaction is unfinished. -/
abbrev Unfinished := Option (Event × ExternOp)

def processEntry (st : Unfinished) (entry : Event) : Unfinished :=
  if entry.ofAreaMgmt then some (entry, (st.map Prod.snd).getD .none) else st.map fun last => (last.1, last.2.seen entry)

def behindStep (behind : List Event) (entry : Event) : List Event :=
  match entry with
  | .checkpoint .areaMgmt => []
  | entry => behind ++ [entry]

/-- Area management is handed what lies behind its last checkpoint. -/
def unfinished (log : List Event) : Unfinished := (log.foldl behindStep []).foldl processEntry none

/-! ### The end of the log -/

/-- A case of a `switch`, and whether a `break` stands at its end. -/
structure Case (P : Type) where
  label : ExternOp
  body : Device P → Device P
  breaks : Bool

namespace Device

/-- The cases from one on, each falls through to the next. -/
def fallThrough : List (Case P) → Device P → Device P
  | [], d => d
  | case :: cases, d => if case.breaks then case.body d else fallThrough cases (case.body d)

/-- Where there is no such case nothing is done. -/
def switch (last : ExternOp) (cases : List (Case P)) (d : Device P) : Device P :=
  fallThrough (cases.dropWhile (·.label ≠ last)) d

/-- All blocks of an area; what fails is ignored. -/
def eraseRegardless (d : Device P) (area : AreaPos) : Device P :=
  { d with nand := (List.range c.blocksPerArea).foldl (fun n block => (n.eraseBlock c faults (d.getPos c area) block).2) d.nand }

/-- `deleteArea` and `deleteAreaContents` share their cases. -/
def deletionCases (area : AreaPos) (contents : Bool) : List (Case P) :=
  [⟨.none, fun d => (d.eraseRegardless c faults area).increaseErasecount c area, false⟩,
   ⟨.increaseErasecount, (·.resetASWritten area), false⟩,
   ⟨.resetASWritten, (·.deleteSummary area), contents⟩,
   ⟨.deleteSummary, fun d => if contents then d else d.setStatus c area .empty, contents⟩,
   ⟨.setStatus, (·.setType c area .unset), false⟩,
   ⟨.setType, decreaseUsedAreas, false⟩,
   ⟨.changeUsedAreas, (·.addEvent (.checkpoint .areaMgmt)), true⟩]

def casesOf : Event → List (Case P)
  | .initAreaAs area type =>
    [⟨.none, (·.setType c area type), false⟩,
     ⟨.setType, fun d => if d.getStatus c area = .empty then d.increaseUsedAreas else d, false⟩,
     ⟨.changeUsedAreas, (·.setActiveArea type area), false⟩,
     ⟨.setActiveArea, (·.addEvent (.checkpoint .areaMgmt)), true⟩]
  | .closeArea area =>
    [⟨.none, (·.setStatus c area .closed), false⟩,
     ⟨.setStatus, fun d => d.setActiveArea (d.getType c area) 0, false⟩,
     ⟨.setActiveArea, (·.addEvent (.checkpoint .areaMgmt)), true⟩]
  | .retireArea area =>
    [⟨.none, (·.setStatus c area .closed), false⟩,
     ⟨.setStatus, fun d => if d.getType c area = .unset then d.increaseUsedAreas else d, false⟩,
     ⟨.changeUsedAreas, (·.setType c area .retired), false⟩,
     ⟨.setType, fun d => { d with nand := d.nand.markAllBad c (d.getPos c area) }.addEvent (.checkpoint .areaMgmt), true⟩]
  | .deleteArea area => deletionCases c faults area false
  | .deleteAreaContents area _ => deletionCases c faults area true
  | _ => []

def signalEndOfLog (d : Device P) : Unfinished → Device P
  | none => d
  | some (op, last) => (d.switch last (casesOf c faults op)).addEvent (.checkpoint .areaMgmt)

end Device

/-! ### The operations as programs -/

variable {c} {d d' d'' : Device P}

/-- What is not refused is logged. -/
def act (c : Config) (entry : Superblock → Option Event) (sb : Superblock) : Option Event := (entry sb).filter (·.accepted c)

theorem act_eq_some {entry : Superblock → Option Event} {sb : Superblock} {e : Event} (h : act c entry sb = some e) :
    entry sb = some e := (Option.filter_eq_some_iff.1 h).1

namespace Device

/-- The device does to the superblock what the program says, and logs it. -/
def Performs (c : Config) (d d' : Device P) (prog : List (Superblock → Option Event)) : Prop :=
  d'.sb = exec (Event.on c) prog d.sb ∧ d'.log = d.log ++ logOf (Event.on c) prog d.sb

theorem Performs.refl (d : Device P) : Performs c d d [] := ⟨rfl, (List.append_nil _).symm⟩

theorem Performs.trans {prog prog' : List (Superblock → Option Event)} (h : Performs c d d' prog) (h' : Performs c d' d'' prog') :
    Performs c d d'' (prog ++ prog') := by
  obtain ⟨hsb, hlog⟩ := h
  obtain ⟨hsb', hlog'⟩ := h'
  refine ⟨?_, ?_⟩
  · rw [hsb', hsb, exec_append]
  · rw [hlog', hsb, hlog, List.append_assoc, logOf_append]

theorem Performs.withNand {prog : List (Superblock → Option Event)} (h : Performs c d d' prog) (nand : Nand P) :
    Performs c d { d' with nand := nand } prog := h

theorem performs_none {step : Superblock → Option Event} (h : step d.sb = none) : Performs c d d [step] := by
  refine ⟨?_, ?_⟩
  · rw [exec_none h]
    rfl
  · rw [logOf_none h]
    exact (List.append_nil _).symm

theorem performs_some {step : Superblock → Option Event} {e : Event} (h : step d.sb = some e) (hsb : d'.sb = e.on c d.sb)
    (hlog : d'.log = d.log ++ [e]) : Performs c d d' [step] := by
  refine ⟨?_, ?_⟩
  · rw [exec_some h]
    exact hsb
  · rw [logOf_some h]
    exact hlog

theorem operation_performs (d : Device P) {f : Superblock → Option Event} (e : Event) (h : f d.sb = some e) :
    Performs c d (d.operation c e) [act c f] := by
  rcases d.operation_log (c := c) e with ⟨haccepted, hlog⟩ | ⟨hrefused, hsame⟩
  · exact performs_some (by rw [act, h, Option.filter_some, if_pos haccepted]) (d.operation_on e) hlog
  · rw [hsame]
    exact performs_none (by rw [act, h, Option.filter_some, if_neg (Bool.eq_false_iff.1 hrefused)])

variable (area : AreaPos) (type : AreaType)

theorem setType_performs : Performs c d (d.setType c area type) [act c fun _ => some (.type area type)] :=
  d.operation_performs (.type area type) rfl

theorem setStatus_performs (status : AreaStatus) :
    Performs c d (d.setStatus c area status) [act c fun _ => some (.status area status)] :=
  d.operation_performs (.status area status) rfl

theorem increaseErasecount_performs : Performs c d (d.increaseErasecount c area) [act c fun _ => some (.increaseErasecount area)] :=
  d.operation_performs (.increaseErasecount area) rfl

theorem setActiveArea_performs : Performs c d (d.setActiveArea type area) [act c fun _ => some (.activeArea type area)] :=
  d.operation_performs (.activeArea type area) rfl

theorem decreaseUsedAreas_performs :
    Performs c d d.decreaseUsedAreas [act c fun sb => some (.usedAreas ((sb.usedAreas + (2 ^ 16 - 1)) % 2 ^ 16))] :=
  d.operation_performs (.usedAreas _) rfl

/-- Used areas are counted when a condition on the superblock holds. -/
def counting (p : Superblock → Prop) [DecidablePred p] (sb : Superblock) : Option Event :=
  if p sb then some (.usedAreas ((sb.usedAreas + 1) % 2 ^ 16)) else none

theorem increaseUsedAreas_performs (p : Superblock → Prop) [DecidablePred p] :
    Performs c d (if p d.sb then d.increaseUsedAreas else d) [act c (counting p)] := by
  split
  · rename_i hp
    exact d.operation_performs (.usedAreas _) (if_pos hp)
  · rename_i hp
    exact performs_none (by rw [act, counting, if_neg hp]; rfl)

theorem resetASWritten_performs : Performs c d (d.resetASWritten area)
    [fun _ => if d.existsSummaryElem area then some (.reset area) else none] := by
  unfold resetASWritten
  split
  · exact performs_some (e := .reset area) rfl rfl rfl
  · exact performs_none rfl

theorem deleteSummary_performs : Performs c d (d.deleteSummary area)
    [fun _ => if d.existsSummaryElem area then some (.remove area) else none] := by
  unfold deleteSummary
  split
  · exact performs_some (e := .remove area) rfl rfl rfl
  · exact performs_none rfl

end Device

def initProgram (c : Config) (area : AreaPos) (type : AreaType) : List (Superblock → Option Event) :=
  [act c fun _ => some (.type area type),
   act c (Device.counting fun sb => (bare sb).getStatus c area = .empty),
   act c fun _ => some (.activeArea type area)]

def closeProgram (c : Config) (area : AreaPos) : List (Superblock → Option Event) :=
  [act c fun _ => some (.status area .closed), act c fun sb => some (.activeArea ((bare sb).getType c area) 0)]

def retireProgram (c : Config) (area : AreaPos) : List (Superblock → Option Event) :=
  [act c fun _ => some (.status area .closed),
   act c (Device.counting fun sb => (bare sb).getType c area = .unset),
   act c fun _ => some (.type area .retired)]

/-- `reset` and `remove` tell whether the summary is cached. -/
def contentsProgram (c : Config) (area : AreaPos) (reset remove : Bool) : List (Superblock → Option Event) :=
  [act c fun _ => some (.increaseErasecount area),
   fun _ => if reset then some (.reset area) else none,
   fun _ => if remove then some (.remove area) else none]

def freeProgram (c : Config) (area : AreaPos) : List (Superblock → Option Event) :=
  [act c fun _ => some (.status area .empty),
   act c fun _ => some (.type area .unset),
   act c fun sb => some (.usedAreas ((sb.usedAreas + (2 ^ 16 - 1)) % 2 ^ 16))]

namespace Device

/-- An operation logs itself, its program, and a checkpoint. -/
structure Transaction (c : Config) (d d' : Device P) (op : Event) (prog : List (Superblock → Option Event)) : Prop where
  sb : d'.sb = exec (Event.on c) prog d.sb
  log : d'.log = d.log ++ op :: logOf (Event.on c) prog d.sb ++ [.checkpoint .areaMgmt]

theorem Performs.transaction {op : Event} {prog : List (Superblock → Option Event)} (h : Performs c (d.addEvent op) d' prog) :
    Transaction c d (d'.addEvent (.checkpoint .areaMgmt)) op prog := by
  obtain ⟨hsb, hlog⟩ := h
  refine ⟨hsb, ?_⟩
  change d'.log ++ _ = _
  rw [hlog]
  simp [addEvent]

theorem initAreaAs_transaction (area : AreaPos) (type : AreaType) :
    Transaction c d (d.initAreaAs c area type) (.initAreaAs area type) (initProgram c area type) :=
  Performs.transaction (((setType_performs area type).trans
    (increaseUsedAreas_performs fun sb => (bare sb).getStatus c area = .empty)).trans (setActiveArea_performs area type))

theorem closeArea_transaction (area : AreaPos) :
    Transaction c d (d.closeArea c area) (.closeArea area) (closeProgram c area) :=
  Performs.transaction ((setStatus_performs area .closed).trans (operation_performs _ (.activeArea _ 0) rfl))

theorem retireArea_transaction (area : AreaPos) :
    Transaction c d (d.retireArea c area) (.retireArea area) (retireProgram c area) :=
  Performs.transaction ((((setStatus_performs area .closed).trans
    (increaseUsedAreas_performs fun sb => (bare sb).getType c area = .unset)).trans (setType_performs area .retired)).withNand _)

/-- Between the entries of its own, a deletion of contents that succeeds. -/
theorem deleteAreaContents_performs {area swappedArea : AreaPos} {quiet : Bool}
    (hok : (d.deleteAreaContents c faults area swappedArea quiet).1 = .ok) : ∃ reset remove, ∃ d'' : Device P,
    Performs c (d.addEventUnless quiet (.deleteAreaContents area (erasedArea area swappedArea))) d''
      (contentsProgram c area reset remove) ∧
    (d.deleteAreaContents c faults area swappedArea quiet).2 = d''.addEventUnless quiet (.checkpoint .areaMgmt) := by
  unfold deleteAreaContents at hok ⊢
  split at hok
  · cases hok
  · rename_i hlt
    split at hok
    · cases hok
    · rename_i htype
      rw [if_neg hlt, if_neg htype]
      dsimp only at hok ⊢
      unfold eraseOrRetire at hok ⊢
      split at hok
      · rename_i nand heq
        exact ⟨_, _, _, ((((Performs.refl _).withNand nand).trans (increaseErasecount_performs area)).trans
          (resetASWritten_performs area)).trans (deleteSummary_performs area), rfl⟩
      · cases hok

theorem deleteAreaContents_transaction {area swappedArea : AreaPos}
    (hok : (d.deleteAreaContents c faults area swappedArea false).1 = .ok) : ∃ reset remove,
    Transaction c d (d.deleteAreaContents c faults area swappedArea false).2
      (.deleteAreaContents area (erasedArea area swappedArea)) (contentsProgram c area reset remove) := by
  obtain ⟨reset, remove, d'', hperforms, heq⟩ := deleteAreaContents_performs faults hok
  rw [heq]
  exact ⟨reset, remove, hperforms.transaction⟩

theorem deleteArea_transaction {area : AreaPos} (hok : (d.deleteArea c faults area).1 = .ok) : ∃ reset remove,
    Transaction c d (d.deleteArea c faults area).2 (.deleteArea area) (contentsProgram c area reset remove ++ freeProgram c area) := by
  unfold deleteArea at hok ⊢
  split at hok
  · cases hok
  · rename_i hlt
    split at hok
    · cases hok
    · rename_i htype
      rw [if_neg hlt, if_neg htype]
      split at hok
      · rename_i d₁ heq
        have hcontents : ((d.addEvent (.deleteArea area)).deleteAreaContents c faults area 0 true).1 = .ok := by rw [heq]
        obtain ⟨reset, remove, d₂, hperforms, hsame⟩ := deleteAreaContents_performs faults hcontents
        rw [heq] at hsame
        obtain rfl : d₁ = d₂ := hsame
        exact ⟨reset, remove, Performs.transaction (hperforms.trans
          (((setStatus_performs area .empty).trans (setType_performs area .unset)).trans decreaseUsedAreas_performs))⟩
      · rename_i r d₁ hne heq
        exact (hne hok).elim

/-! ### The end of the log goes on where the operation was -/

/-- Area management has seen an entry behind the operation. -/
def resume (c : Config) (faults : Faults P) (op entry : Event) (d : Device P) : Device P :=
  d.signalEndOfLog c faults (some (op, ExternOp.none.seen entry))

theorem counting_eq_some {p : Superblock → Prop} [DecidablePred p] {sb : Superblock} {e : Event}
    (h : counting p sb = some e) : e = .usedAreas ((sb.usedAreas + 1) % 2 ^ 16) := by
  unfold counting at h
  split at h
  · exact (Option.some.inj h).symm
  · cases h

theorem flag_eq_some {b : Bool} {entry e : Event} (h : (if b then some entry else none) = some e) : e = entry := by
  split at h
  · exact (Option.some.inj h).symm
  · cases h

theorem initAreaAs_resumable (area : AreaPos) (type : AreaType) :
    Resumable (Event.on c) Device.sb (resume c faults (.initAreaAs area type)) (initProgram c area type) := by
  have hactive : ∀ t : Device P, (t.setActiveArea type area).sb = exec (Event.on c) _ t.sb :=
    fun t => (setActiveArea_performs (c := c) (d := t) area type).1
  refine .cons (fun s e he t => ?_) (.cons (fun s e he t => ?_) (.cons (fun s e he t => ?_) .nil))
  · cases act_eq_some he
    exact ((increaseUsedAreas_performs fun sb => (bare sb).getStatus c area = .empty).trans (setActiveArea_performs area type)).1
  · cases counting_eq_some (act_eq_some he)
    exact hactive t
  · cases act_eq_some he
    rfl

theorem closeArea_resumable (area : AreaPos) :
    Resumable (Event.on c) Device.sb (resume c faults (.closeArea area)) (closeProgram c area) := by
  refine .cons (fun s e he t => ?_) (.cons (fun s e he t => ?_) .nil)
  · cases act_eq_some he
    exact (operation_performs (f := fun sb => some (.activeArea ((bare sb).getType c area) 0)) t
      (.activeArea (t.getType c area) 0) rfl).1
  · cases act_eq_some he
    rfl

theorem retireArea_resumable (area : AreaPos) :
    Resumable (Event.on c) Device.sb (resume c faults (.retireArea area)) (retireProgram c area) := by
  refine .cons (fun s e he t => ?_) (.cons (fun s e he t => ?_) (.cons (fun s e he t => ?_) .nil))
  · cases act_eq_some he
    exact ((increaseUsedAreas_performs fun sb => (bare sb).getType c area = .unset).trans (setType_performs area .retired)).1
  · cases counting_eq_some (act_eq_some he)
    exact (setType_performs area .retired).1
  · cases act_eq_some he
    rfl

/-- What is logged of the cached summary changes nothing in the superblock. -/
theorem exec_flags (area : AreaPos) (reset remove : Bool) (rest : List (Superblock → Option Event)) (sb : Superblock) :
    exec (Event.on c) ((fun _ => if reset then some (.reset area) else none) ::
      (fun _ => if remove then some (.remove area) else none) :: rest) sb = exec (Event.on c) rest sb := by
  cases reset <;> cases remove <;> rfl

theorem exec_flag (area : AreaPos) (remove : Bool) (rest : List (Superblock → Option Event)) (sb : Superblock) :
    exec (Event.on c) ((fun _ => if remove then some (.remove area) else none) :: rest) sb = exec (Event.on c) rest sb := by
  cases remove <;> rfl

theorem freeProgram_performs (area : AreaPos) (d : Device P) :
    Performs c d ((d.setStatus c area .empty).setType c area .unset).decreaseUsedAreas (freeProgram c area) :=
  ((setStatus_performs area .empty).trans (setType_performs area .unset)).trans decreaseUsedAreas_performs

theorem deleteAreaContents_resumable (area swappedArea : AreaPos) (reset remove : Bool) :
    Resumable (Event.on c) Device.sb (resume c faults (.deleteAreaContents area swappedArea))
      (contentsProgram c area reset remove) := by
  refine .cons (fun s e he t => ?_) (.cons (fun s e he t => ?_) (.cons (fun s e he t => ?_) .nil))
  · cases act_eq_some he
    rw [exec_flags]
    exact ((t.resetASWritten area).deleteSummary_sb area).trans (t.resetASWritten_sb area)
  · cases flag_eq_some he
    rw [exec_flag]
    exact t.deleteSummary_sb area
  · cases flag_eq_some he
    rfl

theorem deleteArea_resumable (area : AreaPos) (reset remove : Bool) :
    Resumable (Event.on c) Device.sb (resume c faults (.deleteArea area))
      (contentsProgram c area reset remove ++ freeProgram c area) := by
  have hfreed : ∀ t t' : Device P, t'.sb = t.sb →
      ((t'.setStatus c area .empty).setType c area .unset).decreaseUsedAreas.sb = exec (Event.on c) (freeProgram c area) t.sb := by
    intro t t' hsb
    rw [← hsb]
    exact (freeProgram_performs area t').1
  refine .cons (fun s e he t => ?_) (.cons (fun s e he t => ?_) (.cons (fun s e he t => ?_)
    (.cons (fun s e he t => ?_) (.cons (fun s e he t => ?_) (.cons (fun s e he t => ?_) .nil)))))
  · cases act_eq_some he
    refine Eq.trans ?_ (exec_flags area reset remove (freeProgram c area) t.sb).symm
    exact hfreed t ((t.resetASWritten area).deleteSummary area) (((t.resetASWritten area).deleteSummary_sb area).trans (t.resetASWritten_sb area))
  · cases flag_eq_some he
    refine Eq.trans ?_ (exec_flag area remove (freeProgram c area) t.sb).symm
    exact hfreed t (t.deleteSummary area) (t.deleteSummary_sb area)
  · cases flag_eq_some he
    exact hfreed t t rfl
  · cases act_eq_some he
    have hlast := (setType_performs (c := c) (d := t) area .unset).trans decreaseUsedAreas_performs
    exact hlast.1
  · cases act_eq_some he
    have hlast := decreaseUsedAreas_performs (c := c) (d := t)
    exact hlast.1
  · cases act_eq_some he
    rfl

/-! ### From the first entry on -/

theorem initAreaAs_redone (area : AreaPos) (type : AreaType) (t : Device P) :
    (t.signalEndOfLog c faults (some (.initAreaAs area type, .none))).sb = exec (Event.on c) (initProgram c area type) t.sb :=
  (((setType_performs area type).trans (increaseUsedAreas_performs fun sb => (bare sb).getStatus c area = .empty)).trans
    (setActiveArea_performs area type)).1

theorem closeArea_redone (area : AreaPos) (t : Device P) :
    (t.signalEndOfLog c faults (some (.closeArea area, .none))).sb = exec (Event.on c) (closeProgram c area) t.sb :=
  ((setStatus_performs area .closed).trans (operation_performs _ (.activeArea _ 0) rfl)).1

theorem retireArea_redone (area : AreaPos) (t : Device P) :
    (t.signalEndOfLog c faults (some (.retireArea area, .none))).sb = exec (Event.on c) (retireProgram c area) t.sb :=
  (((setStatus_performs area .closed).trans (increaseUsedAreas_performs fun sb => (bare sb).getType c area = .unset)).trans
    (setType_performs area .retired)).1

theorem exec_contents (area : AreaPos) (reset remove : Bool) (rest : List (Superblock → Option Event)) (sb : Superblock) :
    exec (Event.on c) (contentsProgram c area reset remove ++ rest) sb =
      exec (Event.on c) rest (exec (Event.on c) [act c fun _ => some (.increaseErasecount area)] sb) := by
  refine Eq.trans ?_ (exec_flags area reset remove rest _)
  exact exec_append (p := [act c fun _ => some (.increaseErasecount area)])

theorem eraseRegardless_performs (area : AreaPos) (t : Device P) :
    Performs c t ((t.eraseRegardless c faults area).increaseErasecount c area) [act c fun _ => some (.increaseErasecount area)] :=
  (Performs.refl t).withNand _ |>.trans (increaseErasecount_performs area)

theorem deleteAreaContents_redone (area swappedArea : AreaPos) (reset remove : Bool) (t : Device P) :
    (t.signalEndOfLog c faults (some (.deleteAreaContents area swappedArea, .none))).sb =
      exec (Event.on c) (contentsProgram c area reset remove) t.sb := by
  have herased := (eraseRegardless_performs faults (c := c) area t).1
  have hexec := exec_contents (c := c) area reset remove [] t.sb
  rw [List.append_nil] at hexec
  rw [hexec]
  let d := (t.eraseRegardless c faults area).increaseErasecount c area
  exact ((d.resetASWritten area).deleteSummary_sb area).trans ((d.resetASWritten_sb area).trans herased)

theorem deleteArea_redone (area : AreaPos) (reset remove : Bool) (t : Device P) :
    (t.signalEndOfLog c faults (some (.deleteArea area, .none))).sb =
      exec (Event.on c) (contentsProgram c area reset remove ++ freeProgram c area) t.sb := by
  have herased := (eraseRegardless_performs faults (c := c) area t).1
  rw [exec_contents]
  let d := (t.eraseRegardless c faults area).increaseErasecount c area
  have hsb : ((d.resetASWritten area).deleteSummary area).sb =
      exec (Event.on c) [act c fun _ => some (.increaseErasecount area)] t.sb :=
    ((d.resetASWritten area).deleteSummary_sb area).trans ((d.resetASWritten_sb area).trans herased)
  have hfreed := (freeProgram_performs (c := c) area ((d.resetASWritten area).deleteSummary area)).1
  rw [hsb] at hfreed
  exact hfreed

end Device

/-! ### The journal behind the last checkpoint -/

/-- Entries of others that area management takes notice of. -/
def Event.external : Event → Bool
  | .type _ _ | .status _ _ | .increaseErasecount _ | .activeArea _ _ | .usedAreas _ | .remove _ | .reset _ => true
  | _ => false

theorem processEntry_external {entry : Event} (h : entry.external = true) (op : Event) (last : ExternOp) :
    processEntry (some (op, last)) entry = some (op, ExternOp.none.seen entry) := by
  cases entry with
  | type | status | increaseErasecount | activeArea | usedAreas | remove | reset => rfl
  | _ => cases h

theorem external_ne {entry : Event} (h : entry.external = true) : entry ≠ .checkpoint .areaMgmt := by
  rintro rfl
  cases h

theorem unfinished_checkpoint (before : List Event) : unfinished (before ++ [.checkpoint .areaMgmt]) = none := by
  rw [unfinished, List.foldl_concat]
  rfl

theorem unfinished_append {before log : List Event} (h : ∀ entry ∈ log, entry ≠ .checkpoint .areaMgmt) :
    unfinished (before ++ log) = log.foldl processEntry (unfinished before) := by
  have hbehind : ∀ behind, log.foldl behindStep behind = behind ++ log := by
    induction log with
    | nil => exact fun behind => (List.append_nil _).symm
    | cons entry log ih =>
      intro behind
      have hstep : behindStep behind entry = behind ++ [entry] := by
        unfold behindStep
        split
        · exact absurd rfl (h _ List.mem_cons_self)
        · rfl
      rw [List.foldl_cons, hstep, ih fun e he => h e (List.mem_cons_of_mem _ he), List.append_assoc]
      rfl
  rw [unfinished, List.foldl_append, hbehind, List.foldl_append, unfinished]

/-- Behind the operation, the last of the others counts. -/
theorem unfinished_behind {before log : List Event} {op : Event} (hbefore : unfinished before = none) (hop : op.ofAreaMgmt = true)
    (hlog : ∀ entry ∈ log, entry.external = true) :
    unfinished (before ++ op :: log) = some (op, log.foldl ExternOp.seen .none) := by
  have hself : op ≠ .checkpoint .areaMgmt := by
    rintro rfl
    cases hop
  have hnone : processEntry none op = some (op, .none) := if_pos hop
  rw [unfinished_append, hbefore, List.foldl_cons, hnone]
  · induction log using List.reverseRecOn with
    | nil => rfl
    | append_singleton log e ih =>
      rw [List.foldl_concat, List.foldl_concat, ih fun x hx => hlog x (List.mem_append_left _ hx)]
      have he := hlog e (by simp)
      rw [processEntry_external he]
      cases e with
      | type | status | increaseErasecount | activeArea | usedAreas | remove | reset => rfl
      | _ => cases he
  · intro entry hentry
    rcases List.mem_cons.1 hentry with rfl | hentry
    · exact hself
    · exact external_ne (hlog entry hentry)

theorem on_ofAreaMgmt {op : Event} (h : op.ofAreaMgmt = true) (sb : Superblock) : op.on c sb = sb := by
  refine Event.on_of_not ?_ sb
  cases op with
  | initAreaAs | closeArea | retireArea | deleteAreaContents | deleteArea => rfl
  | _ => cases h

namespace Device

/-- The end of the log knows how an operation goes on, from its first entry and from each that follows. -/
structure Redoes (c : Config) (faults : Faults P) (op : Event) (prog : List (Superblock → Option Event)) : Prop where
  own : op.ofAreaMgmt = true
  external : ∀ step ∈ prog, ∀ s e, step s = some e → e.external = true
  first : ∀ t : Device P, (t.signalEndOfLog c faults (some (op, .none))).sb = exec (Event.on c) prog t.sb
  resumable : Resumable (Event.on c) Device.sb (resume c faults op) prog

/-- An operation of which any part was logged is completed. -/
theorem Transaction.recovers {op : Event} {prog : List (Superblock → Option Event)} (h : Transaction c d d' op prog)
    (hredoes : Redoes c faults op prog) {before log : List Event} (hbefore : unfinished before = none)
    (hlog : d.log ++ log <+: d'.log) {t : Device P} (ht : t.sb = replayed c log d.sb) :
    (t.signalEndOfLog c faults (unfinished (before ++ log))).sb = if log = [] then d.sb else d'.sb := by
  rw [h.log, List.append_assoc, List.prefix_append_right_inj, List.cons_append] at hlog
  cases log with
  | nil =>
    rw [List.append_nil, hbefore, if_pos rfl]
    exact ht
  | cons first log =>
    obtain ⟨hop, hlog⟩ := List.cons_prefix_cons.1 hlog
    rw [hop] at ht ⊢
    have hexternal : ∀ e ∈ logOf (Event.on c) prog d.sb, e.external = true := mem_logOf hredoes.external
    rw [if_neg (List.cons_ne_nil _ _), h.sb]
    rw [replayed, List.foldl_cons, on_ofAreaMgmt hredoes.own] at ht
    rcases List.prefix_concat_iff.1 hlog with rfl | hlog
    · have hcheckpoint : before ++ op :: (logOf (Event.on c) prog d.sb ++ [.checkpoint .areaMgmt]) =
          (before ++ op :: logOf (Event.on c) prog d.sb) ++ [.checkpoint .areaMgmt] := by simp
      rw [hcheckpoint, unfinished_checkpoint]
      rw [List.foldl_concat, foldl_logOf] at ht
      exact ht
    · rw [unfinished_behind hbefore hredoes.own fun e he => hexternal e (hlog.subset he)]
      rcases List.eq_nil_or_concat log with rfl | ⟨log, e, rfl⟩
      · rw [show d.sb = t.sb from ht.symm]
        exact hredoes.first t
      · rw [List.concat_eq_append] at hlog ht ⊢
        have hlast : (log ++ [e]).foldl ExternOp.seen .none = ExternOp.none.seen e := by
          have he := hexternal e (hlog.subset (by simp))
          rw [List.foldl_concat]
          cases e with
          | type | status | increaseErasecount | activeArea | usedAreas | remove | reset => rfl
          | _ => cases he
        rw [hlast]
        exact hredoes.resumable.completes hlog ht

theorem act_external {entry : Superblock → Option Event} (h : ∀ sb e, entry sb = some e → e.external = true) :
    ∀ s e, act c entry s = some e → e.external = true := fun s e he => h s e (act_eq_some he)

theorem always_external {entry : Superblock → Event} (h : ∀ sb, (entry sb).external = true) :
    ∀ s e, act c (fun sb => some (entry sb)) s = some e → e.external = true :=
  act_external fun sb e he => by
    cases he
    exact h sb

theorem counting_external (p : Superblock → Prop) [DecidablePred p] :
    ∀ s e, act c (counting p) s = some e → e.external = true :=
  act_external fun sb e he => by
    cases counting_eq_some he
    rfl

theorem contents_external (area : AreaPos) (reset remove : Bool) :
    ∀ step ∈ contentsProgram c area reset remove, ∀ s e, step s = some e → e.external = true := by
  intro step hstep s e he
  simp only [contentsProgram, List.mem_cons, List.not_mem_nil, or_false] at hstep
  rcases hstep with rfl | rfl | rfl
  · exact always_external (fun _ => rfl) s e he
  · cases flag_eq_some he
    rfl
  · cases flag_eq_some he
    rfl

theorem free_external (area : AreaPos) : ∀ step ∈ freeProgram c area, ∀ s e, step s = some e → e.external = true := by
  intro step hstep
  simp only [freeProgram, List.mem_cons, List.not_mem_nil, or_false] at hstep
  rcases hstep with rfl | rfl | rfl
  · exact always_external fun _ => rfl
  · exact always_external fun _ => rfl
  · exact always_external fun _ => rfl

theorem initAreaAs_redoes (area : AreaPos) (type : AreaType) :
    Redoes c faults (.initAreaAs area type) (initProgram c area type) := by
  refine ⟨rfl, fun step hstep => ?_, initAreaAs_redone faults area type, initAreaAs_resumable faults area type⟩
  simp only [initProgram, List.mem_cons, List.not_mem_nil, or_false] at hstep
  rcases hstep with rfl | rfl | rfl
  · exact always_external fun _ => rfl
  · exact counting_external _
  · exact always_external fun _ => rfl

theorem closeArea_redoes (area : AreaPos) : Redoes c faults (.closeArea area) (closeProgram c area) := by
  refine ⟨rfl, fun step hstep => ?_, closeArea_redone faults area, closeArea_resumable faults area⟩
  simp only [closeProgram, List.mem_cons, List.not_mem_nil, or_false] at hstep
  rcases hstep with rfl | rfl
  · exact always_external fun _ => rfl
  · exact always_external fun _ => rfl

theorem retireArea_redoes (area : AreaPos) : Redoes c faults (.retireArea area) (retireProgram c area) := by
  refine ⟨rfl, fun step hstep => ?_, retireArea_redone faults area, retireArea_resumable faults area⟩
  simp only [retireProgram, List.mem_cons, List.not_mem_nil, or_false] at hstep
  rcases hstep with rfl | rfl | rfl
  · exact always_external fun _ => rfl
  · exact counting_external _
  · exact always_external fun _ => rfl

theorem deleteAreaContents_redoes (area swappedArea : AreaPos) (reset remove : Bool) :
    Redoes c faults (.deleteAreaContents area swappedArea) (contentsProgram c area reset remove) :=
  ⟨rfl, contents_external area reset remove, deleteAreaContents_redone faults area swappedArea reset remove,
    deleteAreaContents_resumable faults area swappedArea reset remove⟩

theorem deleteArea_redoes (area : AreaPos) (reset remove : Bool) :
    Redoes c faults (.deleteArea area) (contentsProgram c area reset remove ++ freeProgram c area) := by
  refine ⟨rfl, fun step hstep => ?_, deleteArea_redone faults area reset remove, deleteArea_resumable faults area reset remove⟩
  rcases List.mem_append.1 hstep with hstep | hstep
  · exact contents_external area reset remove step hstep
  · exact free_external area step hstep

/-- An operation of area management that is not refused, and whose erasures succeed. -/
def Completes (c : Config) (faults : Faults P) (d : Device P) : Op P → Prop
  | .initAreaAs _ _ | .closeArea _ | .retireArea _ => True
  | .deleteArea area => (d.deleteArea c faults area).1 = .ok
  | .deleteAreaContents area swappedArea => (d.deleteAreaContents c faults area swappedArea false).1 = .ok
  | _ => False

theorem Completes.recovers {op : Op P} (h : d.Completes c faults op) (before : List Event) {log : List Event}
    (hbefore : unfinished before = none) (hlog : d.log ++ log <+: (d.step c faults op).log) {t : Device P}
    (ht : t.sb = replayed c log d.sb) :
    (t.signalEndOfLog c faults (unfinished (before ++ log))).sb = if log = [] then d.sb else (d.step c faults op).sb := by
  cases op with
  | initAreaAs area type =>
    exact (initAreaAs_transaction area type).recovers faults (initAreaAs_redoes faults area type) hbefore hlog ht
  | closeArea area => exact (closeArea_transaction area).recovers faults (closeArea_redoes faults area) hbefore hlog ht
  | retireArea area => exact (retireArea_transaction area).recovers faults (retireArea_redoes faults area) hbefore hlog ht
  | deleteArea area =>
    obtain ⟨reset, remove, htransaction⟩ := deleteArea_transaction faults h
    exact htransaction.recovers faults (deleteArea_redoes faults area reset remove) hbefore hlog ht
  | deleteAreaContents area swappedArea =>
    obtain ⟨reset, remove, htransaction⟩ := deleteAreaContents_transaction faults h
    exact htransaction.recovers faults (deleteAreaContents_redoes faults area _ reset remove) hbefore hlog ht
  | collectGarbage | commitAreaSummaryHard | pages => exact h.elim

end Device
end Paffs.Areas
