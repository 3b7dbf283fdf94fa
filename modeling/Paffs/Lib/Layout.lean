import Paffs.Lib.Bytes
import Mathlib.Data.List.OfFn
import Mathlib.Data.Fin.Tuple.Basic

/-! Objects in memory: the members of a class follow each other, base class first, each at the next
multiple of its alignment. -/
namespace Paffs.Bytes

/-- Width and alignment of a member. -/
abbrev Slot := Nat × Nat

structure Member where
  width : Nat
  align : Nat
  value : Word width

abbrev Member.slot (x : Member) : Slot := (x.width, x.align)

def alignUp (a align : Nat) : Nat := (a + align - 1) / align * align

theorem le_alignUp {a align : Nat} (h : 0 < align) : a ≤ alignUp a align := by
  have hlt := Nat.lt_div_mul_add h (a := a + align - 1)
  rw [alignUp]
  omega

/-- Where the last member ends when the first one follows address `a`. -/
def endOf : Nat → List Slot → Nat
  | a, [] => a
  | a, s :: ss => endOf (alignUp a s.2 + s.1) ss

def alignment (ss : List Slot) : Nat := ss.foldr (fun s k => max s.2 k) 1

def sizeof (ss : List Slot) : Nat := alignUp (endOf 0 ss) (alignment ss)

theorem alignment_pos (ss : List Slot) : 0 < alignment ss := by
  cases ss with
  | nil => exact Nat.one_pos
  | cons s ss =>
    induction ss generalizing s with
    | nil => simp [alignment]
    | cons t ss ih =>
      have hpos := ih t
      simp only [alignment, List.foldr_cons] at hpos ⊢
      omega

theorem endOf_le_sizeof (ss : List Slot) : endOf 0 ss ≤ sizeof ss := le_alignUp (alignment_pos ss)

theorem le_endOf {ss : List Slot} (h : ∀ s ∈ ss, 0 < s.2) (a : Nat) : a ≤ endOf a ss := by
  induction ss generalizing a with
  | nil => exact le_rfl
  | cons s ss ih =>
    have hrest := ih (fun t ht => h t (List.mem_cons_of_mem _ ht)) (alignUp a s.2 + s.1)
    have hfirst := le_alignUp (a := a) (h s List.mem_cons_self)
    simp only [endOf]
    omega

theorem endOf_append (a : Nat) (ss ts : List Slot) : endOf a (ss ++ ts) = endOf (endOf a ss) ts := by
  induction ss generalizing a with
  | nil => rfl
  | cons s ss ih => exact ih _

def slots (ms : List Member) : List Slot := ms.map Member.slot

namespace Memory

/-- The members written behind address `a`; what lies between them is left as it was. -/
def store : Memory → Nat → List Member → Memory
  | m, _, [] => m
  | m, a, x :: xs => (m.writeWord (alignUp a x.align) x.width x.value).store (alignUp a x.align + x.width) xs

/-- Each member is where the layout puts it. -/
def Stored (m : Memory) : Nat → List Member → Prop
  | _, [] => True
  | a, x :: xs =>
    m.readWord (alignUp a x.align) x.width = x.value ∧ m.Stored (alignUp a x.align + x.width) xs

variable {m m' : Memory} {xs ys : List Member} {a b w : Nat}

theorem readWord_store (h : ∀ x ∈ xs, 0 < x.align) (hb : b + w ≤ a) :
    (m.store a xs).readWord b w = m.readWord b w := by
  induction xs generalizing m a with
  | nil => rfl
  | cons x xs ih =>
    have hle := le_alignUp (a := a) (h x List.mem_cons_self)
    have hrest := ih (m := m.writeWord (alignUp a x.align) x.width x.value) (a := alignUp a x.align + x.width)
      (fun y hy => h y (List.mem_cons_of_mem _ hy)) (by omega)
    rw [store, hrest, readWord_writeWord_of_disjoint (.inl (by omega))]

theorem store_stored (h : ∀ x ∈ xs, 0 < x.align) (m : Memory) (a : Nat) : (m.store a xs).Stored a xs := by
  induction xs generalizing m a with
  | nil => trivial
  | cons x xs ih =>
    have htail : ∀ y ∈ xs, 0 < y.align := fun y hy => h y (List.mem_cons_of_mem _ hy)
    refine ⟨?_, ih htail _ _⟩
    rw [store, readWord_store htail le_rfl, readWord_writeWord_self]

theorem Stored.congr (hs : m.Stored a xs) (h : ∀ x ∈ xs, 0 < x.align)
    (heq : ∀ i, a ≤ i → i < endOf a (slots xs) → m' i = m i) : m'.Stored a xs := by
  induction xs generalizing a with
  | nil => trivial
  | cons x xs ih =>
    obtain ⟨hx, hxs⟩ := hs
    have htail : ∀ y ∈ xs, 0 < y.align := fun y hy => h y (List.mem_cons_of_mem _ hy)
    have hle := le_alignUp (a := a) (h x List.mem_cons_self)
    have hend : alignUp a x.align + x.width ≤ endOf (alignUp a x.align + x.width) (slots xs) :=
      le_endOf (by simpa [slots] using htail) _
    have hcons : endOf a (slots (x :: xs)) = endOf (alignUp a x.align + x.width) (slots xs) := rfl
    refine ⟨?_, ih hxs htail fun i hlo hhi => heq i (by omega) (by omega)⟩
    rw [← hx]
    exact readWord_congr fun i hi => heq _ (by omega) (by omega)

theorem stored_append : m.Stored a (xs ++ ys) ↔ m.Stored a xs ∧ m.Stored (endOf a (slots xs)) ys := by
  induction xs generalizing a with
  | nil => simp [Stored, slots, endOf]
  | cons x xs ih => simp [Stored, slots, endOf, ih, and_assoc]

end Memory

/-! ### Reading members one after the other -/

/-- A reader knows where the member before ended. -/
abbrev Reader := StateT Nat Option

def next (m : Memory) (w align : Nat) : Reader (Word w) := fun a =>
  some (m.readWord (alignUp a align) w, alignUp a align + w)

/-- An array of `k` members. -/
def nextAll (m : Memory) (w align : Nat) : (k : Nat) → Reader (Fin k → Word w)
  | 0 => pure Fin.elim0
  | k + 1 => do
    let x ← next m w align
    let xs ← nextAll m w align k
    pure (Fin.cons x xs)

section Reading
variable {m : Memory} {w align a : Nat}

theorem next_run (m : Memory) (w align a : Nat) :
    (next m w align).run a = some (m.readWord (alignUp a align) w, alignUp a align + w) := rfl

theorem nextAll_run {k : Nat} {f : Fin k → Word w} (h : m.Stored a (List.ofFn fun i => ⟨w, align, f i⟩)) :
    (nextAll m w align k).run a = some (f, endOf a (List.replicate k (w, align))) := by
  induction k generalizing a with
  | zero => exact congrArg some (Prod.ext (funext fun i => i.elim0) rfl)
  | succ k ih =>
    rw [List.ofFn_succ] at h
    obtain ⟨hx, hxs⟩ := h
    have hcons : Fin.cons (f 0) (fun i : Fin k => f i.succ) = f := Fin.cons_self_tail f
    simp only [nextAll, StateT.run_bind, next_run, ih hxs, Option.bind_eq_bind, Option.bind_some, StateT.run_pure,
      Option.pure_def, hx, hcons]
    rfl

end Reading

end Paffs.Bytes
