import Mathlib.Data.Set.Function
import Mathlib.Logic.Relation
import Paffs.Persistence.Dispatch

/-! Positions in the log, and the order in which a replay passes them. -/
namespace Paffs.Persistence
open Relation

namespace JournalEntryPosition

/-- Where a log lies. -/
inductive Medium where
  | mram | flash

def combineAddress (logicalArea page : Nat) : Nat := logicalArea * 2 ^ 16 + page

/-- How `readNextElem` moves the position: behind the entry that was read, or to the next page of the area. -/
inductive Next : Medium → JournalEntryPosition → JournalEntryPosition → Prop where
  | mram (offs : Nat) {size : Nat} (h : 0 < size) : Next .mram ⟨offs, 0⟩ ⟨offs + size, 0⟩
  | flash (addr offs : Nat) {size : Nat} (h : 0 < size) : Next .flash ⟨addr, offs⟩ ⟨addr, offs + size⟩
  | findNextPos (area offs : Nat) {page : Nat} (h : page + 1 < 2 ^ 16) :
    Next .flash ⟨combineAddress area page, offs⟩ ⟨combineAddress area (page + 1), 0⟩

/-- The order of the entries in the log. -/
def Precedes (m : Medium) : JournalEntryPosition → JournalEntryPosition → Prop := TransGen (Next m)

/-- What the comparisons of a replay mean, of which `S` has the positions. -/
structure Ordered (S : Set JournalEntryPosition) : Prop where
  irrefl : ∀ p ∈ S, p.lt p = false
  trans : ∀ p ∈ S, ∀ q ∈ S, ∀ r ∈ S, p.lt q = true → q.lt r = true → p.lt r = true
  total : ∀ p ∈ S, ∀ q ∈ S, p ≠ q → p.lt q = true ∨ q.lt p = true
  complement : ∀ p ∈ S, ∀ q ∈ S, p.ge q = true ↔ p.lt q = false
  before : ∀ m, ∀ p ∈ S, ∀ q ∈ S, Precedes m p q → p.lt q = true
  notBefore : ∀ m, ∀ p ∈ S, ∀ q ∈ S, p = q ∨ Precedes m q p → p.ge q = true

variable {m : Medium} {p q r : JournalEntryPosition} {S : Set JournalEntryPosition}

theorem eq_of_members (haddr : p.addr = q.addr) (hoffs : p.offs = q.offs) : p = q := by
  cases p
  cases q
  cases haddr
  cases hoffs
  rfl

/-! ### The log goes by address and offset -/

theorem Next.lex (h : Next m p q) : p.addr < q.addr ∨ p.addr = q.addr ∧ p.offs < q.offs := by
  cases h with
  | mram offs hsize => exact .inl (Nat.lt_add_of_pos_right hsize)
  | flash addr offs hsize => exact .inr ⟨rfl, Nat.lt_add_of_pos_right hsize⟩
  | findNextPos area offs hpage => exact .inl (Nat.lt_succ_self _)

theorem Precedes.lex (h : Precedes m p q) : p.addr < q.addr ∨ p.addr = q.addr ∧ p.offs < q.offs := by
  induction h with
  | single h => exact h.lex
  | tail _ h ih =>
    have := h.lex
    omega

theorem Precedes.ne (h : Precedes m p q) : p ≠ q := by
  rintro rfl
  have := h.lex
  omega

/-- Reading an entry from the MRAM moves the pointer of the log. -/
theorem next_tell {n : Nat} {p p' : LogPersistence n} {e : Entry n} (h : p.readNextElem = some (e, p')) :
    Next .mram p.tell p'.tell := by
  unfold LogPersistence.readNextElem at h
  split at h
  · cases h
  · rename_i e' ahead _
    cases h
    have hcurr : (⟨p.passed ++ [e], ahead⟩ : LogPersistence n).curr = p.curr + countedSize e := by
      rw [LogPersistence.curr, List.map_append, List.sum_append, ← Nat.add_assoc]
      rfl
    have hsize : 0 < countedSize e := Nat.lt_of_lt_of_le (by decide) (countedSize_bounds e).1
    have hnext := Next.mram p.curr hsize
    rwa [← hcurr] at hnext

/-! ### The comparison -/

theorem lt_of_addr_eq (h : p.addr = q.addr) : p.lt q = true ↔ p.offs < q.addr := by
  rw [lt, if_pos h, decide_eq_true_iff]

theorem lt_of_addr_ne (h : p.addr ≠ q.addr) : p.lt q = true ↔ p.addr < q.addr := by
  rw [lt, if_neg h, decide_eq_true_iff]

theorem lt_self : p.lt p = true ↔ p.offs < p.addr := lt_of_addr_eq rfl

/-- Where no two addresses are the same the comparison is that of the addresses. -/
theorem lt_iff_addr_lt (hinj : S.InjOn addr) (hoffs : ∀ p ∈ S, p.addr ≤ p.offs) (hp : p ∈ S) (hq : q ∈ S) :
    p.lt q = true ↔ p.addr < q.addr := by
  by_cases haddr : p.addr = q.addr
  · obtain rfl := hinj hp hq haddr
    have := hoffs p hp
    rw [lt_self]
    omega
  · exact lt_of_addr_ne haddr

/-- The comparisons mean what they should if and only if all positions have different addresses, none above its offset. -/
theorem ordered_iff (S : Set JournalEntryPosition) : Ordered S ↔ S.InjOn addr ∧ ∀ p ∈ S, p.addr ≤ p.offs := by
  constructor
  · intro h
    have hoffs : ∀ p ∈ S, p.addr ≤ p.offs := by
      intro p hp
      by_contra hlt
      have := h.irrefl p hp
      rw [lt_self.mpr (Nat.not_le.mp hlt)] at this
      cases this
    refine ⟨fun p hp q hq haddr => ?_, hoffs⟩
    -- at one address neither is before the other
    by_contra hne
    have hp' := hoffs p hp
    have hq' := hoffs q hq
    rcases h.total p hp q hq hne with hlt | hlt
    · rw [lt_of_addr_eq haddr] at hlt
      omega
    · rw [lt_of_addr_eq haddr.symm] at hlt
      omega
  · rintro ⟨hinj, hoffs⟩
    have hlt : ∀ p ∈ S, ∀ q ∈ S, p.lt q = true ↔ p.addr < q.addr := fun p hp q hq => lt_iff_addr_lt hinj hoffs hp hq
    have hbefore : ∀ m, ∀ p ∈ S, ∀ q ∈ S, Precedes m p q → p.addr < q.addr := by
      intro m p hp q hq hprecedes
      rcases hprecedes.lex with haddr | ⟨haddr, -⟩
      · exact haddr
      · exact absurd (hinj hp hq haddr) hprecedes.ne
    constructor
    · intro p hp
      rw [← Bool.not_eq_true, hlt p hp p hp]
      exact lt_irrefl _
    · intro p hp q hq r hr hpq hqr
      rw [hlt p hp q hq] at hpq
      rw [hlt q hq r hr] at hqr
      rw [hlt p hp r hr]
      exact lt_trans hpq hqr
    · intro p hp q hq hne
      rw [hlt p hp q hq, hlt q hq p hp]
      exact Nat.lt_or_gt_of_ne fun haddr => hne (hinj hp hq haddr)
    · intro p _ q _
      rw [ge, Bool.not_eq_true']
    · intro m p hp q hq hprecedes
      exact (hlt p hp q hq).mpr (hbefore m p hp q hq hprecedes)
    · intro m p hp q hq hafter
      rw [ge, Bool.not_eq_true', ← Bool.not_eq_true, hlt p hp q hq, Nat.not_lt]
      rcases hafter with rfl | hprecedes
      · exact Nat.le_refl _
      · exact (hbefore m q hq p hp hprecedes).le

/-- In the MRAM the position of an entry is always before itself. -/
theorem tell_before_itself {n : Nat} (p : LogPersistence n) : p.tell.lt p.tell = true := by
  refine lt_self.mpr ?_
  exact Nat.lt_of_lt_of_le (Nat.zero_lt_succ 3) (LogPersistence.four_le_currOf p.passed)

theorem positions_are_not_ordered : ¬ ∀ S : Set JournalEntryPosition, Ordered S := by
  intro hall
  have hirrefl := (hall {⟨4, 0⟩}).irrefl _ (Set.mem_singleton _)
  exact absurd hirrefl (by decide)

end JournalEntryPosition
end Paffs.Persistence
