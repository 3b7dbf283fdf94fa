import Paffs.DataIO.Shared
import Paffs.DataIO.Run

/-! What a truncation gives back of any file, with holes or without. -/
namespace Paffs.DataIO
open Bytes (Byte Memory)
variable {c : Config} {env : Env}

namespace State
variable {s s' : State} {offs : Nat}

/-- No operation is under way, and each page of the file has its own place. -/
structure Intact (s : State) : Prop where
  used : ∀ p, s.page p ≠ 0 → s.used (s.page p) = true
  injective : ∀ p q, s.page p ≠ 0 → s.page p = s.page q → p = q
  replaced : s.replaced = []

/-- The pages that begin at `offs` or behind it are unmapped, and their places are not used any more. Nothing else changes. -/
structure FreesTail (c : Config) (s s' : State) (offs : Nat) : Prop where
  page : ∀ p, s'.page p = if offs ≤ p * c.dataBytesPerPage then 0 else s.page p
  dirty : ∀ p, offs ≤ p * c.dataBytesPerPage → s.page p ≠ 0 → s'.used (s.page p) = false
  other : ∀ a, (∀ p, offs ≤ p * c.dataBytesPerPage → s.page p ≠ 0 → s.page p ≠ a) → s'.used a = s.used a
  size : s'.size = offs

/-- A truncation that goes through frees the tail, and one that fails gives nothing back that the file had. -/
def Truncates (c : Config) (s : State) (offs : Nat) (r : Result × State) : Prop :=
  (r.1 = .ok → FreesTail c s r.2 offs) ∧ (r.1 ≠ .ok → ∀ p, s.page p ≠ 0 → r.2.used (s.page p) = true)

/-- The pages of the tail that are on flash. -/
def tail (c : Config) (s : State) (offs : Nat) : Set PageNo := {p | offs ≤ p * c.dataBytesPerPage ∧ s.page p ≠ 0}

/-- There are no more of them than the state machine has places, none is behind the end, and the inode does not count zero. -/
def TailFits (c : Config) (s : State) (offs : Nat) : Prop :=
  (∀ p ∈ s.tail c offs, p * c.dataBytesPerPage < s.size ∧ s.reservedPages ≠ 0) ∧ (s.tail c offs).ncard ≤ c.maxPagesPerWrite

theorem mem_invalidateOldPages_used {a : Addr} : s.invalidateOldPages.used a = false ↔
    s.used a = false ∨ a ≠ 0 ∧ ∃ r ∈ s.replaced, r.2 = a := by
  simp only [invalidateOldPages, Bool.and_eq_false_iff, Bool.not_eq_false', List.any_eq_true, Bool.and_eq_true, decide_eq_true_eq]
  refine or_congr_right ⟨?_, ?_⟩
  · rintro ⟨r, hr, heq, ha⟩
    exact ⟨ha, r, hr, heq⟩
  · rintro ⟨ha, r, hr, heq⟩
    exact ⟨r, hr, heq, ha⟩

/-- The pages of the tail that a truncation goes through. -/
theorem filter_tailPages (hoffs : offs < s.size)
    (hall : ∀ p ∈ s.tail c offs, p * c.dataBytesPerPage < s.size ∧ s.reservedPages ≠ 0) (p : PageNo) :
    p ∈ (s.tailPages c offs).filter (fun p => s.page p ≠ 0) ↔ p ∈ s.tail c offs := by
  rw [List.mem_filter, mem_tailPages hoffs, decide_eq_true_eq]
  exact ⟨fun h => ⟨h.1.2.1, h.2⟩, fun h => ⟨⟨(hall p h).2, h.1, (hall p h).1⟩, h.2⟩⟩

theorem length_filter_tailPages (hoffs : offs < s.size)
    (hall : ∀ p ∈ s.tail c offs, p * c.dataBytesPerPage < s.size ∧ s.reservedPages ≠ 0) :
    ((s.tailPages c offs).filter fun p => s.page p ≠ 0).length = (s.tail c offs).ncard := by
  have hset : s.tail c offs = ((s.tailPages c offs).filter fun p => decide (s.page p ≠ 0)).toFinset := by
    ext p
    rw [Finset.mem_coe, List.mem_toFinset]
    exact (filter_tailPages hoffs hall p).symm
  rw [hset, Set.ncard_coe_finset, List.toFinset_card_of_nodup ((nodup_tailPages c s offs).filter _)]

theorem deletePages_used (pages : List PageNo) : (deletePages c env pages s).2.used = s.used := by
  induction pages generalizing s with
  | nil => rfl
  | cons page pages ih =>
    have hkept := (@deletePage_kept c env s page).1
    rw [deletePages]
    split
    · rename_i s' hdelete
      rw [hdelete] at hkept
      exact ih.trans hkept
    · exact hkept

/-- A truncation that fails changes no status. -/
theorem deleteInodeData_failed (hoffs : offs < s.size) (hfails : (s.deleteInodeData c env offs).1 ≠ .ok) :
    (s.deleteInodeData c env offs).2.used = s.used := by
  have hused := @deletePages_used c env s (s.tailPages c offs)
  rw [deleteInodeData_eq hoffs] at hfails ⊢
  split
  · rename_i hok
    rw [hok] at hfails
    exact absurd rfl hfails
  · exact hused

theorem freesTail_of_fits (h : s.Intact) (hoffs : offs < s.size) (hfits : s.TailFits c offs)
    (hok : (s.deleteInodeData c env offs).1 = .ok) : FreesTail c s (s.deleteInodeData c env offs).2 offs := by
  obtain ⟨s', hdone, -, hstate⟩ := deleteInodeData_shrinking h.replaced hoffs hok
  obtain ⟨hall, hcard⟩ := hfits
  have hfilter := filter_tailPages hoffs hall
  have hreplaced := hdone.replaced_eq
  rw [List.reverse_reverse, List.take_of_length_le (by rw [List.length_map, length_filter_tailPages hoffs hall]; exact hcard)]
    at hreplaced
  -- the list of the state machine has the tail, and nothing else
  have hlist : ∀ a, (∃ r ∈ s'.replaced, r.2 = a) ↔ ∃ p ∈ s.tail c offs, s.page p = a := by
    intro a
    rw [hreplaced]
    constructor
    · rintro ⟨r, hr, heq⟩
      obtain ⟨p, hp, rfl⟩ := List.mem_map.mp hr
      exact ⟨p, (hfilter p).mp hp, heq⟩
    · rintro ⟨p, hp, heq⟩
      exact ⟨_, List.mem_map.mpr ⟨p, (hfilter p).mpr hp, rfl⟩, heq⟩
  rw [hstate]
  constructor
  · intro p
    change s'.page p = _
    rw [hdone.page_eq p]
    by_cases hp : s.page p = 0
    · rw [hp, ite_self, ite_self]
    · refine if_congr (List.mem_reverse.trans ((mem_tailPages hoffs).trans ⟨fun hin => hin.2.1, fun hle => ?_⟩)) rfl rfl
      exact ⟨(hall p ⟨hle, hp⟩).2, hle, (hall p ⟨hle, hp⟩).1⟩
  · intro p hle hp
    exact mem_invalidateOldPages_used.mpr (.inr ⟨hp, (hlist _).mpr ⟨p, ⟨hle, hp⟩, rfl⟩⟩)
  · intro a hother
    have hsame : s'.used a = s.used a := congrFun hdone.used a
    cases hused : s.used a with
    | false => exact mem_invalidateOldPages_used.mpr (.inl (hsame.trans hused))
    | true =>
      by_contra hdirty
      rcases mem_invalidateOldPages_used.mp (Bool.not_eq_true _ ▸ hdirty) with hfree | ⟨-, hr⟩
      · exact absurd (hfree.symm.trans (hsame.trans hused)) (by decide)
      · obtain ⟨p, hp, heq⟩ := (hlist a).mp hr
        exact hother p hp.1 hp.2 heq
  · rfl

theorem fits_of_freesTail (h : s.Intact) (hoffs : offs < s.size) (hok : (s.deleteInodeData c env offs).1 = .ok)
    (hfrees : FreesTail c s (s.deleteInodeData c env offs).2 offs) : s.TailFits c offs := by
  obtain ⟨s', hdone, -, hstate⟩ := deleteInodeData_shrinking h.replaced hoffs hok
  rw [hstate] at hfrees
  have hall : ∀ p ∈ s.tail c offs, p * c.dataBytesPerPage < s.size ∧ s.reservedPages ≠ 0 := by
    intro p hp
    have hpage : s'.page p = _ := hfrees.page p
    rw [if_pos hp.1, hdone.page_eq p] at hpage
    split_ifs at hpage with hin
    · obtain ⟨hreserved, -, hend⟩ := (mem_tailPages hoffs).mp (List.mem_reverse.mp hin)
      exact ⟨hend, hreserved⟩
    · exact absurd hpage hp.2
  refine ⟨hall, ?_⟩
  rw [← length_filter_tailPages hoffs hall]
  have hlength : s'.replaced.length ≤ c.maxPagesPerWrite := by
    rw [hdone.replaced_eq]
    exact List.length_take_le ..
  refine le_trans ?_ hlength
  -- each place of the tail is on the list
  have hnodup : (((s.tailPages c offs).filter fun p => s.page p ≠ 0).map s.page).Nodup := by
    refine List.Nodup.map_on (fun p hp q _ heq => ?_) ((nodup_tailPages c s offs).filter _)
    exact h.injective p q ((filter_tailPages hoffs hall p).mp hp).2 heq
  have hsubset : ((s.tailPages c offs).filter fun p => s.page p ≠ 0).map s.page ⊆ s'.replaced.map Prod.snd := by
    intro a ha
    obtain ⟨p, hp, rfl⟩ := List.mem_map.mp ha
    have hp := (filter_tailPages hoffs hall p).mp hp
    rcases mem_invalidateOldPages_used.mp (hfrees.dirty p hp.1 hp.2) with hfree | ⟨-, r, hr, heq⟩
    · have hfree : s'.used (s.page p) = false := hfree
      rw [hdone.used, h.used p hp.2] at hfree
      cases hfree
    · exact List.mem_map.mpr ⟨r, hr, heq⟩
  have hle := (List.subperm_of_subset hnodup hsubset).length_le
  rwa [List.length_map, List.length_map] at hle

/-- Nothing fails, and every page of the file can be named. -/
def smooth (pages : Nat) : Env where
  findFreePage _ _ := .error .noSpace
  outcome _ := .ok
  addressable := pages + 1
  addressable_pos := Nat.succ_pos pages
  free h := by cases h
  failed h := by cases h; decide

theorem smooth_healthy (c : Config) (pages : Nat) : Healthy c (smooth (c.maxPagesPerWrite + pages)) 0 where
  outcome _ := rfl
  findFreePage _ _ h := by
    obtain ⟨a, ha, -⟩ := h
    exact absurd ha (Nat.not_lt_zero a)
  addressable := (Nat.le_add_right ..).trans (Nat.le_succ _)

/-- A file of three bytes on one page. -/
def onePage : State := ⟨3, 1, Function.update (fun _ => 0) 0 1, fun _ _ => 7, fun a => a = 1, [], 0⟩

theorem onePage_page (p : PageNo) (hp : onePage.page p ≠ 0) : p = 0 := by
  by_contra hne
  exact hp (by simp [onePage, hne])

theorem onePage_intact : onePage.Intact where
  used p hp := by
    rw [onePage_page p hp]
    decide
  injective p q hp heq := by
    rw [onePage_page p hp, onePage_page q (heq ▸ hp)]
  replaced := rfl

def fivePages : State := ⟨20, 5, fun p => if p < 5 then p + 1 else 0, fun _ _ => 7, fun a => 0 < a ∧ a < 6, [], 0⟩

theorem fivePages_page {p : PageNo} (hp : fivePages.page p ≠ 0) : @LT.lt Nat _ p 5 ∧ fivePages.page p = p + 1 := by
  by_contra hnot
  by_cases hlt : @LT.lt Nat _ p 5
  · exact hnot ⟨hlt, if_pos hlt⟩
  · exact hp (if_neg hlt)

theorem fivePages_intact : fivePages.Intact where
  used p hp := by
    obtain ⟨hlt, heq⟩ := fivePages_page hp
    rw [heq]
    exact decide_eq_true ⟨Nat.succ_pos p, Nat.succ_lt_succ hlt⟩
  injective p q hp heq := by
    have hq : fivePages.page q ≠ 0 := heq ▸ hp
    rw [(fivePages_page hp).2, (fivePages_page hq).2] at heq
    exact Nat.succ.inj heq
  replaced := rfl

end State
end Paffs.DataIO
