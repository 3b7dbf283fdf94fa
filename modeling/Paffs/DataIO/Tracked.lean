import Paffs.DataIO.Tail

/-! How many pages a write replaces, and what the state machine remembers of them. -/
namespace Paffs.DataIO
open Bytes (Byte Memory)
variable {c : Config} {env : Env}

namespace State
variable {s s₀ s' : State} {data : Memory} {pageFrom bytes filesize : Nat}

/-- Every `replacePage` of the loop returns `ok`. -/
def Tracks (c : Config) (env : Env) (pageFrom bytes filesize : Nat) (data : Memory) : Nat → Nat → Nat → Nat → State → Prop
  | 0, _, _, _, _ => True
  | k + 1, page, offs, bytesWritten, s =>
    (∀ newAddress, env.findFreePage s.clock s.used = .ok newAddress → page + pageFrom < env.addressable →
      (s.replacePage c newAddress (s.page (page + pageFrom))).1 = .ok) ∧
    ∀ bytesWritten' s', s.writePage c env pageFrom page offs bytes filesize bytesWritten data = ((.ok, bytesWritten'), s') →
      Tracks c env pageFrom bytes filesize data k (page + 1) 0 bytesWritten' s'

/-- The check of the size lets the write through. -/
def Accepted (c : Config) (offs bytes : Nat) : Prop :=
  (offs + bytes) % 2 ^ 32 ≠ 0 ∧ pagesBehind c offs ((offs + bytes) % 2 ^ 32) ≤ c.maxPagesPerWrite

/-- The rounds of the loop over the pages. -/
@[irreducible] def rounds (c : Config) (offs bytes : Nat) : Nat := pagesBehind c offs ((offs + bytes) % 2 ^ 32) + 1

/-- The new pages are used, and the old ones are not any more. -/
def Replaced (c : Config) (s s' : State) (offs bytes : Nat) : Prop :=
  ∀ p, offs / c.dataBytesPerPage ≤ p → p < offs / c.dataBytesPerPage + rounds c offs bytes →
    s'.page p ≠ 0 ∧ s'.used (s'.page p) = true ∧ (s.page p ≠ 0 → s'.used (s.page p) = false)

/-- No page is refused by the state machine, and a write that goes through replaces all its pages. -/
def TrackedWhole (c : Config) (env : Env) (s : State) (offs bytes : Nat) (data : Memory) : Prop :=
  Tracks c env (offs / c.dataBytesPerPage) bytes s.size data (rounds c offs bytes) 0 (offs % c.dataBytesPerPage) 0 s ∧
    ((s.writeInodeData c env offs bytes data).1.1 = .ok → Replaced c s (s.writeInodeData c env offs bytes data).2 offs bytes)

/-- A file of which `page` pages were replaced, all of them on the list of the state machine. -/
structure Replacing (s₀ s : State) (pageFrom page : Nat) : Prop where
  kept : ∀ a, s₀.used a = true → s.used a = true
  other : ∀ p, ¬ (pageFrom ≤ p ∧ p < pageFrom + page) → s.page p = s₀.page p
  fresh : ∀ p, pageFrom ≤ p → p < pageFrom + page →
    s.page p ≠ 0 ∧ s₀.used (s.page p) = false ∧ s.used (s.page p) = true
  length : s.replaced.length = page
  old : ∀ a, (∃ r ∈ s.replaced, r.2 = a) ↔ ∃ p, pageFrom ≤ p ∧ p < pageFrom + page ∧ s₀.page p = a

theorem Replacing.start (h : s.replaced = []) (pageFrom : Nat) : Replacing s s pageFrom 0 where
  kept _ hused := hused
  other _ _ := rfl
  fresh p hp hlt := absurd hlt (Nat.not_lt.mpr hp)
  length := by rw [h]; rfl
  old a := by
    rw [h]
    refine ⟨fun hr => ?_, fun ⟨p, hp, hlt, _⟩ => absurd hlt (Nat.not_lt.mpr hp)⟩
    obtain ⟨r, hr, -⟩ := hr
    exact absurd hr List.not_mem_nil

theorem Replacing.store {page : Nat} (h : Replacing s₀ s pageFrom page) {newAddress : Addr} {m : Memory} (hne : newAddress ≠ 0)
    (hfree : s.used newAddress = false) (hmax : page < c.maxPagesPerWrite) :
    Replacing s₀ (((s.replacePage c newAddress (s.page (page + pageFrom))).2.storePage (page + pageFrom) newAddress m).tick.tick)
      pageFrom (page + 1) := by
  have hnotFull : s.replaced.length ≠ c.maxPagesPerWrite := by rw [h.length]; exact hmax.ne
  have hfree₀ : s₀.used newAddress = false := by
    by_contra hused
    rw [h.kept newAddress (by simpa using hused)] at hfree
    cases hfree
  have hself : s.page (page + pageFrom) = s₀.page (pageFrom + page) := by
    rw [Nat.add_comm]
    exact h.other _ fun hin => Nat.lt_irrefl _ hin.2
  rw [Nat.add_comm page pageFrom] at hself ⊢
  rw [replacePage, if_neg hnotFull, if_neg hne]
  constructor
  · intro a ha
    simp only [storePage, tick]
    by_cases heq : a = newAddress
    · rw [heq, Function.update_self]
    · rw [Function.update_of_ne heq]
      exact h.kept a ha
  · intro p hp
    have hpp : p ≠ pageFrom + page := by
      rintro rfl
      exact hp ⟨Nat.le_add_right .., Nat.lt_succ_self _⟩
    simp only [storePage, tick]
    rw [Function.update_of_ne hpp]
    exact h.other p fun hin => hp ⟨hin.1, Nat.lt_succ_of_lt hin.2⟩
  · intro p hp hlt
    simp only [storePage, tick]
    by_cases hpp : p = pageFrom + page
    · subst hpp
      rw [Function.update_self, Function.update_self]
      exact ⟨hne, hfree₀, rfl⟩
    · obtain ⟨hzero, hunused, hused⟩ := h.fresh p hp (lt_of_le_of_ne (Nat.le_of_lt_succ hlt) hpp)
      rw [Function.update_of_ne hpp]
      refine ⟨hzero, hunused, ?_⟩
      by_cases heq : s.page p = newAddress
      · rw [heq, Function.update_self]
      · rwa [Function.update_of_ne heq]
  · simp only [storePage, tick, List.length_append, List.length_singleton, h.length]
  · intro a
    simp only [storePage, tick, List.mem_append, List.mem_singleton]
    constructor
    · rintro ⟨r, hr | rfl, heq⟩
      · obtain ⟨p, hp, hlt, hold⟩ := (h.old a).mp ⟨r, hr, heq⟩
        exact ⟨p, hp, Nat.lt_succ_of_lt hlt, hold⟩
      · exact ⟨pageFrom + page, Nat.le_add_right .., Nat.lt_succ_self _, hself.symm.trans heq⟩
    · rintro ⟨p, hp, hlt, hold⟩
      by_cases hpp : p = pageFrom + page
      · subst hpp
        exact ⟨_, .inr rfl, hself.trans hold⟩
      · obtain ⟨r, hr, heq⟩ := (h.old a).mpr ⟨p, hp, lt_of_le_of_ne (Nat.le_of_lt_succ hlt) hpp, hold⟩
        exact ⟨r, .inl hr, heq⟩

/-- A loop over no more pages than the list has places. -/
theorem Replacing.writePageData (k : Nat) {page offs bytesWritten : Nat} (h : Replacing s₀ s pageFrom page)
    (hk : page + k ≤ c.maxPagesPerWrite) : Tracks c env pageFrom bytes filesize data k page offs bytesWritten s ∧
      ((writePageData c env pageFrom bytes filesize data k page offs bytesWritten s).1.1 = .ok →
        Replacing s₀ (writePageData c env pageFrom bytes filesize data k page offs bytesWritten s).2 pageFrom (page + k)) := by
  induction k generalizing page offs bytesWritten s with
  | zero => exact ⟨trivial, fun _ => h⟩
  | succ k ih =>
    have hnext : ∀ bytesWritten' s', s.writePage c env pageFrom page offs bytes filesize bytesWritten data =
        ((.ok, bytesWritten'), s') → Replacing s₀ s' pageFrom (page + 1) := by
      intro bytesWritten' s' hround
      have hok : (s.writePage c env pageFrom page offs bytes filesize bytesWritten data).1.1 = .ok := by rw [hround]
      obtain ⟨newAddress, hne, hfree, -, -, hstate⟩ := writePage_ok hok
      rw [hround] at hstate
      have hs' : s' = _ := hstate
      rw [hs']
      exact h.store hne hfree (by omega)
    refine ⟨⟨fun newAddress _ _ => ?_, fun bytesWritten' s' hround => (ih (hnext _ _ hround) (by omega)).1⟩, fun hok => ?_⟩
    · rw [replacePage, if_neg (by rw [h.length]; omega)]
    · rw [State.writePageData] at hok ⊢
      cases hround : s.writePage c env pageFrom page offs bytes filesize bytesWritten data with
      | mk r s' =>
      obtain ⟨r, bytesWritten'⟩ := r
      rw [hround] at hok
      by_cases hr : r = .ok
      · subst hr
        have hdone := (ih (hnext _ _ hround) (by omega)).2 hok
        rwa [Nat.add_right_comm, Nat.add_assoc] at hdone
      · exfalso
        cases r <;> first | exact hr rfl | cases hok

theorem writeInodeData_loop {offs : Nat} (h : Accepted c offs bytes) : s.writeInodeData c env offs bytes data =
    finishWrite env offs (writePageData c env (offs / c.dataBytesPerPage) bytes s.size data (rounds c offs bytes) 0
      (offs % c.dataBytesPerPage) 0 s) := by
  unfold writeInodeData rounds
  exact (if_neg h.1).trans (if_neg (Nat.not_lt.mpr h.2))

theorem trackedWhole_of_le {offs : Nat} (h : Accepted c offs bytes) (hs : s.Intact)
    (hle : rounds c offs bytes ≤ c.maxPagesPerWrite) : TrackedWhole c env s offs bytes data := by
  obtain ⟨htracks, hloop⟩ := @Replacing.writePageData c env s s data _ bytes s.size (rounds c offs bytes) 0
    (offs % c.dataBytesPerPage) 0 (Replacing.start hs.replaced (offs / c.dataBytesPerPage)) (by rwa [Nat.zero_add])
  refine ⟨htracks, fun hok => ?_⟩
  rw [writeInodeData_loop h] at hok ⊢
  generalize writePageData c env (offs / c.dataBytesPerPage) bytes s.size data (rounds c offs bytes) 0
    (offs % c.dataBytesPerPage) 0 s = r at hok hloop ⊢
  obtain ⟨⟨r, bytesWritten⟩, s₁⟩ := r
  unfold finishWrite at hok ⊢
  split at hok
  swap
  · rename_i hne
    exact (hne bytesWritten s₁ (Prod.ext (Prod.ext hok rfl) rfl)).elim
  rename_i bytesWritten s₁ heq
  cases heq
  have hdone := hloop rfl
  dsimp only at hok hdone ⊢
  rw [Nat.zero_add] at hdone
  split at hok
  swap
  · rename_i hfails
    exact absurd hok hfails
  intro p hp hlast
  obtain ⟨hzero, hunused, hused⟩ := hdone.fresh p hp hlast
  refine ⟨hzero, ?_, fun hold => ?_⟩
  · -- the new page is no old page
    by_contra hfree
    rcases mem_invalidateOldPages_used.mp (Bool.not_eq_true _ ▸ hfree) with hfree | ⟨-, hr⟩
    · exact absurd (hfree.symm.trans hused) (by decide)
    · obtain ⟨q, -, -, hq⟩ := (hdone.old _).mp hr
      have hq : s.page q = s₁.page p := hq
      have hkept := hs.used q (hq ▸ hzero)
      rw [hq, hunused] at hkept
      cases hkept
  · exact mem_invalidateOldPages_used.mpr (.inr ⟨hold, (hdone.old _).mpr ⟨p, hp, hlast, rfl⟩⟩)

/-! ### Where the list is full -/

/-- As many pages as are asked for. -/
def endless (pages : Nat) : Env := { nextPage with addressable := pages + 2, addressable_pos := Nat.succ_pos _ }

/-- There the loop comes to the page that the list has no place for. -/
theorem le_of_tracks (k : Nat) {page offs bytesWritten : Nat} (hlength : s.replaced.length = page) (hle : page ≤ c.maxPagesPerWrite)
    (hfree : ∀ a, s.clock < a → s.used a = false)
    (h : Tracks c (endless (pageFrom + c.maxPagesPerWrite)) pageFrom bytes filesize data k page offs bytesWritten s) :
    page + k ≤ c.maxPagesPerWrite := by
  induction k generalizing page offs bytesWritten s with
  | zero => exact hle
  | succ k ih =>
    obtain ⟨hreplace, hrest⟩ := h
    have hfind : (endless (pageFrom + c.maxPagesPerWrite)).findFreePage s.clock s.used = .ok (s.clock + 1) :=
      if_neg (by rw [hfree _ (Nat.lt_succ_self _)]; decide)
    have hlimit : page + pageFrom < (endless (pageFrom + c.maxPagesPerWrite)).addressable := by
      change page + pageFrom < pageFrom + c.maxPagesPerWrite + 2
      omega
    have hroom : s.replaced.length ≠ c.maxPagesPerWrite := by
      intro hfull
      have hok := hreplace _ hfind hlimit
      rw [replacePage, if_pos hfull] at hok
      cases hok
    have hround : s.writePage c (endless (pageFrom + c.maxPagesPerWrite)) pageFrom page offs bytes filesize bytesWritten data =
        ((.ok, bytesWritten + bytesToWrite c offs bytes bytesWritten),
          ((s.replacePage c (s.clock + 1) (s.page (page + pageFrom))).2.storePage (page + pageFrom) (s.clock + 1)
            ((s.replacePage c (s.clock + 1) (s.page (page + pageFrom))).2.pageContent c pageFrom page offs bytes filesize
              bytesWritten data (s.page (page + pageFrom)))).tick.tick) := by
      unfold writePage
      rw [hfind]
      exact if_neg (Nat.not_le.mpr hlimit)
    have hnext : page + 1 + k ≤ c.maxPagesPerWrite := ih ?_ (by omega) ?_ (hrest _ _ hround)
    · omega
    · rw [replacePage, if_neg hroom]
      simp only [storePage, tick, List.length_append, List.length_singleton, hlength]
    · intro a ha
      rw [replacePage, if_neg hroom, if_neg (Nat.succ_ne_zero _)] at ha ⊢
      simp only [storePage, tick] at ha ⊢
      rw [Function.update_of_ne (show @Ne Nat a (s.clock + 1) by omega)]
      exact hfree a (by omega)

theorem newFile_intact : newFile.Intact :=
  ⟨fun _ hp => absurd rfl hp, fun _ _ hp => absurd rfl hp, rfl⟩

instance (offs bytes : Nat) : Decidable (Accepted c offs bytes) := inferInstanceAs (Decidable (_ ∧ _))

end State
end Paffs.DataIO
