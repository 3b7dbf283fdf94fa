import Mathlib.Data.Set.Card
import Paffs.DataIO.Bytes

/-! Truncating a file, and the count of its pages. -/
namespace Paffs.DataIO
open Bytes (Byte Memory)
variable {c : Config} {env : Env}

namespace State
variable {s s₀ s' : State} {data : Memory}

/-! ### The count of the pages -/

theorem Counted.congr (h : s.Counted) (hpage : s'.page = s.page) (hreserved : s'.reservedPages = s.reservedPages) :
    s'.Counted := by
  have hmapped : s'.mapped = s.mapped := by unfold mapped; rw [hpage]
  exact ⟨hmapped ▸ h.finite, by rw [hreserved, hmapped]; exact h.eq⟩

theorem Counted.tick (h : s.Counted) : s.tick.Counted := ⟨h.finite, h.eq⟩

theorem Counted.storePage (h : s.Counted) (page : PageNo) {newAddress : Addr} (content : Memory) (hne : newAddress ≠ 0) :
    (s.storePage page newAddress content).Counted := by
  have hmapped : (s.storePage page newAddress content).mapped = insert page s.mapped := by
    ext p
    by_cases hp : p = page
    · simp [mapped, State.storePage, hp, hne]
    · simp [mapped, State.storePage, hp]
  refine ⟨hmapped ▸ h.finite.insert page, ?_⟩
  rw [hmapped]
  by_cases hold : s.page page = 0
  · rw [Set.ncard_insert_of_notMem (fun hin : page ∈ s.mapped => absurd hold hin) h.finite]
    change (if s.page page = 0 then (s.reservedPages + 1) % 2 ^ 16 else s.reservedPages) = _
    rw [if_pos hold, h.eq, Nat.mod_add_mod]
  · rw [Set.insert_eq_of_mem (show page ∈ s.mapped from hold)]
    change (if s.page page = 0 then (s.reservedPages + 1) % 2 ^ 16 else s.reservedPages) = _
    rw [if_neg hold, h.eq]

theorem Counted.writePageData {pageFrom bytes filesize : Nat} (k : Nat) {page offs bytesWritten : Nat} (h : s.Counted)
    (hok : (writePageData c env pageFrom bytes filesize data k page offs bytesWritten s).1.1 = .ok) :
    (writePageData c env pageFrom bytes filesize data k page offs bytesWritten s).2.Counted := by
  induction k generalizing page offs bytesWritten s with
  | zero => exact h
  | succ k ih =>
    rw [State.writePageData] at hok ⊢
    cases hround : s.writePage c env pageFrom page offs bytes filesize bytesWritten data with
    | mk r s' =>
    obtain ⟨r, bytesWritten'⟩ := r
    rw [hround] at hok
    by_cases hr : r = .ok
    · subst hr
      obtain ⟨newAddress, hne, -, -, -, hstate⟩ :=
        writePage_ok (h := (congrArg (fun x => x.1.1) hround : (s.writePage c env pageFrom page offs bytes filesize
          bytesWritten data).1.1 = .ok))
      rw [hround] at hstate
      obtain ⟨-, hreserved, hpage, -⟩ := s.replacePage_frame (c := c) newAddress (s.page (page + pageFrom))
      have hstored := (h.congr hpage hreserved).storePage (page + pageFrom)
        (s.pageContent c pageFrom page offs bytes filesize bytesWritten data (s.page (page + pageFrom))) hne
      have hnext : s'.Counted := by
        have hs' : s' = _ := hstate
        rw [hs']
        exact hstored.congr rfl rfl
      exact ih hnext hok
    · exfalso
      cases r <;> first | exact hr rfl | cases hok

theorem Counted.writeInodeData (h : s.Counted) {offs bytes : Nat} (hbytes : offs + bytes < 2 ^ 32)
    (hok : (s.writeInodeData c env offs bytes data).1.1 = .ok) : (s.writeInodeData c env offs bytes data).2.Counted := by
  obtain ⟨hzero, haccepted⟩ := writeInodeData_accepted hbytes hok
  rw [writeInodeData_eq hbytes hzero haccepted] at hok ⊢
  have hloop : (State.writePageData c env (offs / c.dataBytesPerPage) bytes s.size data (pagesBehind c offs (offs + bytes) + 1) 0
      (offs % c.dataBytesPerPage) 0 s).1.1 = .ok → _ := h.writePageData _
  generalize State.writePageData c env (offs / c.dataBytesPerPage) bytes s.size data (pagesBehind c offs (offs + bytes) + 1) 0
    (offs % c.dataBytesPerPage) 0 s = r at hok hloop ⊢
  obtain ⟨⟨r, bytesWritten⟩, s'⟩ := r
  unfold finishWrite at hok ⊢
  split at hok
  · rename_i bytesWritten s' heq
    cases heq
    dsimp only
    split
    · exact (hloop rfl).congr rfl rfl
    · exact (hloop rfl).congr rfl rfl
  · rename_i hne
    exact (hne bytesWritten s' (Prod.ext (Prod.ext hok rfl) rfl)).elim

/-! ### Truncating -/

/-- A file of which some pages are taken away. The list of the state machine has the first ones only. -/
structure Shrinking (c : Config) (s₀ s : State) (deleted : List PageNo) : Prop where
  page_eq : ∀ p, s.page p = if p ∈ deleted then 0 else s₀.page p
  flash : s.flash = s₀.flash
  used : s.used = s₀.used
  size : s.size = s₀.size
  replaced_eq : s.replaced =
    ((deleted.reverse.filter fun p => s₀.page p ≠ 0).map fun p => (0, s₀.page p)).take c.maxPagesPerWrite

theorem Shrinking.start (h : s.replaced = []) : Shrinking c s s [] where
  page_eq p := (if_neg List.not_mem_nil).symm
  flash := rfl
  used := rfl
  size := rfl
  replaced_eq := h.trans List.take_nil.symm

theorem Shrinking.replaced {deleted : List PageNo} (h : Shrinking c s₀ s deleted) :
    ∀ r ∈ s.replaced, ∃ p ∈ deleted, r.2 = s₀.page p := by
  intro r hr
  rw [h.replaced_eq] at hr
  obtain ⟨p, hp, rfl⟩ := List.mem_map.mp (List.mem_of_mem_take hr)
  exact ⟨p, List.mem_reverse.mp (List.mem_filter.mp hp).1, rfl⟩

theorem Counted.unmapPage (h : s.Counted) {page : PageNo} (hpage : s.page page ≠ 0) : (s.unmapPage page).Counted := by
  have hmapped : (s.unmapPage page).mapped = s.mapped \ {page} := by
    ext p
    by_cases hp : p = page
    · simp [mapped, State.unmapPage, hp]
    · simp [mapped, State.unmapPage, hp]
  refine ⟨hmapped ▸ h.finite.sdiff, ?_⟩
  have hpos : 0 < s.mapped.ncard := (Set.ncard_pos h.finite).mpr ⟨page, hpage⟩
  rw [hmapped, Set.ncard_sdiff_singleton_of_mem (show page ∈ s.mapped from hpage)]
  change (s.reservedPages + (2 ^ 16 - 1)) % 2 ^ 16 = _
  rw [h.eq]
  omega

/-- The count is right whatever the result. -/
theorem Counted.deletePage (h : s.Counted) (page : PageNo) : (s.deletePage c env page).2.Counted := by
  unfold State.deletePage
  by_cases hlimit : page ≥ env.addressable
  · rwa [if_pos hlimit]
  rw [if_neg hlimit]
  by_cases hzero : s.page page = 0
  · rwa [if_pos hzero]
  rw [if_neg hzero]
  by_cases hused : (!s.used (s.page page)) = true
  · rwa [if_pos hused]
  rw [if_neg hused]
  obtain ⟨-, hreserved, hpage, -⟩ := s.replacePage_frame (c := c) 0 (s.page page)
  have hcounted := h.congr hpage hreserved
  dsimp only
  split
  · exact (hcounted.unmapPage (by rwa [hpage])).tick
  · exact hcounted.tick

theorem Counted.deletePages (pages : List PageNo) (h : s.Counted) : (deletePages c env pages s).2.Counted := by
  induction pages generalizing s with
  | nil => exact h
  | cons page pages ih =>
    rw [State.deletePages]
    have hnext := @Counted.deletePage c env s h page
    split
    · rename_i s' hdelete
      rw [hdelete] at hnext
      exact ih hnext
    · exact hnext

theorem take_concat {α : Type} (l : List α) (x : α) (n : Nat) :
    (l ++ [x]).take n = if (l.take n).length = n then l.take n else l.take n ++ [x] := by
  rw [List.length_take]
  by_cases hn : n ≤ l.length
  · rw [if_pos (Nat.min_eq_left hn), List.take_append_of_le_length hn]
  · have hlt := Nat.lt_of_not_le hn
    rw [if_neg (by omega), List.take_of_length_le hlt.le, List.take_of_length_le]
    rw [List.length_append, List.length_singleton]
    exact hlt

theorem Shrinking.deletePage {deleted : List PageNo} (h : Shrinking c s₀ s deleted) {page : PageNo} (hnew : page ∉ deleted)
    (hok : (s.deletePage c env page).1 = .ok) : Shrinking c s₀ (s.deletePage c env page).2 (page :: deleted) := by
  have hmem : ∀ p, (p ∈ page :: deleted ↔ p = page ∨ p ∈ deleted) := fun p => List.mem_cons
  have hold : s.page page = s₀.page page := (h.page_eq page).trans (if_neg hnew)
  unfold State.deletePage at hok ⊢
  by_cases hlimit : page ≥ env.addressable
  · rw [if_pos hlimit] at hok
    cases hok
  rw [if_neg hlimit] at hok ⊢
  by_cases hzero : s.page page = 0
  · -- there was no page
    rw [if_pos hzero]
    refine ⟨fun p => ?_, h.flash, h.used, h.size, ?_⟩
    · by_cases hp : p = page
      · rw [hp, hzero, if_pos List.mem_cons_self]
      · rw [h.page_eq]
        simp [hmem, hp]
    · rw [h.replaced_eq, List.reverse_cons, List.filter_append]
      simp [← hold, hzero]
  rw [if_neg hzero] at hok ⊢
  by_cases hused : (!s.used (s.page page)) = true
  · rw [if_pos hused] at hok
    cases hok
  rw [if_neg hused] at hok ⊢
  obtain ⟨hsize, -, hpage, hflash⟩ := s.replacePage_frame (c := c) 0 (s.page page)
  have huses : (s.replacePage c 0 (s.page page)).2.used = s.used := by
    unfold replacePage
    split
    · rfl
    · rw [if_pos rfl]
  have hreplaced : (s.replacePage c 0 (s.page page)).2.replaced =
      (((page :: deleted).reverse.filter fun p => s₀.page p ≠ 0).map fun p => (0, s₀.page p)).take c.maxPagesPerWrite := by
    have hlast : [page].filter (fun p => decide (s₀.page p ≠ 0)) = [page] := by
      simp [← hold, hzero]
    rw [List.reverse_cons, List.filter_append, hlast, List.map_append, List.map_singleton, take_concat, ← h.replaced_eq, ← hold]
    unfold replacePage
    split_ifs <;> rfl
  generalize (s.replacePage c 0 (s.page page)).2 = s' at hok hsize hpage hflash huses hreplaced ⊢
  dsimp only at hok ⊢
  split at hok
  · refine ⟨fun p => ?_, ?_, ?_, ?_, ?_⟩ <;> dsimp only [State.unmapPage, tick] at *
    · by_cases hp : p = page
      · rw [hp, Function.update_self, if_pos List.mem_cons_self]
      · rw [Function.update_of_ne hp, hpage, h.page_eq]
        simp [hmem, hp]
    · exact hflash.trans h.flash
    · exact huses.trans h.used
    · exact hsize.trans h.size
    · exact hreplaced
  · rename_i hfails
    exact (hfails hok).elim

theorem Shrinking.deletePages (pages : List PageNo) {deleted : List PageNo} (h : Shrinking c s₀ s deleted)
    (hnodup : (pages ++ deleted).Nodup) (hok : (deletePages c env pages s).1 = .ok) :
    Shrinking c s₀ (deletePages c env pages s).2 (pages.reverse ++ deleted) := by
  induction pages generalizing s deleted with
  | nil => exact h
  | cons page pages ih =>
    obtain ⟨hnew, hrest⟩ := List.nodup_cons.mp hnodup
    rw [State.deletePages] at hok ⊢
    cases hdelete : s.deletePage c env page with
    | mk r s' =>
    rw [hdelete] at hok
    by_cases hr : r = .ok
    · subst hr
      have hnext := h.deletePage (fun hin => hnew (List.mem_append_right _ hin)) (congrArg Prod.fst hdelete)
      rw [hdelete] at hnext
      have hdone := ih hnext (List.nodup_middle.mpr (List.nodup_cons.mpr ⟨hnew, hrest⟩)) hok
      rwa [List.reverse_cons, List.append_assoc, List.singleton_append]
    · exfalso
      cases r <;> first | exact hr rfl | cases hok

/-- Whatever the result, no status changes before the inode is stored. -/
theorem deletePage_kept (page : PageNo) : (s.deletePage c env page).2.used = s.used ∧
    ∀ p, (s.deletePage c env page).2.page p = 0 ∨ (s.deletePage c env page).2.page p = s.page p := by
  have huses : (s.replacePage c 0 (s.page page)).2.used = s.used := by
    unfold replacePage
    split
    · rfl
    · rw [if_pos rfl]
  obtain ⟨-, -, hpage, -⟩ := s.replacePage_frame (c := c) 0 (s.page page)
  unfold State.deletePage
  split_ifs
  · exact ⟨rfl, fun p => .inr rfl⟩
  · exact ⟨rfl, fun p => .inr rfl⟩
  · exact ⟨rfl, fun p => .inr rfl⟩
  · dsimp only
    split
    · refine ⟨?_, fun p => ?_⟩ <;> dsimp only [State.unmapPage, tick]
      · exact huses
      · by_cases hp : p = page
        · exact .inl (by rw [hp, Function.update_self])
        · exact .inr (by rw [Function.update_of_ne hp, hpage])
    · exact ⟨huses, fun p => .inr (congrFun hpage p)⟩

/-- The old pages are given back once the inode does not name them any more. -/
theorem Shrinking.sound {deleted : List PageNo} (h : Shrinking c s₀ s deleted) (hs : s₀.Sound c env) {offs : Nat}
    (hoffs : offs ≤ s₀.size) (hdeleted : ∀ p, s₀.page p ≠ 0 → (p ∈ deleted ↔ offs ≤ p * c.dataBytesPerPage)) :
    ({ s with size := offs }.invalidateOldPages : State).Sound c env where
  used p hp := by
    change s.page p ≠ 0 at hp
    change (s.used (s.page p) && !(s.replaced.any fun r => r.2 = s.page p && s.page p ≠ 0)) = true
    have hpage := h.page_eq p
    split_ifs at hpage with hin
    · exact absurd hpage hp
    rw [Bool.and_eq_true, h.used, hpage, Bool.not_eq_true', List.any_eq_false]
    rw [hpage] at hp
    refine ⟨hs.used p hp, fun r hr heq => ?_⟩
    obtain ⟨q, hq, hr⟩ := h.replaced r hr
    rw [hr] at heq
    have heq : s₀.page q = s₀.page p := (of_decide_eq_true ((Bool.and_eq_true _ _).mp heq).1)
    exact hin (hs.injective p q hp heq.symm ▸ hq)
  injective p q hp heq := by
    change s.page p ≠ 0 at hp
    change s.page p = s.page q at heq
    have hpage := h.page_eq p
    have hqage := h.page_eq q
    split_ifs at hpage with hin
    · exact absurd hpage hp
    split_ifs at hqage with hin'
    · exact absurd (heq.trans hqage) hp
    exact hs.injective p q (by rwa [← hpage]) (by rw [← hpage, heq, hqage])
  beyond p hp := by
    change s.page p ≠ 0 at hp
    have hpage := h.page_eq p
    split_ifs at hpage with hin
    · exact absurd hpage hp
    rw [hpage] at hp
    exact Nat.lt_of_not_le fun hle => hin ((hdeleted p hp).mpr hle)
  size_lt := Nat.lt_of_le_of_lt hoffs hs.size_lt
  addressable := hoffs.trans hs.addressable
  replaced := rfl

theorem firstPage_le (offs p : Nat) :
    offs / c.dataBytesPerPage + (if offs % c.dataBytesPerPage ≠ 0 then 1 else 0) ≤ p ↔ offs ≤ p * c.dataBytesPerPage := by
  have hdiv := Nat.div_add_mod offs c.dataBytesPerPage
  have hmod := Nat.mod_lt offs c.page_pos
  rw [Nat.mul_comm] at hdiv
  constructor
  · intro hle
    have hmul := Nat.mul_le_mul_right c.dataBytesPerPage hle
    rw [Nat.add_mul] at hmul
    split_ifs at hmul
    · omega
    · omega
  · intro hle
    split_ifs with hzero
    · refine (Nat.div_lt_iff_lt_mul c.page_pos).mpr ?_
      refine Nat.lt_of_le_of_ne hle fun heq => hzero ?_
      rw [heq, Nat.mul_mod_left]
    · exact Nat.div_le_of_le_mul (by rwa [Nat.mul_comm])

/-- The pages a truncation goes through. -/
def tailPages (c : Config) (s : State) (offs : Nat) : List PageNo :=
  let pageFrom := offs / c.dataBytesPerPage + if offs % c.dataBytesPerPage ≠ 0 then 1 else 0
  if pageFrom ≤ lastPage c s.size ∧ s.reservedPages ≠ 0 then (List.range' pageFrom (lastPage c s.size - pageFrom + 1)).reverse else []

theorem nodup_tailPages (c : Config) (s : State) (offs : Nat) : (s.tailPages c offs).Nodup := by
  unfold tailPages
  generalize offs / c.dataBytesPerPage + (if offs % c.dataBytesPerPage ≠ 0 then 1 else 0) = pageFrom
  dsimp only
  split_ifs
  · exact List.nodup_reverse.mpr List.nodup_range'
  · exact List.nodup_nil

/-- They are those of the tail, unless the inode has no pages. -/
theorem mem_tailPages {offs p : Nat} (hoffs : offs < s.size) :
    p ∈ s.tailPages c offs ↔ s.reservedPages ≠ 0 ∧ offs ≤ p * c.dataBytesPerPage ∧ p * c.dataBytesPerPage < s.size := by
  obtain ⟨hlast, hlast'⟩ := lastPage_spec (c := c) (Nat.zero_lt_of_lt hoffs)
  have hend : p * c.dataBytesPerPage < s.size ↔ p ≤ lastPage c s.size := by
    constructor
    · exact fun hlt => Nat.lt_succ_iff.mp (Nat.lt_of_mul_lt_mul_right (hlt.trans_le hlast'))
    · exact fun hle => (Nat.mul_le_mul_right _ hle).trans_lt hlast
  rw [hend, ← firstPage_le (c := c) offs]
  unfold tailPages
  generalize offs / c.dataBytesPerPage + (if offs % c.dataBytesPerPage ≠ 0 then 1 else 0) = pageFrom
  dsimp only
  split_ifs with hsome
  · rw [List.mem_reverse, List.mem_range'_1]
    omega
  · rw [List.mem_nil_iff, false_iff]
    omega

theorem deleteInodeData_eq {offs : Nat} (hoffs : offs < s.size) : s.deleteInodeData c env offs =
    match deletePages c env (s.tailPages c offs) s with
    | (.ok, s) => (.ok, { s with size := offs }.invalidateOldPages)
    | r => r :=
  (if_neg hoffs.ne').trans (if_neg (Nat.not_lt.mpr hoffs.le))

/-- What a truncation that goes through leaves. -/
theorem deleteInodeData_shrinking (hreplaced : s.replaced = []) {offs : Nat} (hoffs : offs < s.size)
    (hok : (s.deleteInodeData c env offs).1 = .ok) : ∃ s', Shrinking c s s' (s.tailPages c offs).reverse ∧
      (deletePages c env (s.tailPages c offs) s).2 = s' ∧
      (s.deleteInodeData c env offs).2 = ({ s' with size := offs } : State).invalidateOldPages := by
  rw [deleteInodeData_eq hoffs] at hok ⊢
  have hdone := @Shrinking.deletePages c env _ _ (s.tailPages c offs) _ (Shrinking.start (c := c) hreplaced)
    (by rw [List.append_nil]; exact nodup_tailPages c s offs)
  rw [List.append_nil] at hdone
  generalize State.deletePages c env (s.tailPages c offs) s = r at hok hdone ⊢
  obtain ⟨r, s'⟩ := r
  have hr : r = .ok := by
    cases r <;> first | rfl | exact hok
  subst hr
  exact ⟨s', hdone rfl, rfl, rfl⟩

/-- A truncation that goes through: the tail is gone, the bytes before it stay. -/
theorem deleteInodeData_ok (hs : s.Sound c env) (hcounted : s.Counted) (hreserved : s.reservedPages ≠ 0) {offs : Nat}
    (hoffs : offs < s.size) (hok : (s.deleteInodeData c env offs).1 = .ok) : let s' := (s.deleteInodeData c env offs).2
    s'.Sound c env ∧ s'.Counted ∧ s'.size = offs ∧ (∀ i < offs, s'.byteAt c i = s.byteAt c i) ∧
      ∀ p, s'.page p = if offs ≤ p * c.dataBytesPerPage then 0 else s.page p := by
  obtain ⟨s', hdone, hstate, hstate'⟩ := deleteInodeData_shrinking hs.replaced hoffs hok
  have hcounted' := @Counted.deletePages c env s (s.tailPages c offs) hcounted
  rw [hstate] at hcounted'
  rw [hstate']
  have hdeleted : ∀ p, s.page p ≠ 0 → (p ∈ (s.tailPages c offs).reverse ↔ offs ≤ p * c.dataBytesPerPage) := by
    intro p hp
    rw [List.mem_reverse, mem_tailPages hoffs]
    exact ⟨fun h => h.2.1, fun h => ⟨hreserved, h, hs.beyond p hp⟩⟩
  have hpage : ∀ p, s'.page p = if offs ≤ p * c.dataBytesPerPage then 0 else s.page p := by
    intro p
    rw [hdone.page_eq p]
    by_cases hp : s.page p = 0
    · rw [hp, ite_self, ite_self]
    · simp only [hdeleted p hp]
  refine ⟨hdone.sound hs hoffs.le hdeleted, hcounted'.congr rfl rfl, rfl, fun i hi => ?_, hpage⟩
  have hkept : s'.page (i / c.dataBytesPerPage) = s.page (i / c.dataBytesPerPage) := by
    rw [hpage, if_neg]
    exact Nat.not_le.mpr (Nat.lt_of_le_of_lt (Nat.div_mul_le_self _ _) hi)
  change (if s'.page (i / c.dataBytesPerPage) = 0 then fun _ => 0 else s'.flash (s'.page (i / c.dataBytesPerPage)) : Memory)
    (i % c.dataBytesPerPage) = _
  rw [hkept, hdone.flash]
  rfl

end State
end Paffs.DataIO
