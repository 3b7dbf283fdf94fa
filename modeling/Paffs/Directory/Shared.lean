import Paffs.DataIO.Shared
import Paffs.Directory.Map

/-! Directories that share a flash with other files. -/
namespace Paffs.Directory
open Bytes (Byte Memory toBytes toBytes_length)
open DataIO (State Env)
open DataIO.State (lastPage Apart Healthy pagesBehind)
variable {c : DataIO.Config} {env : Env} {s s' : State} {n : Nat}

/-! ### What is left to the others -/

/-- A directory does not see what happens elsewhere on the flash. -/
theorem Holds.congr {entries : List Entry} (h : Holds c env s entries) (hsize : s'.size = s.size)
    (hreserved : s'.reservedPages = s.reservedPages) (hpage : s'.page = s.page) (hreplaced : s'.replaced = [])
    (hkept : ∀ p, s.page p ≠ 0 → s'.used (s.page p) = true ∧ s'.flash (s.page p) = s.flash (s.page p)) :
    Holds c env s' entries := by
  obtain ⟨hfits, hstores⟩ := h
  refine ⟨hfits, ?_⟩
  split_ifs at hstores ⊢
  · exact ⟨hsize ▸ hstores.size, fun p => by rw [hpage]; exact hstores.page p, hreplaced, hreserved.trans hstores.reservedPages⟩
  · refine ⟨⟨?_, ?_, ?_, ?_, ?_, hreplaced⟩, hstores.counted.congr hpage hreserved, hsize.trans hstores.size_eq, ?_,
      hstores.fits, ?_⟩
    · rw [hpage]
      exact fun p hp => (hkept p hp).1
    · rw [hpage]
      exact hstores.sound.injective
    · rw [hpage, hsize]
      exact hstores.sound.beyond
    · rw [hsize]
      exact hstores.sound.size_lt
    · rw [hsize]
      exact hstores.sound.addressable
    · intro i hi
      refine Eq.trans ?_ (hstores.byteAt_eq i hi)
      unfold DataIO.State.byteAt DataIO.State.readPage
      rw [hpage]
      by_cases hzero : s.page (i / c.dataBytesPerPage) = 0
      · rw [if_pos hzero, if_pos hzero]
      · rw [if_neg hzero, if_neg hzero, (hkept _ hzero).2]
    · rw [hpage]
      exact hstores.first

theorem writeDir_apart (hs : s.Sound c env) {data : List Byte} (hpos : 0 < data.length)
    (hfits : data.length ≤ c.maxPagesPerWrite * c.dataBytesPerPage) (hok : (writeDir c env s data).1 = .ok) :
    Apart s (writeDir c env s data).2 := by
  have hlt := fits_lt hfits
  have hlast := lastPage_lt hpos hfits
  exact DataIO.State.writeInodeData_apart hs (.inl (Nat.zero_le _)) (by omega)
    (by rwa [Nat.zero_add, Nat.zero_div, Nat.zero_add]) hok

theorem commit_apart (h : Apart s s') : Apart s (commit env s').2 := by
  unfold commit
  split
  · exact h.tick.tick
  · exact h.tick

/-! ### When an operation goes through -/

theorem pagesBehind_zero {end_ : Nat} (hpos : 0 < end_) (hfits : end_ ≤ c.maxPagesPerWrite * c.dataBytesPerPage) :
    pagesBehind c 0 end_ = lastPage c end_ := by
  have hlast := lastPage_lt hpos hfits
  have hmax := c.max_lt
  unfold DataIO.State.pagesBehind
  rw [Nat.zero_div, Nat.sub_zero, Nat.add_mod_right, Nat.mod_eq_of_lt (by omega)]

theorem writeDir_total (hh : Healthy c env n) {data : List Byte} (hpos : 0 < data.length)
    (hfits : data.length ≤ c.maxPagesPerWrite * c.dataBytesPerPage) (hfree : c.maxPagesPerWrite ≤ (s.freePages n).card) :
    (writeDir c env s data).1 = .ok := by
  have hlt := fits_lt hfits
  have hlast := lastPage_lt hpos hfits
  refine DataIO.State.writeInodeData_total hh ?_ ?_ ?_ ?_ hfree
  all_goals rw [Nat.zero_add]
  · exact hpos
  · omega
  · rw [pagesBehind_zero hpos hfits]
    exact hlast
  · exact hlast

theorem commit_total (hh : Healthy c env n) : (commit env s).1 = .ok := by
  unfold commit
  rw [hh.outcome]
  exact hh.outcome _

/-- An insertion of a name that fits goes through, and stays within the directory. -/
theorem Holds.insert_total {entries : List Entry} (h : Holds c env s entries) (hh : Healthy c env n) {name elem : Name}
    {no : InodeNo} (helem : elemName name = some elem) (he : Entry.Fits ⟨elem, no⟩)
    (hsize : max 2 s.size + (5 + elem.length) ≤ c.maxPagesPerWrite * c.dataBytesPerPage)
    (hfree : c.maxPagesPerWrite ≤ (s.freePages n).card) :
    ∃ s', insertInodeInDir c env s name no = some (.ok, s') ∧ Holds c env s' (entries ++ [⟨elem, no⟩]) ∧ Apart s s' := by
  obtain ⟨hsound, -, hlength, -⟩ := h.dirData
  have hle := size_le_max s
  have hlonger := length_encode_append entries ⟨elem, no⟩
  dsimp only at hlength hlonger
  have hpos : 0 < (encode (entries ++ [⟨elem, no⟩])).length := by omega
  have hfits : (encode (entries ++ [⟨elem, no⟩])).length ≤ c.maxPagesPerWrite * c.dataBytesPerPage := by omega
  have hwrite := writeDir_total (s := { s with size := if s.size = 0 then 2 else s.size }) hh hpos hfits hfree
  have hapart := writeDir_apart hsound hpos hfits hwrite
  have heq := @Holds.insertInodeInDir_eq c env s entries h name elem no helem he.2
  generalize writeDir c env { s with size := if s.size = 0 then 2 else s.size } (encode (entries ++ [⟨elem, no⟩])) = r at heq hwrite hapart
  obtain ⟨r, s₁⟩ := r
  dsimp only at hwrite
  subst hwrite
  dsimp only at heq
  have hcommit : commit env s₁ = (.ok, (commit env s₁).2) := Prod.ext (commit_total hh) rfl
  rw [hcommit] at heq
  exact ⟨_, heq, h.insert helem he hsize heq, commit_apart ⟨hapart.other, hapart.fresh⟩⟩

/-- A removal of an entry goes through, and stays within the directory. -/
theorem Holds.remove_total {entries : List Entry} (h : Holds c env s entries) (hh : Healthy c env n) {elem : InodeNo}
    (hsome : ∃ e ∈ entries, e.no = elem) (hfree : c.maxPagesPerWrite ≤ (s.freePages n).card) :
    ∃ s', removeInodeFromDir c env s elem = some (.ok, s') ∧ Holds c env s' (entries.eraseP fun e => e.no = elem) ∧
      Apart s s' := by
  obtain ⟨e₀, he₀, helem₀⟩ := hsome
  obtain ⟨e, before, after, hbefore, helem, rfl, herase⟩ :=
    List.exists_of_eraseP (p := fun e => decide (e.no = elem)) he₀ (decide_eq_true helem₀)
  obtain rfl := of_decide_eq_true helem
  have hholds := h
  obtain ⟨hfits, hstores⟩ := h
  rw [if_neg (by simp)] at hstores
  have heq := removeInodeFromDir_eq hfits hstores fun b hb heq => hbefore b hb (decide_eq_true heq)
  suffices hexists : ∃ s', removeInodeFromDir c env s e.no = some (.ok, s') ∧ Apart s s' by
    obtain ⟨s', hok, hapart⟩ := hexists
    exact ⟨s', hok, hholds.remove hok, hapart⟩
  have hpos := length_encode_pos (before ++ after)
  have hlt := length_encode_lt before after e
  by_cases hnil : before ++ after = []
  · rw [if_pos hnil] at heq
    have hdelete := DataIO.State.deleteInodeData_total hh hstores.sound.used hstores.sound.addressable (Nat.zero_le _)
    have hapart := DataIO.State.deleteInodeData_apart hstores.sound hdelete
    generalize s.deleteInodeData c env 0 = r at heq hdelete hapart
    obtain ⟨r, s₁⟩ := r
    dsimp only at hdelete
    subst hdelete
    dsimp only at heq
    have hcommit : commit env s₁ = (.ok, (commit env s₁).2) := Prod.ext (commit_total hh) rfl
    rw [hcommit] at heq
    exact ⟨_, heq, commit_apart hapart⟩
  · rw [if_neg hnil] at heq
    have hfits' := hlt.le.trans hstores.fits
    have hwrite := writeDir_total (s := s) hh (by omega) hfits' hfree
    have hapart := writeDir_apart hstores.sound (by omega) hfits' hwrite
    obtain ⟨hsound, hcounted, hsize, -, -⟩ := writeDir_ok hstores.sound hstores.counted (by omega) hfits' hwrite
    generalize writeDir c env s (encode (before ++ after)) = r at heq hwrite hapart hsound hcounted hsize
    obtain ⟨r, s₁⟩ := r
    dsimp only at hwrite
    subst hwrite
    dsimp only at heq hapart hsound hcounted hsize
    have hdelete := DataIO.State.deleteInodeData_total hh hsound.used hsound.addressable
      (show (encode (before ++ after)).length ≤ s₁.size by rw [hsize]; exact Nat.le_max_right _ _)
    have hapart' := DataIO.State.deleteInodeData_apart hsound hdelete
    generalize s₁.deleteInodeData c env (encode (before ++ after)).length = r at heq hdelete hapart'
    obtain ⟨r, s₂⟩ := r
    dsimp only at hdelete
    subst hdelete
    dsimp only at heq
    have hcommit : commit env s₂ = (.ok, (commit env s₂).2) := Prod.ext (commit_total hh) rfl
    rw [hcommit] at heq
    exact ⟨_, heq, commit_apart (hapart.trans hapart')⟩

end Paffs.Directory
