import Paffs.DataIO.Run

/-! Reading any range, inside the file or not. -/
namespace Paffs.DataIO
open Bytes (Byte Memory)
variable {c : Config} {env : Env}

namespace State
variable {s : State} {offs bytes : Nat}

/-- How many bytes of the range the file has. -/
def clipped (s : State) (offs bytes : Nat) : Nat := min bytes (s.size - offs)

/-- The sum of the arguments, the number of the last page and the counter of the loop stay in their widths. -/
structure NoWrap (c : Config) (s : State) (offs bytes : Nat) : Prop where
  sum : offs + bytes < 2 ^ 32
  toPage : (offs + s.clipped offs bytes) % c.dataBytesPerPage = 0 → 0 < (offs + s.clipped offs bytes) / c.dataBytesPerPage
  counter : lastPage c (offs + s.clipped offs bytes) + 1 < offs / c.dataBytesPerPage + 2 ^ 16

/-- All bytes of the range that the file has are read, and no others. -/
structure ReadsExactly (c : Config) (env : Env) (s : State) (offs bytes : Nat) : Prop where
  noWrap : s.NoWrap c offs bytes
  result : ∃ data, s.readInodeData c env offs bytes = some (.ok, data) ∧ data.length = s.clipped offs bytes

/-- The range starts before the end of the file and has less than `2 ^ 16` pages, or it starts behind the end, and then not with
a page. -/
def Readable (c : Config) (env : Env) (s : State) (offs bytes : Nat) : Prop :=
  offs + bytes < 2 ^ 32 ∧
    if offs < s.size then lastPage c (min (offs + bytes) s.size) + 1 < offs / c.dataBytesPerPage + 2 ^ 16 ∧
      lastPage c (min (offs + bytes) s.size) < env.addressable
    else offs % c.dataBytesPerPage ≠ 0 ∧ offs / c.dataBytesPerPage < env.addressable

theorem length_readPageData_le (k : Nat) {page offsInPage : Nat} (hoffs : offsInPage ≤ c.dataBytesPerPage) (data : List Byte) :
    (s.readPageData c env bytes k page offsInPage data).2.length ≤ data.length + (k * c.dataBytesPerPage - offsInPage) := by
  induction k generalizing page offsInPage data with
  | zero => exact Nat.le_add_right ..
  | succ k ih =>
    rw [readPageData]
    split_ifs
    · exact Nat.le_add_right ..
    · have hrest := @ih (page + 1) 0 (Nat.zero_le _)
        (data ++ (s.readPage page).read offsInPage (min (bytes + offsInPage - data.length) c.dataBytesPerPage - offsInPage))
      have hround := Nat.min_le_right (bytes + offsInPage - data.length) c.dataBytesPerPage
      rw [List.length_append, Memory.length_read] at hrest
      dsimp only
      rw [Nat.succ_mul]
      omega

theorem readPageData_addressable (k : Nat) {page offsInPage : Nat} {data : List Byte}
    (hok : (s.readPageData c env bytes k page offsInPage data).1 = .ok) : ∀ i < k, page + i < env.addressable := by
  induction k generalizing page offsInPage data with
  | zero => exact fun i hi => absurd hi (Nat.not_lt_zero i)
  | succ k ih =>
    rw [readPageData] at hok
    by_cases hpage : page ≥ env.addressable
    · rw [if_pos hpage] at hok
      cases hok
    rw [if_neg hpage] at hok
    intro i hi
    cases i with
    | zero => exact Nat.not_le.mp hpage
    | succ i =>
      have hnext := ih hok i (Nat.lt_of_succ_lt_succ hi)
      omega

/-- What a read comes down to when the sum of its arguments does not wrap around. -/
theorem readInodeData_clipped (hbytes : 0 < bytes) (hsum : offs + bytes < 2 ^ 32) : s.readInodeData c env offs bytes =
    if toPage c (offs + s.clipped offs bytes) < offs / c.dataBytesPerPage then some (.bug, [])
    else if lastRound (offs / c.dataBytesPerPage) (toPage c (offs + s.clipped offs bytes)) = 2 ^ 16 - 1 ∧
      offs / c.dataBytesPerPage + (2 ^ 16 - 1) < env.addressable then none
    else some (s.readPageData c env (s.clipped offs bytes)
      (lastRound (offs / c.dataBytesPerPage) (toPage c (offs + s.clipped offs bytes)) + 1) (offs / c.dataBytesPerPage)
      (offs % c.dataBytesPerPage) []) := by
  have hclip : (if offs + bytes > s.size then s.size - offs else bytes) = s.clipped offs bytes := by
    unfold clipped
    split_ifs
    · rw [Nat.min_eq_right (by omega)]
    · rw [Nat.min_eq_left (by omega)]
  have hle : s.clipped offs bytes ≤ bytes := Nat.min_le_left ..
  unfold readInodeData
  rw [Nat.mod_eq_of_lt hsum, if_neg (by omega), hclip]
  dsimp only
  rw [Nat.mod_eq_of_lt (show offs + s.clipped offs bytes < 2 ^ 32 by omega)]

/-- The range inside the file, page by page. -/
theorem clipped_pages (hbytes : 0 < bytes) (hsize : offs < s.size) :
    0 < s.clipped offs bytes ∧ offs + s.clipped offs bytes = min (offs + bytes) s.size ∧
      offs / c.dataBytesPerPage ≤ lastPage c (offs + s.clipped offs bytes) ∧
      (lastPage c (offs + s.clipped offs bytes) - offs / c.dataBytesPerPage) * c.dataBytesPerPage <
        offs % c.dataBytesPerPage + s.clipped offs bytes := by
  have hpos : 0 < s.clipped offs bytes := lt_min hbytes (by omega)
  have hend : offs + s.clipped offs bytes = min (offs + bytes) s.size := by
    unfold clipped
    omega
  obtain ⟨hlast, hlast'⟩ := lastPage_spec (c := c) (show 0 < offs + s.clipped offs bytes by omega)
  have hdiv := Nat.div_add_mod offs c.dataBytesPerPage
  rw [Nat.mul_comm] at hdiv
  have hfrom : offs / c.dataBytesPerPage ≤ lastPage c (offs + s.clipped offs bytes) := by
    refine Nat.le_of_lt_succ (Nat.div_lt_of_lt_mul ?_)
    rw [Nat.mul_comm]
    exact lt_of_lt_of_le (Nat.lt_add_of_pos_right hpos) hlast'
  refine ⟨hpos, hend, hfrom, ?_⟩
  rw [Nat.sub_mul]
  omega

theorem readable_of_result (hbytes : 0 < bytes) (hsum : offs + bytes < 2 ^ 32) {data : List Byte}
    (hread : s.readInodeData c env offs bytes = some (.ok, data)) (hlength : data.length = s.clipped offs bytes) :
    s.Readable c env offs bytes := by
  refine ⟨hsum, ?_⟩
  have hmod := Nat.mod_lt offs c.page_pos
  rw [readInodeData_clipped hbytes hsum] at hread
  split_ifs at hread with hbug hloop
  · cases hread
  have hok := Option.some.inj hread
  have hpages := readPageData_addressable _ (congrArg Prod.fst hok)
  have hle := @length_readPageData_le c env s (s.clipped offs bytes)
    (lastRound (offs / c.dataBytesPerPage) (toPage c (offs + s.clipped offs bytes)) + 1) (offs / c.dataBytesPerPage) _ hmod.le []
  rw [hok] at hle
  dsimp only at hle
  rw [hlength] at hle
  split_ifs with hsize
  · obtain ⟨hpos, hend, hfrom, hlast⟩ := clipped_pages (c := c) hbytes hsize
    rw [toPage_eq (by omega) (by have := Nat.min_le_left bytes (s.size - offs); unfold clipped; omega)] at hloop hpages hle
    rw [← hend]
    generalize lastPage c (offs + s.clipped offs bytes) = last at hloop hpages hle hfrom hlast ⊢
    generalize offs / c.dataBytesPerPage = first at hloop hpages hle hfrom hlast ⊢
    -- the pages that are read have room for all bytes
    have hrounds : last - first < lastRound first last + 1 := by
      refine Nat.lt_of_mul_lt_mul_right (a := c.dataBytesPerPage) (hlast.trans_le ?_)
      rw [Nat.succ_mul] at hle ⊢
      rw [List.length_nil] at hle
      omega
    have hwhole := hpages (last - first) hrounds
    unfold lastRound at hloop hrounds hpages
    constructor
    · by_contra hcounter
      exact hloop ⟨by omega, by omega⟩
    · omega
  · have hzero : s.clipped offs bytes = 0 := by
      unfold clipped
      omega
    rw [hzero, show offs + 0 = offs from rfl] at hbug hloop hpages
    have haligned : offs % c.dataBytesPerPage ≠ 0 := by
      intro haligned
      unfold toPage at hbug hloop hpages
      rw [if_pos haligned] at hbug hloop hpages
      by_cases hstart : offs / c.dataBytesPerPage = 0
      · -- the last page of an empty file wraps around
        rw [hstart] at hloop hpages
        have hmax : lastRound 0 ((0 + (2 ^ 32 - 1)) % 2 ^ 32) = 2 ^ 16 - 1 := by
          unfold lastRound
          norm_num
        rw [hmax] at hloop hpages
        exact hloop ⟨rfl, hpages (2 ^ 16 - 1) (Nat.lt_succ_self _)⟩
      · have hlt := Nat.div_le_self offs c.dataBytesPerPage
        generalize offs / c.dataBytesPerPage = first at hbug hstart hlt
        omega
    exact ⟨haligned, hpages 0 (Nat.succ_pos _)⟩

/-- A read terminates, returns `ok` and gives all bytes that the file has in the range exactly when none of its counts wraps
around: the end of the range is less than `2 ^ 32`, its pages are less than `2 ^ 16`, and it starts inside the file or inside a
page. -/
theorem readInodeData_iff (hbytes : 0 < bytes) : s.ReadsExactly c env offs bytes ↔ s.Readable c env offs bytes := by
  constructor
  · rintro ⟨hnoWrap, data, hread, hlength⟩
    exact readable_of_result hbytes hnoWrap.sum hread hlength
  rintro ⟨hsum, hrange⟩
  have hmod := Nat.mod_lt offs c.page_pos
  have hsum' : offs + s.clipped offs bytes < 2 ^ 32 := by
    have := Nat.min_le_left bytes (s.size - offs)
    unfold clipped
    omega
  split_ifs at hrange with hsize
  · obtain ⟨hcounter, haddressable⟩ := hrange
    obtain ⟨hpos, hend, hfrom, -⟩ := clipped_pages (c := c) hbytes hsize
    rw [← hend] at hcounter haddressable
    have hround : lastRound (offs / c.dataBytesPerPage) (lastPage c (offs + s.clipped offs bytes)) =
        lastPage c (offs + s.clipped offs bytes) - offs / c.dataBytesPerPage := by
      unfold lastRound
      exact Nat.mod_eq_of_lt (by omega)
    refine ⟨⟨hsum, fun haligned => ?_, hcounter⟩, Memory.read (s.byteAt c) offs (s.clipped offs bytes), ?_, Memory.length_read ..⟩
    · exact Nat.div_pos (Nat.le_of_dvd (by omega) (Nat.dvd_of_mod_eq_zero haligned)) c.page_pos
    · rw [readInodeData_clipped hbytes hsum, toPage_eq (by omega) hsum', if_neg (Nat.not_lt.mpr hfrom), hround,
        if_neg (fun h => by omega)]
      refine congrArg some (readPageData_eq (by omega) haddressable _ (by rfl) (by omega)
        (fun h => absurd h (Nat.succ_ne_zero _)) (fun _ => ?_) hmod (Nat.zero_le _) (.inr rfl))
      rw [List.length_nil, Nat.zero_add, Nat.mul_comm]
      exact (Nat.div_add_mod ..).symm
  · obtain ⟨haligned, haddressable⟩ := hrange
    have hzero : s.clipped offs bytes = 0 := by
      unfold clipped
      omega
    have hlast : lastPage c offs = offs / c.dataBytesPerPage := if_neg haligned
    refine ⟨⟨hsum, fun h => ?_, ?_⟩, [], ?_, hzero.symm⟩
    · rw [hzero, Nat.add_zero] at h
      exact absurd h haligned
    · rw [hzero, show offs + 0 = offs from rfl, hlast]
      omega
    · have hround : lastRound (offs / c.dataBytesPerPage) (offs / c.dataBytesPerPage) = 0 := by
        unfold lastRound
        rw [Nat.sub_self, Nat.zero_mod]
      have htoPage : toPage c offs = offs / c.dataBytesPerPage := by
        unfold toPage
        exact if_neg haligned
      rw [readInodeData_clipped hbytes hsum, hzero, Nat.add_zero, htoPage, if_neg (Nat.lt_irrefl _), hround,
        if_neg (fun h => by omega), readPageData, if_neg (Nat.not_le.mpr haddressable)]
      simp [readPageData, Memory.read, hmod.le]

instance : Decidable (s.Readable c env offs bytes) := inferInstanceAs (Decidable (_ ∧ ite _ _ _))

/-- Of six bytes, the last five. -/
theorem readInodeData_iff_sevens :
    ([sevens 0 3, sevens 3 3].foldl (write fourBytes nextPage) newFile).ReadsExactly fourBytes nextPage 1 9 :=
  (readInodeData_iff (by decide)).mpr (by decide +kernel)

/-- At the end of a file of one whole page, where nothing is left to read. -/
theorem end_is_a_bug : ¬ ∀ (c : Config) (env : Env) (s : State) (offs bytes : Nat), offs < 2 ^ 32 → bytes < 2 ^ 32 →
    s.size < 2 ^ 32 → 0 < bytes → s.ReadsExactly c env offs bytes := by
  intro hall
  obtain ⟨-, data, hread, -⟩ := hall fourBytes nextPage (newFile.write fourBytes nextPage (sevens 0 4)) 4 1 (by decide)
    (by decide) (by decide +kernel) (by decide)
  have hbug : (newFile.write fourBytes nextPage (sevens 0 4)).readInodeData fourBytes nextPage 4 1 = some (.bug, []) := by
    decide +kernel
  rw [hbug] at hread
  cases hread

end State
end Paffs.DataIO
