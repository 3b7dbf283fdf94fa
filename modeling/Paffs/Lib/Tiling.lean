import Mathlib

/-! Consecutive cells of a half-open interval. `n + 1` cells are separated by `n`
inner borders; `P a b x` says that `x` fills the cell `[a, b)`. -/
namespace Tiling
variable {κ α : Type*} {P Q : κ → κ → α → Prop}

/-- The cells `cs`, with the borders `ks` between them, fill `[lo, hi)`. -/
def Tiles (P : κ → κ → α → Prop) : κ → List κ → List α → κ → Prop
  | lo, [], [c], hi => P lo hi c
  | lo, k :: ks, c :: cs, hi => P lo k c ∧ Tiles P k ks cs hi
  | _, _, _, _ => False

/-- The cells `cs` fill `[lo, a)`; each is followed by its right border. -/
def LeftOf (P : κ → κ → α → Prop) : κ → List κ → List α → κ → Prop
  | lo, [], [], a => lo = a
  | lo, k :: ks, c :: cs, a => P lo k c ∧ LeftOf P k ks cs a
  | _, _, _, _ => False

/-- The cells `cs` fill `[b, hi)`; each is preceded by its left border. -/
def RightOf (P : κ → κ → α → Prop) : κ → List κ → List α → κ → Prop
  | b, [], [], hi => b = hi
  | b, k :: ks, c :: cs, hi => b = k ∧ ∃ m, P k m c ∧ RightOf P m ks cs hi
  | _, _, _, _ => False

theorem Tiles.length_eq : ∀ {lo hi : κ} {ks : List κ} {cs : List α},
    Tiles P lo ks cs hi → cs.length = ks.length + 1
  | _, _, [], [_], _ => rfl
  | _, _, [], [], h => h.elim
  | _, _, [], _ :: _ :: _, h => h.elim
  | _, _, _ :: _, [], h => h.elim
  | _, _, _ :: _, _ :: _, h => by simp [Tiles.length_eq h.2]

theorem LeftOf.length_eq : ∀ {lo a : κ} {ks : List κ} {cs : List α},
    LeftOf P lo ks cs a → cs.length = ks.length
  | _, _, [], [], _ => rfl
  | _, _, [], _ :: _, h => h.elim
  | _, _, _ :: _, [], h => h.elim
  | _, _, _ :: _, _ :: _, h => by simp [LeftOf.length_eq h.2]

theorem RightOf.length_eq : ∀ {b hi : κ} {ks : List κ} {cs : List α},
    RightOf P b ks cs hi → cs.length = ks.length
  | _, _, [], [], _ => rfl
  | _, _, [], _ :: _, h => h.elim
  | _, _, _ :: _, [], h => h.elim
  | _, _, _ :: _, _ :: _, ⟨_, _, _, h⟩ => by simp [RightOf.length_eq h]

/-- Cutting a row of cells at a border, and joining two rows at one. -/
theorem tiles_append : ∀ {lo m hi : κ} {s t : List κ} {c d : List α}, c.length = s.length + 1 →
    (Tiles P lo (s ++ m :: t) (c ++ d) hi ↔ Tiles P lo s c m ∧ Tiles P m t d hi)
  | _, _, _, [], _, [x], _, _ => by simp [Tiles]
  | _, _, _, [], _, [], _, h => by simp at h
  | _, _, _, [], _, _ :: _ :: _, _, h => by simp at h
  | _, _, _, _ :: _, _, [], _, h => by simp at h
  | _, _, _, k :: s, _, x :: c, _, h => by
    simp only [List.cons_append, Tiles]
    rw [tiles_append (by simpa using h), and_assoc]

theorem leftOf_nil (a : κ) : LeftOf P a [] [] a := rfl

/-- Filling the gap between a left and a right part. -/
theorem LeftOf.fill : ∀ {lo a b hi : κ} {k₁ s k₂ : List κ} {l d r : List α},
    LeftOf P lo k₁ l a → Tiles P a s d b → RightOf P b k₂ r hi →
      Tiles P lo (k₁ ++ s ++ k₂) (l ++ d ++ r) hi
  | _, _, _, _, _ :: _, _, _, _ :: _, _, _, hl, hm, hr => ⟨hl.1, hl.2.fill hm hr⟩
  | _, _, _, _, [], _, _, _ :: _, _, _, hl, _, _ => hl.elim
  | _, _, _, _, _ :: _, _, _, [], _, _, hl, _, _ => hl.elim
  | lo, _, b, hi, [], s, k₂, [], d, r, hl, hm, hr => by
    obtain rfl : lo = _ := hl
    simp only [List.nil_append]
    match k₂, r, hr with
    | [], [], hr =>
      obtain rfl : b = hi := hr
      simpa using hm
    | k :: k₂, x :: r, ⟨hb, m, hx, hr⟩ =>
      subst hb
      refine (tiles_append hm.length_eq).2 ⟨hm, ?_⟩
      simpa using (leftOf_nil b).fill (show Tiles P b [] [x] m from hx) hr

/-- Any cell can be taken out of a row, leaving its two sides. -/
theorem Tiles.focus : ∀ {lo hi : κ} {ks : List κ} {cs : List α} (i : Nat) (x : α), Tiles P lo ks cs hi →
    cs[i]? = some x → ∃ a b, LeftOf P lo (ks.take i) (cs.take i) a ∧ P a b x ∧
      RightOf P b (ks.drop i) (cs.drop (i + 1)) hi
  | lo, hi, [], [c], i, x, h, hx => by
    match i with
    | 0 =>
      obtain rfl : c = x := by simpa using hx
      exact ⟨lo, hi, rfl, h, rfl⟩
    | i + 1 => simp at hx
  | _, _, [], [], _, _, h, _ => h.elim
  | _, _, [], _ :: _ :: _, _, _, h, _ => h.elim
  | _, _, _ :: _, [], _, _, h, _ => h.elim
  | lo, hi, k :: ks, c :: cs, i, x, h, hx => by
    match i with
    | 0 =>
      obtain rfl : c = x := by simpa using hx
      refine ⟨lo, k, rfl, h.1, ?_⟩
      match cs, h.2 with
      | d :: cs, h2 =>
        obtain ⟨a, b, ha, hd, hb⟩ := h2.focus 0 d rfl
        obtain rfl : k = a := ha
        exact ⟨rfl, b, hd, by simpa using hb⟩
      | [], h2 => simpa using h2.length_eq
    | i + 1 =>
      obtain ⟨a, b, ha, hp, hb⟩ := h.2.focus i x (by simpa using hx)
      exact ⟨a, b, ⟨h.1, ha⟩, hp, hb⟩

/-- Searching for the first border above `key` finds the cell `key` lies in. -/
theorem Tiles.find [LinearOrder κ] (key : κ) : ∀ {lo hi : κ} {ks : List κ} {cs : List α}, Tiles P lo ks cs hi →
    lo ≤ key → key < hi → ∃ x a b, cs[ks.findIdx (fun k => !(k ≤ key))]? = some x ∧
      LeftOf P lo (ks.take (ks.findIdx fun k => !(k ≤ key))) (cs.take (ks.findIdx fun k => !(k ≤ key))) a ∧
      P a b x ∧ RightOf P b (ks.drop (ks.findIdx fun k => !(k ≤ key)))
        (cs.drop (ks.findIdx (fun k => !(k ≤ key)) + 1)) hi ∧ a ≤ key ∧ key < b
  | lo, hi, [], [c], h, hlo, hhi => ⟨c, lo, hi, rfl, rfl, h, rfl, hlo, hhi⟩
  | _, _, [], [], h, _, _ => h.elim
  | _, _, [], _ :: _ :: _, h, _, _ => h.elim
  | _, _, _ :: _, [], h, _, _ => h.elim
  | lo, hi, k :: ks, c :: cs, h, hlo, hhi => by
    by_cases hk : k ≤ key
    · obtain ⟨x, a, b, hx, hl, hp, hr, ha, hb⟩ := h.2.find key hk hhi
      simp only [List.findIdx_cons, hk, decide_true, Bool.not_true, cond_false]
      exact ⟨x, a, b, by simpa using hx, ⟨h.1, hl⟩, hp, by simpa using hr, ha, hb⟩
    · obtain ⟨a, b, ha, hp, hr⟩ := Tiles.focus 0 c h rfl
      obtain rfl : lo = a := ha
      simp only [List.findIdx_cons, hk, decide_false, Bool.not_false, cond_true]
      refine ⟨c, lo, b, rfl, rfl, hp, hr, hlo, ?_⟩
      have hb : b = k := by
        cases cs with
        | nil => exact absurd h.2.length_eq (by simp)
        | cons d cs => exact hr.1
      rw [hb]
      exact lt_of_not_ge hk

/-- The nearest cell on the left, with its own two borders. -/
theorem LeftOf.last : ∀ {lo a : κ} {ks : List κ} {cs : List α}, LeftOf P lo ks cs a → cs ≠ [] →
    ∃ ks' cs' x m, ks = ks' ++ [a] ∧ cs = cs' ++ [x] ∧ LeftOf P lo ks' cs' m ∧ P m a x
  | _, _, [], [], _, h => (h rfl).elim
  | _, _, [], _ :: _, h, _ => h.elim
  | _, _, _ :: _, [], h, _ => h.elim
  | lo, a, k :: ks, c :: cs, h, _ => by
    by_cases hc : cs = []
    · subst hc
      match ks, h.2 with
      | [], h2 =>
        obtain rfl : k = a := h2
        exact ⟨[], [], c, lo, rfl, rfl, rfl, h.1⟩
      | _ :: _, h2 => exact h2.elim
    · obtain ⟨ks', cs', x, m, rfl, rfl, hl, hp⟩ := h.2.last hc
      exact ⟨k :: ks', c :: cs', x, m, rfl, rfl, ⟨h.1, hl⟩, hp⟩

/-- The nearest cell on the right, with its own two borders. -/
theorem RightOf.first {b hi : κ} {ks : List κ} {cs : List α} (h : RightOf P b ks cs hi) (hc : cs ≠ []) :
    ∃ ks' cs' x m, ks = b :: ks' ∧ cs = x :: cs' ∧ P b m x ∧ RightOf P m ks' cs' hi := by
  match ks, cs, h with
  | k :: ks, c :: cs, ⟨hb, m, hp, hr⟩ => exact ⟨ks, cs, c, m, by rw [hb], rfl, hb ▸ hp, hr⟩
  | [], [], _ => exact (hc rfl).elim

/-- What the cells of a row hold, one after the other, lies between its outer borders. -/
theorem Tiles.forall_mem {β : Type*} [Preorder κ] (f : α → List β) (key : β → κ)
    (hP : ∀ a b x, P a b x → a ≤ b ∧ ∀ e ∈ f x, a ≤ key e ∧ key e < b) :
    ∀ {lo hi : κ} {ks : List κ} {cs : List α}, Tiles P lo ks cs hi →
      lo ≤ hi ∧ ∀ e ∈ cs.flatMap f, lo ≤ key e ∧ key e < hi
  | _, _, [], [_], h => by simpa using hP _ _ _ h
  | _, _, [], [], h => h.elim
  | _, _, [], _ :: _ :: _, h => h.elim
  | _, _, _ :: _, [], h => h.elim
  | lo, hi, k :: ks, c :: cs, h => by
    obtain ⟨hlo, hc⟩ := hP _ _ _ h.1
    obtain ⟨hhi, hcs⟩ := h.2.forall_mem f key hP
    refine ⟨hlo.trans hhi, fun e he => ?_⟩
    rw [List.flatMap_cons, List.mem_append] at he
    rcases he with he | he
    · exact ⟨(hc e he).1, (hc e he).2.trans_le hhi⟩
    · exact ⟨hlo.trans (hcs e he).1, (hcs e he).2⟩

theorem LeftOf.forall_mem {β : Type*} [Preorder κ] (f : α → List β) (key : β → κ)
    (hP : ∀ a b x, P a b x → a ≤ b ∧ ∀ e ∈ f x, a ≤ key e ∧ key e < b) :
    ∀ {lo a : κ} {ks : List κ} {cs : List α}, LeftOf P lo ks cs a →
      lo ≤ a ∧ ∀ e ∈ cs.flatMap f, lo ≤ key e ∧ key e < a
  | _, _, [], [], h => by obtain rfl : _ = _ := h; simp
  | _, _, [], _ :: _, h => h.elim
  | _, _, _ :: _, [], h => h.elim
  | lo, a, k :: ks, c :: cs, h => by
    obtain ⟨hlo, hc⟩ := hP _ _ _ h.1
    obtain ⟨ha, hcs⟩ := h.2.forall_mem f key hP
    refine ⟨hlo.trans ha, fun e he => ?_⟩
    rw [List.flatMap_cons, List.mem_append] at he
    rcases he with he | he
    · exact ⟨(hc e he).1, (hc e he).2.trans_le ha⟩
    · exact ⟨hlo.trans (hcs e he).1, (hcs e he).2⟩

theorem RightOf.forall_mem {β : Type*} [Preorder κ] (f : α → List β) (key : β → κ)
    (hP : ∀ a b x, P a b x → a ≤ b ∧ ∀ e ∈ f x, a ≤ key e ∧ key e < b) :
    ∀ {b hi : κ} {ks : List κ} {cs : List α}, RightOf P b ks cs hi →
      b ≤ hi ∧ ∀ e ∈ cs.flatMap f, b ≤ key e ∧ key e < hi
  | _, _, [], [], h => by obtain rfl : _ = _ := h; simp
  | _, _, [], _ :: _, h => h.elim
  | _, _, _ :: _, [], h => h.elim
  | b, hi, k :: ks, c :: cs, ⟨hb, m, hp, hr⟩ => by
    subst hb
    obtain ⟨hm, hc⟩ := hP _ _ _ hp
    obtain ⟨hhi, hcs⟩ := hr.forall_mem f key hP
    refine ⟨hm.trans hhi, fun e he => ?_⟩
    rw [List.flatMap_cons, List.mem_append] at he
    rcases he with he | he
    · exact ⟨(hc e he).1, (hc e he).2.trans_le hhi⟩
    · exact ⟨hm.trans (hcs e he).1, (hcs e he).2⟩

theorem Tiles.forall_cells {β : Type*} {f : α → List β} {p : β → Prop}
    (hP : ∀ a b x, P a b x → ∀ e ∈ f x, p e) :
    ∀ {lo hi : κ} {ks : List κ} {cs : List α}, Tiles P lo ks cs hi → ∀ e ∈ cs.flatMap f, p e
  | _, _, [], [_], h => by simpa using hP _ _ _ h
  | _, _, [], [], h => h.elim
  | _, _, [], _ :: _ :: _, h => h.elim
  | _, _, _ :: _, [], h => h.elim
  | _, _, k :: ks, c :: cs, h => by
    intro e he
    rw [List.flatMap_cons, List.mem_append] at he
    exact he.elim (hP _ _ _ h.1 e) (h.2.forall_cells hP e)

/-- Ascending cells make an ascending row. -/
theorem Tiles.pairwise {β : Type*} [Preorder κ] (f : α → List β) (key : β → κ)
    (hP : ∀ a b x, P a b x → a ≤ b ∧ ∀ e ∈ f x, a ≤ key e ∧ key e < b)
    (hs : ∀ a b x, P a b x → (f x).Pairwise (key · < key ·)) :
    ∀ {lo hi : κ} {ks : List κ} {cs : List α}, Tiles P lo ks cs hi →
      (cs.flatMap f).Pairwise (key · < key ·)
  | _, _, [], [_], h => by simpa using hs _ _ _ h
  | _, _, [], [], h => h.elim
  | _, _, [], _ :: _ :: _, h => h.elim
  | _, _, _ :: _, [], h => h.elim
  | lo, hi, k :: ks, c :: cs, h => by
    rw [List.flatMap_cons, List.pairwise_append]
    refine ⟨hs _ _ _ h.1, h.2.pairwise f key hP hs, fun x hx y hy => ?_⟩
    exact ((hP _ _ _ h.1).2 x hx).2.trans_le ((h.2.forall_mem f key hP).2 y hy).1

/-- Cells that are proper intervals have ascending borders. -/
theorem Tiles.borders [Preorder κ] (hP : ∀ a b x, P a b x → a < b) :
    ∀ {lo hi : κ} {ks : List κ} {cs : List α}, Tiles P lo ks cs hi →
      lo < hi ∧ (∀ k ∈ ks, lo < k ∧ k < hi) ∧ ks.Pairwise (· < ·)
  | _, _, [], [_], h => by simpa using hP _ _ _ h
  | _, _, [], [], h => h.elim
  | _, _, [], _ :: _ :: _, h => h.elim
  | _, _, _ :: _, [], h => h.elim
  | lo, hi, k :: ks, c :: cs, h => by
    have hk := hP _ _ _ h.1
    obtain ⟨hhi, hb, hs⟩ := h.2.borders hP
    refine ⟨hk.trans hhi, fun x hx => ?_, List.pairwise_cons.2 ⟨fun x hx => (hb x hx).1, hs⟩⟩
    rcases List.mem_cons.1 hx with rfl | hx
    · exact ⟨hk, hhi⟩
    · exact ⟨hk.trans (hb x hx).1, (hb x hx).2⟩

theorem LeftOf.borders [Preorder κ] (hP : ∀ a b x, P a b x → a < b) :
    ∀ {lo a : κ} {ks : List κ} {cs : List α}, LeftOf P lo ks cs a → lo ≤ a ∧ ∀ k ∈ ks, k ≤ a
  | _, _, [], [], h => by obtain rfl : _ = _ := h; simp
  | _, _, [], _ :: _, h => h.elim
  | _, _, _ :: _, [], h => h.elim
  | lo, a, k :: ks, c :: cs, h => by
    obtain ⟨hk, hb⟩ := h.2.borders hP
    refine ⟨(hP _ _ _ h.1).le.trans hk, fun x hx => ?_⟩
    rcases List.mem_cons.1 hx with rfl | hx
    · exact hk
    · exact hb x hx

theorem RightOf.borders [Preorder κ] (hP : ∀ a b x, P a b x → a < b) :
    ∀ {b hi : κ} {ks : List κ} {cs : List α}, RightOf P b ks cs hi → b ≤ hi ∧ ∀ k ∈ ks, k < hi
  | _, _, [], [], h => by obtain rfl : _ = _ := h; simp
  | _, _, [], _ :: _, h => h.elim
  | _, _, _ :: _, [], h => h.elim
  | b, hi, k :: ks, c :: cs, h => by
    obtain ⟨rfl, m, hc, hr⟩ := h
    obtain ⟨hm, hks⟩ := hr.borders hP
    have hlt := (hP _ _ _ hc).trans_le hm
    refine ⟨hlt.le, fun x hx => ?_⟩
    rcases List.mem_cons.1 hx with rfl | hx
    · exact hlt
    · exact hks x hx

end Tiling
