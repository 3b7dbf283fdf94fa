import Mathlib

/-! Association lists with strictly ascending keys. -/
namespace Ascending
variable {κ ν : Type*} [LinearOrder κ]

/-- Where a new key belongs. -/
def place (k : κ) (l : List (κ × ν)) : Nat := l.findIdx fun e => !(e.1 < k)

/-- Where a key is found. -/
def position (k : κ) (l : List (κ × ν)) : Nat := l.findIdx fun e => e.1 == k

theorem lt_of_mem_take_place {k : κ} {l : List (κ × ν)} {e : κ × ν} (he : e ∈ l.take (place k l)) :
    e.1 < k := by
  obtain ⟨i, hi, rfl⟩ := List.mem_take_iff_getElem.1 he
  have h := List.not_of_lt_findIdx (p := fun e : κ × ν => !(e.1 < k)) (i := i) (by
    exact (lt_min_iff.1 hi).1)
  simpa using h

theorem le_of_mem_drop_place {k : κ} {l : List (κ × ν)} (hs : l.Pairwise (·.1 < ·.1)) {e : κ × ν}
    (he : e ∈ l.drop (place k l)) : k ≤ e.1 := by
  by_cases hl : place k l < l.length
  · have hk : k ≤ l[place k l].1 := by
      have h := List.findIdx_getElem (p := fun e : κ × ν => !(e.1 < k)) (w := hl)
      simp only [Bool.not_eq_true', decide_eq_false_iff_not, not_lt] at h
      exact h
    rw [List.drop_eq_getElem_cons hl] at he
    rcases List.mem_cons.1 he with rfl | he
    · exact hk
    · have hd := hs.drop (i := place k l)
      rw [List.drop_eq_getElem_cons hl, List.pairwise_cons] at hd
      exact hk.trans (hd.1 e he).le
  · rw [List.drop_eq_nil_of_le (by omega)] at he
    simp at he

theorem pairwise_insert {k : κ} (v : ν) {l : List (κ × ν)} (hs : l.Pairwise (·.1 < ·.1))
    (hk : ∀ e ∈ l, e.1 ≠ k) : (l.take (place k l) ++ (k, v) :: l.drop (place k l)).Pairwise (·.1 < ·.1) := by
  have hlt := fun e (he : e ∈ l.take (place k l)) => lt_of_mem_take_place he
  have hgt : ∀ e ∈ l.drop (place k l), k < e.1 := fun e he =>
    lt_of_le_of_ne (le_of_mem_drop_place hs he) (hk e (List.mem_of_mem_drop he)).symm
  rw [List.pairwise_append, List.pairwise_cons]
  refine ⟨hs.take, ⟨hgt, hs.drop⟩, fun a ha b hb => ?_⟩
  rcases List.mem_cons.1 hb with rfl | hb
  · exact hlt a ha
  · exact (hlt a ha).trans (hgt b hb)

theorem lookup_insert {k : κ} (v : ν) (l : List (κ × ν)) (k' : κ) :
    (l.take (place k l) ++ (k, v) :: l.drop (place k l)).lookup k' = if k' = k then some v else l.lookup k' := by
  rw [List.lookup_append, List.lookup_cons]
  by_cases h : k' = k
  · subst h
    have hn : (l.take (place k' l)).lookup k' = none :=
      List.lookup_eq_none_iff.2 fun e he => by simpa using (lt_of_mem_take_place he).ne'
    simp [hn]
  · have hb : (k' == k) = false := by simpa using h
    rw [if_neg h, hb]
    simp only [← List.lookup_append, List.take_append_drop]

/-- The position of a key that is there. -/
theorem getElem?_position {k : κ} {l : List (κ × ν)} {e : κ × ν} (h : l[position k l]? = some e) : e.1 = k := by
  obtain ⟨hi, rfl⟩ := List.getElem?_eq_some_iff.1 h
  exact eq_of_beq (List.findIdx_getElem (p := fun e : κ × ν => e.1 == k) (w := hi))

theorem ne_of_getElem?_position {k : κ} {l : List (κ × ν)} (h : l[position k l]? = none) :
    ∀ e ∈ l, e.1 ≠ k := by
  intro e he hk
  have hlt : position k l < l.length := List.findIdx_lt_length_of_exists ⟨e, he, by simpa using hk⟩
  rw [List.getElem?_eq_none_iff] at h
  omega

theorem lookup_eq_none_of_ne {k : κ} {l : List (κ × ν)} (h : ∀ e ∈ l, e.1 ≠ k) : l.lookup k = none :=
  List.lookup_eq_none_iff.2 fun e he => by simpa using (h e he).symm

/-- The entries before and behind a position of an ascending list do not have its key. -/
theorem split_at {l : List (κ × ν)} (hs : l.Pairwise (·.1 < ·.1)) {i : Nat} {e : κ × ν} (h : l[i]? = some e) :
    l = l.take i ++ e :: l.drop (i + 1) ∧ (∀ x ∈ l.take i, x.1 < e.1) ∧ ∀ x ∈ l.drop (i + 1), e.1 < x.1 := by
  obtain ⟨hi, rfl⟩ := List.getElem?_eq_some_iff.1 h
  have hl : l = l.take i ++ l[i] :: l.drop (i + 1) := by
    rw [← List.drop_eq_getElem_cons hi, List.take_append_drop]
  refine ⟨hl, ?_⟩
  rw [hl, List.pairwise_append, List.pairwise_cons] at hs
  exact ⟨fun x hx => hs.2.2 x hx _ (List.mem_cons_self ..), fun x hx => hs.2.1.1 x hx⟩

theorem lookup_of_getElem? {l : List (κ × ν)} (hs : l.Pairwise (·.1 < ·.1)) {i : Nat} {e : κ × ν}
    (h : l[i]? = some e) : l.lookup e.1 = some e.2 := by
  obtain ⟨hl, hlt, -⟩ := split_at hs h
  rw [hl, List.lookup_append, lookup_eq_none_of_ne fun x hx => (hlt x hx).ne]
  obtain ⟨k, v⟩ := e
  simp

theorem lookup_eraseIdx {l : List (κ × ν)} (hs : l.Pairwise (·.1 < ·.1)) {i : Nat} {e : κ × ν}
    (h : l[i]? = some e) (k : κ) : (l.eraseIdx i).lookup k = if k = e.1 then none else l.lookup k := by
  obtain ⟨hl, hlt, hgt⟩ := split_at hs h
  rw [List.eraseIdx_eq_take_drop_succ]
  by_cases hk : k = e.1
  · subst hk
    rw [if_pos rfl, List.lookup_append, lookup_eq_none_of_ne fun x hx => (hlt x hx).ne,
      lookup_eq_none_of_ne fun x hx => (hgt x hx).ne']
    rfl
  · have hb : (k == e.1) = false := by simpa using hk
    rw [if_neg hk]
    conv_rhs => rw [hl]
    rw [List.lookup_append, List.lookup_append, List.lookup_cons, hb]

theorem lookup_set {l : List (κ × ν)} (hs : l.Pairwise (·.1 < ·.1)) {i : Nat} {e : κ × ν}
    (h : l[i]? = some e) (v : ν) (k : κ) :
    (l.set i (e.1, v)).lookup k = if k = e.1 then some v else l.lookup k := by
  obtain ⟨hl, hlt, -⟩ := split_at hs h
  obtain ⟨hi, -⟩ := List.getElem?_eq_some_iff.1 h
  rw [List.set_eq_take_append_cons_drop, if_pos hi, List.lookup_append, List.lookup_cons]
  by_cases hk : k = e.1
  · subst hk
    rw [lookup_eq_none_of_ne fun x hx => (hlt x hx).ne]
    simp
  · have hb : (k == e.1) = false := by simpa using hk
    rw [if_neg hk]
    conv_rhs => rw [hl]
    rw [List.lookup_append, List.lookup_cons, hb]

theorem pairwise_set {l : List (κ × ν)} (hs : l.Pairwise (·.1 < ·.1)) {i : Nat} {e : κ × ν}
    (h : l[i]? = some e) (v : ν) : (l.set i (e.1, v)).Pairwise (·.1 < ·.1) := by
  obtain ⟨hl, hlt, hgt⟩ := split_at hs h
  obtain ⟨hi, -⟩ := List.getElem?_eq_some_iff.1 h
  have hs' : (l.take i ++ e :: l.drop (i + 1)).Pairwise (·.1 < ·.1) := hl ▸ hs
  rw [List.set_eq_take_append_cons_drop, if_pos hi]
  rw [List.pairwise_append, List.pairwise_cons] at hs' ⊢
  refine ⟨hs'.1, ⟨hgt, hs'.2.1.2⟩, fun a ha b hb => ?_⟩
  rcases List.mem_cons.1 hb with rfl | hb
  · exact hlt a ha
  · exact hs'.2.2 a ha b (List.mem_cons_of_mem _ hb)

/-- A change in the middle of a list changes the whole in the same way, unless the changed key
occurs around it. -/
theorem lookup_replace {A B B' C : List (κ × ν)} {k : κ} {v : Option ν} (hA : ∀ e ∈ A, e.1 ≠ k)
    (hC : ∀ e ∈ C, e.1 ≠ k) (hB : ∀ k', B'.lookup k' = if k' = k then v else B.lookup k') (k' : κ) :
    (A ++ B' ++ C).lookup k' = if k' = k then v else (A ++ B ++ C).lookup k' := by
  simp only [List.lookup_append, hB]
  split
  · next h =>
    subst h
    simp [lookup_eq_none_of_ne hA, lookup_eq_none_of_ne hC]
  · rfl

theorem lookup_middle {A B C : List (κ × ν)} {k : κ} (hA : ∀ e ∈ A, e.1 ≠ k) (hC : ∀ e ∈ C, e.1 ≠ k) :
    (A ++ B ++ C).lookup k = B.lookup k := by
  simp [List.lookup_append, lookup_eq_none_of_ne hA, lookup_eq_none_of_ne hC]

end Ascending
