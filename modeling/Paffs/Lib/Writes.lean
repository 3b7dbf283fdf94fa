import Mathlib

/-! A map that is changed by a list of writes, and a log of which only a first part was written. -/
namespace Writes
variable {ι κ ν : Type*} [DecidableEq κ]

def apply (ws : List (κ × ν)) (f : κ → ν) : κ → ν := ws.foldl (fun f w => Function.update f w.1 w.2) f

@[simp] theorem apply_nil (f : κ → ν) : apply [] f = f := rfl

@[simp] theorem apply_cons (w : κ × ν) (ws : List (κ × ν)) (f : κ → ν) :
    apply (w :: ws) f = apply ws (Function.update f w.1 w.2) := rfl

theorem apply_append (ws vs : List (κ × ν)) (f : κ → ν) : apply (ws ++ vs) f = apply vs (apply ws f) :=
  List.foldl_append

theorem apply_of_forall {ws : List (κ × ν)} {f : κ → ν} {k : κ} {v : ν} (h : ∀ w ∈ ws, w.1 = k → w.2 = v)
    (hf : f k = v) : apply ws f k = v := by
  induction ws generalizing f with
  | nil => exact hf
  | cons w ws ih =>
    rw [apply_cons]
    refine ih (fun x hx => h x (List.mem_cons_of_mem _ hx)) ?_
    by_cases hk : k = w.1
    · rw [hk, Function.update_self]
      exact h w (List.mem_cons_self ..) hk.symm
    · rw [Function.update_of_ne hk, hf]

theorem apply_of_not_mem {ws : List (κ × ν)} {f : κ → ν} {k : κ} (h : ∀ w ∈ ws, w.1 ≠ k) :
    apply ws f k = f k :=
  apply_of_forall (fun w hw hk => (h w hw hk).elim) rfl

/-- The last write to a key counts. -/
theorem apply_last {A B : List (κ × ν)} {k : κ} (v : ν) (f : κ → ν) (h : ∀ w ∈ B, w.1 ≠ k) :
    apply (A ++ (k, v) :: B) f k = v := by
  rw [apply_append, apply_cons, apply_of_not_mem h, Function.update_self]

/-- Every key of a list gets the same value. -/
def mark (v : ν) (ks : List κ) (f : κ → ν) : κ → ν := fun k => if k ∈ ks then v else f k

@[simp] theorem mark_nil (v : ν) (f : κ → ν) : mark v [] f = f := by
  funext k
  simp [mark]

theorem mark_cons (v : ν) (k : κ) (ks : List κ) (f : κ → ν) :
    mark v (k :: ks) f = mark v ks (Function.update f k v) := by
  funext x
  by_cases hx : x = k <;> simp [mark, hx]

theorem mark_append (v : ν) (ks ls : List κ) (f : κ → ν) : mark v (ks ++ ls) f = mark v ls (mark v ks f) := by
  funext k
  by_cases hk : k ∈ ks <;> simp [mark, hk]

theorem mark_of_mem {v : ν} {k : κ} {ks : List κ} (f : κ → ν) (h : k ∈ ks) : mark v ks f k = v := if_pos h

theorem mark_of_not_mem {v : ν} {k : κ} {ks : List κ} (f : κ → ν) (h : k ∉ ks) : mark v ks f k = f k := if_neg h

/-- What was written to the marked keys before does not matter. -/
theorem mark_apply {v : ν} {ks : List κ} {ws : List (κ × ν)} (h : ∀ w ∈ ws, w.1 ∈ ks) (f : κ → ν) :
    mark v ks (apply ws f) = mark v ks f := by
  funext k
  by_cases hk : k ∈ ks
  · rw [mark_of_mem _ hk, mark_of_mem _ hk]
  · rw [mark_of_not_mem _ hk, mark_of_not_mem _ hk]
    exact apply_of_not_mem fun w hw he => hk (he ▸ h w hw)

section Changes
variable [DecidableEq ν]

/-- The writes of one value that change something. -/
def changes (v : ν) : List κ → (κ → ν) → List (κ × ν)
  | [], _ => []
  | k :: ks, f => (if f k = v then [] else [(k, v)]) ++ changes v ks (Function.update f k v)

theorem mem_changes {v : ν} {ks : List κ} {f : κ → ν} {w : κ × ν} (h : w ∈ changes v ks f) :
    w.1 ∈ ks ∧ w.2 = v := by
  induction ks generalizing f with
  | nil => simp [changes] at h
  | cons k ks ih =>
    rw [changes, List.mem_append] at h
    rcases h with h | h
    · split at h
      · simp at h
      · obtain rfl := List.mem_singleton.1 h
        exact ⟨List.mem_cons_self .., rfl⟩
    · exact ⟨List.mem_cons_of_mem _ (ih h).1, (ih h).2⟩

theorem apply_changes (v : ν) (ks : List κ) (f : κ → ν) : apply (changes v ks f) f = mark v ks f := by
  induction ks generalizing f with
  | nil => simp [changes]
  | cons k ks ih =>
    have hone : apply (if f k = v then [] else [(k, v)]) f = Function.update f k v := by
      split
      · next hk => rw [apply_nil, ← hk, Function.update_eq_self]
      · rfl
    rw [changes, apply_append, hone, ih, mark_cons]

end Changes

/-- A log that is cut is cut in its first or in its second half. -/
theorem prefix_append_cases {A B P : List ι} (h : P <+: A ++ B) : P <+: A ∨ ∃ Q, P = A ++ Q ∧ Q <+: B := by
  rcases List.prefix_or_prefix_of_prefix h (List.prefix_append A B) with hA | ⟨Q, rfl⟩
  · exact .inl hA
  · exact .inr ⟨Q, rfl, (List.prefix_append_right_inj A).1 h⟩

theorem prefix_append_singleton_cases {A B P : List ι} {e : ι} (h : P <+: (A ++ [e]) ++ B) :
    P <+: A ∨ ∃ Q, P = (A ++ [e]) ++ Q ∧ Q <+: B := by
  rw [List.append_assoc] at h
  rcases prefix_append_cases h with hA | ⟨T, rfl, hT⟩
  · exact .inl hA
  · rcases List.prefix_cons_iff.1 hT with rfl | ⟨Q, rfl, hQ⟩
    · exact .inl (by rw [List.append_nil])
    · exact .inr ⟨Q, by simp, hQ⟩

end Writes
