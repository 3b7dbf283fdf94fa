import Mathlib.Data.List.Basic

/-! Programs whose steps are logged: what a log that was cut off says, and how the rest of the program follows. -/
namespace Resume
variable {σ ε τ : Type*} (apply : σ → ε → σ)

/-- A step says what it logs, which is then done; a step may have nothing to do. -/
def exec : List (σ → Option ε) → σ → σ
  | [], s => s
  | step :: rest, s =>
    match step s with
    | none => exec rest s
    | some e => exec rest (apply s e)

def logOf : List (σ → Option ε) → σ → List ε
  | [], _ => []
  | step :: rest, s =>
    match step s with
    | none => logOf rest s
    | some e => e :: logOf rest (apply s e)

variable {apply} {step : σ → Option ε} {rest p q : List (σ → Option ε)} {s : σ} {e : ε}

theorem exec_none (h : step s = none) : exec apply (step :: rest) s = exec apply rest s := by
  rw [exec, h]

theorem exec_some (h : step s = some e) : exec apply (step :: rest) s = exec apply rest (apply s e) := by
  rw [exec, h]

theorem logOf_none (h : step s = none) : logOf apply (step :: rest) s = logOf apply rest s := by
  rw [logOf, h]

theorem logOf_some (h : step s = some e) : logOf apply (step :: rest) s = e :: logOf apply rest (apply s e) := by
  rw [logOf, h]

/-- The log says what was done. -/
theorem foldl_logOf : (logOf apply p s).foldl apply s = exec apply p s := by
  induction p generalizing s with
  | nil => rfl
  | cons step rest ih =>
    cases h : step s with
    | none => rw [logOf_none h, exec_none h, ih]
    | some e => rw [logOf_some h, exec_some h, List.foldl_cons, ih]

theorem logOf_append : logOf apply (p ++ q) s = logOf apply p s ++ logOf apply q (exec apply p s) := by
  induction p generalizing s with
  | nil => rfl
  | cons step rest ih =>
    rw [List.cons_append]
    cases h : step s with
    | none => rw [logOf_none h, logOf_none h, exec_none h, ih]
    | some e => rw [logOf_some h, logOf_some h, exec_some h, ih, List.cons_append]

theorem exec_append : exec apply (p ++ q) s = exec apply q (exec apply p s) := by
  rw [← foldl_logOf, logOf_append, List.foldl_append, foldl_logOf, foldl_logOf]

theorem mem_logOf {Q : ε → Prop} (h : ∀ step ∈ p, ∀ s e, step s = some e → Q e) : ∀ e ∈ logOf apply p s, Q e := by
  induction p generalizing s with
  | nil => exact fun e he => absurd he List.not_mem_nil
  | cons step rest ih =>
    have hrest : ∀ s, ∀ e ∈ logOf apply rest s, Q e := fun s => ih fun st hst => h st (List.mem_cons_of_mem _ hst)
    cases hstep : step s with
    | none =>
      rw [logOf_none hstep]
      exact hrest s
    | some e =>
      rw [logOf_some hstep]
      intro e' he'
      rcases List.mem_cons.1 he' with rfl | he'
      · exact h step List.mem_cons_self s e' hstep
      · exact hrest _ e' he'

/-- `resume e` goes on behind the step that logged `e`, on states `τ` of which `view` is what the program is about. -/
inductive Resumable (apply : σ → ε → σ) (view : τ → σ) (resume : ε → τ → τ) : List (σ → Option ε) → Prop
  | nil : Resumable apply view resume []
  | cons {step : σ → Option ε} {rest : List (σ → Option ε)}
      (hstep : ∀ s e, step s = some e → ∀ t, view (resume e t) = exec apply rest (view t))
      (hrest : Resumable apply view resume rest) : Resumable apply view resume (step :: rest)

/-- The log was cut off behind `e`, what it says has been done again, and the program is resumed: it ends where it would have
ended. -/
theorem Resumable.completes {view : τ → σ} {resume : ε → τ → τ} (h : Resumable apply view resume p) {log : List ε}
    (hlog : log ++ [e] <+: logOf apply p s) {t : τ} (ht : view t = (log ++ [e]).foldl apply s) :
    view (resume e t) = exec apply p s := by
  induction h generalizing s log with
  | nil => exact absurd (List.prefix_nil.1 hlog) (by simp)
  | @cons step rest hstep _ ih =>
    cases hs : step s with
    | none =>
      rw [logOf_none hs] at hlog
      rw [exec_none hs]
      exact ih hlog ht
    | some first =>
      rw [logOf_some hs] at hlog
      rw [exec_some hs]
      cases log with
      | nil =>
        obtain rfl : e = first := (List.cons_prefix_cons.1 hlog).1
        rw [hstep s e hs, ht]
        rfl
      | cons x log =>
        obtain ⟨rfl, hlog⟩ := List.cons_prefix_cons.1 hlog
        exact ih hlog ht

end Resume
