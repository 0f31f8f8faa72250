import Mathlib.Tactic.TypeStar

/-! Finite runs of a labelled step relation. The labels are the history of the run. -/
namespace Runs

variable {σ α : Type*} {Step : σ → α → σ → Prop} {s t u : σ} {as bs : List α} {a : α}

inductive Run (Step : σ → α → σ → Prop) (s : σ) : List α → σ → Prop
  | nil : Run Step s [] s
  | snoc {as : List α} {a : α} {t u : σ} : Run Step s as t → Step t a u → Run Step s (as ++ [a]) u

theorem Run.append (h : Run Step s as t) (h' : Run Step t bs u) : Run Step s (as ++ bs) u := by
  induction h' with
  | nil => simpa using h
  | snoc _ hstep ih =>
    rw [← List.append_assoc]
    exact .snoc ih hstep

theorem Run.single (h : Step s a t) : Run Step s [a] t := by
  rw [← List.nil_append [a]]
  exact .snoc .nil h

/-- A relation that every step respects relates the ends of a run. -/
theorem Run.related {R : σ → σ → Prop} (hrefl : ∀ s, R s s)
    (htrans : ∀ s t u, R s t → R t u → R s u) (hstep : ∀ s a t, Step s a t → R s t)
    (h : Run Step s as t) : R s t := by
  induction h with
  | nil => exact hrefl s
  | snoc _ h ih => exact htrans _ _ _ ih (hstep _ _ _ h)

end Runs
