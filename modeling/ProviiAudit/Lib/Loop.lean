import Mathlib.Data.Nat.Notation

/-! While loops: run with fuel, reached states, and when the fuel suffices. -/
namespace Loop

variable {σ : Type*} {cond : σ → Bool} {body : σ → σ} {s s₀ : σ} {fuel : ℕ}

def whileLoop (cond : σ → Bool) (body : σ → σ) : ℕ → σ → σ
  | 0, s => s
  | fuel + 1, s => if cond s then whileLoop cond body fuel (body s) else s

/-- The states in which the loop condition is tested. -/
inductive Reaches (cond : σ → Bool) (body : σ → σ) (s₀ : σ) : σ → Prop
  | start : Reaches cond body s₀ s₀
  | step {s : σ} : Reaches cond body s₀ s → cond s = true → Reaches cond body s₀ (body s)

/-- A measure that every step decreases is enough fuel. -/
theorem whileLoop_exits {P : σ → Prop} (size : σ → ℕ)
    (hstep : ∀ s, P s → cond s = true → P (body s) ∧ size (body s) < size s)
    (hs : P s) (hfuel : size s ≤ fuel) : cond (whileLoop cond body fuel s) = false := by
  induction fuel generalizing s with
  | zero =>
    cases hc : cond s with
    | false => exact hc
    | true =>
      have := (hstep s hs hc).2
      omega
  | succ fuel ih =>
    rw [whileLoop]
    split
    · rename_i hc
      obtain ⟨hp, hlt⟩ := hstep s hs hc
      exact ih hp (by omega)
    · simpa using ‹¬ cond s = true›

theorem whileLoop_done (h : cond s = false) : whileLoop cond body fuel s = s := by
  cases fuel <;> simp [whileLoop, h]

/-- A run that exits goes through every state that is reached. -/
theorem whileLoop_of_reaches (h : Reaches cond body s₀ s)
    (hexit : cond (whileLoop cond body fuel s₀) = false) :
    ∃ left, whileLoop cond body left s = whileLoop cond body fuel s₀ := by
  induction h with
  | start => exact ⟨fuel, rfl⟩
  | step _ hc ih =>
    obtain ⟨left, heq⟩ := ih
    cases left with
    | zero =>
      rw [← heq, whileLoop, hc] at hexit
      exact absurd hexit (by decide)
    | succ left => exact ⟨left, by rw [← heq, whileLoop, if_pos hc]⟩

/-- What a step does not undo, a run does not undo. -/
theorem whileLoop_induct {P : σ → Prop} (hstep : ∀ s, P s → P (body s)) (hs : P s) :
    P (whileLoop cond body fuel s) := by
  induction fuel generalizing s with
  | zero => exact hs
  | succ fuel ih =>
    rw [whileLoop]
    split
    · exact ih (hstep s hs)
    · exact hs

end Loop
