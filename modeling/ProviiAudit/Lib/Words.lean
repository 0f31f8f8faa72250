import Mathlib.Algebra.GroupWithZero.Nat
import ProviiAudit.Lib.Loop

/-! Computations on machine words: operations that wrap and a record of whether one did, and
loops that may run out of fuel. -/
namespace Words

/-- The flag says that an operation has wrapped; `none` is a loop out of fuel. -/
abbrev Comp (α : Type) := StateT Bool Option α

def wrappingAdd (bits a b : ℕ) : Comp ℕ := do
  if 2 ^ bits ≤ a + b then set true
  return (a + b) % 2 ^ bits

def wrappingSub (bits a b : ℕ) : Comp ℕ := do
  if a < b then set true
  return (2 ^ bits + a - b) % 2 ^ bits

/-- What the body of a loop decides. -/
inductive Flow (σ ρ : Type)
  | next (s : σ)
  | done (r : ρ)

variable {σ ρ : Type} {body : σ → Comp (Flow σ ρ)} {s s₀ : σ} {r : ρ} {f : σ → ρ}
  {P : σ → Prop} {a b bits fuel : ℕ} {wrapped : Bool}

def loop (body : σ → Comp (Flow σ ρ)) : ℕ → σ → Comp ρ
  | 0, _ => failure
  | fuel + 1, s => do
    match ← body s with
    | .next s => loop body fuel s
    | .done r => return r

/-- The states at the head of the loop, with the flag. -/
inductive Visits (body : σ → Comp (Flow σ ρ)) (s₀ : σ) : σ → Bool → Prop
  | start : Visits body s₀ s₀ false
  | next {s s' : σ} {wrapped wrapped' : Bool} : Visits body s₀ s wrapped →
      (body s).run wrapped = some (.next s', wrapped') → Visits body s₀ s' wrapped'

theorem wrappingAdd_eq (h : a + b < 2 ^ bits) : wrappingAdd bits a b = pure (a + b) := by
  simp [wrappingAdd, Nat.not_le.mpr h, Nat.mod_eq_of_lt h]

theorem wrappingSub_eq (hb : b ≤ a) (ha : a < 2 ^ bits) : wrappingSub bits a b = pure (a - b) := by
  have hmod : (2 ^ bits + a - b) % 2 ^ bits = a - b := by
    rw [Nat.add_sub_assoc hb, Nat.add_mod_left, Nat.mod_eq_of_lt (by omega)]
  simp [wrappingSub, Nat.not_lt.mpr hb, hmod]

example : (wrappingSub 8 0 1).run false = some (255, true) := by decide

/-- A result that no turn of the loop changes is what the loop returns. -/
theorem loop_eq (f : σ → ρ) (P : σ → Prop) (size : σ → ℕ)
    (hbody : ∀ s, P s → body s = pure (.done (f s)) ∨
      ∃ s', body s = pure (.next s') ∧ P s' ∧ size s' < size s ∧ f s' = f s)
    (hs : P s) (hfuel : size s < fuel) : loop body fuel s = pure (f s) := by
  induction fuel generalizing s with
  | zero => omega
  | succ fuel ih =>
    rcases hbody s hs with hdone | ⟨s', hnext, hs', hlt, hf⟩
    · rw [loop, hdone, pure_bind]
    · rw [loop, hnext, pure_bind]
      exact (ih hs' (by omega)).trans (by rw [hf])

/-- A while loop, with the invariant `P`. -/
theorem loop_while {cond : σ → Bool} {step : σ → σ} (size : σ → ℕ)
    (hnext : ∀ s, P s → cond s = true →
      body s = pure (.next (step s)) ∧ P (step s) ∧ size (step s) < size s)
    (hdone : ∀ s, P s → cond s = false → body s = pure (.done (f s))) (hs : P s)
    (hfuel : size s ≤ fuel) :
    loop body (fuel + 1) s = pure (f (Loop.whileLoop cond step fuel s)) := by
  induction fuel generalizing s with
  | zero =>
    cases hc : cond s with
    | false => rw [loop, hdone s hs hc, pure_bind, Loop.whileLoop]
    | true =>
      have hlt := (hnext s hs hc).2.2
      omega
  | succ fuel ih =>
    rw [Loop.whileLoop]
    cases hc : cond s with
    | false => rw [loop, hdone s hs hc, pure_bind, if_neg (by simp)]
    | true =>
      obtain ⟨hbody, hs', hlt⟩ := hnext s hs hc
      rw [loop, hbody, pure_bind, if_pos rfl]
      exact ih hs' (by omega)

/-- An invariant of the turns holds at the head of the loop, and nothing has wrapped there. -/
theorem Visits.invariant
    (hbody : ∀ s, P s → (∃ r, body s = pure (.done r)) ∨ ∃ s', body s = pure (.next s') ∧ P s')
    (hs₀ : P s₀) (h : Visits body s₀ s wrapped) : P s ∧ wrapped = false := by
  induction h with
  | start => exact ⟨hs₀, rfl⟩
  | next _ hrun ih =>
    obtain ⟨hs, rfl⟩ := ih
    rcases hbody _ hs with ⟨r, hdone⟩ | ⟨s', hnext, hs'⟩
    · rw [hdone] at hrun
      cases (Prod.mk.inj (Option.some.inj hrun)).1
    · rw [hnext] at hrun
      obtain ⟨hstate, rfl⟩ := Prod.mk.inj (Option.some.inj hrun)
      obtain rfl := Flow.next.inj hstate
      exact ⟨hs', rfl⟩

end Words
