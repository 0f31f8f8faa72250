import Mathlib.Algebra.Group.Nat.Defs
import Mathlib.Data.List.Lex
import Mathlib.Order.Lattice
import Mathlib.Order.Monotone.Basic

/-! Numbers written with a fixed number of digits, in lexicographic order. -/
namespace FixedWidth

section Order

variable {α β : Type*} [LinearOrder α] [LinearOrder β] {a b x y : List α}

theorem append_lt_append_iff (h : a.length = b.length) :
    a ++ x < b ++ y ↔ a < b ∨ (a = b ∧ x < y) := by
  induction a generalizing b with
  | nil =>
    obtain rfl : b = [] := List.length_eq_zero_iff.mp h.symm
    simp
  | cons c a ih =>
    cases b with
    | nil => simp at h
    | cons d b =>
      have htail := ih (b := b) (by simpa using h)
      simp only [List.cons_append, List.cons_lt_cons_iff, htail, List.cons.injEq]
      tauto

/-- What both begin with does not matter. -/
theorem append_lt_append_left_iff : a ++ x < a ++ y ↔ x < y := by
  simp [append_lt_append_iff]

theorem map_lt_map_iff {f : α → β} (hf : StrictMono f) : x.map f < y.map f ↔ x < y := by
  induction x generalizing y with
  | nil => cases y <;> simp
  | cons c x ih =>
    cases y with
    | nil => simp
    | cons d y => simp [List.cons_lt_cons_iff, ih, hf.lt_iff_lt, hf.injective.eq_iff]

end Order

section Digits

variable {base width m n : Nat}

/-- The last `width` digits, the highest first. -/
def digits (base : Nat) : Nat → Nat → List Nat
  | 0, _ => []
  | width + 1, n => digits base width (n / base) ++ [n % base]

@[simp] theorem digits_length : (digits base width n).length = width := by
  induction width generalizing n with
  | zero => rfl
  | succ width ih => simp [digits, ih]

theorem digits_injective (hm : m < base ^ width) (hn : n < base ^ width)
    (h : digits base width m = digits base width n) : m = n := by
  induction width generalizing m n with
  | zero =>
    rw [pow_zero] at hm hn
    omega
  | succ width ih =>
    obtain ⟨hfront, hlast⟩ := List.append_inj' h rfl
    have hdiv := ih (Nat.div_lt_of_lt_mul (by rwa [pow_succ'] at hm))
      (Nat.div_lt_of_lt_mul (by rwa [pow_succ'] at hn)) hfront
    have hmod : m % base = n % base := by simpa using hlast
    rw [← Nat.div_add_mod m base, ← Nat.div_add_mod n base, hdiv, hmod]

/-- Numbers of one width are in the order of their digits. -/
theorem digits_lt_iff (hm : m < base ^ width) (hn : n < base ^ width) :
    digits base width m < digits base width n ↔ m < n := by
  induction width generalizing m n with
  | zero =>
    rw [pow_zero] at hm hn
    simp [digits]
    omega
  | succ width ih =>
    have hm' : m / base < base ^ width := Nat.div_lt_of_lt_mul (by rwa [pow_succ'] at hm)
    have hn' : n / base < base ^ width := Nat.div_lt_of_lt_mul (by rwa [pow_succ'] at hn)
    have heq : digits base width (m / base) = digits base width (n / base) ↔
        m / base = n / base := ⟨digits_injective hm' hn', fun h => by rw [h]⟩
    have hlast : [m % base] < [n % base] ↔ m % base < n % base := by
      simp [List.cons_lt_cons_iff]
    rw [digits, digits, append_lt_append_iff (by simp), ih hm' hn', heq, hlast]
    have hmsplit := Nat.div_add_mod m base
    have hnsplit := Nat.div_add_mod n base
    constructor
    · rintro (hlt | ⟨hdiv, hlt⟩)
      · exact Nat.lt_of_div_lt_div hlt
      · rw [hdiv] at hmsplit
        omega
    · intro hlt
      have hle : m / base ≤ n / base := Nat.div_le_div_right hlt.le
      rcases Nat.lt_or_eq_of_le hle with hdiv | hdiv
      · exact .inl hdiv
      · rw [hdiv] at hmsplit
        exact .inr ⟨hdiv, by omega⟩

end Digits

end FixedWidth
