import Mathlib.Algebra.Group.Nat.Defs
import Mathlib.Data.Nat.Log

/-! Natural numbers at a given number of bits: what needs more is rounded to the nearest number
that does not, and to the even one of two. -/
namespace Rounding

variable {bits d k m n q : ℕ}

/-- `n / d`, rounded. -/
def divNearest (n d : ℕ) : ℕ :=
  if d < 2 * (n % d) ∨ (2 * (n % d) = d ∧ n / d % 2 = 1) then n / d + 1 else n / d

def toBits (bits n : ℕ) : ℕ :=
  divNearest n (2 ^ (n.log2 + 1 - bits)) * 2 ^ (n.log2 + 1 - bits)

theorem divNearest_le (n d : ℕ) : divNearest n d ≤ n / d + 1 := by
  rw [divNearest]
  split_ifs <;> omega

theorem le_divNearest (n d : ℕ) : n / d ≤ divNearest n d := by
  rw [divNearest]
  split_ifs <;> omega

theorem divNearest_mul (hd : 0 < d) : divNearest (q * d) d = q := by
  rw [divNearest, Nat.mul_mod_left, Nat.mul_div_cancel q hd]
  simp [hd.ne]

theorem divNearest_mono (h : n ≤ m) : divNearest n d ≤ divNearest m d := by
  have hq : n / d ≤ m / d := Nat.div_le_div_right h
  rcases Nat.eq_or_lt_of_le hq with heq | hlt
  · -- with one quotient the remainders are ordered
    have hr : n % d ≤ m % d := by
      have hn := Nat.div_add_mod n d
      have hm := Nat.div_add_mod m d
      rw [heq] at hn
      omega
    rw [divNearest, divNearest, heq]
    split_ifs <;> omega
  · calc divNearest n d ≤ n / d + 1 := divNearest_le n d
      _ ≤ m / d := hlt
      _ ≤ divNearest m d := le_divNearest m d

theorem toBits_of_lt (h : n < 2 ^ bits) : toBits bits n = n := by
  rcases Nat.eq_zero_or_pos n with rfl | hpos
  · simp [toBits, divNearest]
  · have hlog := (Nat.log2_lt hpos.ne').mpr h
    have hone : n.log2 + 1 - bits = 0 := by omega
    have hdiv : divNearest n 1 = n := by simpa using divNearest_mul (q := n) Nat.one_pos
    rw [toBits, hone, Nat.pow_zero, hdiv, Nat.mul_one]

/-- A power of two is a multiple of every smaller one. -/
theorem divNearest_pow (h : k ≤ m) : divNearest (2 ^ m) (2 ^ k) * 2 ^ k = 2 ^ m := by
  have hpow : 2 ^ m = 2 ^ (m - k) * 2 ^ k := by rw [← Nat.pow_add, Nat.sub_add_cancel h]
  rw [hpow, divNearest_mul (Nat.two_pow_pos k)]

theorem toBits_le (hbits : 0 < bits) (n : ℕ) : toBits bits n ≤ 2 ^ (n.log2 + 1) := by
  rw [← divNearest_pow (show n.log2 + 1 - bits ≤ n.log2 + 1 by omega)]
  exact Nat.mul_le_mul_right _ (divNearest_mono Nat.lt_log2_self.le)

theorem le_toBits (hbits : 0 < bits) (hn : n ≠ 0) : 2 ^ n.log2 ≤ toBits bits n := by
  rw [← divNearest_pow (show n.log2 + 1 - bits ≤ n.log2 by omega)]
  exact Nat.mul_le_mul_right _ (divNearest_mono (Nat.log2_self_le hn))

theorem toBits_mono (hbits : 0 < bits) (h : n ≤ m) : toBits bits n ≤ toBits bits m := by
  rcases Nat.eq_zero_or_pos n with rfl | hn
  · rw [toBits_of_lt (Nat.two_pow_pos bits)]
    exact Nat.zero_le _
  · have hm : m ≠ 0 := by omega
    have hlog : n.log2 ≤ m.log2 := by
      rw [Nat.le_log2 hm]
      exact (Nat.log2_self_le hn.ne').trans h
    rcases Nat.eq_or_lt_of_le hlog with heq | hlt
    · rw [toBits, toBits, heq]
      exact Nat.mul_le_mul_right _ (divNearest_mono h)
    · calc toBits bits n ≤ 2 ^ (n.log2 + 1) := toBits_le hbits n
        _ ≤ 2 ^ m.log2 := Nat.pow_le_pow_right (by decide) hlt
        _ ≤ toBits bits m := le_toBits hbits hm

/-- A power of two bounds what is rounded as it bounds the number. -/
theorem pow_le_toBits (hbits : 0 < bits) (h : 2 ^ k ≤ n) : 2 ^ k ≤ toBits bits n := by
  have hn : n ≠ 0 := by
    have := Nat.two_pow_pos k
    omega
  calc 2 ^ k ≤ 2 ^ n.log2 := Nat.pow_le_pow_right (by decide) ((Nat.le_log2 hn).mpr h)
    _ ≤ toBits bits n := le_toBits hbits hn

end Rounding
