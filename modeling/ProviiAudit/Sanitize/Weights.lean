import ProviiAudit.Growth
import ProviiAudit.Sanitize.Idempotent

/-! How many times longer sanitising can make a text.

The bytes are weighed: what placeholders consist of is light, so that a placeholder weighs no more
than anything it replaces, also where that holds placeholders of earlier passes. -/
namespace ProviiAudit

open Utf8 (Text asBytes byteOf)

variable {s t x y w out : Text} {c : Char} {p : Option Char} {n : Nat}

/-- The characters of placeholders. -/
def isLight (c : Char) : Bool := c.isUpper || c == '[' || c == ']' || c == '_'

def charWeight (c : Char) : Nat := if isLight c then 2 else 13 * c.utf8Size

def weight (s : Text) : Nat := (s.map charWeight).sum

@[simp] theorem weight_nil : weight [] = 0 := rfl

@[simp] theorem weight_cons : weight (c :: s) = charWeight c + weight s := by simp [weight]

@[simp] theorem weight_append (x y : Text) : weight (x ++ y) = weight x + weight y := by
  simp [weight]

theorem val_of_isUpper (h : c.isUpper = true) : 65 ≤ c.val ∧ c.val ≤ 90 := of_decide_eq_true h

theorem utf8Size_of_light (h : isLight c = true) : c.utf8Size = 1 := by
  rw [Char.utf8Size_eq_one_iff]
  simp only [isLight, Bool.or_eq_true, beq_iff_eq] at h
  rcases h with ((h | rfl) | rfl) | rfl
  · exact UInt32.le_trans (val_of_isUpper h).2 (by decide)
  all_goals decide

theorem charWeight_bounds (c : Char) :
    2 * c.utf8Size ≤ charWeight c ∧ charWeight c ≤ 13 * c.utf8Size := by
  rw [charWeight]
  split_ifs with h
  · rw [utf8Size_of_light h]
    decide
  · omega

theorem weight_bounds (s : Text) : 2 * byteLen s ≤ weight s ∧ weight s ≤ 13 * byteLen s := by
  induction s with
  | nil => decide
  | cons c s ih =>
    have hc := charWeight_bounds c
    have hlen : byteLen (c :: s) = c.utf8Size + byteLen s := by
      simp [byteLen]
    rw [weight_cons, hlen]
    omega

/-- Every character weighs two, and one that is not light eleven more. -/
theorem count_le_weight (s : Text) :
    11 * s.countP (fun c => !isLight c) + 2 * s.length ≤ weight s := by
  induction s with
  | nil => decide
  | cons c s ih =>
    have hsize := Char.utf8Size_pos c
    rw [weight_cons, List.countP_cons, List.length_cons, charWeight]
    cases isLight c with
    | true => simpa using by omega
    | false => simpa using by omega

theorem count_le_weight_of (hc : isLight c = false) (s : Text) :
    11 * s.count c + 2 * s.length ≤ weight s := by
  have hle : s.count c ≤ s.countP fun d => !isLight d := by
    apply List.countP_mono_left
    intro d _ hd
    simp [eq_of_beq hd, hc]
  have hweight := count_le_weight s
  omega

theorem weight_stripIpv6 (s : Text) : weight (stripIpv6 s) ≤ weight s := by
  rw [stripIpv6_eq_scan]
  refine Scan.measure_scan_le weight_append fun p w y hm => ?_
  have hcolons := ipv6_colons hm
  have hlen := List.count_le_length (a := ':') (l := w)
  have hweight := count_le_weight_of (c := ':') (by decide) w
  have hR : weight redactedIp = 26 := by decide
  omega

theorem weight_stripIpv4 (s : Text) : weight (stripIpv4 s) ≤ weight s := by
  rw [stripIpv4_eq_scan]
  refine Scan.measure_scan_le weight_append fun p w y hm => ?_
  have hdots := ipv4_dots hm
  have hweight := count_le_weight_of (c := '.') (by decide) w
  have hR : weight redactedIp = 26 := by decide
  omega

theorem not_light_of_digit (h : isDigitChar c = true) : isLight c = false := by
  by_contra hlight
  rw [isDigitChar, isAsciiDigit_byteOf] at h
  simp only [isLight, Bool.not_eq_false, Bool.or_eq_true, beq_iff_eq] at hlight
  rcases hlight with ((hupper | rfl) | rfl) | rfl
  · simp only [Char.isDigit, Bool.and_eq_true, decide_eq_true_eq] at h
    have hle := UInt32.le_trans (val_of_isUpper hupper).1 h.2
    exact absurd hle (by decide)
  all_goals exact absurd h (by decide)

theorem weight_stripDobPatterns (s : Text) : weight (stripDobPatterns s) ≤ weight s := by
  rw [stripDobPatterns_eq_scan]
  refine Scan.measure_scan_le weight_append fun p w y hm => ?_
  have hten : w.length = 10 := (dateHeadLen_some (Recogniser.matcher_len_iff.mp hm).2.1).1
  have hfirst : 0 < w.countP fun c => !isLight c := by
    obtain ⟨c, w, rfl⟩ := List.exists_cons_of_ne_nil (Scan.ne_nil_of_len hm)
    have hdigit : isDigitChar c = true := (dob_ends hm).1
    simp [not_light_of_digit hdigit]
  have hweight := count_le_weight w
  have hR : weight redactedDob = 28 := by decide
  omega

/-- A domain and the `@` in front of it. -/
theorem weight_domain (h : addressLen x (w ++ y) = some w.length) : 30 ≤ weight ('@' :: w) := by
  obtain ⟨d, t, rest, hsplit, hlen⟩ := domainLen_some_iff.mp (addressLen_some_iff.mp h).2
  have htwo := hsplit.two_le
  have hdot : '.' ∈ w := by
    have htext : codes w ++ codes y = (d ++ byteOf '.' :: t) ++ rest := by
      rw [← List.map_append]
      exact hsplit.split.trans (by simp)
    have hdomain : codes w = d ++ byteOf '.' :: t := by
      refine (List.append_inj htext ?_).1
      simp only [List.length_map, List.length_append, List.length_cons]
      omega
    have hmem : byteOf '.' ∈ codes w := by simp [hdomain]
    obtain ⟨c, hc, hbyte⟩ := List.mem_map.mp hmem
    rwa [← Utf8.eq_of_byteOf (by decide) hbyte]
  have hcount := List.count_pos_iff.mpr hdot
  have hweight := count_le_weight_of (c := '.') (by decide) w
  have hat : charWeight '@' = 13 := by decide
  rw [weight_cons]
  omega

theorem weight_popChars (hn : n ≠ 0) (hout : out ≠ []) :
    weight (popChars n out) + 2 ≤ weight out := by
  obtain ⟨out, c, rfl⟩ := (List.eq_nil_or_concat out).resolve_left hout
  have hlast : popChars n [c] = [] := popChars_of_length_le (Nat.one_le_iff_ne_zero.mpr hn)
  have hrest : weight (popChars (n - 1) out) ≤ weight out := by
    obtain ⟨v, hv⟩ := List.take_prefix (out.length - (n - 1)) out
    have hsum := weight_append (popChars (n - 1) out) v
    rw [popChars_eq, List.rdrop, hv] at hsum
    rw [popChars_eq, List.rdrop]
    omega
  have hc := (charWeight_bounds c).1
  have hsize := Char.utf8Size_pos c
  rw [List.concat_eq_append, popChars_append, hlast, List.append_nil, weight_append, weight_cons]
  simp only [List.length_singleton, weight_nil]
  omega

/-- What the email pass takes back and adds weighs no more than what it reads. -/
theorem weight_finish (hx : x ≠ [] → out ≠ []) :
    weight ((emailRest x 0 y).finish out) ≤ weight out + weight y := by
  induction x, y using email_induction generalizing out with
  | nil x => simp [emailRest, Remainder.finish]
  | keep x c y h ih =>
    have hkeep : weight ((emailRest (x ++ [c]) 0 y).finish (out ++ [c])) ≤
        weight (out ++ [c]) + weight y := ih (by simp)
    rw [emailRest_keep h, Remainder.finish_keep]
    simp only [weight_append, weight_cons, weight_nil] at hkeep ⊢
    omega
  | redact x w y h ih =>
    have hrun := (addressLen_some_iff.mp h).1
    have hne : x ≠ [] := by
      rintro rfl
      exact hrun localRun_nil
    have hpop := weight_popChars hrun (hx hne)
    have hdomain := weight_domain h
    have hR : weight redactedEmail = 32 := by decide
    rw [emailRest_redact h, Remainder.finish_redact]
    refine (ih fun _ => List.append_ne_nil_of_right_ne_nil _ (by decide)).trans ?_
    simp only [weight_append, weight_cons] at hdomain ⊢
    omega

theorem weight_stripEmails (s : Text) : weight (stripEmails s) ≤ weight s := by
  have hfinish : weight ((emailRest [] 0 s).finish []) ≤ weight [] + weight s :=
    weight_finish fun h => h
  simpa [stripEmails_eq, Remainder.finish] using hfinish

/-- No text grows by more than `::` does, from two bytes to thirteen; the bound that the source
tests by samples follows. -/
theorem stripPii_growth (s : Text) : 2 * byteLen (stripPii s) ≤ 13 * byteLen s ∧
    byteLen (stripPii s) ≤ 7 * byteLen s + 100 := by
  have hbefore := (weight_bounds s).2
  have hafter := (weight_bounds (stripPii s)).1
  have h6 := weight_stripIpv6 s
  have h4 := weight_stripIpv4 (stripIpv6 s)
  have hemails := weight_stripEmails (stripIpv4 (stripIpv6 s))
  have hdates := weight_stripDobPatterns (stripEmails (stripIpv4 (stripIpv6 s)))
  rw [stripPii] at hafter ⊢
  omega

/-- The bound is reached. -/
example : 2 * byteLen (stripPii "::".toList) = 13 * byteLen "::".toList := by decide

end ProviiAudit
