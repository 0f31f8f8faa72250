import ProviiAudit.Digest.Rows
import ProviiAudit.Lib.FixedWidth
import ProviiAudit.Timestamp

/-! The order of the texts of timestamps: that of the column `created_at`. -/
namespace ProviiAudit

open Calendar (Date)
open FixedWidth (digits append_lt_append_iff append_lt_append_left_iff)
open Utf8 (Text asBytes decimal)

variable {m n width : Nat} {s t : Text} {d d' : Date}

theorem padded_succ (hw : 0 < width) :
    padded (width + 1) n = padded width (n / 10) ++ [Nat.digitChar (n % 10)] := by
  by_cases hn : n < 10
  · have hdecimal : decimal n = [Nat.digitChar n] := Nat.toDigits_of_lt_base hn
    have hzero : decimal 0 = ['0'] := rfl
    obtain ⟨w, rfl⟩ := Nat.exists_eq_add_of_le' hw
    rw [padded, padded, hdecimal, Nat.div_eq_of_lt hn, hzero, Nat.mod_eq_of_lt hn]
    simp [List.replicate_succ']
  · have hdecimal : decimal n = decimal (n / 10) ++ [Nat.digitChar (n % 10)] :=
      Nat.toDigits_of_base_le (by decide) (Nat.le_of_not_lt hn)
    rw [padded, padded, hdecimal, List.length_append, List.length_singleton,
      Nat.add_sub_add_right, List.append_assoc]

/-- The code points of a padded number are its digits. -/
theorem padded_codes (hw : 0 < width) (hn : n < 10 ^ width) :
    (padded width n).map Char.toNat = (digits 10 width n).map (48 + ·) := by
  induction width generalizing n with
  | zero => exact absurd hw (Nat.lt_irrefl _)
  | succ width ih =>
    rcases Nat.eq_zero_or_pos width with rfl | hpos
    · have hn' : n < 10 := by simpa using hn
      have hdecimal : decimal n = [Nat.digitChar n] := Nat.toDigits_of_lt_base hn'
      simp [padded, hdecimal, digits, Nat.toNat_digitChar_of_lt_ten hn', Nat.mod_eq_of_lt hn', Nat.add_comm]
    · have hdiv : n / 10 < 10 ^ width := Nat.div_lt_of_lt_mul (by rwa [pow_succ'] at hn)
      rw [padded_succ hpos, List.map_append, ih hpos hdiv, digits, List.map_append]
      simp [Nat.toNat_digitChar_of_lt_ten (Nat.mod_lt n (by decide)), Nat.add_comm]

/-- The code points of a text, which its bytes are where it is ASCII. -/
def codePoints (s : Text) : List Nat := s.map Char.toNat

theorem codePoints_append : codePoints (s ++ t) = codePoints s ++ codePoints t := List.map_append

theorem padded_lt_iff (hw : 0 < width) (hm : m < 10 ^ width) (hn : n < 10 ^ width) :
    codePoints (padded width m) < codePoints (padded width n) ↔ m < n := by
  have hmono : StrictMono (48 + · : Nat → Nat) := fun _ _ h => Nat.add_lt_add_left h 48
  rw [codePoints, codePoints, padded_codes hw hm, padded_codes hw hn,
    FixedWidth.map_lt_map_iff hmono, FixedWidth.digits_lt_iff hm hn]

theorem padded_eq_iff (hw : 0 < width) (hm : m < 10 ^ width) (hn : n < 10 ^ width) :
    codePoints (padded width m) = codePoints (padded width n) ↔ m = n := by
  constructor
  · intro h
    have hmn := mt (padded_lt_iff hw hm hn).mpr (by rw [h]; exact lt_irrefl _)
    have hnm := mt (padded_lt_iff hw hn hm).mpr (by rw [h]; exact lt_irrefl _)
    omega
  · rintro rfl
    rfl

/-- A padded number decides before what stands behind it. -/
theorem padded_append_lt_iff (hw : 0 < width) (hm : m < 10 ^ width) (hn : n < 10 ^ width) :
    codePoints (padded width m ++ s) < codePoints (padded width n ++ t) ↔
      m < n ∨ (m = n ∧ codePoints s < codePoints t) := by
  have hlen : (codePoints (padded width m)).length = (codePoints (padded width n)).length := by
    rw [codePoints, codePoints, List.length_map, List.length_map, padded_length hw hm,
      padded_length hw hn]
  rw [codePoints_append, codePoints_append, append_lt_append_iff hlen, padded_lt_iff hw hm hn,
    padded_eq_iff hw hm hn]

theorem cons_lt_iff (c : Char) :
    codePoints (c :: s) < codePoints (c :: t) ↔ codePoints s < codePoints t :=
  append_lt_append_left_iff (a := [c.toNat])

/-- The parts of a text, one behind the other, decide in turn. -/
theorem isoText_lt_iff {h h' mi mi' s s' ms ms' : Nat} (hy : d.year < 10000)
    (hy' : d'.year < 10000) (hh : h < 24) (hh' : h' < 24) (hmi : mi < 60) (hmi' : mi' < 60)
    (hs : s < 60) (hs' : s' < 60) (hms : ms < 1000) (hms' : ms' < 1000) :
    codePoints (isoText d h mi s ms) < codePoints (isoText d' h' mi' s' ms') ↔
      d.dayNumber < d'.dayNumber ∨ (d.dayNumber = d'.dayNumber ∧
        (h < h' ∨ (h = h' ∧ (mi < mi' ∨ (mi = mi' ∧ (s < s' ∨ (s = s' ∧ ms < ms'))))))) := by
  have hmonth := d.month_le
  have hmonth' := d'.month_le
  have hday := d.day_lt
  have hday' := d'.day_lt
  have hsame : d.dayNumber = d'.dayNumber ↔
      d.year = d'.year ∧ d.month = d'.month ∧ d.day = d'.day := by
    constructor
    · exact Date.eq_of_dayNumber
    · rintro ⟨h₁, h₂, h₃⟩
      rw [Date.dayNumber, Date.dayNumber, h₁, h₂, h₃]
  have hnil : ¬ codePoints [] < codePoints [] := lt_irrefl _
  simp only [isoText, List.append_assoc, List.cons_append, List.nil_append]
  rw [padded_append_lt_iff (by decide) (by omega) (by omega), cons_lt_iff,
    padded_append_lt_iff (by decide) (by omega) (by omega), cons_lt_iff,
    padded_append_lt_iff (by decide) (by omega) (by omega), cons_lt_iff,
    padded_append_lt_iff (by decide) (by omega) (by omega), cons_lt_iff,
    padded_append_lt_iff (by decide) (by omega) (by omega), cons_lt_iff,
    padded_append_lt_iff (by decide) (by omega) (by omega), cons_lt_iff,
    padded_append_lt_iff (by decide) (by omega) (by omega), cons_lt_iff,
    Date.dayNumber_lt_iff, hsame]
  tauto

theorem isoText_ascii {h mi s ms : Nat} : ∀ c ∈ isoText d h mi s ms, c.toNat < 128 := by
  have hpad : ∀ w n, ∀ c ∈ padded w n, c.toNat < 128 :=
    fun w n c hc => isAscii_of_isDigit (padded_digits c hc)
  simp only [isoText, List.forall_mem_append, List.forall_mem_singleton]
  and_intros
  all_goals first | exact hpad _ _ | decide

theorem asBytes_codePoints (h : ∀ c ∈ s, c.toNat < 128) :
    (asBytes s).map UInt8.toNat = codePoints s := by
  rw [Utf8.asBytes_ascii h, List.map_map, codePoints]
  exact List.map_congr_left fun c hc => Utf8.byteOf_toNat (h c hc)

theorem isoTimestamp_le_iff (a b : UInt64) : byteLe (isoTimestamp a) (isoTimestamp b) ↔
    min a.toNat 253402300799999 ≤ min b.toNat 253402300799999 := by
  obtain ⟨e, he⟩ : ∃ e, e = min a.toNat 253402300799999 := ⟨_, rfl⟩
  obtain ⟨f, hf⟩ : ∃ f, f = min b.toNat 253402300799999 := ⟨_, rfl⟩
  obtain ⟨d, hd, -, hyear, hnumber⟩ := formatIso8601_eq he
  obtain ⟨d', hd', -, hyear', hnumber'⟩ := formatIso8601_eq hf
  rw [byteLe, isoTimestamp, Option.get_of_eq_some _ hd, isoTimestamp,
    Option.get_of_eq_some _ hd', asBytes_codePoints isoText_ascii,
    asBytes_codePoints isoText_ascii, ← not_lt, isoText_lt_iff (by omega) (by omega) (by omega)
      (by omega) (by omega) (by omega) (by omega) (by omega) (by omega) (by omega), hnumber,
    hnumber', ← he, ← hf]
  omega

/-- The texts of timestamps are in the order of the times they stand for, and two are equal only
where the times are; past the end of the year 9999 there is one text for all. -/
theorem created_at_order (a b : UInt64) :
    (byteLe (isoTimestamp a) (isoTimestamp b) ↔
      min a.toNat 253402300799999 ≤ min b.toNat 253402300799999) ∧
    (isoTimestamp a = isoTimestamp b ↔
      min a.toNat 253402300799999 = min b.toNat 253402300799999) := by
  refine ⟨isoTimestamp_le_iff a b, fun h => ?_, fun h => ?_⟩
  · have hab := (isoTimestamp_le_iff a b).mp (by rw [h]; exact le_refl _)
    have hba := (isoTimestamp_le_iff b a).mp (by rw [h]; exact le_refl _)
    omega
  · exact byteLe_antisymm ((isoTimestamp_le_iff a b).mpr h.le) ((isoTimestamp_le_iff b a).mpr h.ge)

end ProviiAudit
