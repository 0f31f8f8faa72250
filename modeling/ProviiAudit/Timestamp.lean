import ProviiAudit.Lib.Calendar
import ProviiAudit.Lib.Utf8

/-! Timestamps as ISO 8601 text.

A `u64` in the middle of the computation is a `Nat`, and `none` stands for an operation that leaves
its range. -/
namespace ProviiAudit

open Utf8 (Text asBytes decimal)
open Calendar (Date)

def checkedAdd (a b : Nat) : Option Nat := if a + b < 2 ^ 64 then some (a + b) else none

def checkedSub (a b : Nat) : Option Nat := if b ≤ a then some (a - b) else none

def checkedMul (a b : Nat) : Option Nat := if a * b < 2 ^ 64 then some (a * b) else none

def maxIso8601TimestampMs : Nat := 253402300799999

/-- Year, month and day of a day: `civil_from_days`. -/
def civilFromDays (daysSinceEpoch : Nat) : Option (Nat × Nat × Nat) := do
  let z ← checkedAdd daysSinceEpoch 719468
  let era ← some (z / 146097)
  let doe ← checkedSub z (← checkedMul era 146097)
  let yoe ← some ((← checkedSub (← checkedAdd (← checkedSub doe (doe / 1460)) (doe / 36524))
    (doe / 146096)) / 365)
  let y ← checkedAdd yoe (← checkedMul era 400)
  let doy ← checkedSub doe (← checkedSub (← checkedAdd (← checkedMul 365 yoe) (yoe / 4)) (yoe / 100))
  let mp ← some ((← checkedAdd (← checkedMul 5 doy) 2) / 153)
  let day ← checkedAdd (← checkedSub doy ((← checkedAdd (← checkedMul 153 mp) 2) / 5)) 1
  let month ← (if mp < 10 then checkedAdd mp 3 else checkedSub mp 9)
  let year ← (if month ≤ 2 then checkedAdd y 1 else some y)
  return (year, month, day)

/-- `{n:0width}`. -/
def padded (width n : Nat) : Text := List.replicate (width - (decimal n).length) '0' ++ decimal n

def formatIso8601 (timestampMs : UInt64) : Option Text := do
  let timestampMs :=
    if timestampMs.toNat > maxIso8601TimestampMs then maxIso8601TimestampMs else timestampMs.toNat
  let totalSecs := timestampMs / 1000
  let millis := timestampMs % 1000
  let daysSinceEpoch := totalSecs / 86400
  let daySecs := totalSecs % 86400
  let hours := daySecs / 3600
  let minutes := daySecs % 3600 / 60
  let seconds := daySecs % 60
  let (year, month, day) ← civilFromDays daysSinceEpoch
  return padded 4 year ++ ['-'] ++ padded 2 month ++ ['-'] ++ padded 2 day ++ ['T'] ++
    padded 2 hours ++ [':'] ++ padded 2 minutes ++ [':'] ++ padded 2 seconds ++ ['.'] ++
    padded 3 millis ++ ['Z']

variable {a b n width : Nat}

theorem some_then {α β : Type} (a : α) (f : α → Option β) : (some a >>= f) = f a := rfl

theorem checkedAdd_eq (h : a + b < 2 ^ 64) : checkedAdd a b = some (a + b) := if_pos h

theorem checkedSub_eq (h : b ≤ a) : checkedSub a b = some (a - b) := if_pos h

theorem checkedMul_eq (h : a * b < 2 ^ 64) : checkedMul a b = some (a * b) := if_pos h

/-- Days up to the end of the year 9999 never leave the range, and their date is the right one. -/
theorem civilFromDays_date {days : Nat} (h : days ≤ 2932896) :
    ∃ d : Date, civilFromDays days = some (d.year, d.month, d.day) ∧
      d.dayNumber = Date.epoch.dayNumber + days := by
  obtain ⟨era, hera⟩ : ∃ era, era = (days + 719468) / 146097 := ⟨_, rfl⟩
  obtain ⟨doe, hdoe⟩ : ∃ doe, doe = days + 719468 - era * 146097 := ⟨_, rfl⟩
  obtain ⟨yoe, hyoe⟩ : ∃ yoe, yoe = (doe - doe / 1460 + doe / 36524 - doe / 146096) / 365 := ⟨_, rfl⟩
  obtain ⟨doy, hdoy⟩ : ∃ doy, doy = doe - (365 * yoe + yoe / 4 - yoe / 100) := ⟨_, rfl⟩
  obtain ⟨mp, hmp⟩ : ∃ mp, mp = (5 * doy + 2) / 153 := ⟨_, rfl⟩
  obtain ⟨hstart, hyear, hday, d, hy, hm, hd, hnumber⟩ :=
    Calendar.civil_from_days hera hdoe hyoe hdoy hmp
  obtain ⟨hmonth, hmonthStart, -⟩ := Calendar.month_of_day hday hmp
  refine ⟨d, ?_, by rw [hnumber, Calendar.epoch_dayNumber]; omega⟩
  have hera' : era ≤ 24 := by omega
  have hdoe' : doe < 146097 := by omega
  have hmonth' : (if mp < 10 then checkedAdd mp 3 else checkedSub mp 9) = some d.month := by
    rw [hm, Calendar.civilMonth]
    split
    · exact checkedAdd_eq (by omega)
    · exact checkedSub_eq (by omega)
  have hyear' : (if d.month ≤ 2 then checkedAdd (yoe + era * 400) 1 else some (yoe + era * 400)) =
      some d.year := by
    rw [hy, hm, Calendar.civilYear]
    split
    · exact checkedAdd_eq (by omega)
    · rfl
  rw [Calendar.monthStart] at hmonthStart hd
  rw [civilFromDays, checkedAdd_eq (by omega), some_then, some_then, ← hera,
    checkedMul_eq (by omega), some_then, checkedSub_eq (by omega), some_then, ← hdoe,
    checkedSub_eq (by omega), some_then, checkedAdd_eq (by omega), some_then,
    checkedSub_eq (by omega), some_then, some_then, ← hyoe,
    checkedMul_eq (by omega), some_then, checkedAdd_eq (by omega), some_then,
    checkedMul_eq (by omega), some_then, checkedAdd_eq (by omega), some_then,
    checkedSub_eq (by omega), some_then, checkedSub_eq (by omega), some_then, ← hdoy,
    checkedMul_eq (by omega), some_then, checkedAdd_eq (by omega), some_then, some_then, ← hmp,
    checkedMul_eq (by omega), some_then, checkedAdd_eq (by omega), some_then,
    checkedSub_eq (by omega), some_then, checkedAdd_eq (by omega), some_then, hmonth', some_then,
    hyear', some_then, hd]
  rfl

theorem padded_length (hw : 0 < width) (h : n < 10 ^ width) : (padded width n).length = width := by
  have hle : (decimal n).length ≤ width := (Nat.length_toDigits_le_iff (by decide) hw).mpr h
  rw [padded, List.length_append, List.length_replicate]
  omega

theorem padded_digits : ∀ c ∈ padded width n, c.isDigit = true := by
  intro c hc
  rcases List.mem_append.mp hc with hc | hc
  · rw [List.eq_of_mem_replicate hc]
    decide
  · exact Nat.isDigit_of_mem_toDigits (by decide) (by decide) hc

theorem isAscii_of_isDigit {c : Char} (h : c.isDigit = true) : c.toNat < 128 := by
  simp only [Char.isDigit, Bool.and_eq_true, decide_eq_true_eq] at h
  exact Nat.lt_of_le_of_lt (UInt32.le_iff_toNat_le.mp h.2) (by decide)

/-- The written form of a date and a time. -/
def isoText (d : Date) (hours minutes seconds millis : Nat) : Text :=
  padded 4 d.year ++ ['-'] ++ padded 2 d.month ++ ['-'] ++ padded 2 d.day ++ ['T'] ++
    padded 2 hours ++ [':'] ++ padded 2 minutes ++ [':'] ++ padded 2 seconds ++ ['.'] ++
    padded 3 millis ++ ['Z']

theorem isoText_length {d : Date} {hours minutes seconds millis : Nat} (hy : d.year < 10000)
    (hh : hours < 24) (hm : minutes < 60) (hs : seconds < 60) (hms : millis < 1000) :
    (asBytes (isoText d hours minutes seconds millis)).length = 24 := by
  have hmonth := d.month_le
  have hday := d.day_lt
  have hpad : ∀ w n, ∀ c ∈ padded w n, c.toNat < 128 :=
    fun w n c hc => isAscii_of_isDigit (padded_digits c hc)
  have hascii : ∀ c ∈ isoText d hours minutes seconds millis, c.toNat < 128 := by
    simp only [isoText, List.forall_mem_append, List.forall_mem_singleton]
    and_intros
    all_goals first | exact hpad _ _ | decide
  rw [Utf8.asBytes_ascii hascii, List.length_map]
  simp only [isoText, List.length_append, List.length_singleton]
  rw [padded_length (by decide) (by omega), padded_length (by decide) (by omega),
    padded_length (by decide) (by omega), padded_length (by decide) (by omega),
    padded_length (by decide) (by omega), padded_length (by decide) (by omega),
    padded_length (by decide) (by omega)]

theorem formatIso8601_eq {t : UInt64} {e : Nat} (he : e = min t.toNat 253402300799999) :
    ∃ d : Date, formatIso8601 t = some (isoText d (e / 1000 % 86400 / 3600)
        (e / 1000 % 86400 % 3600 / 60) (e / 1000 % 86400 % 60) (e % 1000)) ∧
      1970 ≤ d.year ∧ d.year ≤ 9999 ∧ d.dayNumber = Date.epoch.dayNumber + e / 1000 / 86400 := by
  have hclamp :
      (if t.toNat > maxIso8601TimestampMs then maxIso8601TimestampMs else t.toNat) = e := by
    rw [maxIso8601TimestampMs]
    split <;> omega
  have hfirst : Calendar.daysBeforeYear 1970 = 719528 := by
    rw [Calendar.daysBeforeYear_eq]
  have hlast : Calendar.daysBeforeYear 10000 = 3652425 := by
    rw [Calendar.daysBeforeYear_eq]
  obtain ⟨d, hd, hnumber⟩ := civilFromDays_date (show e / 1000 / 86400 ≤ 2932896 by omega)
  refine ⟨d, ?_, ?_, ?_, hnumber⟩
  · simp only [formatIso8601]
    rw [hclamp, hd]
    rfl
  · rw [Calendar.epoch_dayNumber] at hnumber
    by_contra hlt
    have hmono := Calendar.daysBeforeYear_mono (show d.year + 1 ≤ 1970 by omega)
    have hin := d.dayNumber_lt
    omega
  · rw [Calendar.epoch_dayNumber, Date.dayNumber] at hnumber
    by_contra hlt
    have hmono := Calendar.daysBeforeYear_mono (show 10000 ≤ d.year by omega)
    omega

theorem formatIso8601_length (t : UInt64) :
    ∃ text, formatIso8601 t = some text ∧ (asBytes text).length = 24 := by
  obtain ⟨d, htext, -, hyear, -⟩ := formatIso8601_eq (t := t) rfl
  exact ⟨_, htext, isoText_length (by omega) (by omega) (by omega) (by omega) (by omega)⟩

/-- The text of a timestamp; there is always one. -/
def isoTimestamp (t : UInt64) : Text :=
  (formatIso8601 t).get <| by
    obtain ⟨_, h, -⟩ := formatIso8601_length t
    exact Option.isSome_of_eq_some h

theorem isoTimestamp_length (t : UInt64) : (asBytes (isoTimestamp t)).length = 24 := by
  obtain ⟨text, htext, hlen⟩ := formatIso8601_length t
  rwa [isoTimestamp, Option.get_of_eq_some _ htext]

/-- The text of a timestamp is that of its date and its time of day; no operation on the way leaves
the range of `u64`. -/
theorem formatIso8601_calendar (t : UInt64) :
    ∃ (d : Date) (days hours minutes seconds millis : Nat),
      formatIso8601 t = some (isoText d hours minutes seconds millis) ∧
      (asBytes (isoText d hours minutes seconds millis)).length = 24 ∧
      1970 ≤ d.year ∧ d.year ≤ 9999 ∧ hours < 24 ∧ minutes < 60 ∧ seconds < 60 ∧ millis < 1000 ∧
      d.dayNumber = Date.epoch.dayNumber + days ∧
      days * 86400000 + (((hours * 60 + minutes) * 60 + seconds) * 1000 + millis) =
        min t.toNat 253402300799999 := by
  obtain ⟨e, he⟩ : ∃ e, e = min t.toNat 253402300799999 := ⟨_, rfl⟩
  obtain ⟨d, htext, hlow, hhigh, hnumber⟩ := formatIso8601_eq he
  refine ⟨d, _, _, _, _, _, htext, isoText_length ?_ ?_ ?_ ?_ ?_, hlow, hhigh, ?_, ?_, ?_, ?_,
    hnumber, ?_⟩
  all_goals omega

end ProviiAudit
