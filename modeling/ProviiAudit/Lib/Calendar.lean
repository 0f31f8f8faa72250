import Mathlib.Data.Nat.Basic
import Mathlib.Tactic.IntervalCases

/-! The proleptic Gregorian calendar, and the arithmetic that finds a date from a number of days.

The arithmetic counts years from March on, so that a leap day is the last of its year, and goes
round a cycle of 400 years. -/
namespace Calendar

def isLeap (y : Nat) : Bool := y % 4 == 0 && (y % 100 != 0 || y % 400 == 0)

def yearLength (y : Nat) : Nat := if isLeap y then 366 else 365

def monthLength (y : Nat) : Nat → Nat
  | 2 => if isLeap y then 29 else 28
  | 4 | 6 | 9 | 11 => 30
  | _ => 31

structure Date where
  year : Nat
  month : Nat
  day : Nat
  month_pos : 1 ≤ month
  month_le : month ≤ 12
  day_pos : 1 ≤ day
  day_le : day ≤ monthLength year month

/-- The days of all years before `y`. -/
def daysBeforeYear : Nat → Nat
  | 0 => 0
  | y + 1 => daysBeforeYear y + yearLength y

/-- The days of the months before `m` in the year `y`. -/
def daysBeforeMonth (y : Nat) : Nat → Nat
  | 0 | 1 => 0
  | m + 2 => daysBeforeMonth y (m + 1) + monthLength y (m + 1)

/-- The days before the date, from the first day of the year 0 on. -/
def Date.dayNumber (d : Date) : Nat :=
  daysBeforeYear d.year + daysBeforeMonth d.year d.month + (d.day - 1)

/-- 1 January 1970. -/
def Date.epoch : Date := ⟨1970, 1, 1, by decide, by decide, by decide, by decide⟩

variable {c k r y m doe doy mp : Nat}

theorem yearLength_eq (y : Nat) :
    yearLength y = 365 + (if isLeap y then 1 else 0) := by
  rw [yearLength]
  split <;> rfl

theorem isLeap_iff : isLeap y = true ↔ y % 4 = 0 ∧ (y % 100 ≠ 0 ∨ y % 400 = 0) := by
  simp [isLeap]

theorem daysBeforeYear_eq (y : Nat) :
    daysBeforeYear y = 365 * y + (y + 3) / 4 - (y + 99) / 100 + (y + 399) / 400 := by
  induction y with
  | zero => rfl
  | succ y ih =>
    rw [daysBeforeYear, yearLength_eq, ih]
    split
    · have hleap := isLeap_iff.mp ‹_›
      omega
    · have hleap := mt isLeap_iff.mpr ‹_›
      omega

theorem epoch_dayNumber : Date.epoch.dayNumber = 719528 := by
  rw [Date.dayNumber, daysBeforeYear_eq]
  rfl

theorem daysBeforeYear_mono : Monotone daysBeforeYear :=
  monotone_nat_of_le_succ fun _ => Nat.le_add_right _ _

/-- A date lies within its year. -/
theorem Date.dayNumber_lt (d : Date) : d.dayNumber < daysBeforeYear (d.year + 1) := by
  obtain ⟨y, m, day, hm, hm', hday, hday'⟩ := d
  have hlt : daysBeforeMonth y m + (day - 1) < yearLength y := by
    cases hleap : isLeap y <;>
      interval_cases m <;> simp [daysBeforeMonth, monthLength, yearLength, hleap] at hday' ⊢ <;> omega
  simp only [Date.dayNumber, daysBeforeYear]
  omega

theorem Date.day_lt (d : Date) : d.day < 32 := by
  obtain ⟨y, m, day, hm, hm', hday, hday'⟩ := d
  have hmonth : monthLength y m ≤ 31 := by
    cases hleap : isLeap y <;> interval_cases m <;> simp [monthLength, hleap]
  exact Nat.lt_succ_of_le (hday'.trans hmonth)

theorem daysBeforeMonth_mono (y : Nat) : Monotone (daysBeforeMonth y) := by
  refine monotone_nat_of_le_succ fun m => ?_
  cases m with
  | zero => exact Nat.le_refl _
  | succ m => exact Nat.le_add_right _ _

theorem Date.lt_of_year {d d' : Date} (h : d.year < d'.year) : d.dayNumber < d'.dayNumber := by
  have hlt := d.dayNumber_lt
  have hle := daysBeforeYear_mono (Nat.succ_le_of_lt h)
  rw [Nat.succ_eq_add_one] at hle
  rw [Date.dayNumber] at hlt ⊢
  rw [Date.dayNumber]
  omega

theorem Date.lt_of_month {d d' : Date} (hyear : d.year = d'.year) (h : d.month < d'.month) :
    d.dayNumber < d'.dayNumber := by
  have hnext : daysBeforeMonth d.year (d.month + 1) =
      daysBeforeMonth d.year d.month + monthLength d.year d.month := by
    obtain ⟨m, hm⟩ := Nat.exists_eq_add_of_le' d.month_pos
    rw [hm, daysBeforeMonth]
  have hle := daysBeforeMonth_mono d.year (Nat.succ_le_of_lt h)
  have hpos := d.day_pos
  have hday := d.day_le
  rw [Nat.succ_eq_add_one, hnext] at hle
  rw [Date.dayNumber, Date.dayNumber, ← hyear]
  omega

theorem Date.lt_of_day {d d' : Date} (hyear : d.year = d'.year) (hmonth : d.month = d'.month)
    (h : d.day < d'.day) : d.dayNumber < d'.dayNumber := by
  have hpos := d.day_pos
  rw [Date.dayNumber, Date.dayNumber, ← hyear, ← hmonth]
  omega

/-- Year, month and day decide in turn. -/
theorem Date.dayNumber_lt_iff {d d' : Date} : d.dayNumber < d'.dayNumber ↔ d.year < d'.year ∨
    (d.year = d'.year ∧ (d.month < d'.month ∨ (d.month = d'.month ∧ d.day < d'.day))) := by
  constructor
  · intro h
    rcases Nat.lt_trichotomy d.year d'.year with hyear | hyear | hyear
    · exact .inl hyear
    · refine .inr ⟨hyear, ?_⟩
      rcases Nat.lt_trichotomy d.month d'.month with hmonth | hmonth | hmonth
      · exact .inl hmonth
      · refine .inr ⟨hmonth, ?_⟩
        by_contra hday
        rcases Nat.lt_or_eq_of_le (Nat.le_of_not_lt hday) with hlt | heq
        · exact absurd (Date.lt_of_day hyear.symm hmonth.symm hlt) (Nat.lt_asymm h)
        · rw [Date.dayNumber, Date.dayNumber, hyear, hmonth, heq] at h
          exact absurd h (Nat.lt_irrefl _)
      · exact absurd (Date.lt_of_month hyear.symm hmonth) (Nat.lt_asymm h)
    · exact absurd (Date.lt_of_year hyear) (Nat.lt_asymm h)
  · rintro (hyear | ⟨hyear, hmonth | ⟨hmonth, hday⟩⟩)
    · exact Date.lt_of_year hyear
    · exact Date.lt_of_month hyear hmonth
    · exact Date.lt_of_day hyear hmonth hday

theorem Date.eq_of_dayNumber {d d' : Date} (h : d.dayNumber = d'.dayNumber) :
    d.year = d'.year ∧ d.month = d'.month ∧ d.day = d'.day := by
  have hlt := mt Date.dayNumber_lt_iff.mpr (Nat.not_lt_of_le h.ge)
  have hgt := mt Date.dayNumber_lt_iff.mpr (Nat.not_lt_of_le h.le)
  omega

/-- The days from 1 March of the year 0 to 1 March of the year `y`. -/
def marchStart (y : Nat) : Nat := 365 * y + y / 4 - y / 100 + y / 400

/-- The first two months. -/
theorem daysBeforeMonth_march (y : Nat) :
    daysBeforeMonth y 3 = 59 + (if isLeap y then 1 else 0) := by
  simp only [daysBeforeMonth, monthLength]
  split <;> rfl

theorem marchStart_eq (y : Nat) : daysBeforeYear y + daysBeforeMonth y 3 = 60 + marchStart y := by
  have h4 : (y + 3) / 4 = y / 4 + if y % 4 = 0 then 0 else 1 := by split <;> omega
  have h100 : (y + 99) / 100 = y / 100 + if y % 100 = 0 then 0 else 1 := by split <;> omega
  have h400 : (y + 399) / 400 = y / 400 + if y % 400 = 0 then 0 else 1 := by split <;> omega
  have hle : y / 100 ≤ 365 * y + y / 4 := by omega
  rw [daysBeforeYear_eq, daysBeforeMonth_march, marchStart, h4, h100, h400]
  clear h4 h100 h400
  by_cases hleap : isLeap y = true
  · obtain ⟨hfour, hcentury⟩ := isLeap_iff.mp hleap
    rw [if_pos hleap, if_pos hfour]
    rcases hcentury with h | h
    · rw [if_neg h, if_neg (by omega)]
      omega
    · rw [if_pos (by omega), if_pos h]
      omega
  · rw [if_neg hleap]
    rw [isLeap_iff] at hleap
    by_cases hcentury : y % 100 = 0
    · rw [if_pos hcentury, if_pos (by omega), if_neg (by omega)]
      omega
    · rw [if_neg hcentury, if_neg (by omega), if_neg (by omega)]
      omega

/-- The first day of the month `mp` months behind March, in days behind 1 March. -/
def monthStart (mp : Nat) : Nat := (153 * mp + 2) / 5

theorem daysBeforeMonth_eq (h : mp < 10) :
    daysBeforeMonth y (mp + 3) = daysBeforeMonth y 3 + monthStart mp := by
  interval_cases mp <;> simp [daysBeforeMonth, monthLength, monthStart]

theorem daysBefore_next_year (hlow : 10 ≤ mp) (hhigh : mp < 12) :
    daysBeforeYear (y + 1) + daysBeforeMonth (y + 1) (mp - 9) =
      daysBeforeYear y + daysBeforeMonth y 3 + monthStart mp := by
  have hyear : yearLength y + 31 * (mp - 10) = daysBeforeMonth y 3 + monthStart mp := by
    rw [daysBeforeMonth_march, yearLength_eq]
    interval_cases mp <;> simp only [monthStart] <;> omega
  have hmonth : daysBeforeMonth (y + 1) (mp - 9) = 31 * (mp - 10) := by
    interval_cases mp <;> rfl
  rw [daysBeforeYear, hmonth, Nat.add_assoc, hyear, Nat.add_assoc]

/-- How the year and the month are counted again from January on. -/
def civilMonth (mp : Nat) : Nat := if mp < 10 then mp + 3 else mp - 9

def civilYear (y mp : Nat) : Nat := if civilMonth mp ≤ 2 then y + 1 else y

theorem daysBefore_civil (h : mp < 12) :
    daysBeforeYear (civilYear y mp) + daysBeforeMonth (civilYear y mp) (civilMonth mp) =
      60 + marchStart y + monthStart mp := by
  rw [← marchStart_eq, civilYear, civilMonth]
  by_cases hlow : mp < 10
  · rw [if_pos hlow, if_neg (by omega), daysBeforeMonth_eq hlow, Nat.add_assoc]
  · rw [if_neg hlow, if_pos (by omega), daysBefore_next_year (by omega) h]

/-- The month of a day, counted from March on. -/
theorem month_of_day (h : doy < 366) (hmp : mp = (5 * doy + 2) / 153) :
    mp < 12 ∧ monthStart mp ≤ doy ∧ (mp < 11 → doy < monthStart (mp + 1)) := by
  subst hmp
  simp only [monthStart]
  omega

/-- A leap year has one more February day. -/
theorem day_le_monthLength (h : doy < 366) (hleap : doy = 365 → isLeap (y + 1) = true)
    (hmp : mp = (5 * doy + 2) / 153) :
    doy - monthStart mp + 1 ≤ monthLength (civilYear y mp) (civilMonth mp) := by
  obtain ⟨hlt, hle, hnext⟩ := month_of_day h hmp
  clear hmp
  by_cases hmp : mp = 11
  · subst hmp
    simp only [monthStart] at hle ⊢
    simp only [civilYear, civilMonth, monthLength]
    by_cases hd : doy = 365
    · simp [hd, hleap hd]
    · have hmonth : 28 ≤ if isLeap (y + 1) then 29 else 28 := by split <;> decide
      simp only [show ¬ 11 < 10 by decide, if_false]
      exact le_trans (by omega) hmonth
  · have hnext := hnext (by omega)
    interval_cases mp <;> simp [civilMonth, monthLength, monthStart] at hle hnext hmp ⊢ <;> omega

/-- The date of a day of a year that starts in March. -/
theorem exists_date (h : doy < 366) (hleap : doy = 365 → isLeap (y + 1) = true)
    (hmp : mp = (5 * doy + 2) / 153) :
    ∃ d : Date, d.year = civilYear y mp ∧ d.month = civilMonth mp ∧
      d.day = doy - monthStart mp + 1 ∧ d.dayNumber = 60 + marchStart y + doy := by
  obtain ⟨hlt, hle, -⟩ := month_of_day h hmp
  refine ⟨⟨civilYear y mp, civilMonth mp, doy - monthStart mp + 1, ?_, ?_, by omega,
    day_le_monthLength h hleap hmp⟩, rfl, rfl, rfl, ?_⟩
  · rw [civilMonth]
    split <;> omega
  · rw [civilMonth]
    split <;> omega
  · rw [Date.dayNumber, daysBefore_civil hlt]
    dsimp only
    omega

/-- A day of the cycle: century, four years, year and day. Only the last year of a century of the
cycle has a leap day if it is the last century. -/
theorem exists_cycle (h : doe < 146097) : ∃ c k r doy, c < 4 ∧ k < 25 ∧ r < 4 ∧ doy < 366 ∧
    doe = 36524 * c + 1461 * k + 365 * r + doy ∧ (doy = 365 → r = 3 ∧ (k = 24 → c = 3)) := by
  obtain ⟨c, x, hc, hx, rfl, hlast⟩ : ∃ c x, c < 4 ∧ x < 36525 ∧ doe = 36524 * c + x ∧
      (x = 36524 → c = 3) := by
    by_cases hlast : doe = 146096
    · exact ⟨3, 36524, by omega⟩
    · exact ⟨doe / 36524, doe % 36524, by omega⟩
  obtain ⟨k, z, hk, hz, rfl⟩ : ∃ k z, k < 25 ∧ z < 1461 ∧ x = 1461 * k + z :=
    ⟨x / 1461, x % 1461, by omega⟩
  by_cases hleap : z = 1460
  · exact ⟨c, k, 3, 365, by omega⟩
  · exact ⟨c, k, z / 365, z % 365, by omega⟩

theorem year_of_cycle (hc : c < 4) (hk : k < 25) (hr : r < 4) (hd : doy < 366)
    (hl : doy = 365 → r = 3 ∧ (k = 24 → c = 3))
    (hdoe : doe = 36524 * c + 1461 * k + 365 * r + doy) :
    (doe - doe / 1460 + doe / 36524 - doe / 146096) / 365 = 100 * c + 4 * k + r := by
  by_cases hleap : doy = 365
  · obtain ⟨rfl, hlast⟩ := hl hleap
    by_cases hk' : k = 24
    · obtain rfl := hlast hk'
      subst hdoe hleap hk'
      rfl
    · have h1 : doe / 1460 = 25 * c + k + 1 := by omega
      have h2 : doe / 36524 = c := by omega
      have h3 : doe / 146096 = 0 := by omega
      omega
  · have h1 : doe / 1460 = 25 * c + k ∨ doe / 1460 = 25 * c + k + 1 ∧ r = 3 ∧ 1 ≤ doy := by omega
    have h2 : doe / 36524 = c := by omega
    have h3 : doe / 146096 = 0 := by omega
    omega

/-- The date of the day `z`, counted from 1 March of the year 0. -/
theorem civil_from_days {z era doe yoe doy mp : Nat} (hera : era = z / 146097)
    (hdoe : doe = z - era * 146097)
    (hyoe : yoe = (doe - doe / 1460 + doe / 36524 - doe / 146096) / 365)
    (hdoy : doy = doe - (365 * yoe + yoe / 4 - yoe / 100)) (hmp : mp = (5 * doy + 2) / 153) :
    365 * yoe + yoe / 4 - yoe / 100 ≤ doe ∧ yoe < 400 ∧ doy < 366 ∧
      ∃ d : Date, d.year = civilYear (yoe + era * 400) mp ∧ d.month = civilMonth mp ∧
        d.day = doy - monthStart mp + 1 ∧ d.dayNumber = 60 + z := by
  obtain ⟨c, k, r, rest, hc, hk, hr, hrest, hcycle, hlast⟩ :=
    exists_cycle (show doe < 146097 by omega)
  rw [year_of_cycle hc hk hr hrest hlast hcycle] at hyoe
  have hfour : yoe / 4 = 25 * c + k := by omega
  have hcentury : yoe / 100 = c := by omega
  obtain rfl : rest = doy := by omega
  have hleap : rest = 365 → isLeap (yoe + era * 400 + 1) = true := by
    intro h
    obtain ⟨rfl, hfull⟩ := hlast h
    rw [isLeap_iff]
    by_cases hk' : k = 24
    · obtain rfl := hfull hk'
      omega
    · omega
  have hstart : marchStart (yoe + era * 400) + rest = z := by
    have h4 : (yoe + era * 400) / 4 = yoe / 4 + 100 * era := by omega
    have h100 : (yoe + era * 400) / 100 = yoe / 100 + 4 * era := by omega
    have h400 : (yoe + era * 400) / 400 = era := by omega
    rw [marchStart, h4, h100, h400]
    omega
  obtain ⟨d, hyear, hmonth, hday, hnumber⟩ := exists_date hrest hleap hmp
  exact ⟨by omega, by omega, hrest, d, hyear, hmonth, hday, by omega⟩

end Calendar
