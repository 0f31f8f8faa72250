import ProviiAudit.Sanitize.Alike

/-! The three layouts of a date of birth. -/
namespace ProviiAudit

open Utf8 (Text asBytes byteOf)
open Span (Stops)

variable {b g₁ g₂ g₃ rest : Bytes} {d d' : Text} {n : Nat}

inductive DateLayout
  | iso
  | slash
  | dot
  deriving DecidableEq

namespace DateLayout

variable {L : DateLayout}

def parse : DateLayout → Bytes → Nat → Option Nat
  | iso => tryParseIsoDate
  | slash => tryParseSlashDate
  | dot => tryParseDotDate

/-- The parser of the layout takes all of the text. -/
def Accepts (L : DateLayout) (d : Text) : Prop := L.parse (asBytes d) 0 = some (asBytes d).length

instance (d : Text) : Decidable (L.Accepts d) := inferInstanceAs (Decidable (_ = _))

def sep : DateLayout → UInt8
  | iso => byteOf '-'
  | slash => byteOf '/'
  | dot => byteOf '.'

/-- The number of digits of the first group. -/
def width : DateLayout → Nat
  | iso => 4
  | slash => 2
  | dot => 2

def ranges : DateLayout → Nat → Nat → Nat → Bool
  | iso, y, m, d => inRange dobYearLower dobYearUpper y && inRange 1 12 m && inRange 1 31 d
  | slash, a, b, y => inRange dobYearLower dobYearUpper y &&
      ((inRange 1 31 a && inRange 1 12 b) || (inRange 1 12 a && inRange 1 31 b))
  | dot, d, m, y => inRange dobYearLower dobYearUpper y && inRange 1 31 d && inRange 1 12 m

/-- The parser of the layout does not look behind the date. -/
def untimed : DateLayout → Bool
  | slash => true
  | _ => false

def join (L : DateLayout) (g₁ g₂ g₃ : Bytes) : Bytes := g₁ ++ L.sep :: (g₂ ++ L.sep :: g₃)

/-- Three groups of digits that make a date. -/
structure IsDate (L : DateLayout) (g₁ g₂ g₃ : Bytes) : Prop where
  first : g₁.length = L.width
  second : g₂.length = 2
  third : g₃.length = 6 - L.width
  digits : ∀ c ∈ g₁ ++ (g₂ ++ g₃), isAsciiDigit c = true
  inRanges : L.ranges (parseDecimal g₁) (parseDecimal g₂) (parseDecimal g₃) = true

theorem slice_ten {l : Bytes} (hs : slice b 0 10 = l) : b = l ++ b.drop 10 := by
  rw [← hs, slice, List.drop_zero, List.take_append_drop]

theorem timeSeparatorAt_ten : timeSeparatorAt b 10 = timeSeparatorAt (b.drop 10) 0 := by
  rw [← timeSeparatorAt_drop]

theorem tryParseIsoDate_iff : tryParseIsoDate b 0 = some n ↔ n = 10 ∧ ∃ g₁ g₂ g₃ rest,
    b = iso.join g₁ g₂ g₃ ++ rest ∧ iso.IsDate g₁ g₂ g₃ ∧ timeSeparatorAt rest 0 = false := by
  constructor
  · intro h
    rw [tryParseIsoDate] at h
    split at h
    · rename_i y₀ y₁ y₂ y₃ h₀ m₀ m₁ h₁ d₀ d₁ hs
      split_ifs at h with hc
      simp only [Bool.and_eq_true, List.all_cons, beq_iff_eq, List.all_nil, Bool.not_eq_true',
        Nat.zero_add, timeSeparatorAt_ten] at hc
      refine ⟨by simpa using h.symm, [y₀, y₁, y₂, y₃], [m₀, m₁], [d₀, d₁], b.drop 10, ?_, ?_, hc.2⟩
      · simpa [join, sep, hc] using slice_ten hs
      · exact ⟨rfl, rfl, rfl, by simp [hc], by simp [ranges, hc]⟩
    · simp at h
  · rintro ⟨rfl, g₁, g₂, g₃, rest, rfl, hd, htime⟩
    obtain ⟨y₀, y₁, y₂, y₃, rfl⟩ := List.length_eq_four.mp hd.first
    obtain ⟨m₀, m₁, rfl⟩ := List.length_eq_two.mp hd.second
    obtain ⟨d₀, d₁, rfl⟩ := List.length_eq_two.mp hd.third
    have hdigits := hd.digits
    have hranges := hd.inRanges
    simp only [ranges, Bool.and_eq_true] at hranges
    simp_all [tryParseIsoDate, join, sep, slice, timeSeparatorAt_ten]

theorem tryParseSlashDate_iff : tryParseSlashDate b 0 = some n ↔ n = 10 ∧ ∃ g₁ g₂ g₃ rest,
    b = slash.join g₁ g₂ g₃ ++ rest ∧ slash.IsDate g₁ g₂ g₃ := by
  constructor
  · intro h
    simp only [tryParseSlashDate] at h
    split at h
    · rename_i a₀ a₁ s₀ b₀ b₁ s₁ y₀ y₁ y₂ y₃ hs
      split_ifs at h with hc
      simp only [Bool.and_eq_true, List.all_cons, beq_iff_eq, List.all_nil] at hc
      refine ⟨by simpa using h.symm, [a₀, a₁], [b₀, b₁], [y₀, y₁, y₂, y₃], b.drop 10, ?_, ?_⟩
      · simpa [join, sep, hc] using slice_ten hs
      · refine ⟨rfl, rfl, rfl, by simp [hc], ?_⟩
        simp only [ranges, hc.1.2, Bool.true_and]
        exact hc.2
    · simp at h
  · rintro ⟨rfl, g₁, g₂, g₃, rest, rfl, hd⟩
    obtain ⟨a₀, a₁, rfl⟩ := List.length_eq_two.mp hd.first
    obtain ⟨b₀, b₁, rfl⟩ := List.length_eq_two.mp hd.second
    obtain ⟨y₀, y₁, y₂, y₃, rfl⟩ := List.length_eq_four.mp hd.third
    have hdigits := hd.digits
    have hranges := hd.inRanges
    simp only [ranges, Bool.and_eq_true] at hranges
    simp_all [tryParseSlashDate, join, sep, slice]

theorem tryParseDotDate_iff : tryParseDotDate b 0 = some n ↔ n = 10 ∧ ∃ g₁ g₂ g₃ rest,
    b = dot.join g₁ g₂ g₃ ++ rest ∧ dot.IsDate g₁ g₂ g₃ ∧ timeSeparatorAt rest 0 = false := by
  constructor
  · intro h
    rw [tryParseDotDate] at h
    split at h
    · rename_i d₀ d₁ p₀ m₀ m₁ p₁ y₀ y₁ y₂ y₃ hs
      split_ifs at h with hc
      simp only [Bool.and_eq_true, List.all_cons, beq_iff_eq, List.all_nil, Bool.not_eq_true',
        Nat.zero_add, timeSeparatorAt_ten] at hc
      refine ⟨by simpa using h.symm, [d₀, d₁], [m₀, m₁], [y₀, y₁, y₂, y₃], b.drop 10, ?_, ?_, hc.2⟩
      · simpa [join, sep, hc] using slice_ten hs
      · exact ⟨rfl, rfl, rfl, by simp [hc], by simp [ranges, hc]⟩
    · simp at h
  · rintro ⟨rfl, g₁, g₂, g₃, rest, rfl, hd, htime⟩
    obtain ⟨d₀, d₁, rfl⟩ := List.length_eq_two.mp hd.first
    obtain ⟨m₀, m₁, rfl⟩ := List.length_eq_two.mp hd.second
    obtain ⟨y₀, y₁, y₂, y₃, rfl⟩ := List.length_eq_four.mp hd.third
    have hdigits := hd.digits
    have hranges := hd.inRanges
    simp only [ranges, Bool.and_eq_true] at hranges
    simp_all [tryParseDotDate, join, sep, slice, timeSeparatorAt_ten]

theorem parse_iff : L.parse b 0 = some n ↔ n = 10 ∧ ∃ g₁ g₂ g₃ rest, b = L.join g₁ g₂ g₃ ++ rest ∧
    L.IsDate g₁ g₂ g₃ ∧ (L.untimed = false → timeSeparatorAt rest 0 = false) := by
  cases L with
  | iso => simpa [untimed, parse] using tryParseIsoDate_iff
  | slash => simpa [untimed, parse] using tryParseSlashDate_iff
  | dot => simpa [untimed, parse] using tryParseDotDate_iff

theorem sep_digit : isAsciiDigit L.sep = false := by cases L <;> decide

theorem sep_dateChar : isDateChar L.sep = true := by cases L <;> decide

theorem sep_injective : Function.Injective sep := by
  intro L L' h
  cases L <;> cases L' <;> first | rfl | exact absurd h (by decide)

theorem IsDate.first_digits (h : L.IsDate g₁ g₂ g₃) : ∀ c ∈ g₁, isAsciiDigit c = true :=
  fun c hc => h.digits c (List.mem_append_left _ hc)

theorem IsDate.second_digits (h : L.IsDate g₁ g₂ g₃) : ∀ c ∈ g₂, isAsciiDigit c = true :=
  fun c hc => h.digits c (List.mem_append_right _ (List.mem_append_left _ hc))

theorem IsDate.third_digits (h : L.IsDate g₁ g₂ g₃) : ∀ c ∈ g₃, isAsciiDigit c = true :=
  fun c hc => h.digits c (List.mem_append_right _ (List.mem_append_right _ hc))

theorem IsDate.length (h : L.IsDate g₁ g₂ g₃) : (L.join g₁ g₂ g₃).length = 10 := by
  simp only [join, List.length_append, List.length_cons, h.first, h.second, h.third]
  cases L <;> rfl

theorem IsDate.chars (h : L.IsDate g₁ g₂ g₃) : ∀ c ∈ L.join g₁ g₂ g₃, isDateChar c = true := by
  intro c hc
  simp only [join, List.mem_append, List.mem_cons] at hc
  rcases hc with hc | rfl | hc | rfl | hc
  · exact isDateChar_of_digit (h.first_digits c hc)
  · exact sep_dateChar
  · exact isDateChar_of_digit (h.second_digits c hc)
  · exact sep_dateChar
  · exact isDateChar_of_digit (h.third_digits c hc)

theorem IsDate.head (h : L.IsDate g₁ g₂ g₃) :
    ((L.join g₁ g₂ g₃ ++ rest)[0]?).any isAsciiDigit = true := by
  have hpos : 0 < g₁.length := by
    rw [h.first]
    cases L <;> decide
  obtain ⟨c, g, rfl⟩ := List.exists_cons_of_length_pos hpos
  simpa [join] using h.first_digits c List.mem_cons_self

/-- Where the separators stand. -/
theorem IsDate.digit_at (h : L.IsDate g₁ g₂ g₃) (ha : n < 10) :
    ((L.join g₁ g₂ g₃)[n]?).any isAsciiDigit = false ↔ n = L.width ∨ n = L.width + 3 := by
  have hdigit : ∀ {g r : Bytes} {k}, (∀ c ∈ g, isAsciiDigit c = true) → k < g.length →
      ((g ++ r)[k]?).any isAsciiDigit = true := by
    intro g r k hg hk
    rw [List.getElem?_append_left hk, List.getElem?_eq_getElem hk]
    exact hg _ (List.getElem_mem hk)
  have hw := h.first
  have hw₂ := h.second
  have hw₃ := h.third
  rcases Nat.lt_trichotomy n L.width with hlt | rfl | hgt
  · rw [join, hdigit h.first_digits (hw ▸ hlt)]
    simp
    omega
  · rw [join, ← hw, List.getElem?_append_right le_rfl, Nat.sub_self]
    simpa using sep_digit
  · obtain ⟨k, rfl⟩ := Nat.exists_eq_add_of_lt hgt
    have hskip : (L.join g₁ g₂ g₃)[L.width + k + 1]? = (g₂ ++ L.sep :: g₃)[k]? := by
      rw [join, Nat.add_assoc, ← hw, List.getElem?_append_right (Nat.le_add_right ..),
        Nat.add_sub_cancel_left, List.getElem?_cons_succ]
    rw [hskip]
    rcases Nat.lt_trichotomy k 2 with hlt | rfl | hgt
    · rw [hdigit h.second_digits (hw₂ ▸ hlt)]
      simp
      omega
    · rw [← hw₂, List.getElem?_append_right le_rfl, Nat.sub_self, hw₂]
      simpa using sep_digit
    · obtain ⟨j, rfl⟩ := Nat.exists_eq_add_of_lt hgt
      have hskip : (g₂ ++ L.sep :: g₃)[2 + j + 1]? = (g₃ ++ [])[j]? := by
        rw [Nat.add_assoc, ← hw₂, List.getElem?_append_right (Nat.le_add_right ..),
          Nat.add_sub_cancel_left, List.getElem?_cons_succ, List.append_nil]
      rw [hskip, hdigit h.third_digits (by omega)]
      simp
      omega

/-- A date has two separators. -/
theorem IsDate.dots (h : L.IsDate g₁ g₂ g₃) : (L.join g₁ g₂ g₃).count (byteOf '.') ≤ 2 := by
  have hnone : ∀ {g : Bytes}, (∀ c ∈ g, isAsciiDigit c = true) → g.count (byteOf '.') = 0 := by
    intro g hg
    exact List.count_eq_zero.mpr fun hmem => absurd (hg _ hmem) (by decide)
  rw [join, List.count_append, List.count_cons, List.count_append, List.count_cons,
    hnone h.first_digits, hnone h.second_digits, hnone h.third_digits]
  split_ifs <;> decide

theorem join_append_last {g : Bytes} :
    L.join g₁ g₂ g ++ rest = (g₁ ++ L.sep :: (g₂ ++ [L.sep])) ++ (g ++ rest) := by
  simp [join]

/-- The range of the third number. -/
def lastRange : DateLayout → Nat → Bool
  | iso => inRange 1 31
  | slash => inRange dobYearLower dobYearUpper
  | dot => inRange dobYearLower dobYearUpper

theorem lastRange_of_ranges {k m : Nat} (h : L.ranges k m n = true) : L.lastRange n = true := by
  cases L <;> simp_all [ranges, lastRange]

theorem ranges_last {j k m : Nat} (h : L.ranges j k m = true) (hn : L.lastRange n = true) :
    L.ranges j k n = true := by
  cases L <;> simp_all [ranges, lastRange]

theorem IsDate.drop_second (h : L.IsDate g₁ g₂ g₃) :
    (L.join g₁ g₂ g₃).drop (L.width + 1) = g₂ ++ L.sep :: g₃ := by
  rw [← h.first, join, List.drop_append]
  simp

theorem IsDate.drop_third (h : L.IsDate g₁ g₂ g₃) :
    (L.join g₁ g₂ g₃).drop (L.width + 4) = g₃ := by
  have hsplit : L.join g₁ g₂ g₃ = (g₁ ++ L.sep :: (g₂ ++ [L.sep])) ++ g₃ := by simp [join]
  rw [hsplit]
  apply List.drop_left'
  simp [h.first, h.second]

theorem IsDate.change_first {g : Bytes} (h : iso.IsDate g₁ g₂ g₃) (hlen : g.length = 4)
    (hg : ∀ c ∈ g, isAsciiDigit c = true)
    (hrange : inRange dobYearLower dobYearUpper (parseDecimal g) = true) :
    iso.IsDate g g₂ g₃ := by
  have hranges := h.inRanges
  simp only [ranges, Bool.and_eq_true] at hranges
  refine ⟨hlen, h.second, h.third, fun c hc => ?_, by simp [ranges, hrange, hranges]⟩
  rw [List.mem_append] at hc
  exact hc.elim (hg c) fun hc => h.digits c (List.mem_append_right _ hc)

theorem IsDate.change_last {g : Bytes} (h : L.IsDate g₁ g₂ g₃) (hlen : g.length = g₃.length)
    (hg : ∀ c ∈ g, isAsciiDigit c = true) (hrange : L.lastRange (parseDecimal g) = true) :
    L.IsDate g₁ g₂ g := by
  refine ⟨h.first, h.second, hlen.trans h.third, fun c hc => ?_, ranges_last h.inRanges hrange⟩
  simp only [List.mem_append] at hc
  rcases hc with hc | hc | hc
  · exact h.first_digits c hc
  · exact h.second_digits c hc
  · exact hg c hc

theorem inRange_iff {lower upper n : Nat} :
    inRange lower upper n = true ↔ lower ≤ n ∧ n ≤ upper := by simp [inRange]

/-- The century of a year of birth is a day of a month. -/
theorem century (hb : ∀ c ∈ b, isAsciiDigit c = true) (hlen : b.length = 4)
    (h : inRange dobYearLower dobYearUpper (parseDecimal b) = true) :
    inRange 1 31 (parseDecimal (b.take 2)) = true := by
  obtain ⟨y₀, y₁, y₂, y₃, rfl⟩ := List.length_eq_four.mp hlen
  have hle : ∀ c ∈ [y₀, y₁, y₂, y₃], c.toNat - 48 ≤ 9 := by
    intro c hc
    have hdigit := hb c hc
    simp only [isAsciiDigit, Bool.and_eq_true, decide_eq_true_eq, UInt8.le_iff_toNat_le] at hdigit
    have := hdigit.2
    simp at this
    omega
  rw [inRange_iff] at h ⊢
  simp [parseDecimal, dobYearLower, dobYearUpper] at h hle ⊢
  omega

/-- The first digits of a date, read as the last number of a date. -/
theorem IsDate.lastRange_first {L' : DateLayout} (h : L.IsDate g₁ g₂ g₃)
    (hlen : (g₁.take n).length = 6 - L'.width) :
    L'.lastRange (parseDecimal (g₁.take n)) = true := by
  have hfirst := h.first
  have hranges := h.inRanges
  rw [List.length_take, hfirst] at hlen
  cases L with
  | iso =>
    simp only [ranges, Bool.and_eq_true] at hranges
    cases L' with
    | iso =>
      obtain rfl : n = 2 := by
        simp only [width] at hlen
        omega
      exact century h.first_digits hfirst hranges.1.1
    | slash | dot =>
      rw [List.take_of_length_le (by simp only [width] at hlen hfirst; omega)]
      exact hranges.1.1
  | slash =>
    simp only [ranges, Bool.and_eq_true, Bool.or_eq_true, inRange_iff] at hranges
    cases L' with
    | iso =>
      rw [List.take_of_length_le (by simp only [width] at hlen hfirst; omega), lastRange,
        inRange_iff]
      omega
    | slash | dot =>
      simp only [width] at hlen
      omega
  | dot =>
    simp only [ranges, Bool.and_eq_true] at hranges
    cases L' with
    | iso =>
      rw [List.take_of_length_le (by simp only [width] at hlen hfirst; omega)]
      exact hranges.1.2
    | slash | dot =>
      simp only [width] at hlen
      omega

theorem isDateChar_ascii : Utf8.AsciiOnly isDateChar :=
  fun c h => isDobChar_ascii c (isDobChar_of_date h)

theorem accepts_iff : L.Accepts d ↔ ∃ g₁ g₂ g₃, codes d = L.join g₁ g₂ g₃ ∧ L.IsDate g₁ g₂ g₃ := by
  constructor
  · intro h
    obtain ⟨hlen, g₁, g₂, g₃, rest, hsplit, hd, -⟩ := parse_iff.mp h
    obtain rfl : rest = [] := by
      have hsum := congrArg List.length hsplit
      rw [List.length_append, hd.length] at hsum
      exact List.length_eq_zero_iff.mp (by omega)
    rw [List.append_nil] at hsplit
    refine ⟨g₁, g₂, g₃, ?_, hd⟩
    rw [← hsplit, Utf8.asBytes_eq_map]
    exact fun b hb => isDateChar_ascii b (hd.chars b (hsplit ▸ hb))
  · rintro ⟨g₁, g₂, g₃, hsplit, hd⟩
    have hbytes : asBytes d = L.join g₁ g₂ g₃ := by
      rw [← hsplit]
      exact isDateChar_ascii.asBytes_eq fun c hc => hd.chars _ (hsplit ▸ List.mem_map_of_mem hc)
    rw [Accepts, hbytes, hd.length]
    exact parse_iff.mpr ⟨rfl, g₁, g₂, g₃, [], (List.append_nil _).symm, hd, fun _ => rfl⟩

theorem Accepts.lastRange_first {L' : DateLayout} (h : L.Accepts d) (hn : n ≤ L.width)
    (hlen : ((codes d).take n).length = 6 - L'.width) :
    L'.lastRange (parseDecimal ((codes d).take n)) = true := by
  obtain ⟨g₁, g₂, g₃, hcodes, hg⟩ := accepts_iff.mp h
  have hfirst : (codes d).take n = g₁.take n := by
    rw [hcodes, join, List.take_append_of_le_length (by rw [hg.first]; exact hn)]
  rw [hfirst] at hlen ⊢
  exact hg.lastRange_first hlen

/-- There is a text for every three groups that make a date. -/
theorem exists_accepted (h : L.IsDate g₁ g₂ g₃) : ∃ d, codes d = L.join g₁ g₂ g₃ ∧ L.Accepts d := by
  have hbyte : ∀ b : UInt8, b < 128 → byteOf (Char.ofNat b.toNat) = b := by
    intro b hb
    rw [UInt8.lt_iff_toNat_lt] at hb
    have hvalid : b.toNat.isValidChar := .inl (Nat.lt_trans hb (by decide))
    have hnat : (Char.ofNat b.toNat).toNat = b.toNat := by
      rw [Char.ofNat, dif_pos hvalid]
      rfl
    rw [← UInt8.toNat_inj, Utf8.byteOf_toNat (by rw [hnat]; exact hb), hnat]
  have hcodes : codes ((L.join g₁ g₂ g₃).map fun b => Char.ofNat b.toNat) = L.join g₁ g₂ g₃ := by
    rw [codes, List.map_map]
    refine (List.map_congr_left fun b hb => ?_).trans (List.map_id _)
    exact hbyte b (isDateChar_ascii b (h.chars b hb))
  exact ⟨_, hcodes, accepts_iff.mpr ⟨g₁, g₂, g₃, hcodes, h⟩⟩

theorem octetLen_two (hb : ∀ c ∈ b, isAsciiDigit c = true) (hlen : b.length = 2) :
    octetLen b = some 2 := by
  obtain ⟨x, y, rfl⟩ := List.length_eq_two.mp hlen
  have hx := hb x (by simp)
  have hy := hb y (by simp)
  have hle : ∀ {c}, isAsciiDigit c = true → c.toNat - 48 ≤ 9 := by
    intro c hc
    simp only [isAsciiDigit, Bool.and_eq_true, decide_eq_true_eq, UInt8.le_iff_toNat_le] at hc
    have := hc.2
    simp at this
    omega
  have hx9 := hle hx
  have hy9 := hle hy
  simp [octetLen, hx, hy, parseDecimal]
  omega

theorem octetLen_four (hb : ∀ c ∈ b, isAsciiDigit c = true) (hlen : b.length = 4) :
    octetLen b = none := by
  have hall : b.takeWhile isAsciiDigit = b := List.takeWhile_eq_self_iff.mpr hb
  simp [octetLen, hall, hlen]

theorem alike_group (hb : ∀ c ∈ b, isAsciiDigit c = true) {b' : Bytes}
    (hb' : ∀ c ∈ b', isAsciiDigit c = true) (hlen : b.length = b'.length)
    (hsize : b.length = 2 ∨ b.length = 4) : Alike b b' := by
  refine alike_digits hb hb' hlen ?_
  rcases hsize with hsize | hsize
  · rw [octetLen_two hb hsize, octetLen_two hb' (hlen ▸ hsize)]
  · rw [octetLen_four hb hsize, octetLen_four hb' (hlen ▸ hsize)]

theorem width_cases : L.width = 2 ∨ L.width = 4 := by cases L <;> decide

theorem Accepts.alike (h : L.Accepts d) (h' : L.Accepts d') : Alike (codes d) (codes d') := by
  obtain ⟨g₁, g₂, g₃, hd, hg⟩ := accepts_iff.mp h
  obtain ⟨g₁', g₂', g₃', hd', hg'⟩ := accepts_iff.mp h'
  have hwidth := L.width_cases
  rw [hd, hd', join, join]
  refine .join sep_digit ?_ (.join sep_digit ?_ ?_)
  · exact alike_group hg.first_digits hg'.first_digits (hg.first.trans hg'.first.symm)
      (hg.first ▸ hwidth)
  · exact alike_group hg.second_digits hg'.second_digits (hg.second.trans hg'.second.symm)
      (.inl hg.second)
  · have hthird := hg.third
    exact alike_group hg.third_digits hg'.third_digits (hg.third.trans hg'.third.symm)
      (by omega)

end DateLayout

end ProviiAudit
