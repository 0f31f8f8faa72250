import ProviiAudit.Sanitize.DateEmails

/-! Where the date pass finds a date around one that is left. -/
namespace ProviiAudit

open Utf8 (Text asBytes byteOf)
open Span (Stops)
open Scan (Framed lastOr lastOr_append lastOr_cons)

variable {L L' : DateLayout} {F : Text → Framed Char} {X Y d d' s u v x y z : Text}
  {b b' g₁ g₂ g₃ rest : Bytes} {p p' : Option Char} {c : UInt8} {i j k n a : Nat}

/-- A date at the head that is bounded behind. -/
structure Window (L : DateLayout) (b g₁ g₂ g₃ rest : Bytes) : Prop where
  split : b = L.join g₁ g₂ g₃ ++ rest
  date : L.IsDate g₁ g₂ g₃
  untimed : L.untimed = false → timeSeparatorAt rest 0 = false
  stops : Stops isAsciiAlphanumeric rest

theorem dateHeadLen_iff : dateHeadLen b = some n ↔ ∃ L : DateLayout, L.parse b 0 = some n := by
  constructor
  · intro h
    rw [dateHeadLen] at h
    split_ifs at h
    rcases Option.or_eq_some_iff.mp h with h | ⟨-, h⟩
    · rcases Option.or_eq_some_iff.mp h with h | ⟨-, h⟩
      · exact ⟨.iso, h⟩
      · exact ⟨.slash, h⟩
    · exact ⟨.dot, h⟩
  · rintro ⟨L, h⟩
    obtain ⟨rfl, g₁, g₂, g₃, rest, hsplit, hd, -⟩ := DateLayout.parse_iff.mp h
    have hsome : dateHeadLen b ≠ none := by
      rw [dateHeadLen, if_pos (hsplit ▸ hd.head)]
      cases L with
      | iso =>
        have hiso : tryParseIsoDate b 0 = some 10 := h
        simp [hiso]
      | slash =>
        have hslash : tryParseSlashDate b 0 = some 10 := h
        simp [hslash]
      | dot =>
        have hdot : tryParseDotDate b 0 = some 10 := h
        simp [hdot]
    obtain ⟨n, hn⟩ := Option.ne_none_iff_exists'.mp hsome
    rw [hn, (dateHeadLen_some hn).1]

/-- The date pass takes a bounded date. -/
theorem dobMatcher_iff : dobMatcher.len p s = some n ↔ dobRecogniser.touches p = false ∧ n = 10 ∧
    ∃ L g₁ g₂ g₃ rest, Window L (codes s) g₁ g₂ g₃ rest := by
  rw [Recogniser.matcher_len_iff]
  refine and_congr_right fun _ => ?_
  have hhead : dobRecogniser.headLen (codes s) = dateHeadLen (codes s) := rfl
  have hafter : ∀ {b r : Bytes}, b.length = 10 →
      ((b ++ r)[10]?).any dobRecogniser.adjacent = r.head?.any isAsciiAlphanumeric := by
    intro b r hb
    rw [← hb, List.getElem?_append_right le_rfl, Nat.sub_self, ← List.head?_eq_getElem?]
    rfl
  rw [hhead, dateHeadLen_iff]
  constructor
  · rintro ⟨⟨L, hparse⟩, hstop⟩
    obtain ⟨rfl, g₁, g₂, g₃, rest, hsplit, hd, htime⟩ := DateLayout.parse_iff.mp hparse
    rw [hsplit, hafter hd.length] at hstop
    exact ⟨rfl, L, g₁, g₂, g₃, rest, hsplit, hd, htime, hstop⟩
  · rintro ⟨rfl, L, g₁, g₂, g₃, rest, hw⟩
    refine ⟨⟨L, DateLayout.parse_iff.mpr ⟨rfl, _, _, _, _, hw.split, hw.date, hw.untimed⟩⟩, ?_⟩
    rw [hw.split, hafter hw.date.length]
    exact hw.stops

/-- A date that is left whole is found. -/
theorem dobMatcher_date (hd : L.Accepts d) (hp : dobRecogniser.touches p = false) (hY : Opens Y) :
    dobMatcher.len p (d ++ Y) = some 10 := by
  obtain ⟨g₁, g₂, g₃, hcodes, hg⟩ := DateLayout.accepts_iff.mp hd
  refine dobMatcher_iff.mpr ⟨hp, rfl, L, g₁, g₂, g₃, codes Y, ?_, hg, fun _ => hY.untimed, hY.stops⟩
  rw [codes, List.map_append, ← codes, hcodes]

/-- What is left of two dates has the same shape. -/
theorem DateLayout.Accepts.shape (hd : L.Accepts d) (hd' : L.Accepts d') (i k : Nat) :
    SameShape (codes ((d.drop i).take k)) (codes ((d'.drop i).take k)) := by
  simpa [codes, List.map_take, List.map_drop] using ((hd.alike hd').shape.drop i).take k

theorem timeSeparatorAt_shape (h : SameShape b b') :
    timeSeparatorAt b n = timeSeparatorAt b' n := by
  have hchar : ∀ {c} {k : Nat}, isAsciiDigit c = false →
      (b[k]? == some c) = (b'[k]? == some c) := by
    intro c k hc
    rw [Bool.eq_iff_iff, beq_iff_eq, beq_iff_eq]
    exact h.char hc k
  rw [timeSeparatorAt, timeSeparatorAt, hchar (by decide), hchar (by decide), hchar (by decide),
    h.any blind_digit, h.any blind_digit]

theorem SameShape.stops (h : SameShape b b') {q : UInt8 → Bool} (hq : Blind q) :
    Stops q b ↔ Stops q b' := by
  rw [Stops, Stops, List.head?_eq_getElem?, List.head?_eq_getElem?, h.any hq]

/-- Another last group may stand in its place, and other digits behind it. -/
theorem Window.change {g rest' : Bytes} (h : Window L b g₁ g₂ g₃ rest) (hlen : g.length = g₃.length)
    (hg : ∀ c ∈ g, isAsciiDigit c = true) (hrange : L.lastRange (parseDecimal g) = true)
    (hshape : SameShape rest rest') : Window L (L.join g₁ g₂ g ++ rest') g₁ g₂ g rest' where
  split := rfl
  date := h.date.change_last hlen hg hrange
  untimed htime := (timeSeparatorAt_shape hshape).symm.trans (h.untimed htime)
  stops := (hshape.stops blind_alphanumeric).mp h.stops

theorem Window.congr (h : Window L b g₁ g₂ g₃ rest) (hb : b = b') : Window L b' g₁ g₂ g₃ rest :=
  hb ▸ h

/-- It reaches behind `b`, which ends in no digit, with its last one or two groups. -/
theorem Window.begins {r : Bytes} (h : Window L (b ++ r) g₁ g₂ g₃ rest) (hb : b ≠ [])
    (hlast : b.getLast?.any isAsciiDigit = false) (hlt : b.length < 10) :
    (b = g₁ ++ [L.sep] ∧ r = g₂ ++ L.sep :: (g₃ ++ rest)) ∨
      (b = g₁ ++ L.sep :: (g₂ ++ [L.sep]) ∧ r = g₃ ++ rest) := by
  have hpos := List.length_pos_of_ne_nil hb
  have hten := h.date.length
  have hat : ((L.join g₁ g₂ g₃)[b.length - 1]?).any isAsciiDigit = false := by
    have hchar : (b ++ r)[b.length - 1]? = b.getLast? := by
      rw [List.getElem?_append_left (by omega), List.getLast?_eq_getElem?]
    rw [h.split, List.getElem?_append_left (by omega)] at hchar
    rw [hchar, hlast]
  have hw₁ := h.date.first
  have hw₂ := h.date.second
  rcases (h.date.digit_at (by omega)).mp hat with hw | hw
  · left
    refine List.append_inj (h.split.trans ?_) ?_
    · simp [DateLayout.join]
    · rw [List.length_append, hw₁, List.length_singleton]
      omega
  · right
    refine List.append_inj (h.split.trans ?_) ?_
    · simp [DateLayout.join]
    · simp only [List.length_append, List.length_cons, List.length_nil, hw₁, hw₂]
      omega

/-- A digit that no digit stands before opens a group. -/
theorem DateLayout.Accepts.group_start (hd : L.Accepts d)
    (hdigit : ((codes d)[a]?).any isAsciiDigit = true) (ha : a < 10) (hcut : CutAt (codes d) a) :
    a = 0 ∨ a = L.width + 1 ∨ a = L.width + 4 := by
  have hten := hd.length
  have hlast := hcut.resolve_right (by rw [Stops, List.head?_drop, hdigit]; simp)
  obtain ⟨g₁, g₂, g₃, hcodes, hg⟩ := accepts_iff.mp hd
  rcases Nat.eq_zero_or_pos a with hzero | hpos
  · exact .inl hzero
  · right
    rw [List.getLast?_eq_getElem?, List.length_take_of_le (by simp; omega),
      List.getElem?_take_of_lt (by omega), hcodes, hg.digit_at (by omega)] at hlast
    omega

theorem Window.head (h : Window L b g₁ g₂ g₃ rest) : (b[0]?).any isAsciiDigit = true := by
  rw [h.split]
  exact h.date.head

theorem stops_sep {r : Bytes} : Stops isAsciiDigit (L.sep :: r) :=
  Span.stops_cons.mpr DateLayout.sep_digit

/-- The first run of digits is the first group. -/
theorem Window.first_run {g r : Bytes} (h : Window L (g ++ r) g₁ g₂ g₃ rest)
    (hg : ∀ c ∈ g, isAsciiDigit c = true) (hr : Stops isAsciiDigit r) :
    g = g₁ ∧ r = L.sep :: (g₂ ++ L.sep :: (g₃ ++ rest)) := by
  refine Span.run_unique hg h.date.first_digits hr stops_sep (h.split.trans ?_)
  simp [DateLayout.join]

theorem codes_second (hg : L.IsDate g₁ g₂ g₃) (hd : codes d = L.join g₁ g₂ g₃) :
    codes (d.drop (L.width + 1) ++ Y) = g₂ ++ L.sep :: (g₃ ++ codes Y) := by
  rw [codes, List.map_append, List.map_drop, ← codes, ← codes, hd, hg.drop_second,
    List.append_assoc, List.cons_append]

theorem codes_third (hg : L.IsDate g₁ g₂ g₃) (hd : codes d = L.join g₁ g₂ g₃) :
    codes (d.drop (L.width + 4) ++ Y) = g₃ ++ codes Y := by
  rw [codes, List.map_append, List.map_drop, ← codes, ← codes, hd, hg.drop_third]

/-- No date begins with the second group. -/
theorem not_second {q₁ q₂ q₃ y : Bytes} (hq : L.IsDate q₁ q₂ q₃) (hy : Stops isAsciiDigit y) :
    ¬ Window L' (q₂ ++ L.sep :: (q₃ ++ y)) g₁ g₂ g₃ rest := by
  intro hw
  obtain ⟨rfl, htail⟩ := hw.first_run hq.second_digits stops_sep
  obtain ⟨hsep, htail⟩ := List.cons_eq_cons.mp htail
  obtain rfl := DateLayout.sep_injective hsep
  obtain ⟨rfl, -⟩ := Span.run_unique hq.third_digits hw.date.second_digits hy stops_sep htail
  have hfirst := hw.date.first
  have hsecond := hw.date.second
  have hthird := hq.third
  have hsame := hq.second
  omega

/-- A year at the end of a date may open another one, whichever year it is. -/
theorem Window.change_year {q₁ q₂ q₃ r₁ r₂ r₃ y : Bytes} (hq : L.IsDate q₁ q₂ q₃)
    (hr : L.IsDate r₁ r₂ r₃) (hL : L ≠ .iso) (hy : Stops isAsciiDigit y)
    (h : Window L' (q₃ ++ y) g₁ g₂ g₃ rest) : Window L' (r₃ ++ y) r₃ g₂ g₃ rest := by
  obtain ⟨rfl, rfl⟩ := h.first_run hq.third_digits hy
  have hwidth : L.width = 2 := by
    cases L with
    | iso => exact absurd rfl hL
    | slash | dot => rfl
  have hfirst := h.date.first
  have hthird := hq.third
  have hrange := DateLayout.lastRange_of_ranges hr.inRanges
  cases L' with
  | iso =>
    refine ⟨by simp [DateLayout.join], h.date.change_first ?_ hr.third_digits ?_,
      h.untimed, h.stops⟩
    · rw [hr.third, hwidth]
    · cases L with
      | iso => exact absurd rfl hL
      | slash | dot => exact hrange
  | slash | dot =>
    rw [hthird, hwidth] at hfirst
    exact absurd hfirst (by decide)

namespace Shown

/-- The first run of digits of what is left. -/
theorem first_run (h : Shown L F X Y 0 k) (hd : L.Accepts d) :
    (∀ c ∈ (codes d).take (min k L.width), isAsciiDigit c = true) ∧
      codes (d.take k ++ Y) = (codes d).take (min k L.width) ++
        (codes (d.take k ++ Y)).drop (min k L.width) ∧
      Stops isAsciiDigit ((codes (d.take k ++ Y)).drop (min k L.width)) := by
  obtain ⟨g₁, g₂, g₃, hcodes, hg⟩ := DateLayout.accepts_iff.mp hd
  have hten := hd.length
  have hle := h.le
  have hwidth := L.width_cases
  refine ⟨?_, ?_, ?_⟩
  · intro c hc
    rw [hcodes, DateLayout.join, List.take_append_of_le_length (by rw [hg.first]; omega)] at hc
    exact hg.first_digits c (List.mem_of_mem_take hc)
  · have htake : (codes d).take (min k L.width) =
        (codes (d.take k ++ Y)).take (min k L.width) := by
      rw [codes, codes, List.map_append, List.take_append_of_le_length (by simp; omega),
        List.map_take, List.take_take]
      congr 1
      omega
    rw [htake, List.take_append_drop]
  · rcases Nat.lt_or_ge L.width k with hlt | hge
    · have hat := (hg.digit_at (n := L.width) (by omega)).mpr (.inl rfl)
      rw [Nat.min_eq_right hlt.le, Stops, List.head?_drop, codes, List.map_append,
        List.getElem?_append_left (by simp; omega), List.map_take, List.getElem?_take_of_lt hlt,
        ← codes, hcodes]
      exact hat
    · have hY := h.brokenBack (by omega)
      rw [Nat.min_eq_left hge, codes, List.map_append, List.drop_left' (by simp; omega)]
      rw [Stops, List.head?_map, hY]
      decide

/-- Where what is left is broken off a bracket follows. -/
theorem bracket (h : Shown L F X Y i k) (hd : L.Accepts d) (hk : i + k < 10) :
    (codes ((d.drop i).take k ++ Y))[k]? = some (byteOf '[') := by
  have hlen : (((d.drop i).take k).map byteOf).length = k := by rw [List.length_map, h.length hd]
  rw [codes, List.map_append, List.getElem?_append_right hlen.le, hlen, Nat.sub_self,
    ← List.head?_eq_getElem?, List.head?_map, h.brokenBack hk]
  rfl

/-- Behind a first run of two digits what is left goes on with two digits at most. -/
theorem second_run (h : Shown L F X Y 0 k) (hd : L.Accepts d) (hk : min k L.width = 2) :
    ((codes (d.take k ++ Y))[2]? = some (byteOf '[') ∨
      L.width = 2 ∧ 2 < k ∧ (codes (d.take k ++ Y))[2]? = some L.sep ∧
        ((codes (d.take k ++ Y))[min k 5]?).any isAsciiDigit = false) := by
  have hten := hd.length
  have hbracket := fun hk => h.bracket hd hk
  rw [List.drop_zero, Nat.zero_add] at hbracket
  obtain ⟨g₁, g₂, g₃, hcodes, hg⟩ := DateLayout.accepts_iff.mp hd
  have hinside : ∀ n < k, (codes (d.take k ++ Y))[n]? = (L.join g₁ g₂ g₃)[n]? := by
    intro n hn
    rw [codes, List.map_append, List.getElem?_append_left (by simp; have := h.le; omega),
      List.map_take, List.getElem?_take_of_lt hn, ← codes, hcodes]
  rcases Nat.lt_or_ge 2 k with hlt | hge
  · right
    have hwidth := L.width_cases
    have hw : L.width = 2 := by omega
    refine ⟨hw, hlt, ?_, ?_⟩
    · rw [hinside 2 (by omega), DateLayout.join, List.getElem?_append_right (by rw [hg.first, hw]),
        hg.first, hw, Nat.sub_self, List.getElem?_cons_zero]
    · rcases Nat.lt_or_ge 5 k with h5 | h5
      · rw [Nat.min_eq_right h5.le, hinside 5 h5]
        exact (hg.digit_at (by decide)).mpr (.inr (by rw [hw]))
      · rw [Nat.min_eq_left h5, hbracket (by omega)]
        decide
  · left
    obtain rfl : k = 2 := by omega
    exact hbracket (by decide)

/-- What is left does not begin with the last two groups of another date. -/
theorem not_two_groups (h : Shown L F X Y 0 k) (hd : L.Accepts d) (hg : L'.IsDate g₁ g₂ g₃)
    (hz : codes (d.take k ++ Y) = g₂ ++ L'.sep :: (g₃ ++ rest)) : False := by
  obtain ⟨hdigits, hsplit, hstop⟩ := h.first_run hd
  obtain ⟨hrun, -⟩ := Span.run_unique hdigits hg.second_digits hstop stops_sep
    (hsplit.symm.trans hz)
  have hlen := congrArg List.length hrun
  rw [List.length_take, List.length_map, hg.second, hd.length] at hlen
  have hle := h.le
  have hwidth := L.width_cases
  have hmark : (codes (d.take k ++ Y))[2]? = some L'.sep := by
    rw [hz, ← hg.second, List.getElem?_append_right le_rfl, Nat.sub_self, List.getElem?_cons_zero]
  rcases h.second_run hd (by omega) with hbracket | ⟨hwidth, hlt, hsame, hdigit⟩
  · rw [hmark] at hbracket
    cases L' <;> exact absurd hbracket (by decide)
  · rw [hmark, Option.some.injEq] at hsame
    obtain rfl := DateLayout.sep_injective hsame
    obtain ⟨m, hm, hlt⟩ : ∃ m, min k 5 = 2 + (m + 1) ∧ m < g₃.length :=
      ⟨min k 5 - 3, by omega, by rw [hg.third]; omega⟩
    rw [hz, hm, ← hg.second, List.getElem?_append_right (Nat.le_add_right ..),
      Nat.add_sub_cancel_left, List.getElem?_cons_succ, List.getElem?_append_left hlt,
      List.getElem?_eq_getElem hlt, Option.any_some,
      hg.third_digits _ (List.getElem_mem hlt)] at hdigit
    exact absurd hdigit (by decide)

/-- A date that begins before what is left ends with its first run of digits. -/
theorem begins (h : Shown L F X Y 0 k) (hd : L.Accepts d) (hX : X = u ++ v) (hv : v ≠ [])
    (hlt : v.length < 10)
    (hw : Window L' (codes (v ++ (d.take k ++ Y))) g₁ g₂ g₃ rest) :
    codes v = g₁ ++ L'.sep :: (g₂ ++ [L'.sep]) ∧ g₃ = (codes d).take (min k L.width) ∧
      rest = (codes (d.take k ++ Y)).drop (min k L.width) := by
  have hlast : (codes v).getLast?.any isAsciiDigit = false := by
    have hlast := h.lastDigit
    rw [hX, List.getLast?_append] at hlast
    obtain ⟨c, hc⟩ := Option.ne_none_iff_exists'.mp (List.getLast?_eq_none_iff.not.mpr hv)
    rw [hc] at hlast
    rw [codes, List.getLast?_map, hc]
    simpa using hlast
  obtain ⟨hdigits, hsplit, hstop⟩ := h.first_run hd
  rw [codes, List.map_append, ← codes, ← codes] at hw
  rcases hw.begins (by simpa using hv) hlast (by simpa using hlt) with ⟨-, hz⟩ | ⟨hvg, hz⟩
  · exact (h.not_two_groups hd hw.date hz).elim
  · have hstops := hw.stops.mono fun _ => isAsciiAlphanumeric_of_digit
    obtain ⟨hrun, htail⟩ := Span.run_unique hdigits hw.date.third_digits hstop hstops
      (hsplit.symm.trans hz)
    exact ⟨hvg, hrun.symm, htail.symm⟩

/-- What begins before what is left does so for every date. -/
theorem front_some (h : Shown L F X Y 0 k) (hd : L.Accepts d) (hd' : L.Accepts d')
    (hX : X = u ++ v) (hv : v ≠ []) (hm : dobMatcher.len p (v ++ (d.take k ++ Y)) = some n) :
    dobMatcher.len p (v ++ (d'.take k ++ Y)) = some n := by
  obtain ⟨hp, rfl, L', g₁, g₂, g₃, rest, hw⟩ := dobMatcher_iff.mp hm
  have hshape : SameShape (codes (d.take k ++ Y)) (codes (d'.take k ++ Y)) := by
    simpa [codes] using (hd.shape hd' 0 k).append (sameShape_refl (codes Y))
  rcases Nat.lt_or_ge v.length 10 with hlt | hge
  · obtain ⟨hsplit, rfl, rfl⟩ := h.begins hd hX hv hlt hw
    obtain ⟨hdigits, hcodes, -⟩ := h.first_run hd'
    have hsame : ((codes d').take (min k L.width)).length =
        ((codes d).take (min k L.width)).length := by
      rw [List.length_take, List.length_take, (hd.alike hd').shape.length]
    have hrange := hd'.lastRange_first (Nat.min_le_right k _) (hsame.trans hw.date.third)
    refine dobMatcher_iff.mpr ⟨hp, rfl, L', g₁, g₂, _, _,
      (hw.change hsame hdigits hrange (hshape.drop (min k L.width))).congr ?_⟩
    rw [DateLayout.join_append_last, ← hsplit, ← hcodes, codes, codes, codes, ← List.map_append]
  · obtain ⟨w, v, rfl, hwlen⟩ : ∃ w z, v = w ++ z ∧ w.length = 10 :=
      ⟨v.take 10, v.drop 10, (List.take_append_drop 10 v).symm, List.length_take_of_le hge⟩
    have hsplit := hw.split
    rw [List.append_assoc, codes, List.map_append, ← codes, ← codes] at hsplit
    obtain ⟨hdate, rfl⟩ := List.append_inj hsplit
      (by rw [List.length_map, hwlen, hw.date.length])
    have hbehind : SameShape (codes (v ++ (d.take k ++ Y))) (codes (v ++ (d'.take k ++ Y))) := by
      simpa [codes] using (sameShape_refl (codes v)).append hshape
    refine dobMatcher_iff.mpr ⟨hp, rfl, L', g₁, g₂, g₃, _,
      (hw.change rfl hw.date.third_digits (DateLayout.lastRange_of_ranges hw.date.inRanges)
        hbehind).congr ?_⟩
    rw [← hdate, List.append_assoc, codes, codes, codes, ← List.map_append]

/-- What stands in front of a broken date ends in a bracket. -/
theorem ends_bracket (h : Shown L F X Y i k) (hi : 0 < i) (hX : X = u ++ v) (hv : v ≠ []) :
    ∃ w, v = w ++ [']'] := by
  obtain ⟨w, c, rfl⟩ := (List.eq_nil_or_concat v).resolve_left hv
  have hlast := h.brokenFront hi
  rw [List.concat_eq_append] at hX ⊢
  obtain rfl : c = ']' := by simpa [hX] using hlast
  exact ⟨w, rfl⟩

/-- The date pass cannot tell the dates apart before it comes to them. -/
theorem front_eq (h : Shown L F X Y i k) (hd : L.Accepts d) (hd' : L.Accepts d')
    (hX : X = u ++ v) (hv : v ≠ []) :
    dobMatcher.len p (v ++ ((d.drop i).take k ++ Y)) =
      dobMatcher.len p (v ++ ((d'.drop i).take k ++ Y)) := by
  rcases Nat.eq_zero_or_pos i with rfl | hi
  · rw [List.drop_zero, List.drop_zero]
    exact Option.ext fun n => ⟨h.front_some hd hd' hX hv, h.front_some hd' hd hX hv⟩
  · obtain ⟨w, rfl⟩ := h.ends_bracket hi hX hv
    have hsep := dobRecogniser.separates (c := ']') (by decide)
    rw [List.append_assoc, List.append_assoc, List.singleton_append, hsep.stop,
      List.singleton_append, hsep.stop]

/-- A date that begins in what is left needs all of its end. -/
theorem unbroken (h : Shown L F X Y i k) (hd : L.Accepts d)
    (hm : dobMatcher.len p (((d.drop i).take k).drop j ++ Y) = some 10) : i + k = 10 := by
  by_contra hne
  have hlt : i + k < 10 := Nat.lt_of_le_of_ne h.le hne
  obtain ⟨Y', rfl⟩ := List.head?_eq_some_iff.mp (h.brokenBack hlt)
  rw [(dobRecogniser.separates (c := '[') (by decide)).stop] at hm
  have hle := dobMatcher.le hm
  rw [List.length_drop, h.length hd] at hle
  omega

/-- It does not begin between two digits. -/
theorem cut_match (h : Shown L F X Y i k) (hd : L.Accepts d) (hj : j < k)
    (hm : dobMatcher.len (lastOr none (X ++ ((d.drop i).take k).take j))
      (((d.drop i).take k).drop j ++ Y) = some n) : CutAt (codes d) (i + j) := by
  have hten := hd.length
  have hle := h.le
  rcases Nat.eq_zero_or_pos j with rfl | hpos
  · exact h.cutFront d hd
  · left
    have hbefore := Recogniser.untouched (r := dobRecogniser)
      (fun _ => isAsciiAlphanumeric_of_digit) (dobMatcher_iff.mp hm).1
    rw [List.take_take, Nat.min_eq_left hj.le] at hbefore
    rw [← getLast?_take_drop (List.ne_nil_of_length_pos (by simp; omega)), codes, ← List.map_drop,
      ← List.map_take, List.getLast?_map, Option.any_map]
    exact hbefore

/-- It begins where a group of digits does. -/
theorem group_start (h : Shown L F X Y i k) (hd : L.Accepts d) (hk : i + k = 10) (hj : j < k)
    (hm : dobMatcher.len (lastOr none (X ++ ((d.drop i).take k).take j))
      (((d.drop i).take k).drop j ++ Y) = some n) :
    i + j = 0 ∨ i + j = L.width + 1 ∨ i + j = L.width + 4 := by
  refine hd.group_start ?_ (by omega) (h.cut_match hd hj hm)
  obtain ⟨-, -, L', q₁, q₂, q₃, rest, hw⟩ := dobMatcher_iff.mp hm
  have hten := hd.length
  have hhead := hw.head
  rwa [codes, List.map_append, List.getElem?_append_left (by simp; omega), List.map_drop,
    List.map_take, List.getElem?_drop, Nat.add_zero, List.getElem?_take_of_lt hj, List.map_drop,
    List.getElem?_drop] at hhead

/-- What begins in what is left of one date does so in every date of that day. -/
theorem inside_some (h : Shown L F X Y i k) (hd : L.Accepts d) (hd' : L.Accepts d') (hj : j < k)
    (hday : L = .iso → i + j = 8 → d.drop 8 = d'.drop 8)
    (hm : dobMatcher.len (lastOr none (X ++ ((d.drop i).take k).take j))
      (((d.drop i).take k).drop j ++ Y) = some n) :
    dobMatcher.len (lastOr none (X ++ ((d'.drop i).take k).take j))
      (((d'.drop i).take k).drop j ++ Y) = some n := by
  obtain ⟨hp, rfl, L', q₁, q₂, q₃, rest, hw⟩ := dobMatcher_iff.mp hm
  have hten := h.unbroken hd hm
  have hstart := h.group_start hd hten hj hm
  have hlen := hd.length
  have hlen' := hd'.length
  have hp' : dobRecogniser.touches (lastOr none (X ++ ((d'.drop i).take k).take j)) = false := by
    rw [← hp]
    refine (Recogniser.touches_last blind_alphanumeric ?_).symm
    simpa [codes, List.map_take] using (hd.shape hd' i k).take j
  have hfull : ∀ {d : Text}, d.length = 10 → ((d.drop i).take k).drop j = d.drop (i + j) := by
    intro d hlen
    rw [List.take_of_length_le (by simp; omega), List.drop_drop]
  rw [hfull hlen] at hw
  rw [hfull hlen']
  obtain ⟨g₁, g₂, g₃, hcodes, hg⟩ := DateLayout.accepts_iff.mp hd
  obtain ⟨r₁, r₂, r₃, hcodes', hr⟩ := DateLayout.accepts_iff.mp hd'
  have hY := h.stopsDigit
  rcases hstart with hzero | hsecond | hthird
  · rw [hzero, List.drop_zero]
    exact dobMatcher_date hd' hp' (h.wholeBack hten)
  · rw [hsecond, codes_second hg hcodes] at hw
    exact absurd hw (not_second hg hY)
  · by_cases hL : L = .iso
    · have height : i + j = 8 := by rw [hthird, hL]; rfl
      refine dobMatcher_iff.mpr ⟨hp', rfl, L', _, _, _, _, hw.congr ?_⟩
      rw [height, hday hL height]
    · rw [hthird, codes_third hg hcodes] at hw
      refine dobMatcher_iff.mpr ⟨hp', rfl, L', _, _, _, _, (hw.change_year hg hr hL hY).congr ?_⟩
      rw [hthird, codes_third hr hcodes']

/-- The date pass sees two dates alike, except for the day that an ISO date may end in. -/
theorem twins (h : Shown L F X Y i k) (hd : L.Accepts d) (hd' : L.Accepts d')
    (hday : L = .iso → ∀ j, (F d).taken dobMatcher ≤ j →
      j ≤ (F d).taken dobMatcher + (F d).kept dobMatcher → i + j = 8 → d.drop 8 = d'.drop 8) :
    Framed.Twins dobMatcher (F d) (F d') := by
  have hlen := h.length hd
  have hlen' := h.length hd'
  have hfresh := (dobRecogniser.len_fresh (p := lastOr none (X ++ (d.drop i).take k))
    (Recogniser.touches_last blind_alphanumeric (hd.shape hd' i k)))
  rw [h.frame d hd, h.frame d' hd'] at *
  refine ⟨rfl, rfl, hlen'.trans hlen.symm, ?_, ?_, ?_, fun z => (hfresh z).symm⟩
  · intro u v hX hv
    exact h.front_eq hd hd' hX hv
  · intro j hle hge hj
    have hday' := fun hL hij => hday hL j hle hge hij
    rw [hlen] at hj
    exact Option.ext fun n => ⟨h.inside_some hd' hd hj fun hL hij => (hday' hL hij).symm,
      h.inside_some hd hd' hj hday'⟩
  · intro j n hj hm
    obtain ⟨-, rfl, -⟩ := dobMatcher_iff.mp hm
    have hle := h.le
    rw [hlen]
    omega

end Shown

end ProviiAudit
