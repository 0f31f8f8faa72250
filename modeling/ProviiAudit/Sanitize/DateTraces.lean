import Mathlib.Data.Nat.Find
import ProviiAudit.Sanitize.DateWindows

/-! When sanitised text tells the dates of a layout apart. -/
namespace ProviiAudit

open Utf8 (Text asBytes byteOf)
open Span (Stops)
open Scan (Framed lastOr)

variable {L : DateLayout} {F : Text → Framed Char} {X Y d d' pre post s t : Text}
  {b g₁ g₂ g₃ : Bytes} {i k n a : Nat}

/-- Another group of digits of the same length. -/
def otherGroup (g : Bytes) : Bytes :=
  if g.head? = some (byteOf '1') then codes (if g.length = 2 then ['0', '1'] else "2000".toList)
  else codes (if g.length = 2 then ['1', '0'] else "1990".toList)

theorem otherGroup_two (h : b.length = 2) : (otherGroup b).length = 2 ∧
    (otherGroup b).head? ≠ b.head? ∧ (∀ c ∈ otherGroup b, isAsciiDigit c = true) ∧
      inRange 1 12 (parseDecimal (otherGroup b)) = true := by
  rw [otherGroup, if_pos h, if_pos h]
  by_cases hone : b.head? = some (byteOf '1')
  · rw [if_pos hone, hone]
    exact ⟨rfl, by decide, List.all_eq_true.mp (by decide), by decide⟩
  · rw [if_neg hone]
    exact ⟨rfl, fun heq => hone heq.symm, List.all_eq_true.mp (by decide), by decide⟩

theorem otherGroup_four (h : b.length = 4) : (otherGroup b).length = 4 ∧
    (otherGroup b).head? ≠ b.head? ∧ (∀ c ∈ otherGroup b, isAsciiDigit c = true) ∧
      inRange dobYearLower dobYearUpper (parseDecimal (otherGroup b)) = true := by
  have htwo : b.length ≠ 2 := by omega
  rw [otherGroup, if_neg htwo, if_neg htwo]
  by_cases hone : b.head? = some (byteOf '1')
  · rw [if_pos hone, hone]
    exact ⟨rfl, by decide, List.all_eq_true.mp (by decide), by decide⟩
  · rw [if_neg hone]
    exact ⟨rfl, fun heq => hone heq.symm, List.all_eq_true.mp (by decide), by decide⟩

namespace DateLayout

theorem IsDate.other_first (h : L.IsDate g₁ g₂ g₃) :
    L.IsDate (otherGroup g₁) g₂ g₃ ∧ (otherGroup g₁).head? ≠ g₁.head? := by
  have hranges := h.inRanges
  have hrest : ∀ c ∈ g₂ ++ g₃, isAsciiDigit c = true :=
    fun c hc => h.digits c (List.mem_append_right _ hc)
  have hdigits : ∀ {g : Bytes}, (∀ c ∈ g, isAsciiDigit c = true) →
      ∀ c ∈ g ++ (g₂ ++ g₃), isAsciiDigit c = true := by
    intro g hg c hc
    exact (List.mem_append.mp hc).elim (hg c) (hrest c)
  cases L with
  | iso =>
    obtain ⟨hlen, hne, hg, hrange⟩ := otherGroup_four h.first
    simp only [ranges, Bool.and_eq_true] at hranges
    exact ⟨⟨hlen, h.second, h.third, hdigits hg, by simp [ranges, hrange, hranges]⟩, hne⟩
  | slash =>
    obtain ⟨hlen, hne, hg, hrange⟩ := otherGroup_two h.first
    refine ⟨⟨hlen, h.second, h.third, hdigits hg, ?_⟩, hne⟩
    simp only [ranges, Bool.and_eq_true, Bool.or_eq_true, inRange_iff] at hranges hrange ⊢
    omega
  | dot =>
    obtain ⟨hlen, hne, hg, hrange⟩ := otherGroup_two h.first
    refine ⟨⟨hlen, h.second, h.third, hdigits hg, ?_⟩, hne⟩
    simp only [ranges, Bool.and_eq_true, inRange_iff] at hranges hrange ⊢
    omega

theorem IsDate.other_second (h : L.IsDate g₁ g₂ g₃) :
    L.IsDate g₁ (otherGroup g₂) g₃ ∧ (otherGroup g₂).head? ≠ g₂.head? := by
  have hranges := h.inRanges
  obtain ⟨hlen, hne, hg, hrange⟩ := otherGroup_two h.second
  refine ⟨⟨h.first, hlen, h.third, fun c hc => ?_, ?_⟩, hne⟩
  · simp only [List.mem_append] at hc
    rcases hc with hc | hc | hc
    · exact h.first_digits c hc
    · exact hg c hc
    · exact h.third_digits c hc
  · cases L <;>
      simp only [ranges, Bool.and_eq_true, Bool.or_eq_true, inRange_iff] at hranges hrange ⊢ <;>
      omega

theorem IsDate.other_year (h : L.IsDate g₁ g₂ g₃) (hL : L ≠ iso) :
    L.IsDate g₁ g₂ (otherGroup g₃) ∧ (otherGroup g₃).head? ≠ g₃.head? := by
  cases L with
  | iso => exact absurd rfl hL
  | slash | dot =>
    obtain ⟨hlen, hne, hg, hrange⟩ := otherGroup_four h.third
    exact ⟨h.change_last (hlen.trans h.third.symm) hg hrange, hne⟩

end DateLayout

theorem codes_injective (h : codes s = codes t) (ht : ∀ c ∈ t, isDateChar (byteOf c) = true) :
    s = t := by
  induction t generalizing s with
  | nil => simpa using h
  | cons c t ih =>
    cases s with
    | nil => simp at h
    | cons b s =>
      rw [codes, codes, List.map_cons, List.map_cons, List.cons_eq_cons] at h
      have hc := DateLayout.isDateChar_ascii _ (ht c List.mem_cons_self)
      rw [Utf8.eq_of_byteOf (Utf8.byteOf_lt_iff.mp hc) h.1,
        ih h.2 fun c hc => ht c (List.mem_cons_of_mem _ hc)]

/-- There is a date that differs where a group begins, and of an ISO date the day need not
change. -/
theorem DateLayout.Accepts.exists_other (hd : L.Accepts d)
    (ha : a = 0 ∨ a = L.width + 1 ∨ (a = L.width + 4 ∧ L ≠ .iso)) :
    ∃ d', L.Accepts d' ∧ (L = .iso → d.drop 8 = d'.drop 8) ∧ d'[a]? ≠ d[a]? := by
  obtain ⟨g₁, g₂, g₃, hcodes, hg⟩ := accepts_iff.mp hd
  have differ : ∀ {q₁ q₂ q₃ : Bytes}, L.IsDate q₁ q₂ q₃ → (L = .iso → q₃ = g₃) →
      ((L.join q₁ q₂ q₃).drop a).head? ≠ ((L.join g₁ g₂ g₃).drop a).head? →
        ∃ d', L.Accepts d' ∧ (L = .iso → d.drop 8 = d'.drop 8) ∧ d'[a]? ≠ d[a]? := by
    intro q₁ q₂ q₃ hq hday hne
    obtain ⟨d', hcodes', hd'⟩ := exists_accepted hq
    refine ⟨d', hd', ?_, fun heq => hne ?_⟩
    · rintro rfl
      refine codes_injective ?_ fun c hc => hd'.chars c (List.mem_of_mem_drop hc)
      rw [codes, codes, List.map_drop, List.map_drop, ← codes, ← codes, hcodes, hcodes']
      exact hg.drop_third.trans ((hday rfl).symm.trans hq.drop_third.symm)
    · rw [List.head?_drop, List.head?_drop, ← hcodes, ← hcodes', codes, codes, List.getElem?_map,
        List.getElem?_map, heq]
  rcases ha with rfl | rfl | ⟨rfl, hL⟩
  · obtain ⟨hq, hne⟩ := hg.other_first
    refine differ hq (fun _ => rfl) ?_
    have hpos : ∀ {q : Bytes}, L.IsDate q g₂ g₃ → (L.join q g₂ g₃).head? = q.head? := by
      intro q hq
      have hlen := hq.first
      have hwidth := L.width_cases
      rw [join, List.head?_append_of_ne_nil _ (List.ne_nil_of_length_pos (by omega))]
    rw [List.drop_zero, List.drop_zero, hpos hq, hpos hg]
    exact hne
  · obtain ⟨hq, hne⟩ := hg.other_second
    refine differ hq (fun _ => rfl) ?_
    have hpos : ∀ {q : Bytes}, L.IsDate g₁ q g₃ → (q ++ L.sep :: g₃).head? = q.head? := by
      intro q hq
      have hlen := hq.second
      rw [List.head?_append_of_ne_nil _ (List.ne_nil_of_length_pos (by omega))]
    rw [hq.drop_second, hg.drop_second, hpos hq, hpos hg]
    exact hne
  · obtain ⟨hq, hne⟩ := hg.other_year hL
    refine differ hq (fun h => absurd h hL) ?_
    rw [hq.drop_third, hg.drop_third]
    exact hne

/-- The dates that overlap what is left of this one take all of its digits. -/
def Spent (f : Framed Char) : Prop :=
  ∀ c ∈ (f.left.drop (f.taken dobMatcher)).take (f.kept dobMatcher), isAsciiDigit (byteOf c) = false

/-- The date stands whole, and no date that begins before runs into it. -/
def Intact (d : Text) (f : Framed Char) : Prop := f.left = d ∧ f.taken dobMatcher = 0

theorem DateLayout.Accepts.month_digit (hd : DateLayout.iso.Accepts d) :
    ((codes d)[5]?).any isAsciiDigit = true := by
  obtain ⟨g₁, g₂, g₃, hcodes, hg⟩ := accepts_iff.mp hd
  rw [hcodes]
  by_contra hno
  have hsep := (hg.digit_at (n := 5) (by decide)).mp (by simpa using hno)
  exact absurd hsep (by decide)

namespace Shown

/-- Nothing behind a placeholder is taken. -/
theorem taken_broken (h : Shown L F X Y i k) (hd : L.Accepts d) (hi : 0 < i) :
    (F d).taken dobMatcher = 0 := by
  by_contra hne
  obtain ⟨u, v, hX, hv, hm⟩ := Scan.overrun_pos (Nat.pos_of_ne_zero hne)
  rw [h.frame d hd] at hX hm hne
  obtain ⟨w, rfl⟩ := h.ends_bracket hi hX hv
  rw [List.append_assoc, List.singleton_append,
    (dobRecogniser.separates (c := ']') (by decide)).stop] at hm
  have hle := dobMatcher.le hm
  rw [List.length_append, List.length_singleton] at hle
  omega

/-- A date that begins before takes the first group, or what is left of it. -/
theorem taken_whole (h : Shown L F X Y 0 k) (hd : L.Accepts d) :
    (F d).taken dobMatcher = 0 ∨ (F d).taken dobMatcher = min k L.width := by
  rcases Nat.eq_zero_or_pos ((F d).taken dobMatcher) with hzero | hpos
  · exact .inl hzero
  · right
    obtain ⟨u, v, hX, hv, hm⟩ := Scan.overrun_pos hpos
    rw [← Framed.taken, h.frame d hd] at hm
    rw [h.frame d hd] at hX hpos ⊢
    generalize (Framed.mk X ((d.drop 0).take k) Y).taken dobMatcher = t at hm hpos ⊢
    obtain ⟨-, hten, L', g₁, g₂, g₃, rest, hw⟩ := dobMatcher_iff.mp hm
    obtain ⟨hsplit, hlast, -⟩ := h.begins hd hX hv (by omega) hw
    have hlen := congrArg List.length hsplit
    have hrun := congrArg List.length hlast
    rw [List.length_take, List.length_map, hd.length] at hrun
    have hwidth := L.width_cases
    have hdate := hw.date.length
    rw [DateLayout.join] at hdate
    simp only [List.length_map, List.length_append, List.length_cons, List.length_nil] at hlen hdate
    omega

theorem taken_kept (h : Shown L F X Y i k) (hd : L.Accepts d) (hl : 0 < (F d).kept dobMatcher) :
    (F d).taken dobMatcher + (F d).kept dobMatcher ≤ k := by
  have hle : (F d).kept dobMatcher ≤ ((F d).left.drop ((F d).taken dobMatcher)).length :=
    Scan.entry_le
  rw [List.length_drop, congrArg Framed.left (h.frame d hd), h.length hd] at hle
  omega

/-- Of an ISO date what is left begins before the month. -/
theorem starts (h : Shown L F X Y i k) (hd : L.Accepts d) (hL : L = .iso) :
    i + (F d).taken dobMatcher ≤ 4 := by
  subst hL
  rcases Nat.eq_zero_or_pos i with rfl | hi
  · have hwidth : DateLayout.iso.width = 4 := rfl
    have htaken := h.taken_whole hd
    omega
  · rw [h.taken_broken hd hi, Nat.add_zero]
    by_contra hlt
    obtain ⟨g₁, g₂, g₃, hcodes, hg⟩ := DateLayout.accepts_iff.mp hd
    have hten := hd.length
    have hdash : codes [d[4]] = [byteOf '-'] := by
      have hat : (codes d)[4]? = some (byteOf '-') := by
        rw [hcodes, DateLayout.join, List.getElem?_append_right (by rw [hg.first]; decide),
          hg.first]
        rfl
      rw [codes, List.getElem?_map, List.getElem?_eq_getElem (by omega)] at hat
      simpa using hat
    have hread := h.read d hd d[4] (List.mem_take_iff_getElem.mpr ⟨4, by omega, rfl⟩)
    rw [List.cons_eq_cons.mp hdash |>.1] at hread
    exact absurd hread (by decide)

/-- What the date pass leaves. -/
theorem remains (h : Shown L F X Y i k) (hd : L.Accepts d) :
    ((F d).left.drop ((F d).taken dobMatcher)).take ((F d).kept dobMatcher) =
      (d.drop (i + (F d).taken dobMatcher)).take ((F d).kept dobMatcher) := by
  rcases Nat.eq_zero_or_pos ((F d).kept dobMatcher) with hzero | hpos
  · rw [hzero, List.take_zero, List.take_zero]
  · have hle := h.taken_kept hd hpos
    rw [congrArg Framed.left (h.frame d hd), List.drop_take, List.take_take, List.drop_drop,
      Nat.min_eq_left (by omega)]

theorem spent_iff (h : Shown L F X Y i k) (hd : L.Accepts d) : Spent (F d) ↔
    ∀ a, i + (F d).taken dobMatcher ≤ a →
      a < i + (F d).taken dobMatcher + (F d).kept dobMatcher →
        ((codes d)[a]?).any isAsciiDigit = false := by
  rw [Spent, h.remains hd]
  generalize i + (F d).taken dobMatcher = s
  generalize (F d).kept dobMatcher = l
  constructor
  · intro hall a hle hlt
    rw [codes, List.getElem?_map]
    cases hc : d[a]? with
    | none => rfl
    | some c =>
      refine hall c (List.mem_iff_getElem?.mpr ⟨a - s, ?_⟩)
      rw [List.getElem?_take_of_lt (by omega), List.getElem?_drop, Nat.add_sub_cancel' hle, hc]
  · intro hall c hc
    obtain ⟨j, hj⟩ := List.mem_iff_getElem?.mp hc
    have hlt : j < l := by
      by_contra hge
      rw [List.getElem?_take_eq_none (Nat.not_lt.mp hge)] at hj
      simp at hj
    rw [List.getElem?_take_of_lt hlt, List.getElem?_drop] at hj
    have hdigit := hall (s + j) (Nat.le_add_right ..) (Nat.add_lt_add_left hlt s)
    rwa [codes, List.getElem?_map, hj] at hdigit

/-- A date that is intact is replaced. -/
theorem spent_of_intact (h : Shown L F X Y i k) (hd : L.Accepts d) (hi : Intact d (F d)) :
    Spent (F d) := by
  obtain ⟨hleft, htaken⟩ := hi
  have hlen := congrArg List.length (congrArg Framed.left (h.frame d hd))
  rw [hleft, hd.length, h.length hd] at hlen
  have hle := h.le
  obtain rfl : i = 0 := by omega
  have hp : dobRecogniser.touches (lastOr none X) = false := by
    rw [lastOr, Option.or_none]
    exact h.wholeFront rfl
  have hkept : (F d).kept dobMatcher = 0 := by
    rw [Framed.kept, htaken, hleft, congrArg Framed.before (h.frame d hd),
      congrArg Framed.behind (h.frame d hd)]
    refine Scan.entry_eq (Nat.zero_le _) (fun j hj => absurd hj (Nat.not_lt_zero j)) fun _ => ?_
    have hm := dobMatcher_date hd hp (h.wholeBack (by omega))
    simp [hm]
  intro c hc
  simp [hkept] at hc

theorem cut_taken (h : Shown L F X Y i k) (hd : L.Accepts d) (hl : 0 < (F d).kept dobMatcher) :
    CutAt (codes d) (i + (F d).taken dobMatcher) := by
  have hsum := h.taken_kept hd hl
  rcases Nat.eq_zero_or_pos ((F d).taken dobMatcher) with hzero | hpos
  · rw [hzero]
    exact h.cutFront d hd
  · obtain rfl : i = 0 := by
      by_contra hi
      rw [h.taken_broken hd (Nat.pos_of_ne_zero hi)] at hpos
      exact absurd hpos (Nat.lt_irrefl 0)
    have htaken : (F d).taken dobMatcher = L.width := by
      have htaken := h.taken_whole hd
      omega
    obtain ⟨g₁, g₂, g₃, hcodes, hg⟩ := DateLayout.accepts_iff.mp hd
    right
    rw [Stops, List.head?_drop, hcodes, Nat.zero_add, htaken]
    have hwidth := L.width_cases
    exact (hg.digit_at (by omega)).mpr (.inl rfl)

/-- Where digits are left the first of them opens a group, and it is not the day of an ISO date. -/
theorem first_digit (h : Shown L F X Y i k) (hd : L.Accepts d) (hnot : ¬ Spent (F d)) :
    ∃ a, i + (F d).taken dobMatcher ≤ a ∧
      a < i + (F d).taken dobMatcher + (F d).kept dobMatcher ∧
        (a = 0 ∨ a = L.width + 1 ∨ (a = L.width + 4 ∧ L ≠ .iso)) := by
  classical
  have hleft : ∃ a, i + (F d).taken dobMatcher ≤ a ∧
      a < i + (F d).taken dobMatcher + (F d).kept dobMatcher ∧
        ((codes d)[a]?).any isAsciiDigit = true := by
    rw [h.spent_iff hd] at hnot
    push Not at hnot
    simpa using hnot
  obtain ⟨hle, hlt, hdigit⟩ := Nat.find_spec hleft
  have hleast := fun {b} hb => Nat.find_min hleft (m := b) hb
  generalize Nat.find hleft = a at *
  have hsum := h.taken_kept hd (by omega)
  have hten := hd.length
  have hk := h.le
  have hcut : CutAt (codes d) a := by
    rcases Nat.eq_or_lt_of_le hle with rfl | hbehind
    · exact h.cut_taken hd (by omega)
    · left
      have hbefore := hleast (b := a - 1) (by omega)
      rw [List.getLast?_eq_getElem?, List.length_take_of_le (by simp; omega),
        List.getElem?_take_of_lt (by omega)]
      by_contra hyes
      exact hbefore ⟨by omega, by omega, by simpa using hyes⟩
  refine ⟨a, hle, hlt, ?_⟩
  rcases hd.group_start hdigit (by omega) hcut with hzero | hsecond | hthird
  · exact .inl hzero
  · exact .inr (.inl hsecond)
  · refine .inr (.inr ⟨hthird, ?_⟩)
    rintro rfl
    have hstart := h.starts hd rfl
    have height : a = 8 := hthird
    exact hleast (b := 5) (by omega) ⟨by omega, by omega, hd.month_digit⟩

/-- Where no digits are left the date pass writes the same for all dates. -/
theorem pass_eq (h : Shown L F X Y i k) (hd : L.Accepts d) (hd' : L.Accepts d')
    (hs : Spent (F d)) :
    ((F d').pass dobMatcher redactedDob).whole = ((F d).pass dobMatcher redactedDob).whole := by
  have htwins : Framed.Twins dobMatcher (F d) (F d') := by
    refine h.twins hd hd' ?_
    rintro rfl j hle hge hday
    have hstart := h.starts hd rfl
    have hmonth := (h.spent_iff hd).mp hs 5 (by omega) (by omega)
    rw [hd.month_digit] at hmonth
    exact absurd hmonth (by decide)
  obtain ⟨hbefore, hleft, hbehind⟩ := htwins.pass (R := redactedDob)
  have hremains := h.remains hd'
  rw [htwins.taken, htwins.kept] at hremains
  rw [Spent, h.remains hd] at hs
  have hsame := (hd.shape hd' (i + (F d).taken dobMatcher) ((F d).kept dobMatcher)).eq_of_digitless
    (List.forall_mem_map.mpr hs)
  have htext := codes_injective hsame fun c hc =>
    hd'.chars c (List.mem_of_mem_drop (List.mem_of_mem_take hc))
  rw [Framed.whole, Framed.whole, hbefore, hbehind, hleft, hremains, ← htext, ← h.remains hd]
  rfl

/-- Where digits are left it writes them. -/
theorem exists_pass_ne (h : Shown L F X Y i k) (hd : L.Accepts d) (hnot : ¬ Spent (F d)) :
    ∃ d', L.Accepts d' ∧
      ((F d').pass dobMatcher redactedDob).whole ≠ ((F d).pass dobMatcher redactedDob).whole := by
  obtain ⟨a, hle, hlt, ha⟩ := h.first_digit hd hnot
  obtain ⟨d', hd', hday, hne⟩ := hd.exists_other ha
  refine ⟨d', hd', fun heq => hne ?_⟩
  have htwins := h.twins hd hd' fun hL _ _ _ _ => hday hL
  obtain ⟨hbefore, hleft, hbehind⟩ := htwins.pass (R := redactedDob)
  rw [Framed.whole, Framed.whole, hbefore, hbehind, List.append_cancel_left_eq,
    List.append_cancel_right_eq] at heq
  have hremains := h.remains hd'
  rw [htwins.taken, htwins.kept] at hremains
  rw [hleft, hremains, show ((F d).pass dobMatcher redactedDob).left = _ from h.remains hd] at heq
  obtain ⟨j, rfl⟩ := Nat.exists_eq_add_of_le hle
  have hat := congrArg (·[j]?) heq
  rwa [List.getElem?_take_of_lt (by omega), List.getElem?_take_of_lt (by omega),
    List.getElem?_drop, List.getElem?_drop] at hat

end Shown

/-- What surrounds a date when the date pass comes to it, and what is left of the date. -/
def reached (pre d post : Text) : Framed Char :=
  emailPass (((Framed.mk pre d post).pass ipv6Matcher redactedIp).pass ipv4Matcher redactedIp)

theorem whole_reached (hd : L.Accepts d) :
    ((reached pre d post).pass dobMatcher redactedDob).whole = stripPii (pre ++ (d ++ post)) := by
  have hat : '@' ∉ (((Framed.mk pre d post).pass ipv6Matcher redactedIp).pass ipv4Matcher
      redactedIp).left :=
    fun h => hd.no_at (List.mem_of_mem_drop (List.mem_of_mem_take
      (List.mem_of_mem_drop (List.mem_of_mem_take h))))
  rw [Framed.whole_pass, reached, whole_emailPass hat, Framed.whole_pass, Framed.whole_pass,
    stripPii, stripDobPatterns_eq_scan, stripIpv4_eq_scan, stripIpv6_eq_scan]
  rfl

theorem Gone.map {g : Framed Char → Framed Char} (h : Gone L F)
    (hg : ∀ X Y, (g ⟨X, [], Y⟩).left = []) : Gone L fun d => g (F d) := by
  obtain ⟨X, Y, hF⟩ := h
  let f := g ⟨X, [], Y⟩
  refine ⟨f.before, f.behind, fun d hd => ?_⟩
  have heq : g (F d) = f := congrArg g (hF d hd)
  exact heq.trans (congrArg (Framed.mk f.before · f.behind) (hg X Y))

theorem Gone.pass {m : Scan.Matcher Char} {R : Text} (h : Gone L F) :
    Gone L fun d => (F d).pass m R :=
  h.map fun X Y => by simp [Framed.pass]

theorem Gone.emails (h : Gone L F) : Gone L fun d => emailPass (F d) :=
  h.map fun X Y => by simp [emailPass, popChars_eq]

theorem grouped_whole
    (hpre : pre.getLast?.any (fun c => isAsciiAlphanumeric (byteOf c)) = false)
    (hpost : Opens post) : Grouped L (fun d => ⟨pre, d, post⟩) pre post 0 10 where
  frame d hd := by rw [List.drop_zero, List.take_of_length_le hd.length.le]
  pos := by decide
  le := le_rfl
  cutFront _ _ := .inl rfl
  wholeFront _ := hpre
  brokenFront h := absurd h (Nat.lt_irrefl 0)
  wholeBack _ := hpost
  brokenBack h := absurd h (by decide)
  read _ _ _ hc := by simp at hc
  cutBack d hd := .inr (by
    have hten := hd.length
    rw [List.drop_of_length_le (by simp; omega)]
    rfl)

/-- The passes in front of the date pass leave the same of every date. -/
theorem reached_cases (hpre : pre.getLast?.any (fun c => isAsciiAlphanumeric (byteOf c)) = false)
    (hpost : Opens post) (hd : L.Accepts d) : Gone L (fun d => reached pre d post) ∨
      ∃ X Y i k, Shown L (fun d => reached pre d post) X Y i k := by
  rcases (grouped_whole hpre hpost).pass addressPass_ipv6 hd with hgone | ⟨X₁, Y₁, h₁⟩
  · exact .inl hgone.pass.emails
  · rcases h₁.pass addressPass_ipv4 hd with hgone | ⟨X₂, Y₂, h₂⟩
    · exact .inl hgone.emails
    · rcases h₂.emails hd with hgone | ⟨X₃, Y₃, k₃, h₃⟩
      · exact .inl hgone
      · exact .inr ⟨X₃, Y₃, _, k₃, h₃⟩

theorem opens_of_bytes (hpost : (asBytes post).head?.any isAsciiAlphanumeric = false)
    (htime : timeSeparatorAt (asBytes post) 0 = false) : Opens post := by
  refine ⟨?_, ?_⟩
  · rw [Utf8.head?_asBytes] at hpost
    rw [Stops, codes, List.head?_map]
    exact hpost
  · obtain ⟨u, v, v', hbytes, hcodes, hv, hv'⟩ := exists_ascii_prefix isDobChar_ascii post
    rw [hbytes, timeSeparatorAt_append hv (Nat.zero_le _)] at htime
    rw [hcodes, timeSeparatorAt_append hv' (Nat.zero_le _), htime]

/-- All dates leave the same text if and only if of none of them a digit is left. -/
theorem indistinct_iff_spent
    (hpre : pre.getLast?.any (fun c => isAsciiAlphanumeric (byteOf c)) = false)
    (hpost : Opens post) :
    (∀ d₁ d₂, L.Accepts d₁ → L.Accepts d₂ →
      stripPii (pre ++ (d₁ ++ post)) = stripPii (pre ++ (d₂ ++ post))) ↔
        ∀ d, L.Accepts d → Spent (reached pre d post) := by
  constructor
  · intro hsame d hd
    rcases reached_cases hpre hpost hd with ⟨X, Y, hgone⟩ | ⟨X, Y, i, k, h⟩
    · have hnil : reached pre d post = ⟨X, [], Y⟩ := hgone d hd
      intro c hc
      simp [hnil] at hc
    · by_contra hnot
      obtain ⟨d', hd', hne⟩ := h.exists_pass_ne hd hnot
      rw [whole_reached hd, whole_reached hd'] at hne
      exact hne (hsame d' d hd' hd)
  · intro hall d₁ d₂ hd₁ hd₂
    rw [← whole_reached hd₁, ← whole_reached hd₂]
    rcases reached_cases hpre hpost hd₁ with ⟨X, Y, hgone⟩ | ⟨X, Y, i, k, h⟩
    · exact congrArg (fun f => (f.pass dobMatcher redactedDob).whole)
        ((hgone d₁ hd₁).trans (hgone d₂ hd₂).symm)
    · exact (h.pass_eq hd₁ hd₂ (hall d₁ hd₁)).symm

end ProviiAudit
