import ProviiAudit.Sanitize.DateTraces
import ProviiAudit.Sanitize.Items
import ProviiAudit.Sanitize.Placeholders

/-! When every pass takes all of a date or nothing. -/
namespace ProviiAudit

open Utf8 (Text asBytes byteOf)
open Span (Stops)
open Scan (Clean Framed lastOr Untouched)

variable {L : DateLayout} {F : Text → Framed Char} {X Y a d pre post out u v x y : Text}
  {r : Recogniser} {i k n : Nat}

theorem emailTo_skip (h : x.length ≤ k) : emailTo a out k x y = (out, k - x.length) := by
  induction x generalizing a k with
  | nil => rfl
  | cons c x ih =>
    rw [List.length_cons] at h ⊢
    obtain ⟨k, rfl⟩ := Nat.exists_eq_add_of_le' (Nat.one_le_of_lt h)
    rw [emailTo, ih (by omega), Nat.add_sub_add_right]

/-- A domain that begins in front is read as far as it reaches: no earlier one holds its `@`. -/
theorem emailTo_domain (hk : '@' ∉ (u ++ '@' :: v).take k)
    (hm : addressLen (a ++ u) (v ++ y) = some n) (hn : v.length ≤ n) :
    (emailTo a out k (u ++ '@' :: v) y).2 = n - v.length := by
  induction u generalizing a out k with
  | nil =>
    obtain rfl : k = 0 := by
      by_contra hne
      obtain ⟨k, rfl⟩ := Nat.exists_eq_succ_of_ne_zero hne
      simp at hk
    rw [List.append_nil] at hm
    rw [List.nil_append, emailTo, if_pos rfl, hm]
    dsimp only
    rw [emailTo_skip hn]
  | cons c u ih =>
    rw [List.append_cons] at hm
    cases k with
    | succ k =>
      rw [List.cons_append, emailTo]
      refine ih (fun hmem => hk ?_) hm
      rw [List.cons_append, List.take_succ_cons]
      exact List.mem_cons_of_mem c hmem
    | zero =>
      rw [List.cons_append, emailTo]
      cases hc : if c = '@' then addressLen a (u ++ '@' :: v ++ y) else none with
      | none => exact ih (by simp) hm
      | some j =>
        refine ih (fun hmem => ?_) hm
        have hat : c = '@' := by
          by_contra hne
          simp [hne] at hc
        rw [if_pos hat] at hc
        obtain ⟨w, z, hsplit, rfl⟩ := Span.exists_split (addressLen_le hc)
        rw [hsplit] at hc
        have hpre := (List.prefix_append (u ++ '@' :: v) y).take w.length
        rw [hsplit, List.take_left] at hpre
        exact no_at_in_domain hc (hpre.subset hmem)

/-- The text in front of the IPv4 pass, split around what is left of the date. -/
def beforeQuads (pre d post : Text) : Framed Char := (Framed.mk pre d post).pass ipv6Matcher redactedIp

/-- The text in front of the email pass. -/
def beforeEmails (pre d post : Text) : Framed Char :=
  (beforeQuads pre d post).pass ipv4Matcher redactedIp

/-- A domain that begins in front runs into the stretch, or the addresses behind it reach back over
all of it or nothing. -/
def AllOrNothing (X e Y : Text) : Prop :=
  (∃ u v n, X = u ++ '@' :: v ∧ addressLen u (v ++ (e ++ Y)) = some n ∧ v.length < n) ∨
    reach (X ++ e) 0 Y = 0 ∨ e.length ≤ reach (X ++ e) 0 Y

/-- In the text that it receives, no pass finds anything that overlaps a part of the date. -/
structure Spared (pre d post : Text) : Prop where
  ipv6 : Untouched ipv6Matcher pre d post
  ipv4 : Untouched ipv4Matcher (beforeQuads pre d post).before d (beforeQuads pre d post).behind
  email : AllOrNothing (beforeEmails pre d post).before d (beforeEmails pre d post).behind
  dob : (reached pre d post).left = d → (reached pre d post).taken dobMatcher = 0

theorem emailPass_left {f : Framed Char} (hd : L.Accepts f.left)
    (h : AllOrNothing f.before f.left f.behind) :
    (emailPass f).left = [] ∨ (emailPass f).left = f.left := by
  have hover := emailTo_date (x := f.before) (y := f.behind) (e := f.left) hd.chars
  obtain ⟨w, hw⟩ : ∃ w, emailTo [] [] 0 f.before (f.left ++ f.behind) = w := ⟨_, rfl⟩
  have hleft : (emailPass f).left =
      popChars (reach (f.before ++ f.left) (w.2 - f.left.length) f.behind) (f.left.drop w.2) := by
    rw [emailPass, hw, owed_eq_reach]
  rw [hw] at hover
  rcases hover with hzero | hlong
  · rw [hzero, Nat.zero_sub, List.drop_zero] at hleft
    rcases h with ⟨u, v, n, hX, hm, hn⟩ | hnone | hall
    · have hskip : (emailTo [] [] 0 f.before (f.left ++ f.behind)).2 = n - v.length := by
        rw [hX]
        exact emailTo_domain (by simp) hm hn.le
      rw [hw, hzero] at hskip
      omega
    · rw [hnone, popChars_zero] at hleft
      exact .inr hleft
    · rw [popChars_of_length_le hall] at hleft
      exact .inl hleft
  · rw [List.drop_of_length_le hlong.le, popChars_of_length_le (Nat.zero_le _)] at hleft
    exact .inl hleft

theorem Spared.left (h : Spared pre d post) (hd : L.Accepts d) :
    (beforeQuads pre d post).left = d ∧ (beforeEmails pre d post).left = d ∧
      ((reached pre d post).left = [] ∨ (reached pre d post).left = d) := by
  have hquads : (beforeQuads pre d post).left = d :=
    Framed.pass_left (f := Framed.mk pre d post) (Framed.taken_of_untouched h.ipv6)
      (Framed.kept_of_untouched h.ipv6)
  have hemails : (beforeEmails pre d post).left = d := by
    have hipv4 : Untouched ipv4Matcher (beforeQuads pre d post).before
        (beforeQuads pre d post).left (beforeQuads pre d post).behind := by
      rw [hquads]
      exact h.ipv4
    exact (Framed.pass_left (Framed.taken_of_untouched hipv4)
      (Framed.kept_of_untouched hipv4)).trans hquads
  refine ⟨hquads, hemails, ?_⟩
  have hemail := h.email
  have hpass := emailPass_left (f := beforeEmails pre d post) (hemails.symm ▸ hd)
  rw [hemails] at hpass
  exact hpass hemail

/-- Of a date that is spared no digits are left. -/
theorem Spared.spent (h : Spared pre d post) (hd : L.Accepts d)
    (hpre : pre.getLast?.any (fun c => isAsciiAlphanumeric (byteOf c)) = false)
    (hpost : Opens post) : Spent (reached pre d post) := by
  have hgone : (reached pre d post).left = [] → Spent (reached pre d post) := by
    intro hnil c hc
    simp [hnil] at hc
  obtain ⟨-, -, hnil | hwhole⟩ := h.left hd
  · exact hgone hnil
  · rcases reached_cases hpre hpost hd with ⟨X, Y, hframe⟩ | ⟨X, Y, i, k, hshown⟩
    · exact hgone (congrArg Framed.left (hframe d hd))
    · exact hshown.spent_of_intact hd ⟨hwhole, h.dob hwhole⟩

theorem DateLayout.Accepts.middle_digit (hd : L.Accepts d) :
    ((codes d)[L.width + 1]?).any isAsciiDigit = true := by
  obtain ⟨g₁, g₂, g₃, hcodes, hg⟩ := accepts_iff.mp hd
  have hwidth := L.width_cases
  rw [hcodes]
  by_contra hno
  have hsep := (hg.digit_at (n := L.width + 1) (by omega)).mp (by simpa using hno)
  omega

theorem Shown.whole_of_spent (h : Shown L F X Y i k) (hd : L.Accepts d) (hs : Spent (F d))
    (hi : i ≤ L.width) (hk : L.width + 3 ≤ i + k) :
    i = 0 ∧ k = 10 ∧ (F d).taken dobMatcher = 0 := by
  have hle := h.le
  have hwidth := L.width_cases
  have hfront : i + (F d).taken dobMatcher ≤ L.width := by
    rcases Nat.eq_zero_or_pos i with rfl | hpos
    · have htaken := h.taken_whole hd
      omega
    · rw [h.taken_broken hd hpos]
      exact hi
  -- the pass comes to a date at the middle group or before
  have hstart : i + (F d).taken dobMatcher + (F d).kept dobMatcher ≤ L.width + 1 := by
    by_contra hlt
    have hmiddle := (h.spent_iff hd).mp hs (L.width + 1) (by omega) (by omega)
    rw [hd.middle_digit] at hmiddle
    simp at hmiddle
  have hlen := h.length hd
  obtain ⟨n, hm⟩ := Framed.match_kept (m := dobMatcher) (f := F d) (by
    rw [congrArg Framed.left (h.frame d hd), hlen]
    omega)
  generalize hj : (F d).taken dobMatcher + (F d).kept dobMatcher = j at hm
  rw [congrArg Framed.before (h.frame d hd), congrArg Framed.left (h.frame d hd),
    congrArg Framed.behind (h.frame d hd)] at hm
  obtain ⟨-, rfl, L', q₁, q₂, q₃, rest, hw⟩ := dobMatcher_iff.mp hm
  have hten := h.unbroken hd hm
  rcases h.group_start hd hten (by omega) hm with hzero | hsecond | hthird
  · omega
  · obtain ⟨g₁, g₂, g₃, hcodes, hg⟩ := DateLayout.accepts_iff.mp hd
    have hfull : ((d.drop i).take k).drop j = d.drop (L.width + 1) := by
      have hlen := hd.length
      rw [List.take_of_length_le (by simp; omega), List.drop_drop, hsecond]
    rw [hfull, codes_second hg hcodes] at hw
    exact absurd hw (not_second hg h.stopsDigit)
  · omega

/-- The separators of these layouts stand in no address. -/
theorem DateLayout.Accepts.separator (hd : L.Accepts d) (hL : L ≠ .dot) {n : Nat}
    (hn : n = L.width ∨ n = L.width + 3) :
    ∃ c, d[n]? = some c ∧ isIpv6Char (byteOf c) = false := by
  obtain ⟨g₁, g₂, g₃, hcodes, hg⟩ := accepts_iff.mp hd
  have hat : (codes d)[n]? = some L.sep := by
    rw [hcodes, join]
    rcases hn with rfl | rfl
    · rw [← hg.first, List.getElem?_append_right le_rfl, Nat.sub_self, List.getElem?_cons_zero]
    · rw [← hg.first, List.getElem?_append_right (Nat.le_add_right ..), Nat.add_sub_cancel_left,
        List.getElem?_cons_succ, ← hg.second, List.getElem?_append_right le_rfl, Nat.sub_self,
        List.getElem?_cons_zero]
  rw [codes, List.getElem?_map, Option.map_eq_some_iff] at hat
  obtain ⟨c, hc, hsep⟩ := hat
  refine ⟨c, hc, ?_⟩
  rw [hsep]
  cases L with
  | iso | slash => decide
  | dot => exact absurd rfl hL

theorem Recogniser.alphabet_at {p : Option Char} {s : Text} {j : Nat} {c : Char}
    (h : r.matcher.len p s = some n) (hj : j < n) (hc : s[j]? = some c) :
    r.alphabet (byteOf c) = true := by
  obtain ⟨w, z, rfl, rfl⟩ := Span.exists_split (r.matcher.le h)
  rw [List.getElem?_append_left hj] at hc
  exact r.matched_alphabet h c (List.mem_of_getElem? hc)

/-- An address takes one group at most at each end of such a date. -/
theorem Grouped.ends (h : Grouped L F X Y i k) (hr : AddressPass r) (hd : L.Accepts d)
    (hL : L ≠ .dot) (hi : i ≤ L.width) (hk : L.width + 4 ≤ i + k) :
    i + (F d).taken r.matcher ≤ L.width ∧
      L.width + 4 ≤ i + ((F d).taken r.matcher + (F d).kept r.matcher) := by
  have hlen := h.length hd
  have hleft : (F d).left = (d.drop i).take k := congrArg Framed.left (h.frame d hd)
  have hbehind : (F d).behind = Y := congrArg Framed.behind (h.frame d hd)
  have hat : ∀ n, i ≤ n → n < i + k → ((d.drop i).take k)[n - i]? = d[n]? := by
    intro n hin hn
    rw [List.getElem?_take_of_lt (by omega), List.getElem?_drop, Nat.add_sub_cancel' hin]
  constructor
  · by_contra hlt
    obtain ⟨c, hc, hsep⟩ := hd.separator hL (.inl rfl)
    obtain ⟨u, v, hX, -, hm⟩ := Scan.overrun_pos (m := r.matcher) (x := (F d).before)
      (y := (F d).left ++ (F d).behind) (show 0 < (F d).taken r.matcher by omega)
    rw [← Framed.taken, hleft] at hm
    have hletter := hr.letters _ (Recogniser.alphabet_at hm (j := v.length + (L.width - i))
      (by omega) (by
        rw [List.getElem?_append_right (Nat.le_add_right ..), Nat.add_sub_cancel_left,
          List.getElem?_append_left (by omega), hat _ hi (by omega), hc]))
    rw [hsep] at hletter
    simp at hletter
  · by_contra hlt
    obtain ⟨c, hc, hsep⟩ := hd.separator hL (.inr rfl)
    obtain ⟨n, hm⟩ := Framed.match_kept (m := r.matcher) (f := F d) (by
      rw [hleft, hlen]
      omega)
    generalize (F d).taken r.matcher + (F d).kept r.matcher = j at hm hlt
    rw [hleft, hbehind] at hm
    have hcovers := covers hr hd hm
    rw [hlen] at hcovers
    have hletter := hr.letters _ (Recogniser.alphabet_at hm (j := L.width + 3 - i - j)
      (by omega) (by
        rw [List.getElem?_append_left (by rw [List.length_drop, hlen]; omega), List.getElem?_drop,
          Nat.add_sub_cancel' (by omega), hat _ (by omega) (by omega), hc]))
    rw [hsep] at hletter
    simp at hletter

theorem Grouped.pass_ends (h : Grouped L F X Y i k) (hr : AddressPass r) (hd : L.Accepts d)
    (hL : L ≠ .dot) (hi : i ≤ L.width) (hk : L.width + 4 ≤ i + k) :
    ∃ X' Y', Grouped L (fun d => (F d).pass r.matcher redactedIp) X' Y'
      (i + (F d).taken r.matcher) ((F d).kept r.matcher) := by
  obtain ⟨hfront, hback⟩ := h.ends hr hd hL hi hk
  refine (h.pass hr hd).resolve_left ?_
  rintro ⟨X', Y', hgone⟩
  have hnil := congrArg (fun f => f.left.length) ((h.frame_pass hr hd hd).symm.trans (hgone d hd))
  have hle := h.le
  have hwidth := L.width_cases
  simp only [List.length_take, List.length_drop, List.length_nil, hd.length] at hnil
  omega

theorem emailTo_no_at (hx : '@' ∉ x) : emailTo a out 0 x y = (out ++ x, 0) := by
  induction x generalizing a out with
  | nil => rw [emailTo, List.append_nil]
  | cons c x ih =>
    rw [List.mem_cons, not_or] at hx
    rw [emailTo, if_neg (Ne.symm hx.1)]
    dsimp only
    rw [ih hx.2, List.append_assoc, List.singleton_append]

theorem emailPass_no_at {f : Framed Char} (h : '@' ∉ f.whole) : emailPass f = f := by
  simp only [Framed.whole, List.mem_append, not_or] at h
  obtain ⟨hbefore, -, hbehind⟩ := h
  rw [emailPass, emailTo_no_at hbefore]
  simp [emailRest_no_at hbehind]

theorem no_at_pass {m : Scan.Matcher Char} {f : Framed Char} (h : '@' ∉ f.whole) :
    '@' ∉ (f.pass m redactedIp).whole := by
  have hcount := Scan.count_scan_le (m := m) (R := redactedIp) (c := '@') (p := none) (s := f.whole)
    (by decide)
  rw [List.count_eq_zero.mpr h] at hcount
  rw [Framed.whole_pass]
  exact List.count_eq_zero.mp (by omega)

/-- A date that the address passes keep whole is spared where no email address stands around. -/
theorem spared_of_kept (h6 : (Framed.mk pre d post).taken ipv6Matcher = 0 ∧
      (Framed.mk pre d post).kept ipv6Matcher = d.length)
    (h4 : (beforeQuads pre d post).taken ipv4Matcher = 0 ∧
      (beforeQuads pre d post).kept ipv4Matcher = d.length)
    (hat : '@' ∉ (beforeEmails pre d post).behind)
    (hdob : (reached pre d post).taken dobMatcher = 0) : Spared pre d post := by
  have hquads : (beforeQuads pre d post).left = d := Framed.pass_left h6.1 h6.2
  refine ⟨?_, ?_, .inr (.inl ?_), fun _ => hdob⟩
  · exact (Framed.untouched_iff (f := Framed.mk pre d post) ipv6_disjoint).mpr h6
  · have huntouched := (Framed.untouched_iff (f := beforeQuads pre d post) ipv4_disjoint).mpr
      ⟨h4.1, h4.2.trans (congrArg List.length hquads.symm)⟩
    rwa [hquads] at huntouched
  · rw [← owed_eq_reach, emailRest_no_at hat]

/-- Without addresses a date of which nothing is left is spared. -/
theorem spared_of_spent (hL : L ≠ .dot) (hpre : '@' ∉ pre) (hpost : '@' ∉ post)
    (hlast : pre.getLast?.any (fun c => isAsciiAlphanumeric (byteOf c)) = false)
    (hopens : Opens post) (hd : L.Accepts d) (hs : Spent (reached pre d post)) :
    Spared pre d post := by
  have hwidth := L.width_cases
  have hten := hd.length
  have hat : '@' ∉ (beforeEmails pre d post).whole := by
    refine no_at_pass (no_at_pass ?_)
    simp [Framed.whole, hpre, hpost, hd.no_at]
  have hreached : reached pre d post = beforeEmails pre d post := emailPass_no_at hat
  have h₀ := grouped_whole (L := L) hlast hopens
  have hends₁ := h₀.ends addressPass_ipv6 hd hL (Nat.zero_le _) (by omega)
  obtain ⟨X₁, Y₁, h₁⟩ := h₀.pass_ends addressPass_ipv6 hd hL (Nat.zero_le _) (by omega)
  have hends₂ := h₁.ends addressPass_ipv4 hd hL hends₁.1 (by omega)
  obtain ⟨X₂, Y₂, h₂⟩ := h₁.pass_ends addressPass_ipv4 hd hL hends₁.1 (by omega)
  rw [hreached] at hs
  obtain ⟨hi, hk, htaken⟩ := h₂.whole_of_spent hd hs hends₂.1 (by omega)
  -- what is kept whole at the end was whole in front of each pass
  obtain ⟨hfirst, htaken₂⟩ := Nat.add_eq_zero_iff.mp hi
  have htaken₁ : (Framed.mk pre d post).taken ipv6Matcher = 0 := (Nat.zero_add _).symm.trans hfirst
  have hkept := Framed.kept_le (m := ipv6Matcher) (f := Framed.mk pre d post)
  have hkept' := Framed.kept_pass_le (m := ipv6Matcher) (R := redactedIp) (l := ipv4Matcher)
    (f := Framed.mk pre d post)
  have hk₁ : (Framed.mk pre d post).kept ipv6Matcher = d.length := by
    refine Nat.le_antisymm ?_ ((hten.trans hk.symm).le.trans hkept')
    dsimp only at hkept
    omega
  refine spared_of_kept ⟨htaken₁, hk₁⟩ ⟨htaken₂, hk.trans hten.symm⟩ (fun h => hat ?_) ?_
  · rw [Framed.whole]
    exact List.mem_append_right _ (List.mem_append_right _ h)
  · rw [hreached]
    exact htaken

/-- Sanitised text reveals nothing of a bounded date of birth when no pass finds anything that
overlaps a part of one. Where no email address stands around them, that is the only way for dates
whose separators belong to no address. -/
theorem date_indistinct (L : DateLayout) (pre post : Text)
    (hpre : (asBytes pre).getLast?.any isAsciiAlphanumeric = false)
    (hpost : (asBytes post).head?.any isAsciiAlphanumeric = false)
    (htime : timeSeparatorAt (asBytes post) 0 = false) :
    ((∀ d, L.Accepts d → Spared pre d post) → ∀ d₁ d₂, L.Accepts d₁ → L.Accepts d₂ →
        stripPii (pre ++ (d₁ ++ post)) = stripPii (pre ++ (d₂ ++ post))) ∧
      (L ≠ .dot → '@' ∉ pre → '@' ∉ post →
        ((∀ d₁ d₂, L.Accepts d₁ → L.Accepts d₂ →
          stripPii (pre ++ (d₁ ++ post)) = stripPii (pre ++ (d₂ ++ post))) ↔
            ∀ d, L.Accepts d → Spared pre d post)) := by
  have hlast : pre.getLast?.any (fun c => isAsciiAlphanumeric (byteOf c)) = false := by
    rwa [isAsciiAlphanumeric_ascii.getLast?_any] at hpre
  have hopens := opens_of_bytes hpost htime
  have hindistinct := indistinct_iff_spent (L := L) hlast hopens
  have hspent : (∀ d, L.Accepts d → Spared pre d post) →
      ∀ d, L.Accepts d → Spent (reached pre d post) :=
    fun h d hd => (h d hd).spent hd hlast hopens
  refine ⟨fun h => hindistinct.mpr (hspent h), fun hL hat hat' => ?_⟩
  refine ⟨fun h d hd => ?_, fun h => hindistinct.mpr (hspent h)⟩
  exact spared_of_spent hL hat hat' hlast hopens hd (hindistinct.mp h d hd)

theorem DateLayout.Accepts.dots (hd : L.Accepts d) : d.count '.' ≤ 2 := by
  obtain ⟨g₁, g₂, g₃, hcodes, hg⟩ := accepts_iff.mp hd
  have hdots := hg.dots
  rw [← hcodes] at hdots
  exact List.count_le_count_map.trans hdots

/-- A date begins with a digit. -/
theorem taken_of_no_digit {f : Framed Char}
    (h : (f.before.all fun c => !isAsciiDigit (byteOf c)) = true) : f.taken dobMatcher = 0 := by
  by_contra hne
  obtain ⟨u, v, hX, hv, hm⟩ := Scan.overrun_pos (Nat.pos_of_ne_zero hne)
  obtain ⟨-, -, L', g₁, g₂, g₃, rest, hw⟩ := dobMatcher_iff.mp hm
  obtain ⟨c, v, rfl⟩ := List.exists_cons_of_ne_nil hv
  have hletter := List.all_eq_true.mp h c (by simp [hX])
  have hwidth := L'.width_cases
  obtain ⟨b, g₁, rfl⟩ := List.exists_cons_of_length_pos
    (show 0 < g₁.length by rw [hw.date.first]; omega)
  have hhead := hw.split
  rw [List.cons_append, codes, List.map_cons, DateLayout.join, List.cons_append,
    List.cons_append, List.cons_eq_cons] at hhead
  rw [hhead.1, hw.date.first_digits b List.mem_cons_self] at hletter
  exact absurd hletter Bool.false_ne_true

/-- Texts without colons, dots and addresses disturb no date behind words without digits. -/
theorem spared_of_words (hcolon : ':' ∉ pre ++ post) (hdot : '.' ∉ pre ++ post)
    (hat : '@' ∉ pre ++ post) (hdigit : (pre.all fun c => !isAsciiDigit (byteOf c)) = true)
    (hd : L.Accepts d) : Spared pre d post := by
  simp only [List.mem_append, not_or] at hcolon hdot hat
  have hipv6 : Clean ipv6Matcher none (Framed.mk pre d post).whole := by
    refine clean_ipv6_of_no_colon ?_
    have hnone : ':' ∉ d := fun h => absurd (hd.chars ':' h) (by decide)
    simp [Framed.whole, hcolon, hnone]
  have hquads : beforeQuads pre d post = ⟨pre, d, post⟩ := Framed.pass_of_clean hipv6
  have hipv4 : Clean ipv4Matcher none (beforeQuads pre d post).whole := by
    refine clean_ipv4_of_dots ?_
    rw [hquads, Framed.whole, List.count_append, List.count_append,
      List.count_eq_zero.mpr hdot.1, List.count_eq_zero.mpr hdot.2]
    simpa using hd.dots
  have hemails : beforeEmails pre d post = ⟨pre, d, post⟩ :=
    (Framed.pass_of_clean hipv4).trans hquads
  have hreached : reached pre d post = ⟨pre, d, post⟩ := by
    have hno : '@' ∉ (beforeEmails pre d post).whole := by
      simp [hemails, Framed.whole, hat, hd.no_at]
    exact (emailPass_no_at hno).trans hemails
  refine ⟨hipv6.untouched, ?_, .inr (.inl ?_), fun _ => ?_⟩
  · rw [hquads] at hipv4 ⊢
    exact hipv4.untouched
  · rw [hemails, ← owed_eq_reach, emailRest_no_at hat.2]
  · rw [hreached]
    exact taken_of_no_digit hdigit

theorem date_indistinct_sample :
    stripPii "born 1990-05-17, ok".toList = stripPii "born 1985-12-01, ok".toList ∧
      ∃ d, DateLayout.iso.Accepts d ∧ ¬ Spared "::".toList d [] := by
  constructor
  · have hwords := (date_indistinct .iso "born ".toList ", ok".toList (by decide) (by decide)
      (by decide)).1 fun d hd => spared_of_words (by decide) (by decide) (by decide) (by decide) hd
    exact hwords "1990-05-17".toList "1985-12-01".toList (by decide) (by decide)
  · by_contra hall
    push Not at hall
    have hsame := ((date_indistinct .iso "::".toList [] (by decide) rfl rfl).2 (by decide)
      (by decide) (by decide)).mpr hall
    exact absurd (hsame "1990-05-17".toList "1990-06-17".toList (by decide) (by decide)) (by decide)

/-- The IPv6 pass takes the year; the month and the day show. -/
theorem address_shows_date : ¬ ∀ (L : DateLayout) (pre post d₁ d₂ : Text),
    (asBytes pre).getLast?.any isAsciiAlphanumeric = false →
      (asBytes post).head?.any isAsciiAlphanumeric = false →
        timeSeparatorAt (asBytes post) 0 = false → L.Accepts d₁ → L.Accepts d₂ →
          stripPii (pre ++ (d₁ ++ post)) = stripPii (pre ++ (d₂ ++ post)) := by
  intro h
  have heq := h .iso "::".toList [] "1990-05-17".toList "1990-06-17".toList (by decide) rfl rfl
    (by decide) (by decide)
  exact absurd heq (by decide)

end ProviiAudit
