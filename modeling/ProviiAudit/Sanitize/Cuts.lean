import ProviiAudit.Sanitize.Stretches

/-! What the passes can find in the stretches they leave standing.

At a cut a stretch begins and ends with what may stand beside a match. A dotted quad or a date has
digits at its ends and the domain of an address ends with a letter, so none of them appears because
of a cut. -/
namespace ProviiAudit

open Utf8 (Text asBytes byteOf)
open Span (Stops)
open Scan (scan pieces lastOr Clean Gap Unmatched)

variable {r : Recogniser} {D D' : Char → Bool} {s t w x y k before after : Text}
  {p : Option Char} {c : Char} {n : Nat} {u v : Bytes}

/-- Where something surrounds the stretch, its ends are not in the class. -/
structure Bounded (D : Char → Bool) (before k after : Text) : Prop where
  left : before = [] ∨ Stops D k
  right : after = [] ∨ k.getLast?.any D = false

theorem any_false_mono {o : Option Char} (h : o.any D = false)
    (hD : ∀ c, D' c = true → D c = true) : o.any D' = false := by
  cases o with
  | none => rfl
  | some c =>
    cases hc : D' c with
    | false => exact hc
    | true => simp [hD c hc] at h

theorem Bounded.mono (h : Bounded D before k after) (hD : ∀ c, D' c = true → D c = true) :
    Bounded D' before k after :=
  ⟨h.left.imp_right fun hl => hl.mono hD, h.right.imp_right fun hr => any_false_mono hr hD⟩

theorem Recogniser.stops_behind (h : r.matcher.len p (w ++ y) = some w.length) :
    Stops (fun c => r.adjacent (byteOf c)) y := by
  have hafter := (Recogniser.matcher_len_iff.mp h).2.2
  rw [codes, List.map_append, List.getElem?_append_right (by simp)] at hafter
  cases y with
  | nil => rfl
  | cons c y => simpa [Span.stops_cons] using hafter

theorem Recogniser.last_before (h : r.matcher.len p y = some n) :
    p.any (fun c => r.adjacent (byteOf c)) = false :=
  (Recogniser.matcher_len_iff.mp h).1

theorem Recogniser.bounded (h : Gap r.matcher none before k after) :
    Bounded (fun c => r.adjacent (byteOf c)) before k after :=
  ⟨h.stops fun _ _ _ => r.stops_behind, h.last fun _ _ _ => r.last_before⟩

abbrev isDigitChar (c : Char) : Bool := isAsciiDigit (byteOf c)

abbrev isAlnumChar (c : Char) : Bool := isAsciiAlphanumeric (byteOf c)

theorem isAlnumChar_of_digit (h : isDigitChar c = true) : isAlnumChar c = true := by
  simp [isAlnumChar, isAsciiAlphanumeric, h]

theorem bounded_ipv4 (h : Gap ipv4Matcher none before k after) :
    Bounded isDigitChar before k after :=
  (ipv4Recogniser.bounded h).mono fun _ => isIpv4Adjacent_of_digit

theorem bounded_dob (h : Gap dobMatcher none before k after) : Bounded isAlnumChar before k after :=
  dobRecogniser.bounded h

/-- The domain takes every domain character. -/
theorem domain_stops (h : domainLen (codes (w ++ y)) = some w.length) :
    Stops isDomainChar (codes y) := by
  have hrun := domainLen_run h
  have hall : ∀ c ∈ codes w, isDomainChar c = true := by
    simpa using matched_domain h
  rw [codes, List.map_append, List.take_left' (by simp),
    List.takeWhile_append_of_pos hall, List.self_eq_append_right] at hrun
  cases y with
  | nil => rfl
  | cons c y =>
    rw [codes, List.map_cons, Span.stops_cons]
    by_contra hc
    simp [List.takeWhile_cons_of_pos (by simpa using hc)] at hrun

theorem address_behind (h : addressMatcher.len p (w ++ y) = some w.length) :
    Stops (fun c => isDomainChar (byteOf c)) y := by
  obtain ⟨l, d, z, hsplit, hlen, -, -, -, hd⟩ := addressMatcher_some h
  obtain ⟨rfl, rfl⟩ : w = l ++ '@' :: d ∧ y = z := by
    apply List.append_inj _ hlen
    simpa using hsplit
  simpa [Stops, codes, Option.any_map, Function.comp_def] using domain_stops hd

theorem bounded_address (h : Gap addressMatcher none before k after) :
    Bounded isAlnumChar before k after := by
  constructor
  · refine (h.stops fun _ _ _ => address_behind).imp_right fun hl => hl.mono fun c hc => ?_
    simp [isDomainChar, hc]
  · refine (h.last (A := isLocal) fun _ _ _ hm => ?_).imp_right fun hr =>
      any_false_mono hr fun c hc => ?_
    · obtain ⟨-, -, -, -, -, hp, -⟩ := addressMatcher_some hm
      exact hp
    · exact isEmailLocalChar_of_domain (by simp [isDomainChar, hc])

theorem ipv4_quad (h : ipv4Matcher.len p (w ++ y) = some w.length) : IsQuad (codes w) := by
  obtain ⟨q, rest, hsplit, hq, -, hlen⟩ := isQuad_of_quadLen (Recogniser.matcher_len_iff.mp h).2.1
  rw [codes, List.map_append] at hsplit
  obtain ⟨rfl, -⟩ := List.append_inj hsplit (by simpa using hlen)
  exact hq

theorem ipv4_dots (h : ipv4Matcher.len p (w ++ y) = some w.length) : 3 ≤ w.count '.' := by
  obtain ⟨o₁, o₂, o₃, o₄, -, -, -, -, rfl⟩ := (ipv4_quad h).text
  simp only [List.count_append, List.count_cons_self]
  omega

theorem ipv4_ends (h : ipv4Matcher.len p (w ++ y) = some w.length) :
    w.head?.any isDigitChar = true ∧ w.getLast?.any isDigitChar = true := by
  obtain ⟨o₁, o₂, o₃, o₄, h₁, -, -, h₄, rfl⟩ := (ipv4_quad h).text
  constructor
  · have hpos := h₁.pos
    rw [List.length_map] at hpos
    obtain ⟨c, o₁, rfl⟩ := List.exists_cons_of_length_pos hpos
    simpa using h₁.digits (byteOf c) (by simp)
  · obtain ⟨o₄, c, rfl⟩ := (List.eq_nil_or_concat o₄).resolve_left fun hnil => by
      simpa [hnil] using h₄.pos
    simpa [List.getLast?_cons] using h₄.digits (byteOf c) (by simp)

theorem clean_ipv4 (h : Unmatched ipv4Matcher before k after)
    (hb : Bounded isDigitChar before k after) : Clean ipv4Matcher none k := by
  refine Scan.clean_of_unmatched h (fun _ _ _ => ipv4_ends) hb.left hb.right ?_
  intro p w c z hm _
  have hstop : Stops (fun c => isIpv4Adjacent (byteOf c)) (c :: z) := Recogniser.stops_behind hm
  have hc : isIpv4Adjacent (byteOf c) = false := by simpa [Span.stops_cons] using hstop
  have hsep := ipv4Recogniser.separates hc
  rw [List.cons_append, hsep.stop, ← hsep.stop p w z, hm]
  simp

theorem dob_ends (h : dobMatcher.len p (w ++ y) = some w.length) :
    w.head?.any isDigitChar = true ∧ w.getLast?.any isDigitChar = true := by
  have hlen : dateHeadLen (codes (w ++ y)) = some w.length := (Recogniser.matcher_len_iff.mp h).2.1
  obtain ⟨hten, hwindow⟩ := dateHeadLen_some hlen
  have hlast := hwindow.last
  rw [dateHeadLen] at hlen
  split_ifs at hlen with hhead
  simp only [codes, List.map_append] at hhead hlast
  rw [List.getElem?_append_left (by simp; omega)] at hhead hlast
  constructor
  · simpa [← List.head?_eq_getElem?, Option.any_map, Function.comp_def] using hhead
  · rw [List.getLast?_eq_getElem?, hten]
    simpa [Option.any_map, Function.comp_def] using hlast

theorem dob_chars (h : dobMatcher.len p (w ++ y) = some w.length) :
    ∀ c ∈ w, isDateChar (byteOf c) = true := by
  obtain ⟨hten, hwindow⟩ := dateHeadLen_some (Recogniser.matcher_len_iff.mp h).2.1
  have hchars := hwindow.chars
  rw [← hten, codes, List.map_append, List.take_left' (by simp)] at hchars
  exact fun c hc => hchars _ (List.mem_map_of_mem hc)

/-- A date behind does not look like the rest of a time. -/
theorem timeSeparatorAt_cut (hu : 10 < u.length) (hlast : u.getLast?.any isAsciiDigit = false)
    (hv : DateWindow v) : timeSeparatorAt (u ++ v) 10 = timeSeparatorAt u 10 := by
  have hget : ∀ {j}, j < u.length → (u ++ v)[j]? = u[j]? := List.getElem?_append_left
  rw [List.getLast?_eq_getElem?] at hlast
  simp only [timeSeparatorAt, hget hu]
  rcases (show u.length = 11 ∨ u.length = 12 ∨ u.length = 13 ∨ 13 < u.length by omega) with
    h | h | h | h
  · have hcolon : (u ++ v)[13]? ≠ some (byteOf ':') := by
      intro hc
      rw [List.getElem?_append_right (by omega), h,
        ← List.getElem?_take_of_lt (j := 10) (by omega)] at hc
      exact absurd (hv.chars _ (List.mem_of_getElem? hc)) (by decide)
    simp [hcolon, List.getElem?_eq_none (show u.length ≤ 11 by omega)]
  · rw [h] at hlast
    simp [hget (show 11 < u.length by omega), hlast]
  · rw [h] at hlast
    simp [hget (show 12 < u.length by omega), hlast]
  · simp [hget (show 11 < u.length by omega), hget (show 12 < u.length by omega), hget h]

theorem dateHeadLen_cut (hu : 10 ≤ u.length)
    (htime : timeSeparatorAt (u ++ v) 10 = timeSeparatorAt u 10) :
    dateHeadLen (u ++ v) = dateHeadLen u := by
  have hhead : (u ++ v)[0]? = u[0]? := List.getElem?_append_left (by omega)
  simp only [dateHeadLen, tryParseIsoDate, tryParseSlashDate, tryParseDotDate, Nat.zero_add, hhead,
    slice_append hu, htime]

theorem clean_dob (h : Gap dobMatcher none before k after) : Clean dobMatcher none k := by
  have hb := bounded_dob h
  have hdigit : Bounded isDigitChar before k after := hb.mono fun _ => isAlnumChar_of_digit
  refine Scan.clean_of_unmatched h.unmatched (fun _ _ _ => dob_ends) hdigit.left hdigit.right ?_
  rintro p w c z hm ⟨x, rfl⟩
  rcases h.right with rfl | ⟨n, hn⟩
  · simp [hm]
  · obtain ⟨hp, hlen, hnext⟩ := Recogniser.matcher_len_iff.mp hm
    have hafter := (dateHeadLen_some (Recogniser.matcher_len_iff.mp hn).2.1).2
    have hten : w.length = 10 := (dateHeadLen_some hlen).1
    have hlast : (codes (w ++ c :: z)).getLast?.any isAsciiDigit = false := by
      have hright := hdigit.right.resolve_left (by rintro rfl; simpa using hafter.len)
      simpa [Option.any_map, Function.comp_def, List.getLast?_append, List.getLast?_cons] using hright
    have hu : 10 < (codes (w ++ c :: z)).length := by
      simp
      omega
    have hcut := dateHeadLen_cut hu.le (timeSeparatorAt_cut hu hlast hafter)
    have hsame : dobMatcher.len p (w ++ (c :: z ++ after)) = some w.length := by
      rw [Recogniser.matcher_len_iff, ← List.append_assoc, codes, List.map_append]
      refine ⟨hp, hcut.trans hlen, ?_⟩
      rwa [List.getElem?_append_left (by rw [hten]; exact hu)]
    rw [hsame]
    simp

/-- No `@` of the text is that of an address. -/
def NoAddress (k : Text) : Prop := ∀ x y, k = x ++ '@' :: y → addressLen x y = none

theorem localRun_append_le (before x : Text) : localRun x ≤ localRun (before ++ x) := by
  obtain ⟨u, r, rfl, hr, -, hrun⟩ := exists_localRun x
  rw [hrun, ← List.append_assoc, localRun_append hr]
  omega

/-- The address around an `@` may lie deeper in a text, when its domain ends where it did. -/
theorem addressLen_surround (hm : addressLen x y = some n)
    (hy : domainLen (codes (y ++ after)) = domainLen (codes y)) :
    addressLen (before ++ x) (y ++ after) = some n := by
  rw [addressLen_some_iff] at hm ⊢
  have hle := localRun_append_le before x
  exact ⟨by omega, hy.trans hm.2⟩

/-- A domain ends with a letter. -/
theorem domain_last (h : domainLen (codes (w ++ y)) = some w.length) :
    w.getLast?.any isAlnumChar = true := by
  obtain ⟨d, t, rest, hs, hlen⟩ := domainLen_some_iff.mp h
  have hsplit : codes w ++ codes y = (d ++ byteOf '.' :: t) ++ rest := by
    simpa using hs.split
  obtain ⟨hw, -⟩ := List.append_inj hsplit (by simp; omega)
  have htwo := hs.two_le
  obtain ⟨t, c, rfl⟩ := (List.eq_nil_or_concat t).resolve_left fun hnil => by simp [hnil] at htwo
  have hc : isAsciiAlphabetic c = true := hs.tld c (by simp)
  have hlast := congrArg List.getLast? hw
  rw [codes, List.getLast?_map] at hlast
  obtain ⟨e, he, rfl⟩ : ∃ e, w.getLast? = some e ∧ byteOf e = c := by
    simpa [List.getLast?_cons] using hlast
  simp [he, isAlnumChar, isAsciiAlphanumeric, hc]

/-- A domain that does not reach the end of the text ends there in every longer text. -/
theorem domainLen_cut (hm : domainLen (codes y) = some n)
    (hlast : y.getLast?.any isAlnumChar = false) :
    domainLen (codes (y ++ after)) = domainLen (codes y) := by
  have hle := domainLen_le hm
  rw [List.length_map] at hle
  obtain ⟨w, z, rfl, rfl⟩ := Span.exists_split hle
  cases z with
  | nil =>
    rw [List.append_nil] at hlast
    simp [domain_last hm] at hlast
  | cons c z =>
    have hstop := domain_stops hm
    have hstop' : Stops isDomainChar (codes (c :: (z ++ after))) := hstop
    rw [List.append_assoc, List.cons_append, codes, codes, List.map_append, List.map_append,
      domainLen_append hstop, domainLen_append hstop']

theorem clean_of_noAddress (h : NoAddress k) : Clean addressMatcher none k := by
  rintro x y rfl
  by_contra hne
  obtain ⟨n, hn⟩ := Option.ne_none_iff_exists'.mp hne
  obtain ⟨l, w, z, rfl, -, -, hl, hlocal, hd⟩ := addressMatcher_some hn
  have hnone := h (x ++ l) (w ++ z) (by simp)
  rw [addressLen, localRun_append hlocal, hd] at hnone
  have hpos := List.length_pos_of_ne_nil hl
  rw [if_neg (by omega)] at hnone
  simp at hnone

/-- Where an address stands in a stretch, one stands there in the whole text. -/
theorem addressLen_of_stretch (hb : Bounded isAlnumChar before (x ++ '@' :: y) after)
    (hm : addressLen x y = some n) : addressLen (before ++ x) (y ++ after) = some n := by
  apply addressLen_surround hm
  rcases hb.right with rfl | hlast
  · rw [List.append_nil]
  · apply domainLen_cut (addressLen_some_iff.mp hm).2
    rcases List.eq_nil_or_concat y with rfl | ⟨y, c, rfl⟩
    · rfl
    · simpa [List.getLast?_append, List.getLast?_cons] using hlast

theorem noAddress_cut (h : NoAddress (before ++ (k ++ after)))
    (hb : Bounded isAlnumChar before k after) : NoAddress k := by
  rintro x y rfl
  by_contra hne
  obtain ⟨n, hn⟩ := Option.ne_none_iff_exists'.mp hne
  have hnone := h (before ++ x) (y ++ after) (by simp)
  simp [addressLen_of_stretch hb hn] at hnone

/-- Without chains no address begins in a matched domain and ends in the stretch behind it. -/
theorem noAddress_gap (ht : ChainFree (before ++ (k ++ after)))
    (h : Gap addressMatcher none before k after) : NoAddress k := by
  have hb := bounded_address h
  rintro x y rfl
  by_contra hne
  obtain ⟨n, hn⟩ := Option.ne_none_iff_exists'.mp hne
  have hm := addressLen_of_stretch hb hn
  obtain ⟨u, r, rfl, hr, hu, hrun⟩ := exists_localRun x
  have hpos : r ≠ [] := by
    rintro rfl
    exact (addressLen_some_iff.mp hn).1 hrun
  by_cases hstart : (lastOr none (before ++ u)).any isLocal = true
  · -- the local part begins behind a matched address, whose domain it continues
    obtain rfl : u = [] := by
      by_contra hne
      rw [Scan.lastOr_append, Scan.lastOr_of_ne_nil (q := none) hne] at hstart
      simp [lastOr, hu] at hstart
    obtain ⟨z, w, rfl, hw⟩ := h.left.resolve_left (by rintro rfl; simp at hstart)
    obtain ⟨l, d, y', hsplit, hlen, -, hl, hlocal, hd⟩ := addressMatcher_some hw
    obtain ⟨rfl, rfl⟩ : w = l ++ '@' :: d ∧ [] ++ r ++ '@' :: y ++ after = y' := by
      apply List.append_inj _ hlen
      simpa using hsplit
    have hchain : ∀ c ∈ d ++ r, isLocal c = true :=
      List.forall_mem_append.mpr
        ⟨fun c hc => isEmailLocalChar_of_domain (matched_domain hd c hc), hr⟩
    have hfirst : addressLen (z ++ l) (d ++ r ++ '@' :: (y ++ after)) = some d.length := by
      have hpos := List.length_pos_of_ne_nil hl
      rw [addressLen_some_iff, localRun_append hlocal]
      exact ⟨by omega, by simpa using hd⟩
    rcases ht (z ++ l) (d ++ r) (y ++ after) (by simp) hchain with hnone | hnone
    · rw [hfirst] at hnone
      simp at hnone
    · simp only [List.nil_append, List.append_assoc, List.cons_append] at hm hnone
      rw [hm] at hnone
      simp at hnone
  · have hnone := h.unmatched u (r ++ '@' :: y) (by simp) (by simp)
    have hlen := addressMatcher_len (p := lastOr none (before ++ u)) (y := '@' :: (y ++ after))
      (by simpa using hstart) hr hpos (Span.stops_cons.mpr isLocal_at)
    rw [addressTail, (addressLen_some_iff.mp hm).2] at hlen
    rw [List.append_assoc, List.cons_append, hlen] at hnone
    simp at hnone

theorem chainFree_infix (ht : ChainFree (before ++ (k ++ after)))
    (hafter : Stops isDomainChar (codes after)) : ChainFree k := by
  rintro x l y rfl hl
  by_contra hne
  rw [not_or] at hne
  obtain ⟨m, hm⟩ := Option.ne_none_iff_exists'.mp hne.1
  obtain ⟨n, hn⟩ := Option.ne_none_iff_exists'.mp hne.2
  have hstop : ∀ z, domainLen (codes (z ++ after)) = domainLen (codes z) := by
    intro z
    rw [codes, List.map_append, domainLen_append hafter]
  have hm' : addressLen (before ++ x) (l ++ '@' :: y ++ after) = some m :=
    addressLen_surround hm (hstop _)
  have hn' : addressLen (before ++ (x ++ '@' :: l)) (y ++ after) = some n :=
    addressLen_surround hn (hstop _)
  simp only [List.append_assoc, List.cons_append] at hm' hn'
  rcases ht (before ++ x) l (y ++ after) (by simp) hl with hnone | hnone
  · rw [hm'] at hnone
    simp at hnone
  · rw [List.append_assoc, hn'] at hnone
    simp at hnone

theorem stops_of_placeholder (h : after = [] ∨ redactedIp <+: after) :
    Stops isDomainChar (codes after) := by
  rcases h with rfl | ⟨z, rfl⟩
  · rfl
  · rfl

theorem chainFree_stretch {k₆ k₄ : Text} (ht : ChainFree (stripIpv4 (stripIpv6 s)))
    (h₆ : k₆ ∈ pieces ipv6Matcher none s) (h₄ : k₄ ∈ pieces ipv4Matcher none k₆) :
    ChainFree k₄ := by
  rw [stripIpv4_eq_scan, stripIpv6_eq_scan, Scan.scan_eq_intercalate (m := ipv6Matcher),
    Scan.scan_intercalate (ipv4_overlooks _ (by decide))] at ht
  obtain ⟨b, a, hsplit, ha⟩ := Scan.exists_of_mem_intercalate (R := redactedIp)
    (List.mem_map_of_mem (f := scan ipv4Matcher redactedIp none) h₆)
  rw [hsplit] at ht
  have hpart := chainFree_infix ht (stops_of_placeholder ha)
  obtain ⟨b', a', hsplit', ha'⟩ := Scan.exists_of_mem_intercalate (R := redactedIp) h₄
  rw [Scan.scan_eq_intercalate, hsplit'] at hpart
  exact chainFree_infix hpart (stops_of_placeholder ha')

/-- In the stretches left standing no pass but the first one can find anything. -/
theorem stretch_clean (ht : ChainFree (stripIpv4 (stripIpv6 s))) (h : k ∈ keptStretches s) :
    Clean ipv4Matcher none k ∧ Clean addressMatcher none k ∧ Clean dobMatcher none k := by
  simp only [keptStretches, List.mem_flatMap] at h
  obtain ⟨k₆, h₆, k₄, h₄, kₐ, hₐ, hk⟩ := h
  have hchain := chainFree_stretch ht h₆ h₄
  obtain ⟨b₄, a₄, rfl, hgap₄⟩ := Scan.gap_of_mem_pieces h₄
  obtain ⟨bₐ, aₐ, rfl, hgapₐ⟩ := Scan.gap_of_mem_pieces hₐ
  obtain ⟨b, a, rfl, hgap⟩ := Scan.gap_of_mem_pieces hk
  have hquad₄ := clean_ipv4 hgap₄.unmatched (bounded_ipv4 hgap₄)
  have hquadₐ := clean_ipv4 hquad₄.unmatched
    ((bounded_address hgapₐ).mono fun _ => isAlnumChar_of_digit)
  have haddressₐ := noAddress_gap hchain hgapₐ
  refine ⟨?_, ?_, clean_dob hgap⟩
  · exact clean_ipv4 hquadₐ.unmatched ((bounded_dob hgap).mono fun _ => isAlnumChar_of_digit)
  · exact clean_of_noAddress (noAddress_cut haddressₐ (bounded_dob hgap))

end ProviiAudit
