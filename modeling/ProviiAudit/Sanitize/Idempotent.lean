import ProviiAudit.Sanitize.Cuts
import ProviiAudit.Sanitize.HexTokens

/-! Sanitising a text that is sanitised.

What a pass removes can uncover an IPv6 address: one that was none while the removed text stood
beside it. Nothing else can be found in sanitised text. -/
namespace ProviiAudit

open Utf8 (Text asBytes byteOf)
open Span (Stops)
open Scan (scan pieces lastOr Clean Gap Disjoint Untouched)

variable {r : Recogniser} {m : Scan.Matcher Char} {R s t x y w F : Text} {p : Option Char}
  {c : Char}

theorem Recogniser.clean_iff : Clean r.matcher none s ↔ ∀ i, r.find (asBytes s) i = none := by
  constructor
  · intro h i
    by_contra hne
    obtain ⟨e, he⟩ := Option.ne_none_iff_exists'.mp hne
    obtain ⟨u, w, y, rfl, -, -, hm⟩ := Recogniser.find_some_iff.mp he
    have hnone := h u (w ++ y) rfl
    rw [Scan.lastOr, Option.or_none, hm] at hnone
    simp at hnone
  · rintro h x y rfl
    have hnone := h (asBytes x).length
    rw [r.find_boundary] at hnone
    simpa [Scan.lastOr] using hnone

theorem clean_ipv6_iff : Clean ipv6Matcher none s ↔ ∀ i, ipv6At (asBytes s) i = none := by
  rw [ipv6At_eq]
  exact Recogniser.clean_iff

theorem noAddress_of_clean (h : Clean addressMatcher none t) : NoAddress t := by
  rintro x y rfl
  by_contra hne
  obtain ⟨n, hn⟩ := Option.ne_none_iff_exists'.mp hne
  obtain ⟨hrun, hd⟩ := addressLen_some_iff.mp hn
  obtain ⟨u, r, rfl, hr, hu, hlen⟩ := exists_localRun x
  have hnone := h u (r ++ '@' :: y) (by simp)
  have hpos : r ≠ [] := List.ne_nil_of_length_pos (by omega)
  rw [addressMatcher_len (by simpa [Scan.lastOr] using hu) hr hpos (Span.stops_cons.mpr isLocal_at),
    addressTail, hd] at hnone
  simp at hnone

theorem stripPii_of_clean (h6 : Clean ipv6Matcher none F) (h4 : Clean ipv4Matcher none F)
    (ha : Clean addressMatcher none F) (hd : Clean dobMatcher none F) : stripPii F = F := by
  have hchain : ChainFree F := fun x l y hF _ => .inl (noAddress_of_clean ha x _ hF)
  rw [stripPii, stripIpv6_eq_scan, Scan.scan_of_clean h6, stripIpv4_eq_scan, Scan.scan_of_clean h4,
    stripEmails_eq_scan hchain, Scan.scan_of_clean ha, stripDobPatterns_eq_scan,
    Scan.scan_of_clean hd]

theorem count_emailRest_le (hc : c ∉ redactedEmail) (x y : Text) :
    (emailRest x 0 y).text.count c ≤ y.count c := by
  induction x, y using email_induction with
  | nil x => simp [emailRest]
  | keep x d y h ih =>
    rw [emailRest_keep h, Remainder.keep, List.count_cons]
    dsimp only
    by_cases howed : (emailRest (x ++ [d]) 0 y).owed = 0
    · rw [if_pos howed, List.count_cons]
      omega
    · rw [if_neg howed]
      omega
  | redact x w y h ih =>
    have hpop : (popChars (emailRest (x ++ '@' :: w) 0 y).owed redactedEmail).count c = 0 := by
      rw [popChars_eq, List.count_eq_zero]
      exact fun hmem => hc (List.mem_of_mem_take hmem)
    rw [emailRest_redact h, Remainder.redact, List.count_append, hpop, List.count_cons,
      List.count_append]
    omega

theorem clean_of_stripPii_eq (h : stripPii F = F) : Clean ipv6Matcher none F := by
  refine Scan.clean_of_count (c := ':') (R := redactedIp) (by decide) ?_ ?_
  · intro p w y hm
    have hcount := ipv6_colons hm
    exact List.count_pos_iff.mp (by omega)
  have hd := Scan.count_scan_le (m := dobMatcher) (R := redactedDob) (c := ':') (p := none)
    (s := stripEmails (stripIpv4 (stripIpv6 F))) (by decide)
  have ha := count_emailRest_le (c := ':') (by decide) [] (stripIpv4 (stripIpv6 F))
  have h4 := Scan.count_scan_le (m := ipv4Matcher) (R := redactedIp) (c := ':') (p := none)
    (s := stripIpv6 F) (by decide)
  rw [← stripDobPatterns_eq_scan] at hd
  rw [← stripEmails_eq] at ha
  rw [← stripIpv4_eq_scan] at h4
  rw [stripPii] at h
  rw [h] at hd
  rw [← stripIpv6_eq_scan]
  omega

theorem stripPii_clean (ht : ChainFree (stripIpv4 (stripIpv6 s))) :
    Clean ipv4Matcher none (stripPii s) ∧ Clean addressMatcher none (stripPii s) ∧
      Clean dobMatcher none (stripPii s) :=
  ⟨(clean_stripPii_iff ipv4_overlooks ht).mpr fun _ hk => (stretch_clean ht hk).1,
    (clean_stripPii_iff address_overlooks ht).mpr fun _ hk => (stretch_clean ht hk).2.1,
    (clean_stripPii_iff dob_overlooks ht).mpr fun _ hk => (stretch_clean ht hk).2.2⟩

theorem stripPii_again_iff_clean (ht : ChainFree (stripIpv4 (stripIpv6 s))) :
    stripPii (stripPii s) = stripPii s ↔ Clean ipv6Matcher none (stripPii s) := by
  obtain ⟨h4, ha, hd⟩ := stripPii_clean ht
  exact ⟨clean_of_stripPii_eq, fun h6 => stripPii_of_clean h6 h4 ha hd⟩

/-- A stretch between two matches, or between a match and an end of the text, has an IPv6 address
by itself, and at its place in the text there is none. -/
def Uncovers (m : Scan.Matcher Char) (t : Text) : Prop :=
  ∃ before k after, t = before ++ (k ++ after) ∧ Gap m none before k after ∧
    ∃ i, ipv6At (asBytes k) i ≠ none ∧ ipv6At (asBytes t) ((asBytes before).length + i) = none

/-- No match touches a run of hex digits, colons and dots that has an IPv6 address in it. -/
def Spares (m : Scan.Matcher Char) (t : Text) : Prop :=
  ∀ x w y, t = x ++ (w ++ y) → Scan.Run (fun c => isIpv6Char (byteOf c)) x w y →
    (∃ i, ipv6At (asBytes w) i ≠ none) → Untouched m x w y

theorem not_clean_ipv6_iff : ¬ Clean ipv6Matcher none s ↔ ∃ i, ipv6At (asBytes s) i ≠ none := by
  rw [clean_ipv6_iff, not_forall]

theorem clean_pass_iff (hR : R ∈ placeholders) : Clean ipv6Matcher none (scan m R none t) ↔
    ∀ k ∈ pieces m none t, Clean ipv6Matcher none k :=
  clean_scan_iff ipv6_overlooks (f := fun k => k) (fun R _ ks => by simp) hR

theorem clean_pass (hR : R ∈ placeholders) (ht : Clean ipv6Matcher none t)
    (h : ¬ Uncovers m t) : Clean ipv6Matcher none (scan m R none t) := by
  rw [clean_pass_iff hR]
  intro k hk
  by_contra hne
  obtain ⟨i, hi⟩ := not_clean_ipv6_iff.mp hne
  obtain ⟨before, after, rfl, hgap⟩ := Scan.gap_of_mem_pieces hk
  exact h ⟨before, k, after, rfl, hgap, i, hi, clean_ipv6_iff.mp ht _⟩

theorem not_clean_of_uncovers (hR : R ∈ placeholders) (hd : Disjoint m t) (h : Uncovers m t) :
    ¬ Clean ipv6Matcher none (scan m R none t) := by
  obtain ⟨before, k, after, ht, hgap, i, hi, -⟩ := h
  rw [clean_pass_iff hR]
  intro hclean
  exact hi (clean_ipv6_iff.mp (hclean k (Scan.mem_pieces_of_gap hd ht hgap)) i)

theorem ipv6_separates (hc : isIpv6Char (byteOf c) = false) : Scan.Separates ipv6Matcher c :=
  ipv6Recogniser.separates hc

theorem not_clean_of_spares (hR : R ∈ placeholders) (hs : Spares m t)
    (h : ¬ Clean ipv6Matcher none t) : ¬ Clean ipv6Matcher none (scan m R none t) := by
  obtain ⟨x, w, y, rfl, hrun, hw⟩ := Scan.exists_run (D := fun c => isIpv6Char (byteOf c))
    (fun _ => ipv6_separates) (fun _ _ _ hm c hc => Recogniser.matched_alphabet hm c hc) h
  obtain ⟨u, v, ⟨u', rfl⟩, ⟨v', rfl⟩, hk⟩ :=
    Scan.exists_piece (hs x w y rfl hrun (not_clean_ipv6_iff.mp hw))
  rw [clean_pass_iff hR]
  intro hclean
  refine hw ((hclean _ hk).of_separated (fun c hc => ipv6_separates ?_)
    fun c hc => ipv6_separates ?_)
  · have hleft := hrun.left
    rw [List.getLast?_append, hc] at hleft
    simpa using hleft
  · have hright := hrun.right
    rw [Stops, List.head?_append, hc] at hright
    simpa using hright

/-- When no match begins inside another one and none takes an address, a pass leaves a text without
IPv6 addresses exactly when there are none in it and it uncovers none. -/
theorem clean_scan_iff_not_uncovers (hR : R ∈ placeholders) (hd : Disjoint m t) (hs : Spares m t) :
    Clean ipv6Matcher none (scan m R none t) ↔ Clean ipv6Matcher none t ∧ ¬ Uncovers m t := by
  constructor
  · intro h
    exact ⟨by_contra fun ht => not_clean_of_spares hR hs ht h,
      fun hu => not_clean_of_uncovers hR hd hu h⟩
  · rintro ⟨ht, hu⟩
    exact clean_pass hR ht hu

/-- Where no matched character may precede a match, no match begins inside another one. -/
theorem Recogniser.disjoint (h : ∀ b, r.alphabet b = true → r.adjacent b = true) :
    Disjoint r.matcher t := by
  refine Scan.disjoint_of_inside fun x a b y _ ha _ hm => ?_
  by_contra hne
  obtain ⟨n, hn⟩ := Option.ne_none_iff_exists'.mp hne
  obtain ⟨a, c, rfl⟩ := (List.eq_nil_or_concat a).resolve_left ha
  rw [← List.append_assoc] at hm
  have hadj := h _ (Recogniser.matched_alphabet hm c (by simp))
  have hlast := Recogniser.last_before hn
  simp [hadj] at hlast

theorem ipv4_disjoint : Disjoint ipv4Matcher t := Recogniser.disjoint fun _ h => h

/-- An IPv6 address is hex digits and colons, and perhaps a dotted quad behind them. -/
theorem ipv6_shape (h : ipv6Matcher.len p (w ++ y) = some w.length) :
    ∃ u q, w = u ++ q ∧ (∀ c ∈ u, isIpv6Adjacent (byteOf c) = true) ∧ ':' ∉ q := by
  obtain ⟨-, hlen, -⟩ := Recogniser.matcher_len_iff.mp h
  have htext := ipv6HeadLen_text (Option.eq_some_of_filter_eq_some hlen)
  rw [codes, List.map_append, List.take_left' (by simp)] at htext
  obtain ⟨u, q, hsplit, hu, hq⟩ := htext.shape
  obtain ⟨u, q, rfl, rfl, rfl⟩ := List.map_eq_append_iff.mp hsplit
  refine ⟨u, q, rfl, fun c hc => hu _ (List.mem_map_of_mem hc), fun hcolon => ?_⟩
  rcases hq with hnil | hquad
  · simp_all
  · exact absurd (hquad.ipv4Adjacent _ (List.mem_map_of_mem hcolon)) (by decide)

/-- Only in the quad could another address begin, and it would have no colons. -/
theorem ipv6_disjoint : Disjoint ipv6Matcher t := by
  refine Scan.disjoint_of_inside fun x a b y _ ha _ hm => ?_
  by_contra hne
  obtain ⟨n, hn⟩ := Option.ne_none_iff_exists'.mp hne
  obtain ⟨w, z, hsplit, rfl⟩ := Span.exists_split (ipv6Matcher.le hn)
  obtain ⟨a, c, rfl⟩ := (List.eq_nil_or_concat a).resolve_left ha
  have hlast : (a.concat c).getLast?.any (fun c => isIpv6Adjacent (byteOf c)) = false :=
    Recogniser.last_before hn
  have hc : isIpv6Adjacent (byteOf c) = false := by simpa using hlast
  rw [← List.append_assoc] at hm
  obtain ⟨u, q, hq, hu, hcolon⟩ := ipv6_shape hm
  have hb : ':' ∉ b := by
    rcases List.append_eq_append_iff.mp hq with ⟨u', rfl, hrest⟩ | ⟨q', hrest, rfl⟩
    · exact absurd (hu c (by simp)) (by simp [hc])
    · exact fun hmem => hcolon (by simp [hmem])
  rw [hsplit] at hn
  have hcount := ipv6_colons hn
  obtain ⟨v, r, rfl, hv, hr⟩ := ipv6_shape hn
  rw [List.count_append, List.count_eq_zero.mpr hr] at hcount
  rw [List.append_assoc] at hsplit
  rcases List.append_eq_append_iff.mp hsplit with ⟨v', rfl, hy⟩ | ⟨b', rfl, -⟩
  · have hstop : Stops (fun c => isIpv6Adjacent (byteOf c)) y := Recogniser.stops_behind hm
    cases v' with
    | nil =>
      rw [List.append_nil, List.count_eq_zero.mpr hb] at hcount
      omega
    | cons d v' =>
      rw [hy, List.cons_append, Span.stops_cons] at hstop
      have hd : isIpv6Adjacent (byteOf d) = true := hv d (by simp)
      exact absurd hd (by simpa using hstop)
  · rw [List.mem_append, not_or] at hb
    rw [List.count_eq_zero.mpr hb.1] at hcount
    omega

/-- Only at the domain of an address could another one begin. -/
theorem ChainFree.disjoint (ht : ChainFree t) : Disjoint addressMatcher t := by
  refine Scan.disjoint_of_inside fun x a b y hxy ha hb hm => ?_
  by_contra hne
  obtain ⟨n, hn⟩ := Option.ne_none_iff_exists'.mp hne
  obtain ⟨l, d, z, hsplit, hlen, -, hl, hlocal, hd⟩ := addressMatcher_some hm
  obtain ⟨hw, rfl⟩ : a ++ b = l ++ '@' :: d ∧ y = z := by
    apply List.append_inj _ hlen
    simpa using hsplit
  obtain ⟨l', d', z', hsplit', -, hp, hl', hlocal', hd'⟩ := addressMatcher_some hn
  have hlast : ∀ u v, a = u ++ v → v ≠ [] → ¬ ∀ c ∈ v, isLocal c = true := by
    rintro u v rfl hv hall
    rw [List.getLast?_append_of_ne_nil _ hv, List.getLast?_eq_some_getLast hv] at hp
    simp [hall _ (List.getLast_mem hv)] at hp
  -- the character before the second address is the `@` of the first one
  obtain ⟨rfl, rfl⟩ : a = l ++ ['@'] ∧ b = d := by
    rcases List.append_eq_append_iff.mp hw with ⟨v, rfl, -⟩ | ⟨v, rfl, hv⟩
    · exact absurd (fun c hc => hlocal c (by simp [hc])) (hlast [] a rfl ha)
    · cases v with
      | nil => exact absurd hlocal (hlast [] l (by simp) hl)
      | cons e v =>
        obtain ⟨rfl, rfl⟩ := List.cons_eq_cons.mp hv
        by_cases hv : v = []
        · exact ⟨by rw [hv], by rw [hv]; rfl⟩
        · refine absurd (fun c hc => ?_) (hlast (l ++ ['@']) v (by simp) hv)
          exact isEmailLocalChar_of_domain (matched_domain hd c (List.mem_append_left b hc))
  have hfirst : addressLen (x ++ l) (l' ++ '@' :: (d' ++ z')) = some b.length := by
    have hpos := List.length_pos_of_ne_nil hl
    rw [addressLen_some_iff, localRun_append hlocal, ← hsplit']
    exact ⟨by omega, hd⟩
  have hsecond : addressLen (x ++ l ++ '@' :: l') (d' ++ z') = some d'.length := by
    have hpos := List.length_pos_of_ne_nil hl'
    rw [addressLen_some_iff, List.append_cons, localRun_append hlocal']
    exact ⟨by omega, hd'⟩
  rcases ht (x ++ l) l' (d' ++ z') (by simp [hxy, hsplit']) hlocal' with hnone | hnone
  · rw [hfirst] at hnone
    simp at hnone
  · rw [hsecond] at hnone
    simp at hnone

/-- No pass uncovers an IPv6 address in the text that it is given. -/
def UncoversNone (s : Text) : Prop :=
  ¬ Uncovers ipv6Matcher s ∧ ¬ Uncovers ipv4Matcher (stripIpv6 s) ∧
    ¬ Uncovers addressMatcher (stripIpv4 (stripIpv6 s)) ∧
      ¬ Uncovers dobMatcher (stripEmails (stripIpv4 (stripIpv6 s)))

/-- The first pass has taken every address that it did not uncover. -/
theorem clean_stripIpv6_iff : Clean ipv6Matcher none (stripIpv6 s) ↔ ¬ Uncovers ipv6Matcher s := by
  rw [stripIpv6_eq_scan]
  constructor
  · intro h hu
    exact not_clean_of_uncovers (by decide) ipv6_disjoint hu h
  · intro h
    rw [clean_pass_iff (by decide)]
    intro k hk
    by_contra hne
    obtain ⟨i, hi⟩ := not_clean_ipv6_iff.mp hne
    obtain ⟨before, after, rfl, hgap⟩ := Scan.gap_of_mem_pieces hk
    refine h ⟨before, k, after, rfl, hgap, i, hi, ?_⟩
    rw [ipv6At_eq] at hi ⊢
    obtain ⟨e, he⟩ := Option.ne_none_iff_exists'.mp hi
    obtain ⟨u, w, y, rfl, rfl, -, hm⟩ := Recogniser.find_some_iff.mp he
    have hnone := hgap.inside u (w ++ y) rfl (by simp [Scan.ne_nil_of_len hm])
    have hfind := ipv6Recogniser.find_boundary (before ++ u) (w ++ y ++ after)
    rw [lastOr, Option.or_none] at hnone
    rw [hnone, Option.map_none] at hfind
    simpa [Utf8.asBytes_append] using hfind

theorem stripPii_again_of_uncoversNone (ht : ChainFree (stripIpv4 (stripIpv6 s)))
    (h : UncoversNone s) : stripPii (stripPii s) = stripPii s := by
  obtain ⟨h6, h4, ha, hd⟩ := h
  have hquads : Clean ipv6Matcher none (stripIpv4 (stripIpv6 s)) := by
    rw [stripIpv4_eq_scan]
    exact clean_pass (by decide) (clean_stripIpv6_iff.mpr h6) h4
  have hemails : Clean ipv6Matcher none (stripEmails (stripIpv4 (stripIpv6 s))) := by
    rw [stripEmails_eq_scan ht]
    exact clean_pass (by decide) hquads ha
  rw [stripPii_again_iff_clean ht, stripPii, stripDobPatterns_eq_scan]
  exact clean_pass (by decide) hemails hd

theorem not_uncovers_of_colons (h : t.count ':' ≤ 1) : ¬ Uncovers m t := by
  rintro ⟨before, k, after, rfl, -, i, hi, -⟩
  refine not_clean_ipv6_iff.mpr ⟨i, hi⟩ ?_
  rintro x y rfl
  by_contra hne
  obtain ⟨n, hn⟩ := Option.ne_none_iff_exists'.mp hne
  obtain ⟨w, z, rfl, rfl⟩ := Span.exists_split (ipv6Matcher.le hn)
  have hcount := ipv6_colons hn
  simp only [List.count_append] at h
  omega

theorem spares_of_clean (h : Clean m none t) : Spares m t := by
  rintro x w y rfl - - z v ⟨a, ht, hm⟩
  rw [h z (v ++ a) ht] at hm
  simp at hm

theorem spares_of_clean_ipv6 (h : Clean ipv6Matcher none t) : Spares m t := by
  rintro x w y rfl hrun hw
  refine absurd (h.of_separated (fun c hc => ?_) fun c hc => ?_) (not_clean_ipv6_iff.mpr hw)
  · exact ipv6_separates (by simpa [hc] using hrun.left)
  · exact ipv6_separates (by simpa [Stops, hc] using hrun.right)

end ProviiAudit
