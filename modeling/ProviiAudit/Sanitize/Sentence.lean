import ProviiAudit.Sanitize.Absorb
import ProviiAudit.Sanitize.Clock
import ProviiAudit.Sanitize.Indistinct
import ProviiAudit.Sanitize.Ipv6

/-! A dotted quad that ends a sentence.

The dot behind it counts as part of it, so the IPv4 pass keeps the quad. What may still take it is
the IPv6 pass in front and the email pass behind. -/
namespace ProviiAudit

open Utf8 (Text asBytes byteOf)
open Span (Stops)
open Scan (scan lastOr)

variable {A B X Y a k l post pre q t w x y : Text} {p : Option Char} {j n : Nat}

/-- The quad is the end of an IPv6 address. -/
def EndsIpv6 (pre post : Text) : Prop :=
  ∀ a, IsQuad (asBytes a) → ∃ i ≤ (asBytes pre).length,
    ipv6At (asBytes (pre ++ (a ++ post))) i = some (asBytes (pre ++ a)).length

/-- What the address passes leave of the quad lies in one email address. -/
def InAddress (pre post : Text) : Prop :=
  ∃ A B, (∀ a, IsQuad (asBytes a) → ∃ l, l <:+ a ∧
    stripIpv4 (stripIpv6 (pre ++ (a ++ post))) = A ++ (l ++ '.' :: B)) ∧
      (InDomain A B ∧ ¬ InLocal B ∨ ¬ InDomain A B ∧ InLocal B)

theorem quad_dots (ha : IsQuad (codes a)) : a.count '.' = 3 := by
  obtain ⟨o₁, o₂, o₃, o₄, h₁, h₂, h₃, h₄, rfl⟩ := ha.text
  have hdot : ∀ {o : Text}, IsOctet (codes o) → o.count '.' = 0 := by
    intro o ho
    rw [List.count_eq_zero]
    exact fun hmem => absurd (ho.digits _ (List.mem_map_of_mem hmem)) (by decide)
  simp [List.count_append, hdot h₁, hdot h₂, hdot h₃, hdot h₄]

/-- Three dots and one more are too many. -/
theorem ipv4_unmatched (hadj : ∀ c ∈ l, isIpv4Adjacent (byteOf c) = true)
    (hdots : 3 ≤ l.count '.') : ipv4Matcher.len p (l ++ '.' :: Y) = none := by
  by_contra hsome
  obtain ⟨n, hn⟩ := Option.ne_none_iff_exists'.mp hsome
  obtain ⟨w, y, hsplit, rfl⟩ := Span.exists_split (ipv4Matcher.le hn)
  rw [hsplit] at hn
  have hthree := quad_dots (ipv4_quad hn)
  have hafter : y.head?.any (fun c => isIpv4Adjacent (byteOf c)) = false := by
    have h := (Recogniser.matcher_len_iff.mp hn).2.2
    rw [codes, List.map_append, List.getElem?_append_right (by simp), List.length_map,
      Nat.sub_self, ← List.head?_eq_getElem?, List.head?_map, Option.any_map] at h
    exact h
  have hdot : isIpv4Adjacent (byteOf '.') = true := by decide
  rcases List.append_eq_append_iff.mp hsplit with ⟨v, rfl, hv⟩ | ⟨v, rfl, rfl⟩
  · cases v with
    | nil =>
      rw [List.nil_append] at hv
      simp [← hv, hdot] at hafter
    | cons c v =>
      obtain ⟨rfl, -⟩ := List.cons_eq_cons.mp hv
      rw [List.count_append, List.count_cons_self] at hthree
      omega
  · cases v with
    | nil => simp [hdot] at hafter
    | cons c v => simp [hadj c] at hafter

/-- The IPv4 pass keeps what has three dots and one behind. -/
theorem stripIpv4_left (hX : X.getLast?.any (fun c => isIpv4Adjacent (byteOf c)) = false)
    (hadj : ∀ c ∈ l, isIpv4Adjacent (byteOf c) = true) (hdots : 3 ≤ l.count '.') :
    stripIpv4 (X ++ (l ++ '.' :: Y)) =
      stripIpv4 X ++ (l ++ '.' :: scan ipv4Matcher redactedIp (some '.') Y) := by
  obtain ⟨c, w, rfl⟩ : ∃ c w, l = c :: w := by
    cases l with
    | nil => simp at hdots
    | cons c w => exact ⟨c, w, rfl⟩
  have hnone := ipv4_unmatched (p := none) (Y := Y) hadj hdots
  obtain ⟨hc, hw⟩ := List.forall_mem_cons.mp hadj
  have hrun := scan_ipv4_behind (w := w ++ ['.']) (y := Y) hc
    (List.forall_mem_append.mpr ⟨hw, by simp; decide⟩)
  have hlast : lastOr (some c) (w ++ ['.']) = some '.' := by simp
  rw [hlast, List.append_assoc, List.singleton_append, List.append_assoc,
    List.singleton_append] at hrun
  rw [List.cons_append] at hnone ⊢
  rw [stripIpv4_eq_scan, stripIpv4_eq_scan, scan_ipv4_sep hX, Scan.scan_keep hnone, hrun,
    List.cons_append]

/-- The quad without its first octet. -/
def lastOctets (a : Text) : Text := a.dropWhile fun c => isAsciiDigit (byteOf c)

theorem lastOctets_quadText {o₁ o₂ o₃ o₄ : Text} (h₁ : IsOctet (codes o₁)) :
    lastOctets (quadText o₁ o₂ o₃ o₄) = '.' :: (o₂ ++ '.' :: (o₃ ++ '.' :: o₄)) := by
  have hdigits : ∀ c ∈ o₁, isAsciiDigit (byteOf c) = true :=
    fun c hc => h₁.digits _ (List.mem_map_of_mem hc)
  rw [lastOctets, quadText, List.dropWhile_append_of_pos hdigits,
    List.dropWhile_cons_of_neg (by decide)]

/-- One digit more in the last octet, and in the first one two. -/
def longQuad : Text := "1.1.1.11".toList

def wideQuad : Text := "111.1.1.1".toList

theorem isQuad_longQuad : IsQuad (codes longQuad) :=
  ⟨codes ['1'], codes ['1'], codes ['1'], codes ['1', '1'], by decide, by decide, by decide,
    by decide, rfl⟩

theorem isQuad_wideQuad : IsQuad (codes wideQuad) :=
  ⟨codes ['1', '1', '1'], codes ['1'], codes ['1'], codes ['1'], by decide, by decide, by decide,
    by decide, rfl⟩

/-- What the pass makes of a quad with a dot behind it. -/
inductive SentenceOutcome (x k q : Text) : Prop
  | covered (Z : Text) : (∀ a, IsQuad (codes a) → ipv6Matcher.len x.getLast?
        (k ++ (a ++ '.' :: q)) = some (k.length + a.length)) →
      (∀ a, IsQuad (codes a) → stripIpv6 (x ++ (k ++ (a ++ '.' :: q))) = Z) → SentenceOutcome x k q
  | rest (X Y : Text) (f : Text → Text) :
      X.getLast?.any (fun c => isIpv4Adjacent (byteOf c)) = false →
      (∀ a, IsQuad (codes a) → f a <:+ a ∧ 3 ≤ (f a).count '.') →
      (f longQuad).length = (f oneQuad).length + 1 →
      (∀ a, IsQuad (codes a) → stripIpv6 (x ++ (k ++ (a ++ '.' :: q))) = X ++ (f a ++ '.' :: Y)) →
      SentenceOutcome x k q
  | mixed : (stripIpv6 (x ++ (k ++ (oneQuad ++ '.' :: q)))).count ':' <
      (stripIpv6 (x ++ (k ++ (wideQuad ++ '.' :: q)))).count ':' → SentenceOutcome x k q

theorem scan_last_octet {o : Text} (ho : IsOctet (codes o)) :
    scan ipv6Matcher redactedIp p (o ++ '.' :: q) =
      o ++ '.' :: scan ipv6Matcher redactedIp (some '.') q :=
  scan_before_dot (octet_chars ho)

/-- Where the pass takes a short first octet, but not a long one, it takes colons. -/
theorem count_mixed (hx : x.getLast?.any (fun c => isIpv6Adjacent (byteOf c)) = false)
    (hk : ∀ c ∈ k, isIpv6Adjacent (byteOf c) = true)
    (hlast : (codes (x ++ k)).getLast?.any isIpv4Adjacent = false)
    (hone : ipv6Matcher.len x.getLast? (k ++ (oneQuad ++ '.' :: q)) = some (k.length + 1))
    (hwide : ipv6Matcher.len x.getLast? (k ++ (wideQuad ++ '.' :: q)) = none) :
    (stripIpv6 (x ++ (k ++ (oneQuad ++ '.' :: q)))).count ':' <
      (stripIpv6 (x ++ (k ++ (wideQuad ++ '.' :: q)))).count ':' := by
  have hdot : Stops isAsciiDigit (codes ('.' :: q)) := dot_stops _
  obtain ⟨X, -, hscan⟩ := scan_to_run (p := none) hx hk hlast hdot
  have hlastOr : lastOr none x = x.getLast? := by simp [lastOr]
  rw [hlastOr] at hscan
  have hsplit : k ++ (oneQuad ++ '.' :: q) = (k ++ ['1']) ++ (".1.1.1".toList ++ '.' :: q) := by
    rw [List.append_assoc]
    rfl
  have hm : ipv6Matcher.len x.getLast? ((k ++ ['1']) ++ (".1.1.1".toList ++ '.' :: q)) =
      some (k ++ ['1']).length := by
    rw [← hsplit, hone, List.length_append]
    rfl
  have hcolons : 2 ≤ k.count ':' := by simpa using ipv6_colons hm
  have hshort : scan ipv6Matcher redactedIp (lastOr x.getLast? (k ++ ['1']))
      (".1.1.1".toList ++ '.' :: q) =
        ".1.1.1".toList ++ '.' :: scan ipv6Matcher redactedIp (some '.') q :=
    scan_before_dot (List.all_eq_true.mp (by decide))
  have hkept : scan ipv6Matcher redactedIp (lastOr x.getLast? k) (wideQuad ++ '.' :: q) =
      wideQuad ++ '.' :: scan ipv6Matcher redactedIp (some '.') q :=
    scan_before_dot (List.all_eq_true.mp (by decide))
  have hnone : redactedIp.count ':' = 0 ∧ (".1.1.1".toList).count ':' = 0 ∧
      wideQuad.count ':' = 0 := by decide
  rw [stripIpv6_eq_scan, stripIpv6_eq_scan, hscan _ isQuad_oneQuad, hscan _ isQuad_wideQuad,
    hsplit, Scan.scan_redact hm, hshort, scan_hex_run hk hwide, hkept]
  obtain ⟨hR, hquad, hquad'⟩ := hnone
  simp only [List.count_append, hR, hquad, hquad']
  omega

theorem sentenceOutcome (hx : x.getLast?.any (fun c => isIpv6Adjacent (byteOf c)) = false)
    (hk : ∀ c ∈ k, isIpv6Adjacent (byteOf c) = true)
    (hlast : (codes (x ++ k)).getLast?.any isIpv4Adjacent = false) : SentenceOutcome x k q := by
  have hdot : Stops isAsciiDigit (codes ('.' :: q)) := dot_stops _
  cases quadOutcome hx hk hlast hdot with
  | covered Z _ hlen hZ => exact .covered Z hlen hZ
  | kept X hX _ hscan =>
    refine .rest X (scan ipv6Matcher redactedIp (some '.') q) id hX
      (fun a ha => ⟨List.suffix_refl a, (quad_dots ha).ge⟩) rfl fun a ha => ?_
    obtain ⟨o₁, o₂, o₃, o₄, h₁, h₂, h₃, h₄, rfl⟩ := ha.text
    have hv6 := hscan o₁ o₂ o₃ o₄ h₁ h₂ h₃ h₄
    rw [scan_last_octet h₄] at hv6
    simpa [quadText] using hv6
  | part X j hX hj hlen hscan =>
    rcases Nat.lt_or_ge 1 j with hlong | hshort
    · refine .mixed (count_mixed hx hk hlast ?_ ?_)
      · rw [hlen _ isQuad_oneQuad, show firstLen (codes oneQuad) = 1 by decide, if_pos (by omega)]
      · rw [hlen _ isQuad_wideQuad, show firstLen (codes wideQuad) = 3 by decide,
          if_neg (by omega)]
    · refine .rest X (scan ipv6Matcher redactedIp (some '.') q) lastOctets (by rw [hX]; decide)
        (fun a ha => ⟨List.dropWhile_suffix _, ?_⟩) (by decide) fun a ha => ?_
      · obtain ⟨o₁, o₂, o₃, o₄, h₁, -, -, -, rfl⟩ := ha.text
        rw [← quadText, lastOctets_quadText h₁]
        simp only [List.count_append, List.count_cons_self]
        omega
      · obtain ⟨o₁, o₂, o₃, o₄, h₁, h₂, h₃, h₄, rfl⟩ := ha.text
        have hle := h₁.le
        rw [List.length_map] at hle
        have hv6 := hscan o₁ o₂ o₃ o₄ h₁ h₂ h₃ h₄ (by omega)
        rw [scan_last_octet h₄] at hv6
        rw [← quadText, lastOctets_quadText h₁]
        simpa [quadText] using hv6

theorem prefix_of_bytes {s : Text} (hu : x <+: s) (hv : y <+: s)
    (h : (asBytes x).length = (asBytes y).length) : x = y := by
  have hlen : x.length = y.length := le_antisymm ((Utf8.length_asBytes_le_iff hu hv).mp h.le)
    ((Utf8.length_asBytes_le_iff hv hu).mp h.ge)
  exact (List.prefix_of_prefix_length_le hu hv hlen.le).eq_of_length hlen

/-- The address as the pass matches it. -/
theorem match_of_endsIpv6 (h : EndsIpv6 pre post) : ∃ u r, pre = u ++ r ∧
    ipv6Matcher.len u.getLast? ((r ++ oneQuad) ++ post) = some (r ++ oneQuad).length := by
  obtain ⟨i, hi, hfind⟩ := h oneQuad ((isQuad_asBytes _).mpr isQuad_oneQuad)
  rw [ipv6At_eq] at hfind
  obtain ⟨u, w, y, hs, rfl, hend, hm⟩ := Recogniser.find_some_iff.mp hfind
  have huw : u ++ w <+: pre ++ (oneQuad ++ post) := ⟨y, by rw [hs, List.append_assoc]⟩
  have hquad : pre ++ oneQuad <+: pre ++ (oneQuad ++ post) := ⟨post, List.append_assoc ..⟩
  have hwhole : pre ++ oneQuad = u ++ w := prefix_of_bytes hquad huw hend
  have hle := (Utf8.length_asBytes_le_iff (hs ▸ List.prefix_append u _)
    (List.prefix_append pre _)).mp hi
  obtain ⟨r, rfl⟩ : u <+: pre := List.prefix_of_prefix_length_le (hwhole ▸ List.prefix_append u w)
    (List.prefix_append pre _) hle
  rw [List.append_assoc, List.append_cancel_left_eq] at hwhole
  subst hwhole
  obtain rfl : post = y := by simpa using hs
  exact ⟨u, r, rfl, hm⟩

theorem stripIpv6_of_endsIpv6 (hpre : (codes pre).getLast?.any isIpv4Adjacent = false)
    (h : EndsIpv6 pre ('.' :: q)) :
    ∃ Z, ∀ a, IsQuad (codes a) → stripIpv6 (pre ++ (a ++ '.' :: q)) = Z := by
  have hdot : Stops isAsciiDigit (codes ('.' :: q)) := dot_stops _
  obtain ⟨u, r, rfl, hm⟩ := match_of_endsIpv6 h
  have hbehind := (Recogniser.matcher_len_iff.mp hm).1
  rw [List.append_assoc] at hm
  have hne : r ≠ [] := by
    rintro rfl
    rw [List.nil_append, ipv6Matcher_before_dot (List.all_eq_true.mp (by decide))] at hm
    simp at hm
  have hlast : (codes r).getLast?.any isIpv4Adjacent = false := by
    rw [codes, List.map_append] at hpre
    exact last_tail hpre
  -- the match is longer than one that stops behind the first octet
  have hpart : ∀ {j}, ipv6Matcher.len u.getLast? (r ++ (oneQuad ++ '.' :: q)) ≠
      if j + firstLen (codes oneQuad) ≤ 4 then some (r.length + firstLen (codes oneQuad))
      else none := by
    intro j heq
    rw [hm, show firstLen (codes oneQuad) = 1 by decide] at heq
    split_ifs at heq
    simp only [Option.some.injEq, List.length_append, show oneQuad.length = 7 from rfl] at heq
    omega
  cases meets (p := u.getLast?) hne hlast hdot with
  | apart res hres hlen =>
    have hlt := hres _ ((hlen _ isQuad_oneQuad).symm.trans hm)
    rw [List.length_append] at hlt
    omega
  | part j _ _ hlen => exact absurd (hlen _ isQuad_oneQuad) hpart
  | whole hadj _ =>
    cases quadOutcome hbehind hadj hpre hdot with
    | covered Z _ _ hZ => exact ⟨Z, fun a ha => by rw [List.append_assoc, hZ a ha]⟩
    | kept X _ hnone _ =>
      rw [hnone _ isQuad_oneQuad] at hm
      simp at hm
    | part X j _ _ hlen _ => exact absurd (hlen _ isQuad_oneQuad) hpart

theorem length_stripDobPatterns (t : Text) :
    (stripDobPatterns t).length ≡ t.length [MOD 4] := by
  rw [stripDobPatterns_eq_scan]
  refine Scan.length_scan_modEq fun p w y hm => ?_
  have hten := (dateHeadLen_some (Recogniser.matcher_len_iff.mp hm).2.1).1
  rw [hten]
  decide

theorem count_stripPii (hs : ChainFree (stripIpv4 (stripIpv6 t))) :
    (stripPii t).count ':' = (stripIpv6 t).count ':' := by
  have hv4 : (stripIpv4 (stripIpv6 t)).count ':' = (stripIpv6 t).count ':' := by
    rw [stripIpv4_eq_scan]
    refine Scan.count_scan_eq (by decide) fun p w y hm hmem => ?_
    exact absurd ((ipv4_quad hm).ipv4Adjacent _ (List.mem_map_of_mem hmem)) (by decide)
  rw [stripPii, count_stripDobPatterns, stripEmails_eq_scan hs, ← hv4]
  refine Scan.count_scan_eq (by decide) fun p w y hm hmem => ?_
  obtain ⟨l, d, z, hsplit, hlen, -, -, hl, hd⟩ := addressMatcher_some hm
  have hw : w = l ++ '@' :: d := by
    have hsplit' : w ++ y = (l ++ '@' :: d) ++ z := by simpa using hsplit
    exact List.append_inj_left hsplit' hlen
  have hdomain := matched_domain hd
  rw [hw, List.mem_append, List.mem_cons] at hmem
  rcases hmem with hmem | hmem | hmem
  · exact absurd (hl _ hmem) (by decide)
  · simp at hmem
  · exact absurd (hdomain _ hmem) (by decide)

/-- What no address takes shows its length. -/
theorem shown_length (hd : ¬ InDomain A B) (hl : ¬ InLocal B) (ht : ChainFree B)
    (hx : ∀ c ∈ x, isIpv4Adjacent (byteOf c) = true)
    (hy : ∀ c ∈ y, isIpv4Adjacent (byteOf c) = true) (hlen : y.length = x.length + 1) :
    stripDobPatterns (stripEmails (A ++ (x ++ '.' :: B))) ≠
      stripDobPatterns (stripEmails (A ++ (y ++ '.' :: B))) := by
  obtain ⟨o, t, hshown⟩ := stripEmails_shown hd hl ht
  intro heq
  have hleft := length_stripDobPatterns (o ++ (x ++ '.' :: t))
  have hright := length_stripDobPatterns (o ++ (y ++ '.' :: t))
  rw [hshown x hx, hshown y hy] at heq
  rw [heq] at hleft
  have hmod := hleft.symm.trans hright
  simp only [Nat.ModEq, List.length_append, List.length_cons, hlen] at hmod
  omega

/-- What the address passes leave of a quad is a part of it, and shows how long it is. -/
theorem inAddress_of_rest {f : Text → Text}
    (hX : X.getLast?.any (fun c => isIpv4Adjacent (byteOf c)) = false)
    (hf : ∀ a, IsQuad (codes a) → f a <:+ a ∧ 3 ≤ (f a).count '.')
    (hlong : (f longQuad).length = (f oneQuad).length + 1)
    (hscan : ∀ a, IsQuad (codes a) → stripIpv6 (pre ++ (a ++ '.' :: q)) = X ++ (f a ++ '.' :: Y))
    (hchain : ∀ a, IsQuad (codes a) → ChainFree (stripIpv4 (stripIpv6 (pre ++ (a ++ '.' :: q)))))
    (hall : stripPii (pre ++ (oneQuad ++ '.' :: q)) = stripPii (pre ++ (longQuad ++ '.' :: q))) :
    InAddress pre ('.' :: q) := by
  have hadj : ∀ a, IsQuad (codes a) → ∀ c ∈ f a, isIpv4Adjacent (byteOf c) = true :=
    fun a ha c hc => ha.ipv4Adjacent _ (List.mem_map_of_mem ((hf a ha).1.subset hc))
  obtain ⟨A, B, hleft⟩ : ∃ A B, ∀ a, IsQuad (codes a) →
      stripIpv4 (stripIpv6 (pre ++ (a ++ '.' :: q))) = A ++ (f a ++ '.' :: B) :=
    ⟨_, _, fun a ha => by rw [hscan a ha, stripIpv4_left hX (hadj a ha) (hf a ha).2]⟩
  have hone := hchain _ isQuad_oneQuad
  rw [hleft _ isQuad_oneQuad] at hone
  have hB : ChainFree B := by
    have hwhole : ChainFree ((A ++ (f oneQuad ++ ['.'])) ++ (B ++ [])) := by simpa using hone
    exact chainFree_infix hwhole rfl
  refine ⟨A, B, fun a ha => ?_, ?_⟩
  · rw [isQuad_asBytes] at ha
    exact ⟨f a, (hf a ha).1, hleft a ha⟩
  · by_cases hd : InDomain A B
    · exact .inl ⟨hd, fun hl => not_chainFree hd hl (hadj _ isQuad_oneQuad) hone⟩
    · refine .inr ⟨hd, ?_⟩
      by_contra hl
      refine shown_length hd hl hB (hadj _ isQuad_oneQuad) (hadj _ isQuad_longQuad) hlong ?_
      rw [stripPii, stripPii, hleft _ isQuad_oneQuad, hleft _ isQuad_longQuad] at hall
      exact hall

theorem taken_of_indistinct (hpre : (codes pre).getLast?.any isIpv4Adjacent = false)
    (hchain : ∀ a, IsQuad (codes a) → ChainFree (stripIpv4 (stripIpv6 (pre ++ (a ++ '.' :: q)))))
    (hall : ∀ a b, IsQuad (codes a) → IsQuad (codes b) →
      stripPii (pre ++ (a ++ '.' :: q)) = stripPii (pre ++ (b ++ '.' :: q))) :
    EndsIpv6 pre ('.' :: q) ∨ InAddress pre ('.' :: q) := by
  obtain ⟨x, k, rfl, hk, hx⟩ := exists_hex_run pre
  cases sentenceOutcome (q := q) hx hk hpre with
  | covered Z hlen _ =>
    refine .inl fun a ha => ?_
    rw [isQuad_asBytes] at ha
    refine ⟨(asBytes x).length, ?_, ?_⟩
    · rw [Utf8.asBytes_append, List.length_append]
      exact Nat.le_add_right ..
    · rw [ipv6At_eq]
      refine Recogniser.find_some_iff.mpr ⟨x, k ++ a, '.' :: q, by simp, rfl, by simp, ?_⟩
      rw [List.append_assoc, hlen a ha, List.length_append]
  | rest X Y f hX hf hlong hscan =>
    have hscan' : ∀ a, IsQuad (codes a) → stripIpv6 (x ++ k ++ (a ++ '.' :: q)) =
        X ++ (f a ++ '.' :: Y) := fun a ha => by rw [List.append_assoc, hscan a ha]
    exact .inr (inAddress_of_rest hX hf hlong hscan' hchain
      (hall _ _ isQuad_oneQuad isQuad_longQuad))
  | mixed hcount =>
    have heq := congrArg (List.count ':') (hall _ _ isQuad_oneQuad isQuad_wideQuad)
    rw [count_stripPii (hchain _ isQuad_oneQuad), count_stripPii (hchain _ isQuad_wideQuad),
      List.append_assoc, List.append_assoc] at heq
    exact absurd heq hcount.ne

theorem indistinct_of_taken (hpre : (codes pre).getLast?.any isIpv4Adjacent = false)
    (h : EndsIpv6 pre ('.' :: q) ∨ InAddress pre ('.' :: q)) :
    ∃ Z, ∀ a, IsQuad (codes a) → stripPii (pre ++ (a ++ '.' :: q)) = Z := by
  rcases h with h | ⟨A, B, hsplit, hone⟩
  · obtain ⟨Z, hZ⟩ := stripIpv6_of_endsIpv6 hpre h
    exact ⟨_, fun a ha => by rw [stripPii, hZ a ha]⟩
  · obtain ⟨E, hE⟩ : ∃ E, ∀ l, (∀ c ∈ l, isIpv4Adjacent (byteOf c) = true) →
        stripEmails (A ++ (l ++ '.' :: B)) = E :=
      hone.elim (fun h => stripEmails_in_domain h.1 h.2) fun h => stripEmails_in_local h.1 h.2
    refine ⟨stripDobPatterns E, fun a ha => ?_⟩
    obtain ⟨l, hl, hleft⟩ := hsplit a ((isQuad_asBytes a).mpr ha)
    rw [stripPii, hleft, hE l]
    exact fun c hc => ha.ipv4Adjacent _ (List.mem_map_of_mem (hl.subset hc))

/-- In front of a dot the text is the same for every quad when the quad ends an IPv6 address or
lies in one email address, and otherwise where no two addresses share characters it is not. -/
theorem sentence_quad_indistinct (pre q : Text)
    (hpre : (asBytes pre).getLast?.any isIpv4Adjacent = false) :
    (EndsIpv6 pre ('.' :: q) ∨ InAddress pre ('.' :: q) →
      ∀ a b, IsQuad (asBytes a) → IsQuad (asBytes b) →
        stripPii (pre ++ (a ++ '.' :: q)) = stripPii (pre ++ (b ++ '.' :: q))) ∧
    ((∀ a, IsQuad (asBytes a) →
        ChainFree (stripIpv4 (stripIpv6 (pre ++ (a ++ '.' :: q))))) →
      (∀ a b, IsQuad (asBytes a) → IsQuad (asBytes b) →
        stripPii (pre ++ (a ++ '.' :: q)) = stripPii (pre ++ (b ++ '.' :: q))) →
          EndsIpv6 pre ('.' :: q) ∨ InAddress pre ('.' :: q)) := by
  have hpre' := last_codes hpre
  constructor
  · intro h a b ha hb
    obtain ⟨Z, hZ⟩ := indistinct_of_taken hpre' h
    rw [hZ a ((isQuad_asBytes a).mp ha), hZ b ((isQuad_asBytes b).mp hb)]
  · intro hchain hall
    refine taken_of_indistinct hpre' (fun a ha => hchain a ((isQuad_asBytes a).mpr ha)) ?_
    exact fun a b ha hb => hall a b ((isQuad_asBytes a).mpr ha) ((isQuad_asBytes b).mpr hb)

theorem endsIpv6_mapped : EndsIpv6 "::ffff:".toList ".".toList := by
  intro a ha
  have haddress : IsIpv6 (asBytes ("::ffff:".toList ++ a)) := by
    have htext : asBytes ("::ffff:".toList ++ a) =
        joinColon [] ++ doubleColon ++ joinColon ([codes "ffff".toList] ++ [asBytes a]) := by
      have hcolon : asBytes "::ffff:".toList = doubleColon ++ codes "ffff:".toList := by decide
      rw [Utf8.asBytes_append, hcolon]
      simp [joinColon, List.intercalate]
    rw [htext]
    exact .compressedMixed [] _ _ (by decide) (by decide) ha
  have hm : ipv6Matcher.len none ("::ffff:".toList ++ a ++ ".".toList) =
      some ("::ffff:".toList ++ a).length :=
    @ipv6_matcher_address [] _ _ haddress rfl (.inr ⟨[], by decide, by decide⟩)
  refine ⟨0, Nat.zero_le _, ?_⟩
  rw [ipv6At_eq]
  refine Recogniser.find_some_iff.mpr ⟨[], "::ffff:".toList ++ a, ".".toList, ?_, rfl, rfl, hm⟩
  rw [List.nil_append, List.append_assoc]

theorem sentence_quad_indistinct_sample :
    stripPii ("::ffff:".toList ++ ("10.0.0.1".toList ++ ".".toList)) =
      stripPii ("::ffff:".toList ++ ("192.168.100.200".toList ++ ".".toList)) ∧
    (EndsIpv6 "::ffff:".toList ".".toList ∨ InAddress "::ffff:".toList ".".toList) := by
  have hboth := sentence_quad_indistinct "::ffff:".toList [] (by decide)
  have hsame := hboth.1 (.inl endsIpv6_mapped)
  refine ⟨hsame _ _ isQuad_sample.1 isQuad_sample.2, hboth.2 (fun a ha => ?_) hsame⟩
  obtain ⟨Z, hZ⟩ := stripIpv6_of_endsIpv6 (by decide) endsIpv6_mapped
  rw [hZ a ((isQuad_asBytes a).mp ha), ← hZ _ isQuad_oneQuad]
  exact chainFree_of_count (by decide)

/-- The end of an IPv6 address, a part of a domain, and a part of a local part. -/
example : stripPii "::ffff:1.2.3.4.".toList = "[REDACTED_IP].".toList ∧
    stripPii "me@1.2.3.4.example.com".toList = redactedEmail ∧
    stripPii "1.2.3.4.x@example.com".toList = redactedEmail := by decide

/-- The quad that ends the text is left as it is. -/
theorem sentence_shows_quad : ¬ ∀ pre q a b : Text,
    (asBytes pre).getLast?.any isIpv4Adjacent = false →
      (asBytes q).head?.any isIpv4Adjacent = false → IsQuad (asBytes a) → IsQuad (asBytes b) →
        stripPii (pre ++ (a ++ '.' :: q)) = stripPii (pre ++ (b ++ '.' :: q)) := by
  intro h
  have hone : IsQuad (asBytes oneQuad) := (isQuad_asBytes _).mpr isQuad_oneQuad
  have hlong : IsQuad (asBytes longQuad) := (isQuad_asBytes _).mpr isQuad_longQuad
  exact absurd (h [] [] _ _ rfl rfl hone hlong) (by decide)

end ProviiAudit
