import ProviiAudit.Lib.JsonScan
import ProviiAudit.Sanitize.Cuts

/-! Sanitising the JSON text of the details.

The passes know nothing of JSON. Outside strings they find nothing, and inside a string a placeholder
does no harm unless it takes the place of characters of an escape sequence. -/
namespace ProviiAudit

open Utf8 (Text asBytes byteOf)
open Scan (scan Clean)
open Json (IsJson Between Broken InEscape StartsInEscape WithinStrings)

variable {d s t w x y : Text} {p : Option Char} {c : Char} {n : Nat} {b : Bytes}
  {ts : List Json.Token} {m : Scan.Matcher Char}

theorem notSpace_of_date (h : isDateChar (byteOf c) = true) :
    Json.isSpace c = false ∧ Json.isPunctuation c = false := by
  constructor
  · by_contra hc
    simp only [Json.isSpace, Bool.not_eq_false, Bool.or_eq_true, beq_iff_eq] at hc
    rcases hc with ((rfl | rfl) | rfl) | rfl <;> exact absurd h (by decide)
  · by_contra hc
    simp only [Json.isPunctuation, Bool.not_eq_false, Bool.or_eq_true, beq_iff_eq] at hc
    rcases hc with ((((rfl | rfl) | rfl) | rfl) | rfl) | rfl <;> exact absurd h (by decide)

theorem clean_between (hb : Between ts t)
    (h : ∀ p w y, m.len p (w ++ y) = some w.length → ¬ w <:+: t) : Clean m none t := by
  rintro x y rfl
  by_contra hne
  obtain ⟨n, hn⟩ := Option.ne_none_iff_exists'.mp hne
  obtain ⟨w, z, rfl, rfl⟩ := Span.exists_split (m.le hn)
  exact h _ w z hn ⟨x, z, by simp⟩

theorem ipv6_between (hb : Between ts t) : Clean ipv6Matcher none t := by
  refine clean_between hb fun p w y hm hw => ?_
  have hcount := ipv6_colons hm
  have hle := hw.sublist.count_le ':'
  have hone := hb.colons.1
  omega

theorem ipv4_between (hb : Between ts t) : Clean ipv4Matcher none t := by
  refine clean_between hb fun p w y hm hw => ?_
  have hchars : ∀ c ∈ w, Json.isSpace c = false ∧ Json.isPunctuation c = false := by
    intro c hc
    apply notSpace_of_date
    have hadj : isIpv4Adjacent (byteOf c) = true := Recogniser.matched_alphabet hm c hc
    simp only [isIpv4Adjacent, Bool.or_eq_true] at hadj
    rcases hadj with h | h <;> simp [isDateChar, h]
  obtain ⟨tok, u, hs, hu, hin⟩ := hb.word hw (Scan.ne_nil_of_len hm) hchars
  have hdots := ipv4_dots hm
  have hle := hin.sublist.count_le '.'
  have hone := hu.scalar_dots hs
  omega

theorem address_between (hb : Between ts t) : Clean addressMatcher none t := by
  refine clean_between hb fun p w y hm hw => ?_
  obtain ⟨l, v, z, hsplit, hlen, -⟩ := addressMatcher_some hm
  have hwhole : w ++ y = (l ++ '@' :: v) ++ z := by simpa using hsplit
  obtain ⟨rfl, -⟩ := List.append_inj hwhole hlen
  have hat : '@' ∈ t := hw.subset (by simp)
  rcases hb.chars _ hat with h | h | h
  · exact absurd h (by decide)
  · exact absurd h (by decide)
  · exact absurd h (by decide)

theorem tryParseIsoDate_minus (h : tryParseIsoDate b 0 = some n) :
    ∃ e, isAsciiDigit e = true ∧ [e, byteOf '-'] <:+: b.take 10 := by
  simp only [tryParseIsoDate] at h
  split at h
  · rename_i y₀ y₁ y₂ y₃ h₀ m₀ m₁ h₁ d₀ d₁ hs
    split_ifs at h with hc
    simp only [Bool.and_eq_true, List.all_cons, beq_iff_eq] at hc
    have htake : b.take 10 = [y₀, y₁, y₂, y₃, h₀, m₀, m₁, h₁, d₀, d₁] := by simpa [slice] using hs
    refine ⟨y₃, by simp [hc], [y₀, y₁, y₂], [m₀, m₁, h₁, d₀, d₁], ?_⟩
    rw [htake]
    simp [hc]
  · simp at h

theorem tryParseSlashDate_slash (h : tryParseSlashDate b 0 = some n) :
    byteOf '/' ∈ b.take 10 := by
  simp only [tryParseSlashDate] at h
  split at h
  · rename_i hs
    split_ifs at h with hc
    simp only [Bool.and_eq_true, List.all_cons, beq_iff_eq] at hc
    rw [show b.take 10 = _ by simpa [slice] using hs]
    simp [hc]
  · simp at h

theorem tryParseDotDate_dots (h : tryParseDotDate b 0 = some n) :
    2 ≤ (b.take 10).count (byteOf '.') := by
  simp only [tryParseDotDate] at h
  split at h
  · rename_i hs
    split_ifs at h with hc
    simp only [Bool.and_eq_true, List.all_cons, beq_iff_eq] at hc
    rw [show b.take 10 = _ by simpa [slice] using hs]
    simp [hc, List.count_cons]
    omega
  · simp at h

/-- What tells a date from a number. -/
theorem dob_marks (h : dobMatcher.len p (w ++ y) = some w.length) :
    '/' ∈ w ∨ 2 ≤ w.count '.' ∨ ∃ c, c.isDigit = true ∧ [c, '-'] <:+: w := by
  have hlen : dateHeadLen (codes (w ++ y)) = some w.length := (Recogniser.matcher_len_iff.mp h).2.1
  have htake : (codes (w ++ y)).take 10 = codes w := by
    rw [← (dateHeadLen_some hlen).1, codes, List.map_append, List.take_left' (by simp)]
  rw [dateHeadLen] at hlen
  split_ifs at hlen
  rcases Option.or_eq_some_iff.mp hlen with hlen | ⟨-, hlen⟩
  · rcases Option.or_eq_some_iff.mp hlen with hlen | ⟨-, hlen⟩
    · obtain ⟨e, he, u, v, huv⟩ := tryParseIsoDate_minus hlen
      right
      right
      rw [htake] at huv
      obtain ⟨a, z, rfl, ha, -⟩ := List.map_eq_append_iff.mp huv.symm
      obtain ⟨a, pair, rfl, -, hpair⟩ := List.map_eq_append_iff.mp ha
      obtain ⟨c, last, rfl, rfl, hlast⟩ := List.map_eq_cons_iff.mp hpair
      obtain ⟨f, rest, rfl, hf, hrest⟩ := List.map_eq_cons_iff.mp hlast
      obtain rfl : f = '-' := Utf8.eq_of_byteOf (by decide) hf
      obtain rfl := List.map_eq_nil_iff.mp hrest
      exact ⟨c, by rwa [← isAsciiDigit_byteOf], a, z, rfl⟩
    · left
      have hmem := tryParseSlashDate_slash hlen
      rw [htake] at hmem
      obtain ⟨c, hc, hbyte⟩ := List.mem_map.mp hmem
      rwa [← Utf8.eq_of_byteOf (by decide) hbyte]
  · right
    left
    have hdots := tryParseDotDate_dots hlen
    rwa [htake, count_codes (by decide)] at hdots

theorem dob_between (hb : Between ts t) : Clean dobMatcher none t := by
  refine clean_between hb fun p w y hm hw => ?_
  have hchars : ∀ c ∈ w, Json.isSpace c = false ∧ Json.isPunctuation c = false :=
    fun c hc => notSpace_of_date (dob_chars hm c hc)
  obtain ⟨tok, u, hs, hu, hin⟩ := hb.word hw (Scan.ne_nil_of_len hm) hchars
  rcases dob_marks hm with hslash | hdots | ⟨e, he, hminus⟩
  · exact absurd (hu.scalar_chars hs _ (hin.subset hslash)) (by decide)
  · have hle := hin.sublist.count_le '.'
    have hone := hu.scalar_dots hs
    omega
  · obtain ⟨before, after, hsplit⟩ := hminus.trans hin
    have hchain := hu.scalar_minus hs
    rw [← hsplit] at hchain
    exact (List.isChain_cons.mp hchain.left_of_append.right_of_append).1 '-' rfl ⟨he, rfl⟩

theorem ipv6_within : WithinStrings ipv6Matcher :=
  ⟨ipv6Recogniser.separates (by decide), ipv6Recogniser.separates (by decide),
    ipv6Recogniser.separates (by decide), fun _ _ => ipv6_between⟩

theorem ipv4_within : WithinStrings ipv4Matcher :=
  ⟨ipv4Recogniser.separates (by decide), ipv4Recogniser.separates (by decide),
    ipv4Recogniser.separates (by decide), fun _ _ => ipv4_between⟩

theorem address_within : WithinStrings addressMatcher :=
  ⟨addressMatcher_separates (by decide) (by decide),
    addressMatcher_separates (by decide) (by decide),
    addressMatcher_separates (by decide) (by decide), fun _ _ => address_between⟩

theorem dob_within : WithinStrings dobMatcher :=
  ⟨dobRecogniser.separates (by decide), dobRecogniser.separates (by decide),
    dobRecogniser.separates (by decide), fun _ _ => dob_between⟩

/-- A date does not start inside an escape sequence: the characters there are letters or digits. -/
theorem dob_not_in_escape (hjson : IsJson t) : ¬ StartsInEscape dobMatcher t := by
  rintro ⟨x, y, rfl, hx, hm⟩
  obtain ⟨n, hn⟩ := Option.ne_none_iff_exists'.mp hm
  obtain ⟨w, z, rfl, rfl⟩ := Span.exists_split (dobMatcher.le hn)
  obtain ⟨c, w, rfl⟩ := List.exists_cons_of_ne_nil (Scan.ne_nil_of_len hn)
  have hdigit : isAsciiDigit (byteOf c) = true := by simpa using (dob_ends hn).1
  have hbefore : x.getLast?.any (fun c => isAsciiAlphanumeric (byteOf c)) = false :=
    Recogniser.last_before hn
  obtain ⟨ts, hl, -⟩ := hjson
  obtain ⟨x, e, rfl⟩ := (List.eq_nil_or_concat x).resolve_left hx.ne_nil
  rw [List.concat_eq_append] at hx hbefore hl
  have hlast : isAsciiAlphanumeric (byteOf e) = false := by simpa using hbefore
  rw [isAsciiAlphanumeric_byteOf] at hlast
  have hleads := hl.leads
  rw [List.append_assoc, List.singleton_append] at hleads
  rw [isAsciiDigit_byteOf] at hdigit
  exact absurd (hleads.alphanum_before hx hdigit) (by simp [hlast])

/-- A pass makes a JSON text of a text that is one, unless a match starts inside an escape sequence;
then, and from then on, the text is none. -/
theorem isJson_pass_iff {R : Text} (hm : WithinStrings m)
    (hR : ∀ c ∈ R, Json.isUnescaped c = true) (ht : IsJson t ∨ Broken .plain t) :
    (IsJson (scan m ('[' :: R) none t) ∨ Broken .plain (scan m ('[' :: R) none t)) ∧
      (IsJson (scan m ('[' :: R) none t) ↔ IsJson t ∧ ¬ StartsInEscape m t) := by
  have hback : '\\' ∉ R := fun hmem => absurd (hR _ hmem) (by decide)
  rcases ht with ht | ⟨x, y, rfl, hx⟩
  · rw [Json.isJson_scan_iff hm hR ht]
    refine ⟨?_, by simp [ht]⟩
    by_cases hs : StartsInEscape m t
    · obtain ⟨x, y, hxy, hx, hmatch⟩ := hs
      exact .inr (Json.broken_scan hm hback hxy hx (.inl (by simpa [Scan.lastOr] using hmatch)))
    · exact .inl hs
  · have hbracket : m.len (Scan.lastOr none x) ('[' :: y) ≠ none ∨ ('[' :: y).head? = some '[' :=
      .inr rfl
    have hbroken := Json.broken_scan hm hback rfl hx hbracket
    refine ⟨.inr hbroken, fun h => absurd hbroken h.not_broken, fun h => ?_⟩
    exact absurd ⟨x, y, rfl, hx⟩ h.1.not_broken

/-- Without overlapping addresses, the sanitised text is a JSON text exactly when no address of the
three passes starts inside an escape sequence. -/
theorem isJson_stripPii_iff (d : Text) (hd : IsJson d) (ht : ChainFree (stripIpv4 (stripIpv6 d))) :
    IsJson (stripPii d) ↔ ¬ StartsInEscape ipv6Matcher d ∧
      ¬ StartsInEscape ipv4Matcher (stripIpv6 d) ∧
        ¬ StartsInEscape addressMatcher (stripIpv4 (stripIpv6 d)) := by
  have hip : ∀ c ∈ "REDACTED_IP]".toList, Json.isUnescaped c = true :=
    List.all_eq_true.mp (by decide)
  have hemail : ∀ c ∈ "REDACTED_EMAIL]".toList, Json.isUnescaped c = true :=
    List.all_eq_true.mp (by decide)
  have hdob : ∀ c ∈ "REDACTED_DOB]".toList, Json.isUnescaped c = true :=
    List.all_eq_true.mp (by decide)
  obtain ⟨h6, h6'⟩ := isJson_pass_iff ipv6_within hip (.inl hd)
  obtain ⟨h4, h4'⟩ := isJson_pass_iff ipv4_within hip h6
  obtain ⟨ha, ha'⟩ := isJson_pass_iff address_within hemail h4
  obtain ⟨-, hd'⟩ := isJson_pass_iff dob_within hdob ha
  have hdone : stripPii d = scan dobMatcher redactedDob none (scan addressMatcher redactedEmail none
      (scan ipv4Matcher redactedIp none (scan ipv6Matcher redactedIp none d))) := by
    rw [stripPii, stripEmails_eq_scan ht, stripDobPatterns_eq_scan, stripIpv4_eq_scan,
      stripIpv6_eq_scan]
  rw [hdone, stripIpv4_eq_scan, stripIpv6_eq_scan]
  constructor
  · intro h
    obtain ⟨h, -⟩ := hd'.mp h
    obtain ⟨h, hemails⟩ := ha'.mp h
    obtain ⟨h, hquads⟩ := h4'.mp h
    exact ⟨(h6'.mp h).2, hquads, hemails⟩
  · rintro ⟨hcolons, hquads, hemails⟩
    have h := ha'.mpr ⟨h4'.mpr ⟨h6'.mpr ⟨hd, hcolons⟩, hquads⟩, hemails⟩
    exact hd'.mpr ⟨h, dob_not_in_escape h⟩

theorem isJson_stripPii_sample : IsJson "\"10.0.0.1\"".toList ∧
    (IsJson (stripPii "\"10.0.0.1\"".toList) ↔ ¬ StartsInEscape ipv6Matcher "\"10.0.0.1\"".toList ∧
      ¬ StartsInEscape ipv4Matcher (stripIpv6 "\"10.0.0.1\"".toList) ∧
        ¬ StartsInEscape addressMatcher (stripIpv4 (stripIpv6 "\"10.0.0.1\"".toList))) := by
  have hchars : "10.0.0.1".toList.all Json.isUnescaped = true := by decide
  have hjson := Json.isJson_string
    (Json.StringBody.nil.append_unescaped (List.all_eq_true.mp hchars))
  exact ⟨hjson, isJson_stripPii_iff _ hjson (chainFree_of_count (by decide))⟩

/-- The local part starts with the letter of an escaped line feed. -/
theorem details_not_json : ¬ ∀ d, IsJson d → IsJson (stripPii d) := by
  intro h
  have hchars : "user@example.com".toList.all Json.isUnescaped = true := by decide
  have hbody := Json.StringBody.nil.append_unescaped (List.all_eq_true.mp hchars)
  have hline : 'n' ∈ "\"\\/bfnrt".toList := by decide
  have hbroken : Broken .plain (stripPii "\"\\nuser@example.com\"".toList) :=
    ⟨['"', '\\'], "REDACTED_EMAIL]\"".toList, by decide, by decide⟩
  exact (h _ (Json.isJson_string (hbody.escape hline))).not_broken hbroken

end ProviiAudit
