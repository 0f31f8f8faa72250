import ProviiAudit.Sanitize.Locality
import ProviiAudit.Sanitize.Occurrences

/-! Texts of words. What stands between two separators is sanitised by itself; a word that a
recogniser takes as a whole becomes its placeholder. -/
namespace ProviiAudit

open Utf8 (Text asBytes byteOf)
open Scan (scan Clean)

variable {r : Recogniser} {w x y : Text} {c : Char} {words : List Text} {R : Text} {i : Nat}

theorem Recogniser.matches_whole (h : r.find (asBytes w) 0 = some (asBytes w).length) :
    r.matcher.len none w = some w.length := by
  obtain ⟨u, m, y, rfl, hu, he, hm⟩ := Recogniser.find_some_iff.mp h
  have hu : u = [] := by
    have hlen := Utf8.length_le_asBytes (s := u)
    exact List.length_eq_zero_iff.mp (by omega)
  subst hu
  have hy : y = [] := by
    have hlen := Utf8.length_le_asBytes (s := y)
    rw [List.nil_append, List.nil_append, Utf8.asBytes_append, List.length_append] at he
    exact List.length_eq_zero_iff.mp (by omega)
  subst hy
  simpa using hm

theorem scan_whole {m : Scan.Matcher Char} (h : m.len none w = some w.length) :
    scan m R none w = R := by
  have hscan := Scan.scan_redact (m := m) (R := R) (p := none) (w := w) (y := []) (by simpa using h)
  simpa using hscan

theorem clean_ipv6_of_no_colon (h : ':' ∉ w) : Clean ipv6Matcher none w := by
  refine Scan.clean_of_count (c := ':') (R := redactedIp) (by decide) (fun p w y hm => ?_) ?_
  · have hcount := ipv6_colons hm
    exact List.count_pos_iff.mp (by omega)
  · rw [List.count_eq_zero.mpr h]
    exact Nat.zero_le _

theorem clean_ipv4_of_dots (h : w.count '.' ≤ 2) : Clean ipv4Matcher none w := by
  rintro x y rfl
  by_contra hne
  obtain ⟨n, hn⟩ := Option.ne_none_iff_exists'.mp hne
  obtain ⟨q, z, rfl, rfl⟩ := Span.exists_split (ipv4Matcher.le hn)
  have hdots := ipv4_dots hn
  rw [List.count_append, List.count_append] at h
  omega

theorem stripIpv6_of_no_colon (h : ':' ∉ w) : stripIpv6 w = w := by
  rw [stripIpv6_eq_scan, Scan.scan_of_clean (clean_ipv6_of_no_colon h)]

theorem stripIpv4_of_dots (h : w.count '.' ≤ 2) : stripIpv4 w = w := by
  rw [stripIpv4_eq_scan, Scan.scan_of_clean (clean_ipv4_of_dots h)]

theorem stripEmails_of_no_at (h : '@' ∉ w) : stripEmails w = w := by
  rw [stripEmails_eq, emailRest_no_at h]

theorem stripPii_ipv6 (h : ipv6At (asBytes w) 0 = some (asBytes w).length) :
    stripPii w = redactedIp := by
  rw [ipv6At_eq] at h
  have hpass : stripIpv6 w = redactedIp := by
    rw [stripIpv6_eq_scan, scan_whole (Recogniser.matches_whole h)]
  rw [stripPii, hpass]
  decide

theorem stripPii_ipv4 (h : ipv4At (asBytes w) 0 = some (asBytes w).length) :
    stripPii w = redactedIp := by
  rw [ipv4At_eq] at h
  have hwhole : ipv4Matcher.len none (w ++ []) = some w.length := by
    simpa using Recogniser.matches_whole h
  have hcolon : ':' ∉ w := by
    intro hmem
    exact absurd (ipv4Recogniser.matched_alphabet hwhole ':' hmem) (by decide)
  have hpass : stripIpv4 w = redactedIp := by
    rw [stripIpv4_eq_scan, scan_whole (by simpa using hwhole)]
  rw [stripPii, stripIpv6_of_no_colon hcolon, hpass]
  decide

theorem date_dots (h : DobOccurrence (asBytes w) 0) (hten : (asBytes w).length = 10) :
    (asBytes w).count (byteOf '.') ≤ 2 := by
  obtain ⟨L, g₁, g₂, g₃, hslice, hd, -⟩ := h.date
  have hall : asBytes w = L.join g₁ g₂ g₃ := by
    rw [← hslice, slice]
    simp [← hten]
  rw [hall]
  exact hd.dots

theorem stripPii_dob (h : dobAt (asBytes w) 0 = some (asBytes w).length) :
    stripPii w = redactedDob := by
  have hocc : DobOccurrence (asBytes w) 0 := dobOccurrence_iff_ne_none.mpr (by simp [h])
  have hten : (asBytes w).length = 10 := by
    have heq := (dobOccurrence_iff.mp hocc).symm.trans h
    simpa using heq.symm
  rw [dobAt_eq] at h
  have hwhole : dobMatcher.len none (w ++ []) = some w.length := by
    simpa using Recogniser.matches_whole h
  have hchars := dob_chars hwhole
  have hcolon : ':' ∉ w := fun hmem => absurd (hchars _ hmem) (by decide)
  have hat : '@' ∉ w := fun hmem => absurd (hchars _ hmem) (by decide)
  have hdots : w.count '.' ≤ 2 := by
    have hcount := date_dots hocc hten
    rwa [dobRecogniser.matched_codes hwhole, count_codes (by decide)] at hcount
  rw [stripPii, stripIpv6_of_no_colon hcolon, stripIpv4_of_dots hdots, stripEmails_of_no_at hat,
    stripDobPatterns_eq_scan, scan_whole (by simpa using hwhole)]

/-- The word is an address around its `@` at `i`, in which the first two passes find nothing. -/
structure IsAddress (bytes : Bytes) (i : Nat) : Prop where
  pos : 0 < i
  at_sign : bytes[i]? = some (byteOf '@')
  start : scanEmailLocalBack bytes i = 0
  stop : scanEmailDomainForward bytes (i + 1) = some bytes.length
  no_ipv6 : ∀ j, ipv6At bytes j = none
  no_ipv4 : ∀ j, ipv4At bytes j = none

/-- A recogniser finds nothing behind the text. -/
theorem Recogniser.find_none_iff {r : Recogniser} : (∀ j, r.find (asBytes w) j = none) ↔
    ∀ j < (asBytes w).length, r.find (asBytes w) j = none := by
  refine ⟨fun h j _ => h j, fun h j => ?_⟩
  by_contra hne
  obtain ⟨e, he⟩ := Option.ne_none_iff_exists'.mp hne
  obtain ⟨u, v, y, rfl, rfl, -, hm⟩ := Recogniser.find_some_iff.mp he
  have hpos := r.matcher.pos hm
  refine hne (h _ ?_)
  rw [← List.append_assoc, Utf8.asBytes_append, Utf8.asBytes_append, List.length_append,
    List.length_append, Recogniser.matched_length hm]
  omega

theorem isAddress_iff : IsAddress (asBytes w) i ↔ 0 < i ∧ (asBytes w)[i]? = some (byteOf '@') ∧
    scanEmailLocalBack (asBytes w) i = 0 ∧
    scanEmailDomainForward (asBytes w) (i + 1) = some (asBytes w).length ∧
    (∀ j < (asBytes w).length, ipv6At (asBytes w) j = none) ∧
    ∀ j < (asBytes w).length, ipv4At (asBytes w) j = none := by
  rw [ipv6At_eq, ipv4At_eq, ← Recogniser.find_none_iff, ← Recogniser.find_none_iff, ← ipv6At_eq,
    ← ipv4At_eq]
  constructor
  · intro h
    exact ⟨h.pos, h.at_sign, h.start, h.stop, h.no_ipv6, h.no_ipv4⟩
  · rintro ⟨hpos, hat, hstart, hstop, h6, h4⟩
    exact ⟨hpos, hat, hstart, hstop, h6, h4⟩

instance : Decidable (IsAddress (asBytes w) i) := decidable_of_iff _ isAddress_iff.symm

theorem stripIpv6_of_none (h : ∀ j, ipv6At (asBytes w) j = none) : stripIpv6 w = w := by
  rw [ipv6At_eq] at h
  rw [stripIpv6_eq_scan, Scan.scan_of_clean (Recogniser.clean_iff.mpr h)]

theorem stripIpv4_of_none (h : ∀ j, ipv4At (asBytes w) j = none) : stripIpv4 w = w := by
  rw [ipv4At_eq] at h
  rw [stripIpv4_eq_scan, Scan.scan_of_clean (Recogniser.clean_iff.mpr h)]

/-- A text that is an address as a whole. -/
theorem stripEmails_whole (hx : x ≠ []) (hlocal : localRun x = x.length)
    (hy : domainLen (codes y) = some y.length) : stripEmails (x ++ '@' :: y) = redactedEmail := by
  have hpos := List.length_pos_iff.mpr hx
  have haddress : addressLen x (y ++ []) = some y.length := by
    rw [List.append_nil]
    exact addressLen_some_iff.mpr ⟨by omega, hy⟩
  have hat : '@' ∉ x := by
    -- the run back from the `@` is all of `x`
    obtain ⟨u, l, rfl, hl, -, hcount⟩ := exists_localRun x
    have hu : u = [] := List.length_eq_zero_iff.mp (by rw [List.length_append] at hlocal; omega)
    subst hu
    exact fun hmem => absurd (hl _ hmem) (by decide)
  have hredact := emailRest_redact haddress
  rw [List.append_nil] at hredact
  rw [stripEmails_eq, emailRest_keep_run hat, List.nil_append, hredact]
  have hgone : popChars (localRun x) x = [] := popChars_of_length_le (by omega)
  simp [emailRest, Remainder.redact, hgone]

theorem stripPii_address (h : IsAddress (asBytes w) i) : stripPii w = redactedEmail := by
  rw [stripPii, stripIpv6_of_none h.no_ipv6, stripIpv4_of_none h.no_ipv4]
  obtain ⟨x, z, rfl, rfl⟩ := Utf8.exists_boundary h.at_sign (by decide)
  cases z with
  | nil => simpa using h.at_sign
  | cons c y =>
    obtain rfl : c = '@' := by
      have hat := h.at_sign
      rw [byte_at, Option.some.injEq] at hat
      exact Utf8.eq_of_byteOf (by decide) hat
    have hstart := h.start
    have hstop := h.stop
    rw [scanEmailLocalBack_eq] at hstart
    rw [domain_behind] at hstop
    obtain ⟨n, hn, heq⟩ := Option.map_eq_some_iff.mp hstop
    have hsplit : (asBytes (x ++ '@' :: y)).length =
        (asBytes x).length + 1 + (asBytes y).length := by
      rw [Utf8.asBytes_append, List.length_append, Utf8.asBytes_cons, List.length_append]
      have hat : (String.utf8EncodeChar '@').length = 1 := rfl
      omega
    -- Both runs are as long as their sides in bytes; no side has fewer bytes than characters.
    have hnle : n ≤ y.length := by simpa using domainLen_le hn
    have hylen := Utf8.length_le_asBytes (s := y)
    obtain rfl : n = y.length := by omega
    have hle := localRun_le x
    have hrunle : localRun x ≤ x.length := (List.rtakeWhile_suffix isLocal x).length_le
    have hxlen := Utf8.length_le_asBytes (s := x)
    have hx : x ≠ [] := by
      rintro rfl
      exact absurd h.pos (by simp)
    rw [stripEmails_whole hx (by omega) hn]
    decide

theorem stripPii_intercalate (hc : isMixing c = false)
    (hwords : ∀ w ∈ words, ChainFree (stripIpv4 (stripIpv6 w))) :
    stripPii ([c].intercalate words) = [c].intercalate (words.map stripPii) := by
  induction words using List.reverseRecOn with
  | nil => rfl
  | append_singleton words w ih =>
    have hlast := hwords w (by simp)
    have hrest := ih fun w' hw' => hwords w' (by simp [hw'])
    rcases eq_or_ne words [] with rfl | hne
    · simp
    · have hmap : words.map stripPii ≠ [] := by simpa using hne
      rw [List.map_append, List.map_singleton, Scan.intercalate_concat hne,
        Scan.intercalate_concat hmap, List.singleton_append, List.singleton_append,
        stripPii_cut (divides_of_not_mixing hc) hlast, hrest]

def sampleWords : List Text :=
  ["::1".toList, "10.0.0.1".toList, "a@b.cc".toList, "1990-05-06".toList, "ok".toList]

end ProviiAudit
