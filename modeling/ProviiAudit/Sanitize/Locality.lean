import ProviiAudit.Sanitize.Idempotent

/-! Where a text may be cut: the characters at which sanitising works on the two sides apart. -/
namespace ProviiAudit

open Utf8 (Text asBytes byteOf)
open Scan (scan Separates)

variable {s t x y a b w : Text} {c : Char} {words : List Text}

def mixingSigns : List Char := ['.', ':', '@', '_', '%', '+', '-', '/', ' ']

/-- The characters that some pass matches or looks across. -/
def isMixing (c : Char) : Bool := c.isAlphanum || mixingSigns.contains c

/-- None of the passes looks across the character. -/
structure Divides (c : Char) : Prop where
  ipv6 : Separates ipv6Matcher c
  ipv4 : Separates ipv4Matcher c
  local_false : isLocal c = false
  ne_at : c ≠ '@'
  dob : Separates dobMatcher c

theorem divides_of_not_mixing (hc : isMixing c = false) : Divides c := by
  simp only [isMixing, Bool.or_eq_false_iff, List.contains_eq_mem, decide_eq_false_iff_not,
    mixingSigns, List.mem_cons, not_or] at hc
  obtain ⟨halnum, hdot, hcolon, hat, hunder, hpercent, hplus, hminus, hslash, hspace, -⟩ := hc
  have hbyte : isAsciiAlphanumeric (byteOf c) = false := by
    rw [isAsciiAlphanumeric_byteOf]
    exact halnum
  have hne : ∀ {d : Char}, d.toNat < 128 → c ≠ d → (byteOf c == byteOf d) = false := by
    intro d hd h
    simpa using fun heq => h ((byteOf_eq_iff hd).mp heq)
  have hhex : isAsciiHexdigit (byteOf c) = false := by
    by_contra h
    simp [isAsciiAlphanumeric_of_hexdigit (by simpa using h)] at hbyte
  have hdigit : isAsciiDigit (byteOf c) = false := by
    simp only [isAsciiAlphanumeric, Bool.or_eq_false_iff] at hbyte
    exact hbyte.2
  refine ⟨ipv6Recogniser.separates ?_, ipv4Recogniser.separates ?_, ?_, hat,
    dobRecogniser.separates ?_⟩
  · change isIpv6Char (byteOf c) = false
    simp [isIpv6Char, isIpv6Adjacent, hhex, hne (by decide) hcolon, hne (by decide) hdot]
  · change isIpv4Adjacent (byteOf c) = false
    simp [isIpv4Adjacent, hdigit, hne (by decide) hdot]
  · simp [isLocal, isEmailLocalChar, hbyte, hne (by decide) hdot, hne (by decide) hunder,
      hne (by decide) hpercent, hne (by decide) hplus, hne (by decide) hminus]
  · change isDobChar (byteOf c) = false
    simp [isDobChar, hbyte, hne (by decide) hminus, hne (by decide) hslash, hne (by decide) hdot,
      hne (by decide) hspace, hne (by decide) hcolon]

/-- The email pass takes nothing back across the cut, unless addresses overlap behind it. -/
theorem stripEmails_cut (hc : Divides c) (hy : ChainFree y) (x : Text) :
    stripEmails (x ++ c :: y) = stripEmails x ++ c :: stripEmails y := by
  have hrest : emailRest [] 0 (c :: y) = ⟨0, c :: stripEmails y⟩ := by
    have hbehind := emailRest_behind (x := []) (n := 0) (y := y) hc.local_false
    rw [emailRest_keep fun h => absurd h hc.ne_at, hbehind, stripEmails_eq,
      emailRest_eq_scan hy rfl (.inl rfl)]
    rfl
  rw [stripEmails_append hc.local_false hc.ne_at rfl, stripEmails_eq (c :: y), hrest, popChars_zero]

theorem stripPii_cut (hc : Divides c) (hb : ChainFree (stripIpv4 (stripIpv6 b))) (a : Text) :
    stripPii (a ++ c :: b) = stripPii a ++ c :: stripPii b := by
  have h6 : stripIpv6 (a ++ c :: b) = stripIpv6 a ++ c :: stripIpv6 b := by
    simp only [stripIpv6_eq_scan, Scan.scan_sep hc.ipv6]
  have h4 : stripIpv4 (stripIpv6 a ++ c :: stripIpv6 b) =
      stripIpv4 (stripIpv6 a) ++ c :: stripIpv4 (stripIpv6 b) := by
    simp only [stripIpv4_eq_scan, Scan.scan_sep hc.ipv4]
  rw [stripPii, h6, h4, stripEmails_cut hc hb, stripDobPatterns_eq_scan, Scan.scan_sep hc.dob,
    ← stripDobPatterns_eq_scan, ← stripDobPatterns_eq_scan]
  rfl

/-- Texts that read otherwise with the character between them. -/
def cutSamples : List (Text × Text) :=
  [ ([], "@b.cc".toList), ([], ":1".toList), ("a".toList, "b.cc".toList),
    ("05".toList, "06/1990".toList), ("1990-05-06".toList, "12:30".toList) ]

theorem cutSamples_chainFree :
    ∀ p ∈ cutSamples, (stripIpv4 (stripIpv6 p.2)).count '@' ≤ 1 := by decide +kernel

theorem mixing_samples : ∀ n < 128, isMixing (Char.ofNat n) = true → ∃ p ∈ cutSamples,
    stripPii (p.1 ++ Char.ofNat n :: p.2) ≠ stripPii p.1 ++ Char.ofNat n :: stripPii p.2 := by
  decide +kernel

theorem ascii_of_mixing (hc : isMixing c = true) : c.toNat < 128 := by
  simp only [isMixing, Bool.or_eq_true, List.contains_eq_mem, decide_eq_true_eq] at hc
  rcases hc with h | h
  · have hbyte : isAsciiAlphanumeric (byteOf c) = true := by
      rw [isAsciiAlphanumeric_byteOf]
      exact h
    by_contra hge
    have hhigh := byteOf_high hge
    have hlow : byteOf c < 128 := isAsciiAlphanumeric_ascii _ hbyte
    exact absurd (UInt8.lt_iff_toNat_lt.mp hlow) (by simpa using hhigh)
  · have hsigns : mixingSigns.all (fun d => d.toNat < 128) = true := by decide
    simpa using List.all_eq_true.mp hsigns c h

/-- Sanitising works on the two sides of a character apart, whatever they are, exactly when the
character is none of the ASCII letters and digits, the dot, the colon, `@`, `_`, `%`, `+`, `-`, the
slash and the space. -/
theorem stripPii_cut_iff (c : Char) :
    (∀ a b, ChainFree (stripIpv4 (stripIpv6 b)) →
      stripPii (a ++ c :: b) = stripPii a ++ c :: stripPii b) ↔ isMixing c = false := by
  constructor
  · intro h
    by_contra hc
    have hmixing : isMixing c = true := by simpa using hc
    obtain ⟨p, hp, hne⟩ := mixing_samples c.toNat (ascii_of_mixing hmixing)
      (by rwa [Char.ofNat_toNat])
    rw [Char.ofNat_toNat] at hne
    exact hne (h p.1 p.2 (chainFree_of_count (cutSamples_chainFree p hp)))
  · intro hc a b hb
    exact stripPii_cut (divides_of_not_mixing hc) hb a

end ProviiAudit
