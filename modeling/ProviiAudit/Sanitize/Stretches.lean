import ProviiAudit.Lib.Splice
import ProviiAudit.Sanitize.Addresses
import ProviiAudit.Sanitize.QuadPasses

/-! The stretches of a text that sanitising leaves standing.

Sanitised text is these stretches with placeholders between them, and no pass looks into or across
a placeholder. -/
namespace ProviiAudit

open Utf8 (Text asBytes byteOf)
open Span (Stops)
open Scan (scan pieces Clean Inert)

variable {m : Scan.Matcher Char} {R s t x y k before after : Text} {n : Nat}

abbrev dobMatcher : Scan.Matcher Char := dobRecogniser.matcher

/-- What the four passes leave standing, each in the stretches of the one before. -/
def keptStretches (s : Text) : List Text :=
  (pieces ipv6Matcher none s).flatMap fun k => (pieces ipv4Matcher none k).flatMap fun k =>
    (pieces addressMatcher none k).flatMap fun k => pieces dobMatcher none k

def placeholders : List Text := [redactedIp, redactedEmail, redactedDob]

/-- The matcher reads no placeholder. -/
def Overlooks (m : Scan.Matcher Char) : Prop := ∀ R ∈ placeholders, Inert m R

theorem overlooks_of_brackets (ho : Scan.Separates m '[') (he : Scan.Separates m ']')
    (hip : Clean m none "REDACTED_IP".toList) (hemail : Clean m none "REDACTED_EMAIL".toList)
    (hdob : Clean m none "REDACTED_DOB".toList) : Overlooks m := by
  simp only [Overlooks, placeholders, List.forall_mem_cons]
  exact ⟨⟨_, _, _, rfl, ho, he, hip⟩, ⟨_, _, _, rfl, ho, he, hemail⟩, ⟨_, _, _, rfl, ho, he, hdob⟩,
    by simp⟩

theorem ipv6_overlooks : Overlooks ipv6Matcher :=
  overlooks_of_brackets (ipv6Recogniser.separates (by decide)) (ipv6Recogniser.separates (by decide))
    (by decide) (by decide) (by decide)

theorem ipv4_overlooks : Overlooks ipv4Matcher :=
  overlooks_of_brackets (ipv4Recogniser.separates (by decide)) (ipv4Recogniser.separates (by decide))
    (by decide) (by decide) (by decide)

theorem address_overlooks : Overlooks addressMatcher :=
  overlooks_of_brackets (addressMatcher_separates (by decide) (by decide))
    (addressMatcher_separates (by decide) (by decide)) (by decide) (by decide) (by decide)

theorem dob_overlooks : Overlooks dobMatcher :=
  overlooks_of_brackets (dobRecogniser.separates (by decide)) (dobRecogniser.separates (by decide))
    (by decide) (by decide) (by decide)

/-- The map works on the stretches between placeholders apart. -/
def Stretchwise (f : Text → Text) : Prop :=
  ∀ R ∈ placeholders, ∀ ks, f (R.intercalate ks) = R.intercalate (ks.map f)

theorem Stretchwise.comp {f g : Text → Text} (hg : Stretchwise g) (hf : Stretchwise f) :
    Stretchwise fun k => g (f k) := by
  intro R hR ks
  calc g (f (R.intercalate ks)) = g (R.intercalate (ks.map f)) := by rw [hf R hR]
    _ = R.intercalate ((ks.map f).map g) := hg R hR _
    _ = R.intercalate (ks.map fun k => g (f k)) := by rw [List.map_map]; rfl

theorem stretchwise_scan (hm : Overlooks m) : Stretchwise fun k => scan m R none k :=
  fun P hP _ => Scan.scan_intercalate (hm P hP)

theorem clean_scan_iff {f : Text → Text} {q : Scan.Matcher Char} (hm : Overlooks m)
    (hf : Stretchwise f) (hR : R ∈ placeholders) :
    Clean m none (f (scan q R none s)) ↔ ∀ k ∈ pieces q none s, Clean m none (f k) := by
  rw [Scan.scan_eq_intercalate, hf R hR, Scan.clean_intercalate (hm R hR), List.forall_mem_map]

theorem stripPii_eq_scans (ht : ChainFree (stripIpv4 (stripIpv6 s))) :
    stripPii s = scan dobMatcher redactedDob none (scan addressMatcher redactedEmail none
      (scan ipv4Matcher redactedIp none (scan ipv6Matcher redactedIp none s))) := by
  rw [stripPii, stripEmails_eq_scan ht, stripDobPatterns_eq_scan, stripIpv4_eq_scan,
    stripIpv6_eq_scan]

/-- Sanitised text is clean when every stretch left standing is. -/
theorem clean_stripPii_iff (hm : Overlooks m) (ht : ChainFree (stripIpv4 (stripIpv6 s))) :
    Clean m none (stripPii s) ↔ ∀ k ∈ keptStretches s, Clean m none k := by
  have hdob : Stretchwise fun k => scan dobMatcher redactedDob none k :=
    stretchwise_scan dob_overlooks
  have haddress : Stretchwise fun k => scan addressMatcher redactedEmail none k :=
    stretchwise_scan address_overlooks
  have hipv4 : Stretchwise fun k => scan ipv4Matcher redactedIp none k :=
    stretchwise_scan ipv4_overlooks
  have hid : Stretchwise fun k => k := fun R _ ks => by simp
  have h6 := fun s => clean_scan_iff (q := ipv6Matcher) (s := s) hm
    ((hdob.comp haddress).comp hipv4) (R := redactedIp) (by decide)
  have h4 := fun s => clean_scan_iff (q := ipv4Matcher) (s := s) hm (hdob.comp haddress)
    (R := redactedIp) (by decide)
  have hA := fun s => clean_scan_iff (q := addressMatcher) (s := s) hm hdob
    (R := redactedEmail) (by decide)
  have hD := fun s => clean_scan_iff (q := dobMatcher) (s := s) hm hid (R := redactedDob)
    (by decide)
  rw [stripPii_eq_scans ht, h6]
  simp only [h4, hA, hD, keptStretches, List.forall_mem_flatMap]

end ProviiAudit
