import ProviiAudit.Sanitize.Placeholders

/-! Which documented email addresses survive.

The domain scan is greedy and looks at the last label only afterwards, so an address survives
when more domain characters behind it spoil the last label. -/
namespace ProviiAudit

open Utf8 (Text byteOf)

variable {t x y out : Text} {c : Char} {n : Nat}

/-- Local parts in the documented form `[a-zA-Z0-9._%+-]+@[a-zA-Z0-9.-]+\.[a-zA-Z]{2,}`. -/
def isLocalPartChar (c : Char) : Bool := c.isAlphanum || "._%+-".toList.contains c

def isDomainPartChar (c : Char) : Bool := c.isAlphanum || ".-".toList.contains c

/-- `domain.tld` -/
def IsHost (h : Text) : Prop :=
  ∃ d tld, h = d ++ '.' :: tld ∧ d ≠ [] ∧ (∀ c ∈ d, isDomainPartChar c = true) ∧
    2 ≤ tld.length ∧ ∀ c ∈ tld, c.isAlpha = true

/-- The text contains `local@domain.tld`. -/
def HasAddress (s : Text) : Prop :=
  ∃ l h, l ≠ [] ∧ (∀ c ∈ l, isLocalPartChar c = true) ∧ IsHost h ∧ (l ++ '@' :: h) <:+: s

theorem isLocal_eq (c : Char) : isLocal c = isLocalPartChar c := by
  rw [Bool.eq_iff_iff]
  simp [isLocal, isEmailLocalChar, isLocalPartChar, isAsciiAlphanumeric_byteOf, byteOf_eq_iff,
    or_assoc]

/-- The text contains an address that is read over: the domain scan behind its `@` runs past it
and fails, the character before the `@` is not the end of a redacted domain, and the addresses
behind do not reach back into it. -/
def Overrun (t : Text) : Prop :=
  ∃ x c h y, t = x ++ c :: '@' :: (h ++ y) ∧ isLocalPartChar c = true ∧ IsHost h ∧
    domainLen (codes (h ++ y)) = none ∧
    (∀ x' w, x ++ [c] = x' ++ '@' :: w → addressLen x' (w ++ '@' :: (h ++ y)) ≠ some w.length) ∧
    reach (x ++ c :: '@' :: h) 0 y = 0

theorem IsHost.chars {h : Text} (hh : IsHost h) : ∀ c ∈ h, isDomainPartChar c = true := by
  obtain ⟨d, tld, rfl, -, hd, -, htld⟩ := hh
  rw [List.forall_mem_append, List.forall_mem_cons]
  refine ⟨hd, by decide, fun c hc => ?_⟩
  simp [isDomainPartChar, Char.isAlphanum, htld c hc]

/-- The cursor is never inside a matched domain. -/
theorem Written.outside_domain (h : Written t x out) (ht : t = x ++ y) {x' w : Text}
    (hx : x = x' ++ '@' :: w) (hm : addressLen x' (w ++ y) = some n) : n ≤ w.length := by
  induction h generalizing y w with
  | start => simp at hx
  | @keep x out z c hrun hz hc ih =>
    obtain rfl : z = y := by simpa [hz] using ht
    rcases List.eq_nil_or_concat w with rfl | ⟨w, d, rfl⟩
    · obtain ⟨rfl, rfl⟩ : x = x' ∧ c = '@' := by simpa using hx
      simp [hc rfl] at hm
    · rw [List.concat_eq_append] at hx hm ⊢
      obtain ⟨rfl, rfl⟩ : x = x' ++ '@' :: w ∧ c = d := by
        rwa [← List.cons_append, ← List.append_assoc, List.append_singleton_inj] at hx
      have hle := ih hz rfl (by simpa using hm)
      simp
      omega
  | @redact x out v z hrun hz hv ih =>
    obtain rfl : z = y := by simpa [hz] using ht
    have hat := no_at_in_domain hv
    rcases List.append_eq_append_iff.mp hx with ⟨a, rfl, hw⟩ | ⟨a, rfl, hw⟩
    · cases a with
      | nil =>
        obtain rfl : v = w := by simpa using hw
        rw [List.append_nil, hv, Option.some.injEq] at hm
        exact hm.ge
      | cons d a =>
        obtain ⟨rfl, rfl⟩ := List.cons_eq_cons.mp hw
        simp at hat
    · cases a with
      | nil =>
        obtain rfl : w = v := by simpa using hw
        rw [List.append_nil, hm, Option.some.injEq] at hv
        exact hv.le
      | cons d a =>
        obtain ⟨rfl, rfl⟩ := List.cons_eq_cons.mp hw
        have hle := ih hz rfl (by simpa using hm)
        simp
        omega

/-- What stands in front of an `@` was copied, or it is the end of a matched domain. -/
theorem Written.last (h : Written t (x ++ [c]) out) (ht : t = x ++ c :: y) :
    (∃ out', out = out' ++ [c]) ∨
      ∃ x' w, x ++ [c] = x' ++ '@' :: w ∧ addressLen x' (w ++ y) = some w.length := by
  generalize hx : x ++ [c] = x₁ at h
  cases h with
  | start => simp at hx
  | @keep x₂ out z d hrun hz hd =>
    obtain ⟨rfl, rfl⟩ : x = x₂ ∧ c = d := by simpa using hx
    exact .inl ⟨out, rfl⟩
  | @redact x₂ out w z hrun hz hw =>
    have hy : x ++ c :: y = x₂ ++ '@' :: (w ++ z) := ht ▸ hz
    rw [← List.singleton_append, ← List.append_assoc, hx] at hy
    obtain rfl : y = z := by simpa using hy
    exact .inr ⟨x₂, w, rfl, hw⟩

theorem hasAddress_of_overrun (h : Overrun t) : HasAddress (stripEmails t) := by
  obtain ⟨x, c, h, y, ht, hc, hh, hnone, hlast, howed⟩ := h
  rw [← owed_eq_reach] at howed
  obtain ⟨out, hat⟩ := exists_written_at .start rfl (x ++ [c]) (h ++ y) (t := t) (by simp [ht])
  have htx : t = x ++ c :: ('@' :: (h ++ y)) := ht
  obtain ⟨out, rfl⟩ | ⟨x', w, hx, hm⟩ := hat.last htx
  · have hkeep := hat.keep (c := '@') (y := h ++ y) (by simp [ht]) fun _ => by
      rw [addressLen, hnone, ite_self]
    have hno : '@' ∉ h := by
      intro hmem
      exact absurd (hh.chars _ hmem) (by decide)
    have hrun := hkeep.keep_run (u := h) (y := y) (by simp [ht]) hno
    have hfinish := hrun.finish (y := y) (by simp [ht])
    refine ⟨[c], h, by simp, by simpa using hc, hh, out, (emailRest (x ++ c :: '@' :: h) 0 y).text, ?_⟩
    simpa [Remainder.finish, howed] using hfinish.symm
  · exact absurd hm (hlast x' w hx)

theorem overrun_of_hasAddress (h : HasAddress (stripEmails t)) : Overrun t := by
  obtain ⟨l, h, hl, hlocal, hh, A, B, hE⟩ := h
  obtain ⟨l, c, rfl⟩ := (List.eq_nil_or_concat l).resolve_left hl
  rw [List.concat_eq_append] at hlocal hE
  have hc : isLocalPartChar c = true := hlocal c (by simp)
  obtain ⟨x, y, ht, hnone, hrun, hrest⟩ :=
    exists_written_of_at (t := t) (A := A ++ l ++ [c]) (B := h ++ B) (by simp [← hE])
  obtain ⟨x, rfl, hx⟩ := hrun.copied (by rintro rfl; exact absurd hc (by decide))
  have hbracket : '[' ∉ h := by
    intro hmem
    exact absurd (hh.chars _ hmem) (by decide)
  obtain ⟨y, rfl, howed⟩ := emailRest_text hrest hbracket
  refine ⟨x, c, h, y, by simp [ht], hc, hh, ?_, ?_, ?_⟩
  · rw [addressLen, localRun_concat, isLocal_eq, hc] at hnone
    simpa using hnone
  · intro x' w hxw hm
    rcases List.eq_nil_or_concat w with rfl | ⟨w, d, rfl⟩
    · exact absurd (domainLen_pos (addressLen_some_iff.mp hm).2) (by simp)
    · rw [List.concat_eq_append, ← List.cons_append, ← List.append_assoc,
        List.append_singleton_inj] at hxw
      obtain ⟨rfl, rfl⟩ := hxw
      have hle := hx.outside_domain (y := c :: '@' :: (h ++ y)) (by simp [ht]) rfl
        (by simpa using hm)
      exact absurd hle (by simp)
  · rw [← owed_eq_reach]
    simpa using congrArg Remainder.owed howed

/-- An address survives the email pass exactly where it is read over. -/
theorem hasAddress_stripEmails_iff (t : Text) : HasAddress (stripEmails t) ↔ Overrun t :=
  ⟨overrun_of_hasAddress, hasAddress_of_overrun⟩

/-- The pass for dates of birth makes no address. -/
theorem hasAddress_of_stripDobPatterns {E : Text} (h : HasAddress (stripDobPatterns E)) :
    HasAddress E := by
  obtain ⟨l, h, hl, hlocal, hh, hE⟩ := h
  refine ⟨l, h, hl, hlocal, hh, ?_⟩
  have hout : ∀ d, isLocalPartChar d = false → isDomainPartChar d = false → d ≠ '@' →
      d ∉ l ++ '@' :: h := by
    intro d hl' hh' hat hmem
    rcases List.mem_append.mp hmem with hmem | hmem
    · simp [hlocal d hmem] at hl'
    · rcases List.mem_cons.mp hmem with rfl | hmem
      · exact hat rfl
      · simp [hh.chars d hmem] at hh'
  have hscan : l ++ '@' :: h <:+:
      Scan.scan dobRecogniser.matcher ('[' :: "REDACTED_DOB".toList ++ [']']) none E := by
    rw [stripDobPatterns_eq_scan] at hE
    exact hE
  refine Scan.infix_of_infix_scan
    (hout _ (by decide) (by decide) (by decide)) (hout _ (by decide) (by decide) (by decide)) ?_ hscan
  intro hR
  have hat : '@' ∈ '[' :: "REDACTED_DOB".toList := hR.subset (by simp)
  exact absurd hat (by decide)

/-- Ten characters in a row that could be those of a date. -/
def HasDateWindow (s : Text) : Prop :=
  ∃ w, w.length = 10 ∧ (∀ c ∈ w, isDateChar (byteOf c) = true) ∧ w <:+: s

/-- A placeholder has too few characters of that kind. -/
theorem not_dateWindow_of_few {R w : Text}
    (hR : (R.filter fun c => isDateChar (byteOf c)).length < 10)
    (hlen : w.length = 10) (hw : ∀ c ∈ w, isDateChar (byteOf c) = true) : ¬ w <:+: R := by
  intro h
  have hle := (h.sublist.filter fun c => isDateChar (byteOf c)).length_le
  rw [List.filter_eq_self.mpr hw] at hle
  omega

theorem hasDateWindow_of_scan {r : Recogniser} {body s : Text} {p : Option Char}
    (hbody : (('[' :: body).filter fun c => isDateChar (byteOf c)).length < 10)
    (h : HasDateWindow (Scan.scan r.matcher ('[' :: body ++ [']']) p s)) : HasDateWindow s := by
  obtain ⟨w, hlen, hw, hs⟩ := h
  have hout : ∀ d, isDateChar (byteOf d) = false → d ∉ w := by
    intro d hd hmem
    simp [hw d hmem] at hd
  exact ⟨w, hlen, hw, Scan.infix_of_infix_scan (hout _ (by decide)) (hout _ (by decide))
    (not_dateWindow_of_few hbody hlen hw) hs⟩

theorem hasDateWindow_of_stripEmails (h : HasDateWindow (stripEmails t)) : HasDateWindow t := by
  obtain ⟨w, hlen, hw, hs⟩ := h
  have hout : ∀ d, isDateChar (byteOf d) = false → d ∉ w := by
    intro d hd hmem
    simp [hw d hmem] at hd
  exact ⟨w, hlen, hw, infix_of_infix_stripEmails (hout _ (by decide)) (hout _ (by decide))
    (not_dateWindow_of_few (by decide) hlen hw) hs⟩

theorem stripDobPatterns_of_no_window {E : Text} (h : ¬ HasDateWindow E) :
    stripDobPatterns E = E := by
  rw [stripDobPatterns_eq_scan]
  apply Scan.scan_of_clean
  intro x y hE
  by_contra hmatch
  obtain ⟨n, hn⟩ := Option.ne_none_iff_exists'.mp hmatch
  obtain ⟨-, hlen, hw, -⟩ := dateHeadLen_some (Recogniser.matcher_len_iff.mp hn).2.1
  refine h ⟨y.take 10, ?_, ?_, ?_⟩
  · rw [List.length_map] at hlen
    exact List.length_take_of_le hlen
  · rw [codes, ← List.map_take] at hw
    exact fun c hc => hw _ (List.mem_map_of_mem hc)
  · rw [hE]
    exact List.infix_append_of_infix_right (List.take_prefix ..).isInfix

theorem stripPii_of_no_window {s : Text} (h : ¬ HasDateWindow s) :
    stripPii s = stripEmails (stripIpv4 (stripIpv6 s)) := by
  rw [stripPii]
  apply stripDobPatterns_of_no_window
  intro hE
  have h4 := hasDateWindow_of_stripEmails hE
  rw [stripIpv4_eq_scan, stripIpv6_eq_scan] at h4
  have hfew : (('[' :: "REDACTED_IP".toList).filter fun c => isDateChar (byteOf c)).length < 10 := by
    decide
  exact h (hasDateWindow_of_scan hfew (hasDateWindow_of_scan hfew h4))

/-- Where no address is read over, no documented address survives; and where it is, one does,
unless characters of a date are about. -/
theorem no_address_survives (s : Text) :
    (¬ Overrun (stripIpv4 (stripIpv6 s)) → ¬ HasAddress (stripPii s)) ∧
      (¬ HasDateWindow s → (HasAddress (stripPii s) ↔ Overrun (stripIpv4 (stripIpv6 s)))) := by
  constructor
  · intro hnot h
    exact hnot (overrun_of_hasAddress (hasAddress_of_stripDobPatterns h))
  · intro hdate
    rw [stripPii_of_no_window hdate, hasAddress_stripEmails_iff]

/-- With one `@` in the text, an address is read over only where the domain scan behind it fails. -/
theorem not_overrun_of_domain {l d : Text} (hl : '@' ∉ l) (hd : '@' ∉ d)
    (hm : domainLen (codes d) = some n) : ¬ Overrun (l ++ '@' :: d) := by
  rintro ⟨x, c, h, y, ht, -, -, hnone, -, -⟩
  have hsplit : l ++ '@' :: d = (x ++ [c]) ++ '@' :: (h ++ y) := by simp [ht]
  obtain ⟨-, -, rfl⟩ := (List.append_cons_inj_of_notMem hl hd).mp hsplit
  rw [hm] at hnone
  simp at hnone

theorem no_address_survives_sample :
    ¬ HasAddress (stripPii "mail user@example.com, thanks".toList) ∧
    (HasAddress (stripPii "user@example.com.".toList) ↔ Overrun "user@example.com.".toList) := by
  constructor
  · refine (no_address_survives "mail user@example.com, thanks".toList).1 ?_
    have htext : stripIpv4 (stripIpv6 "mail user@example.com, thanks".toList) =
        "mail user".toList ++ '@' :: "example.com, thanks".toList := by decide
    rw [htext]
    exact not_overrun_of_domain (n := 11) (by decide) (by decide) (by decide)
  · refine (no_address_survives "user@example.com.".toList).2 ?_
    rintro ⟨w, hlen, hw, h⟩
    exact not_dateWindow_of_few (by decide) hlen hw h

/-- An address that ends a sentence is not redacted. -/
theorem trailing_dot_keeps_address : HasAddress (stripPii "user@example.com.".toList) := by
  have hkept : stripPii "user@example.com.".toList = "user@example.com.".toList := by decide
  rw [hkept]
  refine ⟨"user".toList, "example.com".toList, by decide, List.all_eq_true.mp (by decide), ?_,
    [], ".".toList, rfl⟩
  exact ⟨"example".toList, "com".toList, rfl, by decide, List.all_eq_true.mp (by decide),
    by decide, List.all_eq_true.mp (by decide)⟩

end ProviiAudit
