import ProviiAudit.Sanitize.Idempotent

/-! What sanitising leaves as it is, and how often it has to be repeated to leave everything.

Each match takes away a colon, a dot, an `@` or a digit, and no placeholder has one. -/
namespace ProviiAudit

open Utf8 (Text asBytes byteOf)
open Scan (scan Clean)

variable {s t x y u v w : Text} {c : Char} {p : Option Char} {R : Text}

def isTrigger (c : Char) : Bool := c == ':' || c == '.' || c == '@' || isDigitChar c

def triggers (s : Text) : Nat := s.countP isTrigger

theorem triggers_append (x y : Text) : triggers (x ++ y) = triggers x + triggers y :=
  List.countP_append

theorem triggers_pos (hc : c ∈ w) (ht : isTrigger c = true) : 0 < triggers w :=
  List.countP_pos_iff.mpr ⟨c, hc, ht⟩

theorem triggers_placeholder : ∀ R ∈ placeholders, triggers R = 0 := by decide

theorem ipv6_triggers (h : ipv6Matcher.len p (w ++ y) = some w.length) : 0 < triggers w := by
  have hcount := ipv6_colons h
  exact triggers_pos (c := ':') (List.count_pos_iff.mp (by omega)) rfl

theorem ipv4_triggers (h : ipv4Matcher.len p (w ++ y) = some w.length) : 0 < triggers w := by
  have hcount := ipv4_dots h
  exact triggers_pos (c := '.') (List.count_pos_iff.mp (by omega)) rfl

theorem dob_triggers (h : dobMatcher.len p (w ++ y) = some w.length) : 0 < triggers w := by
  have hhead := (dob_ends h).1
  cases w with
  | nil => simp at hhead
  | cons c w =>
    apply triggers_pos (List.mem_cons_self (a := c))
    simpa [isTrigger] using .inr hhead

theorem triggers_popChars (n : Nat) : triggers (popChars n redactedEmail) = 0 := by
  rw [popChars_eq, triggers, List.countP_eq_zero]
  intro c hc
  have hnone : triggers redactedEmail = 0 := by decide
  exact List.countP_eq_zero.mp hnone c (List.mem_of_mem_take hc)

theorem triggers_emailRest_le (x y : Text) : triggers (emailRest x 0 y).text ≤ triggers y := by
  induction x, y using email_induction with
  | nil x => simp [emailRest]
  | keep x d y h ih =>
    have hsplit := triggers_append [d] y
    rw [List.singleton_append] at hsplit
    rw [emailRest_keep h, Remainder.keep]
    dsimp only
    by_cases howed : (emailRest (x ++ [d]) 0 y).owed = 0
    · rw [if_pos howed]
      have hkeep := triggers_append [d] (emailRest (x ++ [d]) 0 y).text
      rw [List.singleton_append] at hkeep
      omega
    · rw [if_neg howed]
      omega
  | redact x w y h ih =>
    have hsplit := triggers_append ('@' :: w) y
    rw [List.cons_append] at hsplit
    rw [emailRest_redact h, Remainder.redact, triggers_append, triggers_popChars]
    omega

/-- When no trigger is lost, no `@` was that of an address. -/
theorem no_address_of_triggers (h : triggers y ≤ triggers (emailRest x 0 y).text) :
    ∀ u v, y = u ++ '@' :: v → addressLen (x ++ u) v = none := by
  induction x, y using email_induction with
  | nil x => simp
  | keep x d y hnone ih =>
    have hsplit := triggers_append [d] y
    have hrest := triggers_emailRest_le (x ++ [d]) y
    rw [List.singleton_append] at hsplit
    rw [emailRest_keep hnone, Remainder.keep] at h
    dsimp only at h
    have hle : triggers y ≤ triggers (emailRest (x ++ [d]) 0 y).text := by
      by_cases howed : (emailRest (x ++ [d]) 0 y).owed = 0
      · rw [if_pos howed] at h
        have hkeep := triggers_append [d] (emailRest (x ++ [d]) 0 y).text
        rw [List.singleton_append] at hkeep
        omega
      · rw [if_neg howed] at h
        omega
    intro u v huv
    cases u with
    | nil =>
      obtain ⟨rfl, rfl⟩ := List.cons_eq_cons.mp huv
      rw [List.append_nil]
      exact hnone rfl
    | cons e u =>
      obtain ⟨rfl, rfl⟩ := List.cons_eq_cons.mp huv
      simpa using ih hle u v rfl
  | redact x w y hm ih =>
    have hsplit := triggers_append ('@' :: w) y
    have hrest := triggers_emailRest_le (x ++ '@' :: w) y
    have hat := triggers_pos (c := '@') (w := '@' :: w) (by simp) rfl
    rw [List.cons_append] at hsplit
    rw [emailRest_redact hm, Remainder.redact, triggers_append, triggers_popChars] at h
    omega

theorem triggers_scan_le {m : Scan.Matcher Char} (hR : R ∈ placeholders) :
    triggers (scan m R none s) ≤ triggers s := by
  refine Scan.measure_scan_le triggers_append fun p w y h => ?_
  rw [triggers_placeholder R hR]
  exact Nat.zero_le _

theorem clean_of_triggers {m : Scan.Matcher Char} (hR : R ∈ placeholders)
    (hm : ∀ {p w y}, m.len p (w ++ y) = some w.length → 0 < triggers w)
    (h : triggers s ≤ triggers (scan m R none s)) : Clean m none s := by
  refine Scan.clean_of_measure triggers_append (fun p w y h => ?_) h
  rw [triggers_placeholder R hR]
  exact hm h

theorem mem_placeholders_ip : redactedIp ∈ placeholders := by simp [placeholders]

theorem mem_placeholders_dob : redactedDob ∈ placeholders := by simp [placeholders]

theorem triggers_stripIpv6_le (s : Text) : triggers (stripIpv6 s) ≤ triggers s := by
  rw [stripIpv6_eq_scan]
  exact triggers_scan_le mem_placeholders_ip

theorem triggers_stripIpv4_le (s : Text) : triggers (stripIpv4 s) ≤ triggers s := by
  rw [stripIpv4_eq_scan]
  exact triggers_scan_le mem_placeholders_ip

theorem triggers_stripEmails_le (s : Text) : triggers (stripEmails s) ≤ triggers s := by
  rw [stripEmails_eq]
  exact triggers_emailRest_le [] s

theorem triggers_stripDobPatterns_le (s : Text) :
    triggers (stripDobPatterns s) ≤ triggers s := by
  rw [stripDobPatterns_eq_scan]
  exact triggers_scan_le mem_placeholders_dob

/-- Nothing in the text is a match of one of the passes. -/
structure Spotless (s : Text) : Prop where
  ipv6 : Clean ipv6Matcher none s
  ipv4 : Clean ipv4Matcher none s
  email : NoAddress s
  dob : Clean dobMatcher none s

theorem Spotless.stripPii_eq (h : Spotless s) : stripPii s = s :=
  stripPii_of_clean h.ipv6 h.ipv4 (clean_of_noAddress h.email) h.dob

/-- A text that loses no trigger is spotless. -/
theorem spotless_of_triggers (h : triggers s ≤ triggers (stripPii s)) : Spotless s := by
  have h6 := triggers_stripIpv6_le s
  have h4 := triggers_stripIpv4_le (stripIpv6 s)
  have he := triggers_stripEmails_le (stripIpv4 (stripIpv6 s))
  have hd := triggers_stripDobPatterns_le (stripEmails (stripIpv4 (stripIpv6 s)))
  rw [stripPii] at h
  -- Each pass in turn has found nothing, and so was handed the text itself.
  have hclean6 : Clean ipv6Matcher none s := by
    refine clean_of_triggers mem_placeholders_ip ipv6_triggers ?_
    rw [← stripIpv6_eq_scan]
    omega
  have heq6 : stripIpv6 s = s := by rw [stripIpv6_eq_scan, Scan.scan_of_clean hclean6]
  rw [heq6] at h4 he hd h
  have hclean4 : Clean ipv4Matcher none s := by
    refine clean_of_triggers mem_placeholders_ip ipv4_triggers ?_
    rw [← stripIpv4_eq_scan]
    omega
  have heq4 : stripIpv4 s = s := by rw [stripIpv4_eq_scan, Scan.scan_of_clean hclean4]
  rw [heq4] at he hd h
  have hnone : NoAddress s := by
    intro x y hxy
    refine no_address_of_triggers (x := []) ?_ x y hxy
    rw [← stripEmails_eq]
    omega
  have hchain : ChainFree s := fun x l y hs _ => .inl (hnone x _ hs)
  have heqe : stripEmails s = s := by
    rw [stripEmails_eq_scan hchain, Scan.scan_of_clean (clean_of_noAddress hnone)]
  rw [heqe] at hd h
  refine ⟨hclean6, hclean4, hnone, clean_of_triggers mem_placeholders_dob dob_triggers ?_⟩
  rw [← stripDobPatterns_eq_scan]
  exact h

/-- Otherwise it loses one. -/
theorem triggers_stripPii_lt (h : stripPii s ≠ s) : triggers (stripPii s) < triggers s := by
  by_contra hle
  exact h (spotless_of_triggers (not_lt.mp hle)).stripPii_eq

theorem fixed_after (s : Text) : ∃ n ≤ triggers s, stripPii (stripPii^[n] s) = stripPii^[n] s := by
  induction hn : triggers s using Nat.strong_induction_on generalizing s with
  | _ n ih =>
    by_cases hfixed : stripPii s = s
    · exact ⟨0, Nat.zero_le _, hfixed⟩
    · have hlt := triggers_stripPii_lt hfixed
      obtain ⟨k, hk, hfix⟩ := ih _ (hn ▸ hlt) (stripPii s) rfl
      refine ⟨k + 1, by omega, ?_⟩
      rwa [Function.iterate_succ_apply]

theorem noAddress_iff : NoAddress s ↔ ∀ i, (asBytes s)[i]? = some (byteOf '@') →
    scanEmailDomainForward (asBytes s) (i + 1) = none ∨ scanEmailLocalBack (asBytes s) i = i := by
  have hat : ∀ x y : Text, addressLen x y = none ↔
      scanEmailDomainForward (asBytes (x ++ '@' :: y)) ((asBytes x).length + 1) = none ∨
        scanEmailLocalBack (asBytes (x ++ '@' :: y)) (asBytes x).length = (asBytes x).length := by
    intro x y
    have hle := localRun_le x
    rw [domain_behind, scanEmailLocalBack_eq, Option.map_eq_none_iff, addressLen]
    split_ifs with hrun
    · simp [hrun]
    · constructor
      · exact .inl
      · rintro (hnone | heq)
        · exact hnone
        · omega
  constructor
  · intro h i hi
    obtain ⟨x, z, rfl, rfl⟩ := Utf8.exists_boundary hi (by decide)
    cases z with
    | nil => simp at hi
    | cons c y =>
      rw [byte_at, Option.some.injEq] at hi
      obtain rfl : c = '@' := Utf8.eq_of_byteOf (by decide) hi
      exact (hat x y).mp (h x y rfl)
  · rintro h x y rfl
    exact (hat x y).mpr (h _ (byte_at x y))

/-- Sanitising leaves exactly those texts as they are in which no pass finds anything anywhere;
and repeated it comes to such a text, after no more rounds than the text has colons, dots, `@`
and digits. -/
theorem stripPii_fixed_iff (s : Text) :
    (stripPii s = s ↔ (∀ i, ipv6At (asBytes s) i = none) ∧ (∀ i, ipv4At (asBytes s) i = none) ∧
      (∀ i, (asBytes s)[i]? = some (byteOf '@') →
        scanEmailDomainForward (asBytes s) (i + 1) = none ∨
          scanEmailLocalBack (asBytes s) i = i) ∧
      ∀ i, dobAt (asBytes s) i = none) ∧
    ∃ n ≤ triggers s, stripPii (stripPii^[n] s) = stripPii^[n] s := by
  refine ⟨?_, fixed_after s⟩
  rw [ipv6At_eq, ipv4At_eq, dobAt_eq, ← Recogniser.clean_iff, ← Recogniser.clean_iff,
    ← Recogniser.clean_iff, ← noAddress_iff]
  constructor
  · intro h
    have hs : Spotless s := spotless_of_triggers (by rw [h])
    exact ⟨hs.ipv6, hs.ipv4, hs.email, hs.dob⟩
  · rintro ⟨h6, h4, he, hd⟩
    exact Spotless.stripPii_eq ⟨h6, h4, he, hd⟩

/-- Sanitised text has no IPv4 address, no email address and no date of birth in it; and where it
has an IPv6 address, sanitising it again finds one. -/
theorem stripPii_leaves_none (s : Text) (ht : ChainFree (stripIpv4 (stripIpv6 s))) :
    (∀ i, ipv4At (asBytes (stripPii s)) i = none) ∧
    (∀ i, (asBytes (stripPii s))[i]? = some (byteOf '@') →
      scanEmailDomainForward (asBytes (stripPii s)) (i + 1) = none ∨
        scanEmailLocalBack (asBytes (stripPii s)) i = i) ∧
    (∀ i, dobAt (asBytes (stripPii s)) i = none) ∧
    ((∃ i, ipv6At (asBytes (stripPii s)) i ≠ none) ↔ stripPii (stripPii s) ≠ stripPii s) := by
  obtain ⟨h4, he, hd⟩ := stripPii_clean ht
  rw [ipv4At_eq, dobAt_eq, ← noAddress_iff]
  refine ⟨Recogniser.clean_iff.mp h4, noAddress_of_clean he, Recogniser.clean_iff.mp hd, ?_⟩
  rw [← not_iff_not, not_not, not_exists]
  simp only [not_not]
  rw [← clean_ipv6_iff]
  constructor
  · intro h6
    exact stripPii_of_clean h6 h4 he hd
  · exact clean_of_stripPii_eq

/-- A text that holds an address, a quad and what the second run takes for an IPv6 address. -/
def twoRunText : Text := "from 10.0.0.1: ::12345@b.cc".toList

theorem stripPii_leaves_none_sample :
    (∀ i, ipv4At (asBytes (stripPii twoRunText)) i = none) ∧
    (∀ i, (asBytes (stripPii twoRunText))[i]? = some (byteOf '@') →
      scanEmailDomainForward (asBytes (stripPii twoRunText)) (i + 1) = none ∨
        scanEmailLocalBack (asBytes (stripPii twoRunText)) i = i) ∧
    (∀ i, dobAt (asBytes (stripPii twoRunText)) i = none) ∧
    ((∃ i, ipv6At (asBytes (stripPii twoRunText)) i ≠ none) ↔
      stripPii (stripPii twoRunText) ≠ stripPii twoRunText) :=
  stripPii_leaves_none twoRunText (chainFree_of_count (by decide))

end ProviiAudit
