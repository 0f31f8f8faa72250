import ProviiAudit.Limits
import ProviiAudit.Sanitize.Addresses
import ProviiAudit.Sanitize.Placeholders

/-! How much longer or shorter sanitising makes a text, and which texts outgrow the limits. -/
namespace ProviiAudit

open Utf8 (Text asBytes)
open Scan (scan matched)

variable {s t x y w l : Text} {c : Char} {k limit : Nat}

/-- What stretches lack to the length of the placeholder that takes their place. -/
def lack (R : Text) (ws : List Text) : Nat := (ws.map fun w => byteLen R - byteLen w).sum

/-- What the addresses of the text lack: those of every `@` in the rest. -/
def emailLack : Text → Text → Nat
  | _, [] => 0
  | x, c :: y =>
    match if c = '@' then addressLen x y else none with
    | some n => (byteLen redactedEmail - (localRun x + 1 + n)) + emailLack (x ++ [c]) y
    | none => emailLack (x ++ [c]) y

/-- What is shorter than its placeholder, in the text that each pass receives. -/
def shortfall (s : Text) : Nat :=
  let afterIpv6 := stripIpv6 s
  let afterIpv4 := stripIpv4 afterIpv6
  lack redactedIp (matched ipv6Recogniser.matcher none s) +
    lack redactedIp (matched ipv4Recogniser.matcher none afterIpv6) + emailLack [] afterIpv4 +
      lack redactedDob (matched dobRecogniser.matcher none (stripEmails afterIpv4))

/-- The text has room for the placeholders of what is shorter than they are. -/
def RoomFor (limit : Nat) (s : Text) : Prop := byteLen s + shortfall s ≤ limit

instance {limit : Nat} {s : Text} : Decidable (RoomFor limit s) := Nat.decLe _ _

/-- Nothing is longer than its placeholder, and no two addresses share characters. -/
structure NoneLonger (s : Text) : Prop where
  ipv6 : ∀ w ∈ matched ipv6Recogniser.matcher none s, byteLen w ≤ byteLen redactedIp
  ipv4 : ∀ w ∈ matched ipv4Recogniser.matcher none (stripIpv6 s), byteLen w ≤ byteLen redactedIp
  chain : ChainFree (stripIpv4 (stripIpv6 s))
  email : ∀ x y n, stripIpv4 (stripIpv6 s) = x ++ '@' :: y → addressLen x y = some n →
    localRun x + 1 + n ≤ byteLen redactedEmail

theorem byteLen_append (x y : Text) : byteLen (x ++ y) = byteLen x + byteLen y := by
  simp [byteLen]

theorem byteLen_popChars : byteLen (popChars k redactedEmail) = byteLen redactedEmail - k := by
  have hascii : ∀ c ∈ redactedEmail, c.toNat < 128 := by
    have hall : redactedEmail.all (·.toNat < 128) = true := by decide
    simpa using hall
  have hpart : ∀ c ∈ popChars k redactedEmail, c.toNat < 128 := by
    intro c hc
    rw [popChars_eq] at hc
    exact hascii c (List.mem_of_mem_take hc)
  rw [byteLen, byteLen, Utf8.asBytes_ascii hascii, Utf8.asBytes_ascii hpart, List.length_map,
    List.length_map, popChars_length]

theorem length_mul_le_lack (R : Text) (ws : List Text) :
    ws.length * byteLen R ≤ (ws.map byteLen).sum + lack R ws := by
  induction ws with
  | nil => simp
  | cons w ws ih =>
    simp only [lack, List.map_cons, List.sum_cons, List.length_cons, Nat.succ_mul] at ih ⊢
    omega

theorem length_mul_eq_lack {R : Text} {ws : List Text} (h : ∀ w ∈ ws, byteLen w ≤ byteLen R) :
    ws.length * byteLen R = (ws.map byteLen).sum + lack R ws := by
  induction ws with
  | nil => simp [lack]
  | cons w ws ih =>
    rw [List.forall_mem_cons] at h
    have hrest := ih h.2
    have hw := h.1
    simp only [lack, List.map_cons, List.sum_cons, List.length_cons, Nat.succ_mul] at hrest ⊢
    omega

theorem byteLen_scan_le (m : Scan.Matcher Char) (R s : Text) :
    byteLen (scan m R none s) ≤ byteLen s + lack R (matched m none s) := by
  have hmeasure := Scan.measure_scan (m := m) (R := R) (p := none) (s := s) byteLen_append
  have hlack := length_mul_le_lack R (matched m none s)
  omega

theorem byteLen_scan {m : Scan.Matcher Char} {R : Text}
    (h : ∀ w ∈ matched m none s, byteLen w ≤ byteLen R) :
    byteLen (scan m R none s) = byteLen s + lack R (matched m none s) := by
  have hmeasure := Scan.measure_scan (m := m) (R := R) (p := none) (s := s) byteLen_append
  have hlack := length_mul_eq_lack h
  omega

theorem emailLack_no_at (hl : '@' ∉ l) : emailLack x (l ++ y) = emailLack (x ++ l) y := by
  induction l generalizing x with
  | nil => simp
  | cons c l ih =>
    rw [List.mem_cons, not_or] at hl
    rw [List.cons_append, emailLack, if_neg (Ne.symm hl.1), ih hl.2]
    simp

theorem emailLack_keep (h : c = '@' → addressLen x y = none) :
    emailLack x (c :: y) = emailLack (x ++ [c]) y := by
  have hnone : (if c = '@' then addressLen x y else none) = none := by
    split_ifs with hc
    · exact h hc
    · rfl
  rw [emailLack, hnone]

theorem emailLack_redact (h : addressLen x (w ++ y) = some w.length) :
    emailLack x ('@' :: (w ++ y)) = (byteLen redactedEmail - (localRun x + 1 + w.length)) +
      emailLack (x ++ '@' :: w) y := by
  rw [emailLack, if_pos rfl, h]
  simp only [emailLack_no_at (no_at_in_domain h), List.append_assoc, List.singleton_append]

theorem byteLen_cons (c : Char) (y : Text) : byteLen (c :: y) = c.utf8Size + byteLen y := by
  simp [byteLen]

/-- The pass adds what the addresses lack, and what is still to be taken back in front. -/
theorem byteLen_emailRest_le (x y : Text) : byteLen (emailRest x 0 y).text ≤
    byteLen y + emailLack x y + min (emailRest x 0 y).owed x.length := by
  induction x, y using email_induction with
  | nil x => simp [emailRest]
  | keep x c y h ih =>
    have hsize := Char.utf8Size_pos c
    rw [List.length_append, List.length_singleton] at ih
    rw [emailRest_keep h, emailLack_keep h, byteLen_cons, Remainder.keep]
    split_ifs with howed
    · simp only [byteLen_cons]
      omega
    · simp only
      omega
  | redact x w y h ih =>
    have hdomain : w.length ≤ byteLen w := Utf8.length_le_asBytes
    have hrun : localRun x ≤ x.length := (List.rtakeWhile_suffix isLocal x).length_le
    have hlen : byteLen redactedEmail = 16 ∧ redactedEmail.length = 16 := ⟨rfl, rfl⟩
    have hat : '@'.utf8Size = 1 := rfl
    rw [List.length_append, List.length_cons] at ih
    rw [emailRest_redact h, emailLack_redact h, byteLen_cons, Remainder.redact]
    simp only [byteLen_append, byteLen_popChars]
    omega

theorem byteLen_local (hl : ∀ c ∈ l, isLocal c = true) : byteLen l = l.length := by
  rw [byteLen, isEmailLocalChar_ascii.asBytes_eq hl, List.length_map]

theorem byteLen_emailRest (ht : ChainFree t) (h : t = x ++ y) (hx : Fresh x y)
    (hlong : ∀ x y n, t = x ++ '@' :: y → addressLen x y = some n →
      localRun x + 1 + n ≤ byteLen redactedEmail) :
    byteLen (emailRest x 0 y).text = byteLen y + emailLack x y := by
  induction hn : y.length using Nat.strong_induction_on generalizing x y with
  | _ N ih =>
    have hsplit := List.takeWhile_append_dropWhile (p := isLocal) (l := y)
    have hl : ∀ c ∈ y.takeWhile isLocal, isLocal c = true := fun c hc => List.mem_takeWhile_imp hc
    have hstop := Span.stops_dropWhile isLocal y
    generalize y.takeWhile isLocal = l at hsplit hl
    generalize y.dropWhile isLocal = r at hsplit hstop
    subst hsplit
    have hat : '@' ∉ l := fun hmem => by simpa [isLocal_at] using hl _ hmem
    rw [emailRest_keep_run hat, emailLack_no_at hat]
    cases r with
    | nil => simp [emailRest, emailLack]
    | cons c r =>
      by_cases hmatch : c = '@' ∧ addressLen (x ++ l) r ≠ none
      · obtain ⟨rfl, hsome⟩ := hmatch
        obtain ⟨n, hm⟩ := Option.ne_none_iff_exists'.mp hsome
        obtain ⟨w, y, rfl, rfl⟩ := Span.exists_split (addressLen_le hm)
        have hrun := (addressMatcher_at (hx.start ht h hl hsome) hl hm).1
        have hfresh : Fresh (x ++ l ++ '@' :: w) y := .inr ⟨x ++ l, w, rfl, hm⟩
        have hsplit : t = x ++ l ++ '@' :: w ++ y := by simp [h]
        have hrest := ih y.length (by simp at hn; omega) hsplit hfresh rfl
        have howed : (emailRest (x ++ l ++ '@' :: w) 0 y).owed = 0 := by
          rw [emailRest_eq_scan ht hsplit hfresh]
        have hle := hlong (x ++ l) (w ++ y) w.length (by simp [h]) hm
        have hlocal := byteLen_local hl
        have hdomain := byteLen_local (matched_local hm)
        have hone : '@'.utf8Size = 1 := rfl
        rw [hrun] at hle
        rw [emailRest_redact hm, emailLack_redact hm, Remainder.redact, hrun, howed]
        simp only [Nat.zero_sub, Nat.add_zero, popChars_zero, popChars_of_length_le (Nat.le_refl _),
          List.nil_append, byteLen_append, byteLen_cons, hrest]
        omega
      · have hkeep : c = '@' → addressLen (x ++ l) r = none := by
          intro hc
          by_contra hne
          exact hmatch ⟨hc, hne⟩
        have hfresh : Fresh (x ++ l ++ [c]) r := .inl (by simpa [Span.stops_cons] using hstop)
        have hsplit : t = x ++ l ++ [c] ++ r := by simp [h]
        have hrest := ih r.length (by simp at hn; omega) hsplit hfresh rfl
        have howed : (emailRest (x ++ l ++ [c]) 0 r).owed = 0 := by
          rw [emailRest_eq_scan ht hsplit hfresh]
        rw [emailRest_keep hkeep, emailLack_keep hkeep, Remainder.keep, if_pos howed]
        simp only [howed, Nat.zero_sub, popChars_zero, byteLen_append, byteLen_cons, hrest]
        omega

theorem forall_matched {m : Scan.Matcher Char} {p : Option Char} {P : Text → Prop}
    (h : ∀ p w y, m.len p (w ++ y) = some w.length → P w) : ∀ w ∈ matched m p s, P w := by
  induction p, s using m.induction with
  | nil p => simp [matched, Scan.matchedFrom]
  | keep p c s hm ih =>
    rw [Scan.matched_keep hm]
    exact ih
  | redact p w y hm ih =>
    rw [Scan.matched_redact hm, List.forall_mem_cons]
    exact ⟨h p w y hm, ih⟩

theorem byteLen_date (t : Text) : ∀ w ∈ matched dobRecogniser.matcher none t,
    byteLen w ≤ byteLen redactedDob := by
  refine forall_matched fun p w y hm => ?_
  have hten := (dateHeadLen_some (Recogniser.matcher_len_iff.mp hm).2.1).1
  rw [byteLen, dobRecogniser.matched_codes hm, List.length_map, hten]
  decide

theorem byteLen_stripPii_le (s : Text) : byteLen (stripPii s) ≤ byteLen s + shortfall s := by
  have hv6 := byteLen_scan_le ipv6Recogniser.matcher redactedIp s
  have hv4 := byteLen_scan_le ipv4Recogniser.matcher redactedIp (stripIpv6 s)
  have hemail := byteLen_emailRest_le [] (stripIpv4 (stripIpv6 s))
  have hdob := byteLen_scan_le dobRecogniser.matcher redactedDob
    (stripEmails (stripIpv4 (stripIpv6 s)))
  rw [← stripIpv6_eq_scan] at hv6
  rw [← stripIpv4_eq_scan] at hv4
  rw [← stripEmails_eq, List.length_nil, Nat.min_zero] at hemail
  rw [← stripDobPatterns_eq_scan] at hdob
  simp only [stripPii, shortfall]
  omega

theorem byteLen_stripPii (h : NoneLonger s) : byteLen (stripPii s) = byteLen s + shortfall s := by
  have hv6 := byteLen_scan h.ipv6
  have hv4 := byteLen_scan h.ipv4
  have hemail : byteLen (emailRest [] 0 (stripIpv4 (stripIpv6 s))).text =
      byteLen (stripIpv4 (stripIpv6 s)) + emailLack [] (stripIpv4 (stripIpv6 s)) :=
    byteLen_emailRest h.chain rfl (.inl rfl) h.email
  have hdob := byteLen_scan (byteLen_date (stripEmails (stripIpv4 (stripIpv6 s))))
  rw [← stripIpv6_eq_scan] at hv6
  rw [← stripIpv4_eq_scan] at hv4
  rw [← stripEmails_eq] at hemail
  rw [← stripDobPatterns_eq_scan] at hdob
  simp only [stripPii, shortfall]
  omega

theorem emailRest_ne_nil (hy : y ≠ []) : (emailRest x 0 y).text ≠ [] := by
  have howed : ∀ x y, 0 < (emailRest x 0 y).owed → (emailRest x 0 y).text ≠ [] := by
    intro x y h hnil
    have hhead := head_of_owed x y h
    simp [hnil] at hhead
  induction x, y using email_induction with
  | nil x => exact absurd rfl hy
  | keep x c y hc _ =>
    rw [emailRest_keep hc, Remainder.keep]
    simp only
    split_ifs with hzero
    · simp
    · exact howed _ _ (Nat.pos_of_ne_zero hzero)
  | redact x w y hm _ =>
    rw [emailRest_redact hm, Remainder.redact]
    intro hnil
    obtain ⟨hcut, hrest⟩ := List.append_eq_nil_iff.mp hnil
    rcases Nat.eq_zero_or_pos (emailRest (x ++ '@' :: w) 0 y).owed with hzero | hpos
    · rw [hzero, popChars_zero] at hcut
      exact absurd hcut (by decide)
    · exact howed _ _ hpos hrest

/-- Sanitising leaves something of every text. -/
theorem stripPii_ne_nil (hs : s ≠ []) : stripPii s ≠ [] := by
  rw [stripPii, stripDobPatterns_eq_scan]
  apply Scan.scan_ne_nil (by decide)
  rw [stripEmails_eq]
  apply emailRest_ne_nil
  rw [stripIpv4_eq_scan]
  apply Scan.scan_ne_nil (by decide)
  rw [stripIpv6_eq_scan]
  exact Scan.scan_ne_nil (by decide) hs

/-- A message with one of each kind. -/
def shortMessage : Text := "10.0.0.1, a@b.cc, 1990-05-17 and ::1".toList

def shortParams : AuditParams := { sampleParams with message := shortMessage }

def shortBuilt : AuditEvent :=
  { sampleBuilt with
    message := "[REDACTED_IP], [REDACTED_EMAIL], [REDACTED_DOB] and [REDACTED_IP]".toList }

theorem noneLonger_shortMessage : NoneLonger shortMessage := by
  refine ⟨by decide, by decide, chainFree_of_count (by decide), ?_⟩
  have hall : ∀ i < (stripIpv4 (stripIpv6 shortMessage)).length,
      (stripIpv4 (stripIpv6 shortMessage))[i]? = some '@' →
        ∀ n ∈ addressLen ((stripIpv4 (stripIpv6 shortMessage)).take i)
          ((stripIpv4 (stripIpv6 shortMessage)).drop (i + 1)),
          localRun ((stripIpv4 (stripIpv6 shortMessage)).take i) + 1 + n ≤
            byteLen redactedEmail := by decide +kernel
  intro x y n hsplit hn
  rw [hsplit] at hall
  simpa using hall x.length (by simp) (by simp) n (by simpa using hn)

/-- `::` behind exclamation marks, 2048 bytes in all. -/
def fullMessage : Text := List.replicate 2046 '!' ++ "::".toList

theorem scan_marks {m : Scan.Matcher Char} {R : Text} (hm : Scan.Separates m '!') (n : Nat) :
    Scan.scan m R none (List.replicate n '!' ++ y) =
      List.replicate n '!' ++ Scan.scan m R none y := by
  induction n with
  | zero => rfl
  | succ n ih =>
    have hsep := Scan.scan_sep (R := R) (p := none) (x := []) (y := List.replicate n '!' ++ y) hm
    rw [Scan.scan_nil, List.nil_append, List.nil_append, ih] at hsep
    rw [List.replicate_succ, List.cons_append, hsep, List.cons_append]

theorem stripPii_fullMessage :
    stripPii fullMessage = List.replicate 2046 '!' ++ redactedIp := by
  have hv6 : stripIpv6 fullMessage = List.replicate 2046 '!' ++ redactedIp := by
    rw [stripIpv6_eq_scan, fullMessage, scan_marks (Recogniser.separates _ (by decide)),
      ← stripIpv6_eq_scan]
    congr 1
  have hv4 : stripIpv4 (List.replicate 2046 '!' ++ redactedIp) =
      List.replicate 2046 '!' ++ redactedIp := by
    rw [stripIpv4_eq_scan, scan_marks (Recogniser.separates _ (by decide)), ← stripIpv4_eq_scan]
    congr 1
  have hemail : stripEmails (List.replicate 2046 '!' ++ redactedIp) =
      List.replicate 2046 '!' ++ redactedIp := by
    rw [stripEmails_eq, emailRest_no_at]
    simp only [List.mem_append, List.mem_replicate, not_or]
    exact ⟨by decide, by decide⟩
  have hdob : stripDobPatterns (List.replicate 2046 '!' ++ redactedIp) =
      List.replicate 2046 '!' ++ redactedIp := by
    rw [stripDobPatterns_eq_scan, scan_marks (Recogniser.separates _ (by decide)),
      ← stripDobPatterns_eq_scan]
    congr 1
  rw [stripPii, hv6, hv4, hemail, hdob]

def fullParams : AuditParams :=
  { AuditParams.default with eventType := "evt".toList, message := fullMessage }

theorem byteLen_marks (n : Nat) : byteLen (List.replicate n '!') = n := by
  have hascii : ∀ c ∈ List.replicate n '!', c.toNat < 128 := by
    intro c hc
    rw [(List.mem_replicate.mp hc).2]
    decide
  rw [byteLen, Utf8.asBytes_ascii hascii, List.length_map, List.length_replicate]

theorem byteLen_fullMessage : byteLen fullMessage = 2048 := by
  rw [fullMessage, byteLen_append, byteLen_marks]
  rfl

theorem full_message_sent :
    ∃ e ∈ (sampleLogger.logEvent sampleCrypto zeroHost fullParams).2.sink,
      e.message = stripPii fullMessage := by
  have hfields : validateAppendFields fullParams.eventType fullParams.severity.asStr
      fullParams.message (some fullParams.details) = .ok () :=
    validateAppendFields_ok_iff.mpr ⟨by decide, by decide, by decide, by decide,
      byteLen_fullMessage.le, by decide⟩
  have hprepare : sampleLogger.prepare sampleCrypto fullParams = .ok ⟨[], [], []⟩ := by
    rw [AuditLogger.prepare, hfields]
    rfl
  have hne : fullMessage ≠ [] := by
    intro hnil
    have hlen := byteLen_fullMessage
    simp [hnil, byteLen] at hlen
  obtain ⟨e, he⟩ : ∃ e, (sampleLogger.builder fullParams ⟨[], [], []⟩).build sampleCrypto zeroHost =
      .ok e := exists_build (by decide) hne (by decide) rfl
  have hsink : sampleLogger.sink ≠ none := Option.some_ne_none _
  exact ⟨e, mem_logEvent_sink.mpr ⟨hsink, _, hprepare, he⟩, (build_text he).2.1⟩

end ProviiAudit
