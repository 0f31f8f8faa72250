import ProviiAudit.Calls
import ProviiAudit.Correlation

/-! The lines that calls write to the console, and what can break them. -/
namespace ProviiAudit

open Utf8 (Text decimal)

/-- `Display`. -/
def AuditError.display : AuditError → Text
  | .hmacKeyError context => "HMAC key error: ".toList ++ context
  | .privacySaltTooShort minimum actual =>
    "Privacy salt too short: expected at least ".toList ++ decimal minimum ++
      " bytes, got ".toList ++ decimal actual
  | .privacySaltAllZeros => "Privacy salt must not be all zeros".toList
  | .serialisationError context => "Serialisation error: ".toList ++ context
  | .fieldValidationError field reason =>
    "Validation error on field '".toList ++ field ++ "': ".toList ++ reason
  | .validationError context => "Validation error: ".toList ++ context
  | .queueError context => "Queue error: ".toList ++ context

def errorLine (e : AuditError) : Text :=
  "[AUDIT][ERROR] log_event_best_effort: audit logging failed: ".toList ++ e.display

def AuditLogger.logEventBestEffort (C : Crypto) (host : Host) (logger : AuditLogger)
    (params : AuditParams) : Trace :=
  match logger.logEvent C host params with
  | (.ok (), trace) => trace
  | (.error e, trace) => { trace with console := trace.console ++ [errorLine e] }

/-- A call of one of the two methods. -/
inductive Entry
  | logEvent (c : Call)
  | bestEffort (c : Call)

namespace Entry

def call : Entry → Call
  | logEvent c => c
  | bestEffort c => c

def trace (C : Crypto) : Entry → Trace
  | logEvent c => (c.result C).2
  | bestEffort c => c.logger.logEventBestEffort C c.host c.params

/-- The call fails and says so on the console. -/
def reports (C : Crypto) : Entry → Bool
  | logEvent _ => false
  | bestEffort c => !(c.result C).1.isOk

/-- All lines of a run, in order. -/
def printed (C : Crypto) (entries : List Entry) : List Text :=
  entries.flatMap fun x => (x.trace C).console

end Entry

/-- The text of an error that comes from outside the library: from the random generator or from
the sink. -/
def Call.Foreign (C : Crypto) (c : Call) (text : Text) : Prop :=
  c.HasText ∧ (c.host.getrandom = .error text ∨ ∃ e write err, Call.Builds C c e ∧
    c.logger.sink = some write ∧ write e = .error err ∧ err.display = text)

/-- No control characters. -/
def Printable (s : Text) : Prop := ∀ ch ∈ s, isControl ch = false

instance {s : Text} : Decidable (Printable s) :=
  decidable_of_iff (s.all fun ch => !isControl ch) (by simp only [Printable, List.all_eq_true,
    Bool.not_eq_true'])

variable {C : Crypto} {c : Call} {x : Entry} {entries : List Entry} {s t : Text} {ch : Char}
  {hashed : Hashes} {err : AuditError} {hash : Text → Except AuditError Text}

theorem Printable.append (hs : Printable s) (ht : Printable t) : Printable (s ++ t) := by
  intro ch hch
  rcases List.mem_append.mp hch with h | h
  · exact hs ch h
  · exact ht ch h

theorem Printable.notMem (hs : Printable s) (hch : isControl ch = true) : ch ∉ s := by
  intro h
  rw [hs ch h] at hch
  exact Bool.false_ne_true hch

theorem printable_sanitise : Printable (sanitiseForConsole s) := by
  intro ch hch
  obtain ⟨d, -, rfl⟩ := List.mem_map.mp hch
  split_ifs with hd
  · rfl
  · simpa using hd

theorem printable_decimal (n : Nat) : Printable (decimal n) := by
  intro ch hch
  have hdigit : ch.isDigit = true := Nat.isDigit_of_mem_toDigits (by decide) (by decide) hch
  simp only [Char.isDigit, Bool.and_eq_true, decide_eq_true_eq, ge_iff_le,
    UInt32.le_iff_toNat_le] at hdigit
  have hlow : 48 ≤ ch.toNat := hdigit.1
  have hhigh : ch.toNat ≤ 57 := hdigit.2
  simp only [isControl, Bool.or_eq_false_iff, Bool.and_eq_false_iff, decide_eq_false_iff_not]
  omega

theorem printable_hex (hs : ∀ ch ∈ s, ch ∈ Hex.alphabet) : Printable s := by
  have halphabet : Printable Hex.alphabet := by decide
  exact fun ch hch => halphabet ch (hs ch hch)

theorem printable_hashPrefix (hs : Printable s) : Printable (hashPrefix s) := by
  rw [hashPrefix]
  split_ifs
  · decide
  · cases hto : Utf8.getTo s 16 with
    | none => exact hs
    | some t => exact fun ch hch => hs ch (Utf8.mem_of_getTo hto hch)

/-- A stored hash is hexadecimal. -/
theorem printable_hash {k : HashedField} {ctx : PrivacyContext}
    (h : hashUnlessEmpty (k.hash C ctx) s = .ok t) : Printable t := by
  rw [hashUnlessEmpty] at h
  split_ifs at h
  · obtain rfl := Except.ok.inj h
    decide
  · rw [HashedField.hash_eq, Except.ok.injEq] at h
    obtain rfl := h
    exact printable_hex (C.hex.encode_alphabet _)

theorem printable_asStr : (∀ s : Severity, Printable s.asStr) ∧
    (∀ c : EventCategory, Printable c.asStr) ∧ ∀ o : Outcome, Printable o.asStr := by
  refine ⟨fun s => ?_, fun c => ?_, fun o => ?_⟩
  · cases s <;> decide
  · cases c <;> decide
  · cases o <;> decide

theorem consoleLine_eq {logger : AuditLogger} {params : AuditParams} :
    logger.consoleLine params hashed =
      "[AUDIT][".toList ++ logger.sourceService ++ "] ".toList ++
        sanitiseForConsole params.eventType ++ " severity=".toList ++ params.severity.asStr ++
        " ip=".toList ++ hashPrefix hashed.ip ++ " origin=".toList ++ hashPrefix hashed.origin ++
        " challenge=".toList ++
        (if params.challengeId.isEmpty then ['-'] else sanitiseForConsole params.challengeId) ++
        " category=".toList ++ params.eventCategory.asStr ++ " outcome=".toList ++
        (params.outcome.map Outcome.asStr).getD ['-'] := rfl

/-- Of all that a call is given only the service name is printed as it is. -/
theorem mem_consoleLine_iff (hch : isControl ch = true)
    (h : c.logger.prepare C c.params = .ok hashed) :
    ch ∈ c.logger.consoleLine c.params hashed ↔ ch ∈ c.logger.sourceService := by
  obtain ⟨-, -, hip, -, horigin⟩ := prepare_ok_iff.mp h
  have hip' : Printable (hashPrefix hashed.ip) :=
    printable_hashPrefix (printable_hash (k := .clientIp) hip)
  have horigin' : Printable (hashPrefix hashed.origin) :=
    printable_hashPrefix (printable_hash (k := .origin) horigin)
  have hdash : Printable ['-'] := by decide
  have hchallenge : Printable (if c.params.challengeId.isEmpty then ['-'] else
      sanitiseForConsole c.params.challengeId) := by
    split_ifs
    · exact hdash
    · exact printable_sanitise
  have houtcome : Printable ((c.params.outcome.map Outcome.asStr).getD ['-']) := by
    cases c.params.outcome with
    | none => exact hdash
    | some o => exact printable_asStr.2.2 o
  have behind : ∀ {s t : Text}, Printable t → (ch ∈ s ++ t ↔ ch ∈ s) := by
    intro s t ht
    simp [ht.notMem hch]
  have hfirst : ch ∉ "[AUDIT][".toList := (show Printable _ by decide).notMem hch
  rw [consoleLine_eq, behind houtcome, behind (t := " outcome=".toList) (by decide),
    behind (printable_asStr.2.1 _), behind (t := " category=".toList) (by decide),
    behind hchallenge, behind (t := " challenge=".toList) (by decide), behind horigin',
    behind (t := " origin=".toList) (by decide), behind hip', behind (t := " ip=".toList) (by decide),
    behind (printable_asStr.1 _), behind (t := " severity=".toList) (by decide),
    behind printable_sanitise, behind (t := "] ".toList) (by decide), List.mem_append]
  exact or_iff_right hfirst

/-- The message of the error has no control characters. -/
def AuditError.Quiet (err : AuditError) : Prop := Printable err.display

theorem quiet_field {field : String} (hfield : Printable field.toList) (hs : Printable s) :
    (AuditError.fieldValidation field s).Quiet :=
  (((show Printable "Validation error on field '".toList by decide).append hfield).append
    (show Printable "': ".toList by decide)).append hs

theorem requireAtMost_quiet {field : String} {limit : Nat} (hfield : Printable field.toList) :
    Fails AuditError.Quiet (requireAtMost field limit s) :=
  requireAtMost_fails (quiet_field hfield
    (((show Printable "exceeds ".toList by decide).append (printable_decimal limit)).append
      (show Printable " byte limit".toList by decide)))

theorem prepare_quiet : Fails AuditError.Quiet (c.logger.prepare C c.params) := by
  have hash_fails : ∀ {hash : Text → Except AuditError Text} {v : Text},
      (∀ v, ∃ x, hash v = .ok x) → Fails AuditError.Quiet (hashUnlessEmpty hash v) := by
    intro hash v h
    obtain ⟨x, hx⟩ := Call.hashUnlessEmpty_ok hash v h
    exact fails_of_ok hx
  have happend : Fails AuditError.Quiet
      (validateAppendFields c.params.eventType c.params.severity.asStr c.params.message
        (some c.params.details)) := by
    apply Fails.andThen (requireNonEmpty_fails (quiet_field (by decide) (by decide))) fun _ => ?_
    apply Fails.andThen (rejectTombstone_fails (quiet_field (by decide) (by decide))) fun _ => ?_
    apply Fails.andThen (requireAtMost_quiet (by decide)) fun _ => ?_
    apply Fails.andThen (requireAtMost_quiet (by decide)) fun _ => ?_
    apply Fails.andThen (requireAtMost_quiet (by decide)) fun _ => ?_
    exact requireAtMost_quiet (by decide)
  have hsecondary : Fails AuditError.Quiet
      (validateSecondaryFields c.params.rawIp c.params.origin c.params.rawUserAgent
        c.params.challengeId) := by
    apply Fails.andThen (requireAtMost_quiet (by decide)) fun _ => ?_
    apply Fails.andThen (requireAtMost_quiet (by decide)) fun _ => ?_
    apply Fails.andThen (requireAtMost_quiet (by decide)) fun _ => ?_
    exact requireAtMost_quiet (by decide)
  apply Fails.andThen happend fun _ => ?_
  apply Fails.andThen hsecondary fun _ => ?_
  apply Fails.andThen (hash_fails fun _ => ⟨_, rfl⟩) fun _ => ?_
  apply Fails.andThen (hash_fails fun _ => ⟨_, rfl⟩) fun _ => ?_
  apply Fails.andThen (hash_fails fun _ => ⟨_, rfl⟩) fun _ => ?_
  exact fails_of_ok rfl

theorem mem_rng_error_iff {reason : Text} (hch : isControl ch = true) :
    ch ∈ (AuditError.validationError ("RNG failed: ".toList ++ reason)).display ↔ ch ∈ reason := by
  have hkind : ch ∉ "Validation error: ".toList := (show Printable _ by decide).notMem hch
  have hrng : ch ∉ "RNG failed: ".toList := (show Printable _ by decide).notMem hch
  have hdisplay : (AuditError.validationError ("RNG failed: ".toList ++ reason)).display =
      "Validation error: ".toList ++ ("RNG failed: ".toList ++ reason) := rfl
  rw [hdisplay, List.mem_append, List.mem_append, or_iff_right hkind, or_iff_right hrng]

theorem mem_build_error_iff {host : Host} {b : AuditEventBuilder} (hch : isControl ch = true)
    (htype : b.eventType ≠ []) (h : b.build C host = .error err) :
    ch ∈ err.display ↔ (b.message ≠ [] ∧ b.sourceService ≠ []) ∧
      ∃ reason, host.getrandom = .error reason ∧ ch ∈ reason := by
  have htype' : requireNonEmpty "event_type" b.eventType = .ok () :=
    requireNonEmpty_ok_iff.mpr htype
  by_cases hmessage : b.message = []
  · have hbuild : b.build C host = .error (.fieldValidation "message" "must not be empty".toList) := by
      rw [AuditEventBuilder.build, htype', hmessage]
      rfl
    obtain rfl := Except.error.inj (h.symm.trans hbuild)
    have hquiet : (AuditError.fieldValidation "message" "must not be empty".toList).Quiet :=
      quiet_field (by decide) (by decide)
    exact iff_of_false (hquiet.notMem hch) fun htext => htext.1.1 hmessage
  · have hmessage' : requireNonEmpty "message" b.message = .ok () :=
      requireNonEmpty_ok_iff.mpr hmessage
    by_cases hservice : b.sourceService = []
    · have hbuild : b.build C host =
          .error (.fieldValidation "source_service" "must not be empty".toList) := by
        rw [AuditEventBuilder.build, htype', hmessage', hservice]
        rfl
      obtain rfl := Except.error.inj (h.symm.trans hbuild)
      have hquiet :
          (AuditError.fieldValidation "source_service" "must not be empty".toList).Quiet :=
        quiet_field (by decide) (by decide)
      exact iff_of_false (hquiet.notMem hch) fun htext => htext.1.2 hservice
    · obtain ⟨make, hbuild⟩ : ∃ make : Text → AuditEvent,
          b.build C host = generateUuidV4 C host >>= fun id => .ok (make id) :=
        build_bind htype hmessage hservice
      rw [hbuild, generateUuidV4] at h
      cases hrandom : host.getrandom with
      | error reason =>
        rw [hrandom] at h
        obtain rfl := Except.error.inj h
        rw [mem_rng_error_iff hch]
        constructor
        · intro hmem
          exact ⟨⟨hmessage, hservice⟩, reason, rfl, hmem⟩
        · rintro ⟨-, reason', heq, hmem⟩
          obtain rfl := Except.error.inj heq
          exact hmem
      | ok bytes =>
        rw [hrandom] at h
        cases h

/-- A line shows of a text what can break a line. -/
def Shows (line : Text) (P : Text → Prop) : Prop :=
  ∀ ch, isControl ch = true → (ch ∈ line ↔ ∃ text, P text ∧ ch ∈ text)

theorem shows_build_error {e : AuditError} (h : c.logger.prepare C c.params = .ok hashed)
    (hbuild : (c.logger.builder c.params hashed).build C c.host = .error e) :
    Shows e.display (c.Foreign C) := by
  intro ch hch
  have htype : c.params.eventType ≠ [] := (validateAppendFields_ok_iff.mp (prepare_ok h).1).1
  have hmem := mem_build_error_iff (b := c.logger.builder c.params hashed) hch htype hbuild
  rw [hmem]
  constructor
  · rintro ⟨htext, reason, hreason, hin⟩
    exact ⟨reason, ⟨htext, .inl hreason⟩, hin⟩
  · rintro ⟨text, ⟨htext, hreason | ⟨e', -, -, ⟨hashed', h', hbuilt⟩, -⟩⟩, hin⟩
    · exact ⟨htext, text, hreason, hin⟩
    · obtain rfl : hashed = hashed' := Except.ok.inj (h.symm.trans h')
      cases hbuild.symm.trans hbuilt

/-- What else a call can print once its event is built. -/
theorem foreign_iff (h : c.logger.prepare C c.params = .ok hashed) {e : AuditEvent}
    (hbuild : (c.logger.builder c.params hashed).build C c.host = .ok e) :
    c.Foreign C s ↔
      ∃ write err, c.logger.sink = some write ∧ write e = .error err ∧ err.display = s := by
  obtain ⟨-, hmessage, hservice, hid, -⟩ := build_ok_iff.mp hbuild
  constructor
  · rintro ⟨-, hreason | ⟨e', write, err, ⟨hashed', h', hbuilt⟩, hrest⟩⟩
    · rw [generateUuidV4, hreason] at hid
      cases hid
    · obtain rfl : hashed = hashed' := Except.ok.inj (h.symm.trans h')
      obtain rfl : e = e' := Except.ok.inj (hbuild.symm.trans hbuilt)
      exact ⟨write, err, hrest⟩
  · rintro ⟨write, err, hrest⟩
    exact ⟨⟨hmessage, hservice⟩, .inr ⟨e, write, err, ⟨hashed, h, hbuild⟩, hrest⟩⟩

/-- What a call returns and prints. -/
theorem Call.console_cases (C : Crypto) (c : Call) :
    (¬ Call.Checked c.params ∧
      ∃ err, err.Quiet ∧ (c.result C).1 = .error err ∧ (c.result C).2.console = []) ∨
    (Call.Checked c.params ∧ ∃ line, Shows line (· = c.logger.sourceService) ∧
      (c.result C).2.console = [line] ∧
      ((∃ err, (c.result C).1 = .error err ∧ Shows err.display (c.Foreign C)) ∨
        ((c.result C).1 = .ok () ∧ ∀ text, ¬ c.Foreign C text))) := by
  cases hprepare : c.logger.prepare C c.params with
  | error err =>
    left
    refine ⟨fun hchecked => ?_, err, prepare_quiet err hprepare, ?_⟩
    · obtain ⟨hashed, hok⟩ := Call.prepare_of_checked C hchecked
      cases hprepare.symm.trans hok
    · rw [Call.result, AuditLogger.logEvent, hprepare]
      exact ⟨rfl, rfl⟩
  | ok hashed =>
    right
    refine ⟨⟨(prepare_ok hprepare).1, (prepare_ok hprepare).2.1⟩,
      c.logger.consoleLine c.params hashed, fun ch hch => ?_, ?_⟩
    · simp [mem_consoleLine_iff hch hprepare]
    · rw [Call.result, AuditLogger.logEvent, hprepare]
      dsimp only
      cases hbuild : (c.logger.builder c.params hashed).build C c.host with
      | error err => exact ⟨rfl, .inl ⟨err, rfl, shows_build_error hprepare hbuild⟩⟩
      | ok e =>
        have hforeign := fun s => foreign_iff (s := s) hprepare hbuild
        cases hsink : c.logger.sink with
        | none =>
          refine ⟨rfl, .inr ⟨rfl, fun text htext => ?_⟩⟩
          obtain ⟨write, err, hsome, -⟩ := (hforeign text).mp htext
          cases hsink.symm.trans hsome
        | some write =>
          refine ⟨rfl, ?_⟩
          dsimp only
          cases hwrite : write e with
          | ok u =>
            refine .inr ⟨rfl, fun text htext => ?_⟩
            obtain ⟨write', err, hsome, herr, -⟩ := (hforeign text).mp htext
            obtain rfl := Option.some.inj (hsink.symm.trans hsome)
            cases hwrite.symm.trans herr
          | error err =>
            refine .inl ⟨err, rfl, fun ch _ => ?_⟩
            constructor
            · intro hmem
              exact ⟨err.display, (hforeign _).mpr ⟨write, err, hsink, hwrite, rfl⟩, hmem⟩
            · rintro ⟨text, htext, hmem⟩
              obtain ⟨write', err', hsome, herr, rfl⟩ := (hforeign text).mp htext
              obtain rfl := Option.some.inj (hsink.symm.trans hsome)
              obtain rfl := Except.error.inj (hwrite.symm.trans herr)
              exact hmem

namespace Entry

theorem console_of_ok (h : (c.result C).1 = .ok ()) :
    ((bestEffort c).trace C).console = (c.result C).2.console := by
  have hpair : c.logger.logEvent C c.host c.params = (.ok (), (c.result C).2) := Prod.ext h rfl
  rw [trace, AuditLogger.logEventBestEffort, hpair]

theorem console_of_error (h : (c.result C).1 = .error err) :
    ((bestEffort c).trace C).console = (c.result C).2.console ++ [errorLine err] := by
  have hpair : c.logger.logEvent C c.host c.params = (.error err, (c.result C).2) := Prod.ext h rfl
  rw [trace, AuditLogger.logEventBestEffort, hpair]

theorem mem_errorLine_iff (hch : isControl ch = true) : ch ∈ errorLine err ↔ ch ∈ err.display := by
  have hfixed : ch ∉ "[AUDIT][ERROR] log_event_best_effort: audit logging failed: ".toList :=
    (show Printable _ by decide).notMem hch
  have hline : errorLine err =
      "[AUDIT][ERROR] log_event_best_effort: audit logging failed: ".toList ++ err.display := rfl
  rw [hline, List.mem_append, or_iff_right hfixed]

/-- What can break the lines of a call. -/
def Breaks (C : Crypto) (ch : Char) (x : Entry) : Prop :=
  Call.Checked x.call.params ∧ (ch ∈ x.call.logger.sourceService ∨
    ∃ c text, x = .bestEffort c ∧ c.Foreign C text ∧ ch ∈ text)

theorem mem_console_iff (hch : isControl ch = true) :
    (∃ line ∈ (x.trace C).console, ch ∈ line) ↔ Breaks C ch x := by
  cases x with
  | logEvent c =>
    have htrace : (trace C (.logEvent c)).console = (c.result C).2.console := rfl
    rw [htrace, Breaks]
    rcases c.console_cases C with ⟨hno, err, -, -, hnil⟩ | ⟨hchecked, line, hline, hone, -⟩
    · simp [hnil, call, hno]
    · have hmem := hline ch hch
      simp only [exists_eq_left] at hmem
      simp [hone, call, hchecked, hmem]
  | bestEffort c =>
    rw [Breaks]
    rcases c.console_cases C with ⟨hno, err, hquiet, herr, hnil⟩ |
      ⟨hchecked, line, hline, hone, ⟨err, herr, hshows⟩ | ⟨hok, hnone⟩⟩
    · have hin : ch ∉ errorLine err := mt (mem_errorLine_iff hch).mp (hquiet.notMem hch)
      simp [console_of_error herr, hnil, call, hno, hin]
    · have hmem := hline ch hch
      simp only [exists_eq_left] at hmem
      simp [console_of_error herr, hone, call, hchecked, hmem, mem_errorLine_iff hch, hshows ch hch]
    · have hmem := hline ch hch
      simp only [exists_eq_left] at hmem
      simp [console_of_ok hok, hone, call, hchecked, hmem, hnone]

theorem length_console : (x.trace C).console.length =
    (if Call.Checked x.call.params then 1 else 0) + if x.reports C then 1 else 0 := by
  cases x with
  | logEvent c =>
    have htrace : (trace C (.logEvent c)).console = (c.result C).2.console := rfl
    rw [htrace]
    rcases c.console_cases C with ⟨hno, err, -, -, hnil⟩ | ⟨hchecked, line, -, hone, -⟩
    · simp [hnil, call, hno, reports]
    · simp [hone, call, hchecked, reports]
  | bestEffort c =>
    rcases c.console_cases C with ⟨hno, err, -, herr, hnil⟩ |
      ⟨hchecked, line, -, hone, ⟨err, herr, -⟩ | ⟨hok, -⟩⟩
    · simp [console_of_error herr, hnil, call, hno, reports, herr, Except.isOk, Except.toBool]
    · simp [console_of_error herr, hone, call, hchecked, reports, herr, Except.isOk, Except.toBool]
    · simp [console_of_ok hok, hone, call, hchecked, reports, hok, Except.isOk, Except.toBool]

theorem length_printed : (printed C entries).length =
    entries.countP (fun x => Call.Checked x.call.params) + entries.countP (reports C) := by
  induction entries with
  | nil => rfl
  | cons x entries ih =>
    have hprinted : printed C (x :: entries) = (x.trace C).console ++ printed C entries := rfl
    rw [hprinted, List.length_append, ih, length_console, List.countP_cons, List.countP_cons]
    simp only [decide_eq_true_eq]
    omega

theorem mem_printed_iff (hch : isControl ch = true) :
    (∃ line ∈ printed C entries, ch ∈ line) ↔ ∃ x ∈ entries, Breaks C ch x := by
  simp only [← mem_console_iff hch, printed, List.mem_flatMap]
  constructor
  · rintro ⟨line, ⟨x, hx, hline⟩, hin⟩
    exact ⟨x, hx, line, hline, hin⟩
  · rintro ⟨x, hx, line, hline, hin⟩
    exact ⟨line, ⟨x, hx, hline⟩, hin⟩

end Entry

theorem count_lines (lines : List Text) : (lines.flatMap (· ++ ['\n'])).count '\n' =
    lines.length + lines.flatten.count '\n' := by
  induction lines with
  | nil => rfl
  | cons line lines ih =>
    rw [List.flatMap_cons, List.count_append, List.count_append, ih, List.flatten_cons,
      List.count_append, List.length_cons, List.count_singleton_self]
    omega

/-- In every run of calls of both methods, a control character comes to the console only from the
name of a service, the random generator or the sink: nothing that a caller passes can break a line.
So there is one line for each call whose fields pass and one for each failure that is reported,
exactly when none of these texts has a line feed. -/
theorem console_lines (C : Crypto) (entries : List Entry) :
    (∀ ch, isControl ch = true → ((∃ line ∈ Entry.printed C entries, ch ∈ line) ↔
      ∃ x ∈ entries, Call.Checked x.call.params ∧ (ch ∈ x.call.logger.sourceService ∨
        ∃ c text, x = .bestEffort c ∧ c.Foreign C text ∧ ch ∈ text))) ∧
    (((Entry.printed C entries).flatMap (· ++ ['\n'])).count '\n' =
        entries.countP (fun x => Call.Checked x.call.params) + entries.countP (Entry.reports C) ↔
      ∀ x ∈ entries, Call.Checked x.call.params → '\n' ∉ x.call.logger.sourceService ∧
        ∀ c text, x = .bestEffort c → c.Foreign C text → '\n' ∉ text) := by
  refine ⟨fun ch hch => Entry.mem_printed_iff hch, ?_⟩
  have hmem : (∃ line ∈ Entry.printed C entries, '\n' ∈ line) ↔
      ∃ x ∈ entries, Entry.Breaks C '\n' x := Entry.mem_printed_iff (by decide)
  rw [count_lines, Entry.length_printed, Nat.add_eq_left, List.count_eq_zero, List.mem_flatten,
    hmem, not_exists]
  refine forall_congr' fun x => ?_
  rw [not_and]
  refine imp_congr_right fun _ => ?_
  rw [Entry.Breaks, not_and]
  refine imp_congr_right fun _ => ?_
  simp only [not_or, not_exists, not_and]

end ProviiAudit
