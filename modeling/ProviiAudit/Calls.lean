import Mathlib.Data.List.ReduceOption
import ProviiAudit.Limits

/-! Runs of calls: what a rejected call leaves behind, and what comes to the sink. -/
namespace ProviiAudit

open Utf8 (Text)

/-- A call of `log_event`, with what the host gives to it. -/
structure Call where
  logger : AuditLogger
  host : Host
  params : AuditParams

namespace Call

variable {C : Crypto} {c : Call} {calls before after : List Call} {e : AuditEvent} {st : Trace}
  {o : Option AuditEvent} {hashed : Hashes}

def result (C : Crypto) (c : Call) : Except AuditError Unit × Trace :=
  c.logger.logEvent C c.host c.params

/-- A call writes behind what is logged. -/
def step (C : Crypto) (st : Trace) (c : Call) : Trace :=
  ⟨st.console ++ (c.result C).2.console, st.sink ++ (c.result C).2.sink⟩

def run (C : Crypto) (st : Trace) (calls : List Call) : Trace := calls.foldl (step C) st

/-- The validators of the logger accept the parameters. -/
def Checked (params : AuditParams) : Prop :=
  validateAppendFields params.eventType params.severity.asStr params.message
      (some params.details) = .ok () ∧
    validateSecondaryFields params.rawIp params.origin params.rawUserAgent params.challengeId =
      .ok ()

instance {params : AuditParams} : Decidable (Checked params) := inferInstanceAs (Decidable (_ ∧ _))

/-- The fields that only the builder requires. -/
def HasText (c : Call) : Prop := c.params.message ≠ [] ∧ c.logger.sourceService ≠ []

instance : Decidable c.HasText := inferInstanceAs (Decidable (_ ∧ _))

/-- The call is rejected for a field, and the sink was not called. -/
def Rejected (C : Crypto) (c : Call) : Prop :=
  (∃ field reason, (c.result C).1 = .error (.fieldValidationError field reason)) ∧
    (c.result C).2.sink = []

/-- Validation, hashing and the generation of an id succeed, and there is a sink. -/
structure Passes (C : Crypto) (c : Call) : Prop where
  sink : c.logger.sink ≠ none
  checked : Checked c.params
  text : c.HasText
  hashes : ∃ hashed, c.logger.prepare C c.params = .ok hashed
  id : ∃ id, generateUuidV4 C c.host = .ok id

/-- The event that is built of the parameters and their hashes. -/
def Builds (C : Crypto) (c : Call) (e : AuditEvent) : Prop :=
  ∃ hashed, c.logger.prepare C c.params = .ok hashed ∧
    (c.logger.builder c.params hashed).build C c.host = .ok e

def IsFieldError (err : AuditError) : Prop :=
  ∃ field reason, err = .fieldValidationError field reason

theorem field_isFieldError {field : String} {reason : Text} :
    IsFieldError (.fieldValidation field reason) := ⟨_, _, rfl⟩

theorem hashUnlessEmpty_ok (hash : Text → Except AuditError Text) (v : Text)
    (h : ∀ v, ∃ x, hash v = .ok x) : ∃ x, hashUnlessEmpty hash v = .ok x := by
  rw [hashUnlessEmpty]
  split_ifs
  · exact ⟨_, rfl⟩
  · exact h v

theorem hashUnlessEmpty_fails {hash : Text → Except AuditError Text} {v : Text}
    (h : ∀ v, ∃ x, hash v = .ok x) : Fails IsFieldError (hashUnlessEmpty hash v) := by
  obtain ⟨x, hx⟩ := hashUnlessEmpty_ok hash v h
  exact fails_of_ok hx

/-- Hashing does not fail. -/
theorem prepare_of_checked (C : Crypto) (h : Checked c.params) :
    ∃ hashed, c.logger.prepare C c.params = .ok hashed := by
  obtain ⟨ip, hip⟩ := hashUnlessEmpty_ok (c.logger.privacy.hashIp C) c.params.rawIp
    fun _ => ⟨_, rfl⟩
  obtain ⟨ua, hua⟩ := hashUnlessEmpty_ok (c.logger.privacy.hashUserAgent C) c.params.rawUserAgent
    fun _ => ⟨_, rfl⟩
  obtain ⟨origin, horigin⟩ := hashUnlessEmpty_ok (c.logger.privacy.hashOrigin C) c.params.origin
    fun _ => ⟨_, rfl⟩
  exact ⟨⟨ip, ua, origin⟩, prepare_ok_iff.mpr ⟨h.1, h.2, hip, hua, horigin⟩⟩

theorem validateAppendFields_fails {eventType severity message : Text} {details : Option Text} :
    Fails IsFieldError (validateAppendFields eventType severity message details) := by
  have atMost : ∀ {field limit value}, Fails IsFieldError (requireAtMost field limit value) :=
    requireAtMost_fails field_isFieldError
  apply Fails.andThen (requireNonEmpty_fails field_isFieldError) fun _ => ?_
  apply Fails.andThen (rejectTombstone_fails field_isFieldError) fun _ => ?_
  apply Fails.andThen atMost fun _ => Fails.andThen atMost fun _ => Fails.andThen atMost fun _ => ?_
  cases details with
  | none => exact fails_of_ok rfl
  | some d => exact atMost

theorem validateSecondaryFields_fails {ip origin ua challenge : Text} :
    Fails IsFieldError (validateSecondaryFields ip origin ua challenge) := by
  have atMost : ∀ {field limit value}, Fails IsFieldError (requireAtMost field limit value) :=
    requireAtMost_fails field_isFieldError
  apply Fails.andThen atMost fun _ => Fails.andThen atMost fun _ => Fails.andThen atMost fun _ => ?_
  exact atMost

/-- Parameters that the validators reject end the call at once. -/
theorem prepare_of_not_checked (C : Crypto) (h : ¬ Checked c.params) :
    ∃ field reason, c.logger.prepare C c.params = .error (.fieldValidationError field reason) := by
  have hfails : Fails IsFieldError (c.logger.prepare C c.params) := by
    apply Fails.andThen validateAppendFields_fails fun _ => ?_
    apply Fails.andThen validateSecondaryFields_fails fun _ => ?_
    apply Fails.andThen (hashUnlessEmpty_fails fun _ => ⟨_, rfl⟩) fun _ => ?_
    apply Fails.andThen (hashUnlessEmpty_fails fun _ => ⟨_, rfl⟩) fun _ => ?_
    apply Fails.andThen (hashUnlessEmpty_fails fun _ => ⟨_, rfl⟩) fun _ => ?_
    exact fails_of_ok rfl
  cases hprepare : c.logger.prepare C c.params with
  | error err =>
    obtain ⟨field, reason, rfl⟩ := hfails err hprepare
    exact ⟨field, reason, rfl⟩
  | ok hashed => exact absurd ⟨(prepare_ok hprepare).1, (prepare_ok hprepare).2.1⟩ h

theorem build_without_text (C : Crypto) (host : Host) (b : AuditEventBuilder)
    (htype : b.eventType ≠ []) (h : ¬ (b.message ≠ [] ∧ b.sourceService ≠ [])) :
    ∃ field reason, b.build C host = .error (.fieldValidationError field reason) := by
  have htype' : requireNonEmpty "event_type" b.eventType = .ok () :=
    requireNonEmpty_ok_iff.mpr htype
  by_cases hmessage : b.message = []
  · rw [AuditEventBuilder.build, htype', hmessage]
    exact ⟨_, _, rfl⟩
  · have hmessage' : requireNonEmpty "message" b.message = .ok () :=
      requireNonEmpty_ok_iff.mpr hmessage
    have hservice : b.sourceService = [] := by
      by_contra hne
      exact h ⟨hmessage, hne⟩
    rw [AuditEventBuilder.build, htype', hmessage', hservice]
    exact ⟨_, _, rfl⟩

theorem build_without_id {b : AuditEventBuilder} {host : Host} {err : AuditError}
    (htype : b.eventType ≠ []) (hmessage : b.message ≠ []) (hservice : b.sourceService ≠ [])
    (hid : generateUuidV4 C host = .error err) :
    ∃ reason, b.build C host = .error (.validationError reason) := by
  obtain ⟨make, hbuild⟩ : ∃ make : Text → AuditEvent,
      b.build C host = generateUuidV4 C host >>= fun id => .ok (make id) :=
    build_bind htype hmessage hservice
  have hkind : ∃ reason, err = .validationError reason := by
    rw [generateUuidV4] at hid
    split at hid
    · exact ⟨_, (Except.error.inj hid).symm⟩
    · simp at hid
  obtain ⟨reason, rfl⟩ := hkind
  rw [hbuild, hid]
  exact ⟨reason, rfl⟩

/-- Everything a call can do. -/
theorem result_cases (C : Crypto) (c : Call) :
    (¬ Checked c.params ∧ ∃ field reason,
      c.result C = (.error (.fieldValidationError field reason), ⟨[], []⟩)) ∨
    (Checked c.params ∧ ¬ c.HasText ∧ ∃ field reason line,
      c.result C = (.error (.fieldValidationError field reason), ⟨[line], []⟩)) ∨
    (Checked c.params ∧ c.HasText ∧ (∀ id, generateUuidV4 C c.host ≠ .ok id) ∧ ∃ reason line,
      c.result C = (.error (.validationError reason), ⟨[line], []⟩)) ∨
    (Checked c.params ∧ c.HasText ∧ (∃ id, generateUuidV4 C c.host = .ok id) ∧ ∃ e line,
      Builds C c e ∧ ((c.logger.sink = none ∧ c.result C = (.ok (), ⟨[line], []⟩)) ∨
        ∃ write, c.logger.sink = some write ∧ c.result C = (write e, ⟨[line], [e]⟩))) := by
  by_cases hchecked : Checked c.params
  · right
    obtain ⟨hashed, hprepare⟩ := prepare_of_checked C hchecked
    have htype : c.params.eventType ≠ [] := (validateAppendFields_ok_iff.mp hchecked.1).1
    by_cases htext : c.HasText
    · right
      cases hid : generateUuidV4 C c.host with
      | error err =>
        obtain ⟨reason, herr⟩ := build_without_id (b := c.logger.builder c.params hashed) htype
          htext.1 htext.2 hid
        refine .inl ⟨hchecked, htext, by simp, reason, c.logger.consoleLine c.params hashed, ?_⟩
        rw [result, AuditLogger.logEvent, hprepare]
        dsimp only
        rw [herr]
      | ok id =>
        obtain ⟨e, he⟩ := exists_build (b := c.logger.builder c.params hashed) htype htext.1 htext.2
          hid
        refine .inr ⟨hchecked, htext, ⟨id, rfl⟩, e, c.logger.consoleLine c.params hashed,
          ⟨hashed, hprepare, he⟩, ?_⟩
        rw [result, AuditLogger.logEvent, hprepare]
        dsimp only
        rw [he]
        cases c.logger.sink with
        | none => exact .inl ⟨rfl, rfl⟩
        | some write => exact .inr ⟨write, rfl, rfl⟩
    · obtain ⟨field, reason, herr⟩ :=
        build_without_text C c.host (c.logger.builder c.params hashed) htype htext
      refine .inl ⟨hchecked, htext, field, reason, c.logger.consoleLine c.params hashed, ?_⟩
      rw [result, AuditLogger.logEvent, hprepare]
      dsimp only
      rw [herr]
  · obtain ⟨field, reason, herr⟩ := prepare_of_not_checked C hchecked
    refine .inl ⟨hchecked, field, reason, ?_⟩
    rw [result, AuditLogger.logEvent, herr]

/-- A rejected call leaves nothing behind unless the builder is the first to reject it. -/
theorem leaves_nothing_iff : (Rejected C c → (c.result C).2 = ⟨[], []⟩) ↔
    (Checked c.params → c.HasText) := by
  rcases result_cases C c with ⟨hno, field, reason, h⟩ | ⟨hchecked, hno, field, reason, line, h⟩ |
    ⟨-, htext, -, reason, line, h⟩ | ⟨-, htext, -, e, line, -, hsink⟩
  · simp [h, hno]
  · have hrejected : Rejected C c := ⟨⟨field, reason, by rw [h]⟩, by rw [h]⟩
    simp [h, hchecked, hno, hrejected]
  · have hother : ¬ Rejected C c := by
      rintro ⟨⟨f, r, herr⟩, -⟩
      simp [h] at herr
    simp [hother, htext]
  · have hother : ¬ Rejected C c := by
      rintro ⟨⟨f, r, herr⟩, hnil⟩
      rcases hsink with ⟨-, h⟩ | ⟨write, -, h⟩
      · simp [h] at herr
      · simp [h] at hnil
    simp [hother, htext]

/-- What a call hands to the sink. -/
structure Delivers (C : Crypto) (c : Call) (o : Option AuditEvent) : Prop where
  passes : o ≠ none ↔ Passes C c
  builds : ∀ e ∈ o, Builds C c e

theorem sink_delivers (C : Crypto) (c : Call) :
    ∃ o, Delivers C c o ∧ (c.result C).2.sink = o.toList := by
  rcases result_cases C c with ⟨hno, field, reason, h⟩ | ⟨-, hno, field, reason, line, h⟩ |
    ⟨-, -, hno, reason, line, h⟩ | ⟨hchecked, htext, hid, e, line, hbuild, hsink⟩
  · refine ⟨none, ⟨?_, by simp⟩, by rw [h]; rfl⟩
    simpa using fun hp : Passes C c => hno hp.checked
  · refine ⟨none, ⟨?_, by simp⟩, by rw [h]; rfl⟩
    simpa using fun hp : Passes C c => hno hp.text
  · refine ⟨none, ⟨?_, by simp⟩, by rw [h]; rfl⟩
    simpa using fun hp : Passes C c => hp.id.elim hno
  · rcases hsink with ⟨hnone, h⟩ | ⟨write, hsome, h⟩
    · refine ⟨none, ⟨?_, by simp⟩, by rw [h]; rfl⟩
      simpa using fun hp : Passes C c => hp.sink hnone
    · refine ⟨some e, ⟨?_, by simpa using hbuild⟩, by rw [h]; rfl⟩
      have hpasses : Passes C c :=
        ⟨by simp [hsome], hchecked, htext, prepare_of_checked C hchecked, hid⟩
      simp [hpasses]

theorem run_append : run C st (before ++ after) = run C (run C st before) after := List.foldl_append

/-- One event for each call that passes, in the order of the calls. -/
theorem run_sink (C : Crypto) (st : Trace) (calls : List Call) :
    ∃ os, List.Forall₂ (Delivers C) calls os ∧
      (run C st calls).sink = st.sink ++ os.reduceOption := by
  induction calls generalizing st with
  | nil => exact ⟨[], .nil, by simp [run]⟩
  | cons c calls ih =>
    obtain ⟨o, hc, hsink⟩ := sink_delivers C c
    obtain ⟨os, hcalls, hrest⟩ := ih (step C st c)
    refine ⟨o :: os, .cons hc hcalls, ?_⟩
    have hrun : run C st (c :: calls) = run C (step C st c) calls := rfl
    rw [hrun, hrest, step, hsink]
    cases o with
    | none => simp [List.reduceOption_cons_of_none]
    | some e => simp [List.reduceOption_cons_of_some]

theorem step_eq_iff : step C st c = st ↔ (c.result C).2 = ⟨[], []⟩ := by
  obtain ⟨console, sink⟩ := st
  cases h : (c.result C).2 with
  | mk lines events => simp [step, h]

/-- In every run the rejected calls leave nothing behind exactly when the message and the service
name are there wherever the validators accept; and the sink gets one event for each call that
passes, in order. -/
theorem run_traces (C : Crypto) (st : Trace) (calls : List Call) :
    ((∀ before c after, calls = before ++ c :: after → Rejected C c →
        run C st (before ++ [c]) = run C st before) ↔
      ∀ c ∈ calls, Checked c.params → c.HasText) ∧
    ∃ os, List.Forall₂ (Delivers C) calls os ∧
      (run C st calls).sink = st.sink ++ os.reduceOption := by
  refine ⟨?_, run_sink C st calls⟩
  have hstep : ∀ before c, run C st (before ++ [c]) = run C st before ↔
      (c.result C).2 = ⟨[], []⟩ := fun before c => by
    rw [run_append, ← step_eq_iff]
    rfl
  simp only [hstep]
  constructor
  · intro h c hc
    obtain ⟨before, after, rfl⟩ := List.append_of_mem hc
    exact leaves_nothing_iff.mp (h before c after rfl)
  · rintro h before c after rfl
    exact leaves_nothing_iff.mpr (h c (by simp))

end Call

/-- A call without a message. -/
def silentParams : AuditParams := { AuditParams.default with eventType := "evt".toList }

/-- The console has a line about a call that was rejected for its empty message. -/
theorem rejected_call_traced : ¬ ∀ (C : Crypto) (c : Call), Call.Rejected C c →
    (c.result C).2 = ⟨[], []⟩ := by
  intro h
  have hnothing := Call.leaves_nothing_iff.mp
    (h sampleCrypto ⟨sampleLogger, zeroHost, silentParams⟩)
  exact absurd hnothing (by decide)

end ProviiAudit
