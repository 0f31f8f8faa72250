import ProviiAudit.Calls
import ProviiAudit.Wire

/-! Which field an error names: the first at fault, and to blame alone. -/
namespace ProviiAudit

open Utf8 (Text decimal)

inductive Rule
  | nonEmpty
  | noTombstone
  | atMost (limit : Nat)

namespace Rule

def Holds : Rule → Text → Prop
  | nonEmpty, value => value ≠ []
  | noTombstone, value => ¬ tombstonePrefix <+: value
  | atMost limit, value => byteLen value ≤ limit

instance (rule : Rule) (value : Text) : Decidable (rule.Holds value) :=
  match rule with
  | nonEmpty => inferInstanceAs (Decidable (value ≠ []))
  | noTombstone => inferInstanceAs (Decidable (¬ tombstonePrefix <+: value))
  | atMost limit => inferInstanceAs (Decidable (byteLen value ≤ limit))

/-- What an error says of the field. -/
def reason : Rule → Text
  | nonEmpty => "must not be empty".toList
  | noTombstone => "must not use reserved tombstone prefix".toList
  | atMost limit => "exceeds ".toList ++ decimal limit ++ " byte limit".toList

end Rule

/-- A rule for one text of a value. -/
structure FieldCheck (α : Type) where
  name : String
  part : α → Text
  rule : Rule

namespace FieldCheck

variable {α : Type} {c : FieldCheck α} {checks more : List (FieldCheck α)} {a b : α}
  {err : AuditError}

def Passes (c : FieldCheck α) (a : α) : Prop := c.rule.Holds (c.part a)

instance (c : FieldCheck α) (a : α) : Decidable (c.Passes a) :=
  inferInstanceAs (Decidable (c.rule.Holds (c.part a)))

def error (c : FieldCheck α) : AuditError := .fieldValidation c.name c.rule.reason

/-- The checks in order, up to the first that fails. -/
def run (checks : List (FieldCheck α)) (a : α) : Except AuditError Unit :=
  match checks.find? fun c => ¬ c.Passes a with
  | none => .ok ()
  | some c => .error c.error

theorem run_ok_iff : run checks a = .ok () ↔ ∀ c ∈ checks, c.Passes a := by
  rw [run]
  cases h : checks.find? fun c => ¬ c.Passes a with
  | none => simpa using h
  | some c =>
    have hc := List.find?_some h
    have hmem := List.mem_of_find?_eq_some h
    simp only [reduceCtorEq, false_iff, not_forall]
    exact ⟨c, hmem, by simpa using hc⟩

theorem exists_of_error (h : run checks a = .error err) : ∃ before c after,
    checks = before ++ c :: after ∧ (∀ d ∈ before, d.Passes a) ∧ ¬ c.Passes a ∧ err = c.error := by
  rw [run] at h
  cases hfind : checks.find? fun c => ¬ c.Passes a with
  | none =>
    rw [hfind] at h
    cases h
  | some c =>
    rw [hfind] at h
    rw [List.find?_eq_some_iff_append] at hfind
    obtain ⟨hc, before, after, rfl, hbefore⟩ := hfind
    exact ⟨before, c, after, rfl, by simpa using hbefore, by simpa using hc,
      (Except.error.inj h).symm⟩

/-- One check. -/
def require (c : FieldCheck α) (a : α) : Except AuditError Unit :=
  if c.Passes a then .ok () else .error c.error

theorem run_cons : run (c :: checks) a = c.require a >>= fun _ => run checks a := by
  rw [run, require]
  by_cases h : c.Passes a
  · rw [List.find?_cons_of_neg (by simpa using h), if_pos h]
    rfl
  · rw [List.find?_cons_of_pos (by simpa using h), if_neg h]
    rfl

theorem run_append : run (checks ++ more) a = run checks a >>= fun _ => run more a := by
  induction checks with
  | nil => rfl
  | cons c checks ih =>
    rw [List.cons_append, run_cons, run_cons, ih]
    cases c.require a <;> rfl

theorem require_of_passes (h : c.Passes a) : c.require a = .ok () := if_pos h

theorem require_of_not_passes (h : ¬ c.Passes a) : c.require a = .error c.error := if_neg h

theorem require_nonEmpty {name : String} {p : α → Text} :
    require ⟨name, p, .nonEmpty⟩ a = requireNonEmpty name (p a) := by
  rw [requireNonEmpty]
  by_cases h : p a = []
  · rw [if_pos (by simpa using h)]
    exact require_of_not_passes (not_not.mpr h)
  · rw [if_neg (by simpa using h)]
    exact require_of_passes h

theorem require_noTombstone {p : α → Text} :
    require ⟨"event_type", p, .noTombstone⟩ a = rejectTombstone (p a) := by
  rw [rejectTombstone]
  by_cases h : tombstonePrefix <+: p a
  · rw [if_pos (List.isPrefixOf_iff_prefix.mpr h)]
    exact require_of_not_passes (not_not.mpr h)
  · rw [if_neg (mt List.isPrefixOf_iff_prefix.mp h)]
    exact require_of_passes h

theorem require_atMost {name : String} {limit : Nat} {p : α → Text} :
    require ⟨name, p, .atMost limit⟩ a = requireAtMost name limit (p a) := by
  rw [requireAtMost]
  by_cases h : byteLen (p a) ≤ limit
  · rw [if_neg (by omega)]
    exact require_of_passes h
  · rw [if_pos (by omega)]
    exact require_of_not_passes h

end FieldCheck

open FieldCheck (run run_cons run_append require_nonEmpty require_noTombstone require_atMost)

/-- The checks of the consumer. -/
def AuditEvent.checks : List (FieldCheck AuditEvent) :=
  [ ⟨"event_id", eventId, .nonEmpty⟩,
    ⟨"source_service", sourceService, .nonEmpty⟩,
    ⟨"event_type", eventType, .nonEmpty⟩,
    ⟨"message", message, .nonEmpty⟩,
    ⟨"created_at", createdAt, .nonEmpty⟩,
    ⟨"event_id", eventId, .atMost maxEventIdLength⟩,
    ⟨"source_service", sourceService, .atMost maxSourceServiceLength⟩,
    ⟨"event_type", eventType, .atMost maxEventTypeLength⟩,
    ⟨"message", message, .atMost maxMessageLength⟩,
    ⟨"details", details, .atMost maxDetailsLength⟩,
    ⟨"request_id", requestId, .atMost maxRequestIdLength⟩,
    ⟨"worker_version", workerVersion, .atMost maxWorkerVersionLength⟩,
    ⟨"geo_country", geoCountry, .atMost maxGeoCountryLength⟩,
    ⟨"actor_id", actorId, .atMost maxActorIdLength⟩,
    ⟨"resource_type", resourceType, .atMost maxResourceTypeLength⟩,
    ⟨"resource_id", resourceId, .atMost maxResourceIdLength⟩,
    ⟨"queue_message_id", queueMessageId, .atMost maxQueueMessageIdLength⟩,
    ⟨"created_at", createdAt, .atMost maxCreatedAtLength⟩,
    ⟨"client_ip_hash", clientIpHash, .atMost maxFieldLength⟩,
    ⟨"origin", origin, .atMost maxFieldLength⟩,
    ⟨"user_agent_hash", userAgentHash, .atMost maxFieldLength⟩,
    ⟨"challenge_id", challengeId, .atMost maxFieldLength⟩ ]

/-- The checks of the logger. -/
def Call.loggerChecks : List (FieldCheck Call) :=
  [ ⟨"event_type", (·.params.eventType), .nonEmpty⟩,
    ⟨"event_type", (·.params.eventType), .noTombstone⟩,
    ⟨"event_type", (·.params.eventType), .atMost maxEventTypeLength⟩,
    ⟨"severity", (·.params.severity.asStr), .atMost maxSeverityLength⟩,
    ⟨"message", (·.params.message), .atMost maxMessageLength⟩,
    ⟨"details", (·.params.details), .atMost maxDetailsLength⟩,
    ⟨"client_ip", (·.params.rawIp), .atMost maxFieldLength⟩,
    ⟨"origin", (·.params.origin), .atMost maxFieldLength⟩,
    ⟨"user_agent", (·.params.rawUserAgent), .atMost maxFieldLength⟩,
    ⟨"challenge_id", (·.params.challengeId), .atMost maxFieldLength⟩ ]

/-- The checks of the builder. -/
def Call.builderChecks : List (FieldCheck Call) :=
  [ ⟨"event_type", (·.params.eventType), .nonEmpty⟩,
    ⟨"message", (·.params.message), .nonEmpty⟩,
    ⟨"source_service", (·.logger.sourceService), .nonEmpty⟩ ]

def Call.checks : List (FieldCheck Call) := loggerChecks ++ builderChecks

/-- What the validators and the builder are given, under the names of their parameters. -/
def Call.arguments (c : Call) : Json.Record :=
  [ ("event_type".toList, .string c.params.eventType),
    ("severity".toList, .string c.params.severity.asStr),
    ("message".toList, .string c.params.message),
    ("details".toList, .string c.params.details),
    ("client_ip".toList, .string c.params.rawIp),
    ("origin".toList, .string c.params.origin),
    ("user_agent".toList, .string c.params.rawUserAgent),
    ("challenge_id".toList, .string c.params.challengeId),
    ("source_service".toList, .string c.logger.sourceService) ]

variable {C : Crypto} {c : Call} {e : AuditEvent} {err : AuditError} {hashed : Hashes}

theorem then_ok {x : Except AuditError Unit} : (x >>= fun _ => .ok ()) = x := by
  cases x <;> rfl

theorem then_assoc {α : Type} {x y : Except AuditError Unit} {z : Except AuditError α} :
    ((x >>= fun _ => y) >>= fun _ => z) = x >>= fun _ => y >>= fun _ => z := by
  cases x <;> rfl

theorem run_nil {α : Type} {a : α} : run [] a = .ok () := rfl

theorem validateFieldLengths_eq (e : AuditEvent) :
    e.validateFieldLengths = run AuditEvent.checks e := by
  simp only [AuditEvent.validateFieldLengths, AuditEvent.checks, run_cons, run_nil, then_ok,
    require_nonEmpty, require_atMost]

/-- The names are those of the fields in the message. -/
theorem name_of_check : ∀ k ∈ AuditEvent.checks, ∃ i : Nat,
    e.toRecord[i]? = some (k.name.toList, .string (k.part e)) := by
  simp only [AuditEvent.checks, List.forall_mem_cons]
  exact ⟨⟨0, rfl⟩, ⟨2, rfl⟩, ⟨3, rfl⟩, ⟨9, rfl⟩, ⟨22, rfl⟩, ⟨0, rfl⟩, ⟨2, rfl⟩, ⟨3, rfl⟩, ⟨9, rfl⟩,
    ⟨10, rfl⟩, ⟨11, rfl⟩, ⟨13, rfl⟩, ⟨14, rfl⟩, ⟨16, rfl⟩, ⟨18, rfl⟩, ⟨19, rfl⟩, ⟨21, rfl⟩, ⟨22, rfl⟩,
    ⟨5, rfl⟩, ⟨6, rfl⟩, ⟨7, rfl⟩, ⟨8, rfl⟩, by simp⟩

theorem field_of_check {k : FieldCheck AuditEvent} (hk : k ∈ AuditEvent.checks) :
    field e.toRecord k.name.toList = some (.string (k.part e)) := by
  obtain ⟨i, hi⟩ := name_of_check (e := e) k hk
  exact e.field_toRecord i hi

theorem Call.arguments_nodup (c : Call) : (c.arguments.map Prod.fst).Nodup := by
  change ["event_type".toList, "severity".toList, "message".toList, "details".toList,
    "client_ip".toList, "origin".toList, "user_agent".toList, "challenge_id".toList,
    "source_service".toList].Nodup
  decide

theorem argument_of_check {k : FieldCheck Call} (hk : k ∈ Call.checks) :
    field c.arguments k.name.toList = some (.string (k.part c)) := by
  have hmem : ∀ k ∈ Call.checks, (k.name.toList, Json.Scalar.string (k.part c)) ∈ c.arguments := by
    simp only [Call.checks, Call.loggerChecks, Call.builderChecks, List.forall_mem_append,
      List.forall_mem_cons]
    simp [Call.arguments]
  exact field_of_mem c.arguments_nodup (hmem k hk)

theorem run_loggerChecks : run Call.loggerChecks c =
    validateAppendFields c.params.eventType c.params.severity.asStr c.params.message
        (some c.params.details) >>= fun _ =>
      validateSecondaryFields c.params.rawIp c.params.origin c.params.rawUserAgent
        c.params.challengeId := by
  simp only [Call.loggerChecks, validateAppendFields, validateSecondaryFields, run_cons, run_nil,
    then_ok, then_assoc, require_nonEmpty, require_noTombstone, require_atMost]

theorem run_builderChecks : run Call.builderChecks c =
    requireNonEmpty "event_type" c.params.eventType >>= fun _ =>
      requireNonEmpty "message" c.params.message >>= fun _ =>
        requireNonEmpty "source_service" c.logger.sourceService := by
  simp only [Call.builderChecks, run_cons, run_nil, then_ok, require_nonEmpty]

theorem checked_iff : Call.Checked c.params ↔ run Call.loggerChecks c = .ok () := by
  rw [run_loggerChecks, check_then_ok_iff]
  rfl

theorem hasText_of_run (h : run Call.builderChecks c = .ok ()) : c.HasText := by
  simp only [run_builderChecks, check_then_ok_iff, requireNonEmpty_ok_iff] at h
  exact h.2

theorem prepare_of_error (C : Crypto) (h : run Call.loggerChecks c = .error err) :
    c.logger.prepare C c.params = .error err := by
  obtain ⟨rest, hprepare⟩ : ∃ rest, c.logger.prepare C c.params =
      (validateAppendFields c.params.eventType c.params.severity.asStr c.params.message
          (some c.params.details) >>= fun _ =>
        validateSecondaryFields c.params.rawIp c.params.origin c.params.rawUserAgent
          c.params.challengeId >>= fun _ => rest) := ⟨_, rfl⟩
  rw [hprepare, ← then_assoc, ← run_loggerChecks, h]
  rfl

theorem build_of_error (C : Crypto) (hashed : Hashes) (h : run Call.builderChecks c = .error err) :
    (c.logger.builder c.params hashed).build C c.host = .error err := by
  obtain ⟨rest, hbuild⟩ : ∃ rest, (c.logger.builder c.params hashed).build C c.host =
      (requireNonEmpty "event_type" c.params.eventType >>= fun _ =>
        requireNonEmpty "message" c.params.message >>= fun _ =>
          requireNonEmpty "source_service" c.logger.sourceService >>= fun _ => rest) := ⟨_, rfl⟩
  rw [run_builderChecks] at h
  simp only [← then_assoc] at h hbuild
  rw [hbuild, h]
  rfl

theorem rejected_of_error (C : Crypto) (h : run Call.checks c = .error err) :
    (c.result C).1 = .error err ∧ (c.result C).2.sink = [] := by
  rw [Call.checks, run_append] at h
  rw [Call.result, AuditLogger.logEvent]
  cases hlogger : run Call.loggerChecks c with
  | error e =>
    rw [hlogger] at h
    obtain rfl := Except.error.inj h
    rw [prepare_of_error C hlogger]
    exact ⟨rfl, rfl⟩
  | ok u =>
    rw [hlogger] at h
    obtain ⟨hashed, hprepare⟩ := Call.prepare_of_checked C (checked_iff.mpr hlogger)
    rw [hprepare]
    dsimp only
    rw [build_of_error C hashed h]
    exact ⟨rfl, rfl⟩

theorem rejected_iff : Call.Rejected C c ↔ ∃ err, run Call.checks c = .error err := by
  constructor
  · rintro ⟨⟨name, reason, herr⟩, hsink⟩
    cases hrun : run Call.checks c with
    | error err => exact ⟨err, rfl⟩
    | ok u =>
      exfalso
      rw [Call.checks, run_append, check_then_ok_iff] at hrun
      rcases Call.result_cases C c with ⟨hno, -⟩ | ⟨-, hno, -⟩ | ⟨-, -, -, reason, line, h⟩ |
        ⟨-, -, -, e, line, -, ⟨-, h⟩ | ⟨write, -, h⟩⟩
      · exact hno (checked_iff.mpr hrun.1)
      · exact hno (hasText_of_run hrun.2)
      · rw [h] at herr
        cases herr
      · rw [h] at herr
        cases herr
      · rw [h] at hsink
        cases hsink
  · rintro ⟨err, herr⟩
    obtain ⟨hresult, hsink⟩ := rejected_of_error C herr
    obtain ⟨before, k, after, -, -, -, rfl⟩ := FieldCheck.exists_of_error herr
    exact ⟨⟨_, _, hresult⟩, hsink⟩

/-- An error of the consumer, and one of a logger call that does not come to the sink, names the
first field that is at fault, with what is wrong with it, as the message or the parameter of the
validator is named; and while this field stays as it is, no change of the others helps. -/
theorem errors_blame (C : Crypto) :
    (∀ (e : AuditEvent) (err : AuditError), e.validateFieldLengths = .error err →
      ∃ before k after, AuditEvent.checks = before ++ k :: after ∧ (∀ d ∈ before, d.Passes e) ∧
        ¬ k.Passes e ∧ err = .fieldValidation k.name k.rule.reason ∧
        field e.toRecord k.name.toList = some (.string (k.part e)) ∧
        ∀ f : AuditEvent, field f.toRecord k.name.toList = field e.toRecord k.name.toList →
          f.validateFieldLengths ≠ .ok ()) ∧
    ∀ c : Call, Call.Rejected C c →
      ∃ before k after, Call.checks = before ++ k :: after ∧ (∀ d ∈ before, d.Passes c) ∧
        ¬ k.Passes c ∧ (c.result C).1 = .error (.fieldValidation k.name k.rule.reason) ∧
        field c.arguments k.name.toList = some (.string (k.part c)) ∧
        ∀ d : Call, field d.arguments k.name.toList = field c.arguments k.name.toList →
          Call.Rejected C d := by
  constructor
  · intro e err h
    rw [validateFieldLengths_eq] at h
    obtain ⟨before, k, after, hchecks, hbefore, hk, rfl⟩ := FieldCheck.exists_of_error h
    have hmem : k ∈ AuditEvent.checks := by simp [hchecks]
    refine ⟨before, k, after, hchecks, hbefore, hk, rfl, field_of_check hmem, fun f hf hok => ?_⟩
    rw [field_of_check hmem, field_of_check hmem, Option.some.injEq, Json.Scalar.string.injEq] at hf
    rw [validateFieldLengths_eq, FieldCheck.run_ok_iff] at hok
    have hpass := hok k hmem
    rw [FieldCheck.Passes, hf] at hpass
    exact hk hpass
  · intro c h
    obtain ⟨err, hrun⟩ := rejected_iff.mp h
    obtain ⟨before, k, after, hchecks, hbefore, hk, rfl⟩ := FieldCheck.exists_of_error hrun
    have hmem : k ∈ Call.checks := by simp [hchecks]
    refine ⟨before, k, after, hchecks, hbefore, hk, (rejected_of_error C hrun).1,
      argument_of_check hmem, fun d hd => ?_⟩
    rw [argument_of_check hmem, argument_of_check hmem, Option.some.injEq,
      Json.Scalar.string.injEq] at hd
    rw [rejected_iff]
    cases hd' : run Call.checks d with
    | error err => exact ⟨err, rfl⟩
    | ok u =>
      have hpass := FieldCheck.run_ok_iff.mp hd' k hmem
      rw [FieldCheck.Passes, hd] at hpass
      exact (hk hpass).elim

end ProviiAudit
