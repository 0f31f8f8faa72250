import ProviiAudit.Builder
import ProviiAudit.Privacy

/-! The audit logger.

A call leaves two traces, the lines it writes to the console and the events it hands to the sink. -/
namespace ProviiAudit

open Utf8 (Text)

structure AuditParams where
  eventType : Text
  severity : Severity
  message : Text
  eventCategory : EventCategory
  outcome : Option Outcome
  rawIp : Text
  origin : Text
  rawUserAgent : Text
  challengeId : Text
  details : Text
  requestId : Text
  environment : Environment
  geoCountry : Text
  workerVersion : Text
  actorId : Text
  actorType : Option ActorType
  resourceType : Text
  resourceId : Text

def AuditParams.default : AuditParams where
  eventType := []
  severity := .info
  message := []
  eventCategory := .securityEvent
  outcome := none
  rawIp := []
  origin := []
  rawUserAgent := []
  challengeId := []
  details := []
  requestId := []
  environment := .production
  geoCountry := []
  workerVersion := []
  actorId := []
  actorType := none
  resourceType := []
  resourceId := []

/-- A sink is what its `write` returns. -/
structure AuditLogger where
  sink : Option (AuditEvent → Except AuditError Unit)
  privacy : PrivacyContext
  sourceService : Text

structure Trace where
  console : List Text
  sink : List AuditEvent

/-- `char::is_control`: the Unicode category Cc. -/
def isControl (c : Char) : Bool := c.toNat < 32 || (127 ≤ c.toNat && c.toNat ≤ 159)

def sanitiseForConsole (input : Text) : Text := input.map fun c => if isControl c then ' ' else c

/-- The hash of a value, and nothing for no value. -/
def hashUnlessEmpty (hash : Text → Except AuditError Text) (value : Text) :
    Except AuditError Text :=
  if value.isEmpty then .ok [] else hash value

/-- The first 16 bytes of a hash. -/
def hashPrefix (hashed : Text) : Text :=
  if hashed.isEmpty then ['-'] else (Utf8.getTo hashed 16).getD hashed

structure Hashes where
  ip : Text
  ua : Text
  origin : Text

/-- What happens before the console line. -/
def AuditLogger.prepare (C : Crypto) (logger : AuditLogger) (params : AuditParams) :
    Except AuditError Hashes := do
  validateAppendFields params.eventType params.severity.asStr params.message (some params.details)
  validateSecondaryFields params.rawIp params.origin params.rawUserAgent params.challengeId
  let hashedIp ← hashUnlessEmpty (logger.privacy.hashIp C) params.rawIp
  let hashedUa ← hashUnlessEmpty (logger.privacy.hashUserAgent C) params.rawUserAgent
  let hashedOrigin ← hashUnlessEmpty (logger.privacy.hashOrigin C) params.origin
  return ⟨hashedIp, hashedUa, hashedOrigin⟩

def AuditLogger.consoleLine (logger : AuditLogger) (params : AuditParams) (hashed : Hashes) :
    Text :=
  let safeChallenge :=
    if params.challengeId.isEmpty then ['-'] else sanitiseForConsole params.challengeId
  let safeOutcome := (params.outcome.map Outcome.asStr).getD ['-']
  "[AUDIT][".toList ++ logger.sourceService ++ "] ".toList ++ sanitiseForConsole params.eventType ++
    " severity=".toList ++ params.severity.asStr ++ " ip=".toList ++ hashPrefix hashed.ip ++
    " origin=".toList ++ hashPrefix hashed.origin ++ " challenge=".toList ++ safeChallenge ++
    " category=".toList ++ params.eventCategory.asStr ++ " outcome=".toList ++ safeOutcome

def AuditLogger.builder (logger : AuditLogger) (params : AuditParams) (hashed : Hashes) :
    AuditEventBuilder :=
  { AuditEventBuilder.new params.eventType params.severity params.message logger.sourceService with
    clientIpHash := hashed.ip
    origin := hashed.origin
    userAgentHash := hashed.ua
    challengeId := params.challengeId
    details := params.details
    requestId := params.requestId
    environment := params.environment
    geoCountry := params.geoCountry
    workerVersion := params.workerVersion
    eventCategory := some params.eventCategory
    actorId := params.actorId
    resourceType := params.resourceType
    resourceId := params.resourceId
    actorType := params.actorType
    outcome := params.outcome }

def AuditLogger.logEvent (C : Crypto) (host : Host) (logger : AuditLogger) (params : AuditParams) :
    Except AuditError Unit × Trace :=
  match logger.prepare C params with
  | .error e => (.error e, ⟨[], []⟩)
  | .ok hashed =>
    let line := logger.consoleLine params hashed
    match (logger.builder params hashed).build C host with
    | .error e => (.error e, ⟨[line], []⟩)
    | .ok event =>
      match logger.sink with
      | none => (.ok (), ⟨[line], []⟩)
      | some write => (write event, ⟨[line], [event]⟩)

variable {C : Crypto} {host : Host} {logger : AuditLogger} {params : AuditParams} {hashed : Hashes}
  {e : AuditEvent} {hash : Text → Except AuditError Text} {value hashedValue : Text}

/-- An event comes to the sink exactly when it was built and there is a sink. -/
theorem mem_logEvent_sink : e ∈ (logger.logEvent C host params).2.sink ↔
    logger.sink ≠ none ∧ ∃ hashed, logger.prepare C params = .ok hashed ∧
      (logger.builder params hashed).build C host = .ok e := by
  rw [AuditLogger.logEvent]
  cases logger.prepare C params with
  | error err => simp
  | ok hashed =>
    simp only [Except.ok.injEq, exists_eq_left']
    cases (logger.builder params hashed).build C host with
    | error err => simp
    | ok event =>
      cases logger.sink with
      | none => simp
      | some write => simp [eq_comm]

theorem hashTagged_length {tag salt : List UInt8}
    (h : hashTagged C tag salt value = .ok hashedValue) :
    byteLen hashedValue = 64 := by
  obtain rfl := Except.ok.inj h
  rw [byteLen, C.hex.encode_bytes, (C.hmacSha256 salt _).property]

theorem hashUnlessEmpty_le (hhash : ∀ {v h}, hash v = .ok h → byteLen h = 64)
    (h : hashUnlessEmpty hash value = .ok hashedValue) : byteLen hashedValue ≤ 64 := by
  rw [hashUnlessEmpty] at h
  split_ifs at h
  · obtain rfl := Except.ok.inj h
    simp [byteLen]
  · exact Nat.le_of_eq (hhash h)

/-- The console line is written once the fields are checked and the hashes are there. -/
theorem prepare_ok_iff : logger.prepare C params = .ok hashed ↔
    validateAppendFields params.eventType params.severity.asStr params.message
        (some params.details) = .ok () ∧
      validateSecondaryFields params.rawIp params.origin params.rawUserAgent params.challengeId =
        .ok () ∧
      hashUnlessEmpty (logger.privacy.hashIp C) params.rawIp = .ok hashed.ip ∧
      hashUnlessEmpty (logger.privacy.hashUserAgent C) params.rawUserAgent = .ok hashed.ua ∧
      hashUnlessEmpty (logger.privacy.hashOrigin C) params.origin = .ok hashed.origin := by
  simp only [AuditLogger.prepare, check_then_ok_iff, and_congr_right_iff]
  intro _ _
  constructor
  · intro h
    obtain ⟨ip, hip, h⟩ := bind_ok_iff.mp h
    obtain ⟨ua, hua, h⟩ := bind_ok_iff.mp h
    obtain ⟨origin, horigin, h⟩ := bind_ok_iff.mp h
    obtain rfl := Except.ok.inj h
    exact ⟨hip, hua, horigin⟩
  · rintro ⟨hip, hua, horigin⟩
    rw [hip, hua, horigin]
    rfl

/-- What holds when the console line is written. -/
theorem prepare_ok (h : logger.prepare C params = .ok hashed) :
    validateAppendFields params.eventType params.severity.asStr params.message
        (some params.details) = .ok () ∧
      validateSecondaryFields params.rawIp params.origin params.rawUserAgent params.challengeId =
        .ok () ∧
      byteLen hashed.ip ≤ 64 ∧ byteLen hashed.ua ≤ 64 ∧ byteLen hashed.origin ≤ 64 := by
  obtain ⟨hprimary, hsecondary, hip, hua, horigin⟩ := prepare_ok_iff.mp h
  exact ⟨hprimary, hsecondary, hashUnlessEmpty_le hashTagged_length hip,
    hashUnlessEmpty_le hashTagged_length hua, hashUnlessEmpty_le hashTagged_length horigin⟩

end ProviiAudit
