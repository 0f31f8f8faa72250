import ProviiAudit.Digest
import ProviiAudit.Sanitize
import ProviiAudit.Timestamp
import ProviiAudit.Validation

/-! The builder of audit events. The bytes of the random generator and the clock are arguments. -/
namespace ProviiAudit

open Utf8 (Text asBytes)

/-- What a host gives to one call: sixteen random bytes or the failure to get them, and the
time. -/
structure Host where
  getrandom : Except Text { b : List UInt8 // b.length = 16 }
  currentTimestampMs : UInt64

structure AuditEventBuilder where
  eventType : Text
  severity : Severity
  message : Text
  sourceService : Text
  clientIpHash : Text
  origin : Text
  userAgentHash : Text
  challengeId : Text
  details : Text
  requestId : Text
  environment : Environment
  workerVersion : Text
  geoCountry : Text
  eventCategory : Option EventCategory
  actorId : Text
  actorType : Option ActorType
  resourceType : Text
  resourceId : Text
  outcome : Option Outcome

/-- The defaults; a setter is an update of one field. -/
def AuditEventBuilder.new (eventType : Text) (severity : Severity) (message sourceService : Text) :
    AuditEventBuilder where
  eventType := eventType
  severity := severity
  message := message
  sourceService := sourceService
  clientIpHash := []
  origin := []
  userAgentHash := []
  challengeId := []
  details := "{}".toList
  requestId := []
  environment := .production
  workerVersion := []
  geoCountry := []
  eventCategory := none
  actorId := []
  actorType := none
  resourceType := []
  resourceId := []
  outcome := none

/-- Version 4 in the high nibble of byte 6, variant 1 in the high bits of byte 8. -/
def uuidBytes (bytes : List UInt8) : List UInt8 :=
  (bytes.modify 6 fun b => b &&& 0x0f ||| 0x40).modify 8 fun b => b &&& 0x3f ||| 0x80

def generateUuidV4 (C : Crypto) (host : Host) : Except AuditError Text :=
  match host.getrandom with
  | .error e => .error (.validationError ("RNG failed: ".toList ++ e))
  | .ok bytes => .ok (C.hex.encode (uuidBytes bytes.val))

def AuditEventBuilder.build (C : Crypto) (host : Host) (b : AuditEventBuilder) :
    Except AuditError AuditEvent := do
  requireNonEmpty "event_type" b.eventType
  requireNonEmpty "message" b.message
  requireNonEmpty "source_service" b.sourceService
  let eventId ← generateUuidV4 C host
  return {
    eventId := eventId
    timestampMs := host.currentTimestampMs
    sourceService := b.sourceService
    eventType := b.eventType
    severity := b.severity
    clientIpHash := b.clientIpHash
    origin := b.origin
    userAgentHash := b.userAgentHash
    challengeId := b.challengeId
    message := stripPii b.message
    details := stripPii b.details
    requestId := b.requestId
    environment := b.environment
    workerVersion := b.workerVersion
    geoCountry := b.geoCountry
    eventCategory := b.eventCategory
    actorId := b.actorId
    actorType := b.actorType
    resourceType := b.resourceType
    resourceId := b.resourceId
    outcome := b.outcome
    queueMessageId := []
    createdAt := isoTimestamp host.currentTimestampMs }

variable {C : Crypto} {host : Host} {b : AuditEventBuilder} {e : AuditEvent} {id : Text}

/-- An id has 32 hexadecimal digits. -/
theorem generateUuidV4_length (h : generateUuidV4 C host = .ok id) : byteLen id = 32 := by
  rw [generateUuidV4] at h
  split at h
  · simp at h
  · rename_i bytes _
    obtain rfl := Except.ok.inj h
    rw [byteLen, C.hex.encode_bytes]
    simp [uuidBytes, bytes.property]

/-- Everything a built event satisfies. -/
theorem build_ok_iff : b.build C host = .ok e ↔
    b.eventType ≠ [] ∧ b.message ≠ [] ∧ b.sourceService ≠ [] ∧
      generateUuidV4 C host = .ok e.eventId ∧
      e = { eventId := e.eventId, timestampMs := host.currentTimestampMs,
            sourceService := b.sourceService, eventType := b.eventType, severity := b.severity,
            clientIpHash := b.clientIpHash, origin := b.origin, userAgentHash := b.userAgentHash,
            challengeId := b.challengeId, message := stripPii b.message,
            details := stripPii b.details, requestId := b.requestId, environment := b.environment,
            workerVersion := b.workerVersion, geoCountry := b.geoCountry,
            eventCategory := b.eventCategory, actorId := b.actorId, actorType := b.actorType,
            resourceType := b.resourceType, resourceId := b.resourceId, outcome := b.outcome,
            queueMessageId := [], createdAt := isoTimestamp host.currentTimestampMs } := by
  simp only [AuditEventBuilder.build, check_then_ok_iff, requireNonEmpty_ok_iff]
  simp only [bind_ok_iff, and_congr_right_iff]
  intro _ _ _
  constructor
  · rintro ⟨id, hid, h⟩
    obtain rfl := Except.ok.inj h
    exact ⟨hid, rfl⟩
  · rintro ⟨hid, he⟩
    exact ⟨e.eventId, hid, congrArg Except.ok he.symm⟩

/-- The free text is sanitised. -/
theorem build_text (h : b.build C host = .ok e) :
    b.message ≠ [] ∧ e.message = stripPii b.message ∧ e.details = stripPii b.details := by
  obtain ⟨-, hne, -, -, heq⟩ := build_ok_iff.mp h
  generalize isoTimestamp host.currentTimestampMs = createdAt at heq
  refine ⟨hne, ?_, ?_⟩
  · rw [heq]
  · rw [heq]

/-- When the required fields are there, only the random bytes can be missing. -/
theorem build_bind (htype : b.eventType ≠ []) (hmessage : b.message ≠ [])
    (hservice : b.sourceService ≠ []) : ∃ make : Text → AuditEvent,
      b.build C host = generateUuidV4 C host >>= fun id => .ok (make id) := by
  have h1 : requireNonEmpty "event_type" b.eventType = .ok () := requireNonEmpty_ok_iff.mpr htype
  have h2 : requireNonEmpty "message" b.message = .ok () := requireNonEmpty_ok_iff.mpr hmessage
  have h3 : requireNonEmpty "source_service" b.sourceService = .ok () :=
    requireNonEmpty_ok_iff.mpr hservice
  rw [AuditEventBuilder.build, h1, h2, h3]
  exact ⟨_, rfl⟩

theorem exists_build (htype : b.eventType ≠ []) (hmessage : b.message ≠ [])
    (hservice : b.sourceService ≠ []) (hid : generateUuidV4 C host = .ok id) :
    ∃ e, b.build C host = .ok e := by
  obtain ⟨make, hbuild⟩ : ∃ make : Text → AuditEvent,
      b.build C host = generateUuidV4 C host >>= fun id => .ok (make id) :=
    build_bind htype hmessage hservice
  rw [hbuild, hid]
  exact ⟨_, rfl⟩

end ProviiAudit
