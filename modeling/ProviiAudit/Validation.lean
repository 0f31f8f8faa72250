import ProviiAudit.Error
import ProviiAudit.Event

/-! Field validation, by the producer before an event is built and by the consumer behind the
queue. -/
namespace ProviiAudit

open Utf8 (Text asBytes decimal)

/-- `str::len`. -/
def byteLen (s : Text) : Nat := (asBytes s).length

def maxFieldLength : Nat := 8192

def maxDetailsLength : Nat := 16384

def maxSeverityLength : Nat := 64

def maxEventTypeLength : Nat := 128

def maxMessageLength : Nat := 2048

def maxEventIdLength : Nat := 64

def maxSourceServiceLength : Nat := 128

def maxRequestIdLength : Nat := 256

def maxWorkerVersionLength : Nat := 128

def maxGeoCountryLength : Nat := 8

def maxActorIdLength : Nat := 256

def maxResourceTypeLength : Nat := 128

def maxResourceIdLength : Nat := 256

def maxQueueMessageIdLength : Nat := 256

def maxCreatedAtLength : Nat := 32

/-- `if value.is_empty() { return Err(..) }`. -/
def requireNonEmpty (field : String) (value : Text) : Except AuditError Unit :=
  if value.isEmpty then .error (.fieldValidation field "must not be empty".toList) else .ok ()

/-- `if value.len() > limit { return Err(..) }`. -/
def requireAtMost (field : String) (limit : Nat) (value : Text) : Except AuditError Unit :=
  if byteLen value > limit then
    .error (.fieldValidation field ("exceeds ".toList ++ decimal limit ++ " byte limit".toList))
  else .ok ()

def tombstonePrefix : Text := "[TOMBSTONE:".toList

def rejectTombstone (eventType : Text) : Except AuditError Unit :=
  if tombstonePrefix.isPrefixOf eventType then
    .error (.fieldValidation "event_type" "must not use reserved tombstone prefix".toList)
  else .ok ()

def validateAppendFields (eventType severity message : Text) (details : Option Text) :
    Except AuditError Unit := do
  requireNonEmpty "event_type" eventType
  rejectTombstone eventType
  requireAtMost "event_type" maxEventTypeLength eventType
  requireAtMost "severity" maxSeverityLength severity
  requireAtMost "message" maxMessageLength message
  match details with
  | some d => requireAtMost "details" maxDetailsLength d
  | none => .ok ()

def validateSecondaryFields (clientIp origin userAgent challengeId : Text) :
    Except AuditError Unit := do
  requireAtMost "client_ip" maxFieldLength clientIp
  requireAtMost "origin" maxFieldLength origin
  requireAtMost "user_agent" maxFieldLength userAgent
  requireAtMost "challenge_id" maxFieldLength challengeId

def AuditEvent.validateFieldLengths (event : AuditEvent) : Except AuditError Unit := do
  requireNonEmpty "event_id" event.eventId
  requireNonEmpty "source_service" event.sourceService
  requireNonEmpty "event_type" event.eventType
  requireNonEmpty "message" event.message
  requireNonEmpty "created_at" event.createdAt
  requireAtMost "event_id" maxEventIdLength event.eventId
  requireAtMost "source_service" maxSourceServiceLength event.sourceService
  requireAtMost "event_type" maxEventTypeLength event.eventType
  requireAtMost "message" maxMessageLength event.message
  requireAtMost "details" maxDetailsLength event.details
  requireAtMost "request_id" maxRequestIdLength event.requestId
  requireAtMost "worker_version" maxWorkerVersionLength event.workerVersion
  requireAtMost "geo_country" maxGeoCountryLength event.geoCountry
  requireAtMost "actor_id" maxActorIdLength event.actorId
  requireAtMost "resource_type" maxResourceTypeLength event.resourceType
  requireAtMost "resource_id" maxResourceIdLength event.resourceId
  requireAtMost "queue_message_id" maxQueueMessageIdLength event.queueMessageId
  requireAtMost "created_at" maxCreatedAtLength event.createdAt
  requireAtMost "client_ip_hash" maxFieldLength event.clientIpHash
  requireAtMost "origin" maxFieldLength event.origin
  requireAtMost "user_agent_hash" maxFieldLength event.userAgentHash
  requireAtMost "challenge_id" maxFieldLength event.challengeId

variable {field : String} {limit : Nat} {value s : Text} {e : AuditEvent}

@[simp] theorem requireNonEmpty_ok_iff : requireNonEmpty field value = .ok () ↔ value ≠ [] := by
  rw [requireNonEmpty]
  split <;> simp_all

@[simp] theorem requireAtMost_ok_iff : requireAtMost field limit value = .ok () ↔
    byteLen value ≤ limit := by
  rw [requireAtMost]
  split <;> simp_all

@[simp] theorem rejectTombstone_ok_iff : rejectTombstone value = .ok () ↔
    ¬ tombstonePrefix <+: value := by
  rw [rejectTombstone, ← List.isPrefixOf_iff_prefix]
  split <;> simp_all

theorem bind_ok_iff {α β : Type} {x : Except AuditError α} {f : α → Except AuditError β} {b : β} :
    (x >>= f) = .ok b ↔ ∃ a, x = .ok a ∧ f a = .ok b := by
  cases x <;> simp [bind, Except.bind]

/-- A check and the checks behind it. -/
@[simp] theorem check_then_ok_iff {α : Type} {x : Except AuditError Unit}
    {f : Unit → Except AuditError α} {a : α} :
    (x >>= f) = .ok a ↔ x = .ok () ∧ f () = .ok a :=
  bind_ok_iff.trans ⟨fun ⟨_, h⟩ => h, fun h => ⟨(), h⟩⟩

/-- Every error of the computation is of a kind. -/
def Fails {α : Type} (P : AuditError → Prop) (x : Except AuditError α) : Prop :=
  ∀ err, x = .error err → P err

section failures

variable {α β : Type} {P : AuditError → Prop} {x : Except AuditError α}
  {f : α → Except AuditError β}

theorem Fails.andThen (hx : Fails P x) (hf : ∀ a, Fails P (f a)) : Fails P (x >>= f) := by
  cases x with
  | error err =>
    intro err' h
    obtain rfl := Except.error.inj h
    exact hx err rfl
  | ok a => exact hf a

theorem fails_of_ok {a : α} (h : x = .ok a) : Fails P x := by
  intro err herr
  simp [h] at herr

theorem requireNonEmpty_fails
    (h : P (.fieldValidation field "must not be empty".toList)) :
    Fails P (requireNonEmpty field value) := by
  intro err herr
  rw [requireNonEmpty] at herr
  split_ifs at herr
  exact Except.error.inj herr ▸ h

theorem requireAtMost_fails
    (h : P (.fieldValidation field ("exceeds ".toList ++ decimal limit ++ " byte limit".toList))) :
    Fails P (requireAtMost field limit value) := by
  intro err herr
  rw [requireAtMost] at herr
  split_ifs at herr
  exact Except.error.inj herr ▸ h

theorem rejectTombstone_fails
    (h : P (.fieldValidation "event_type" "must not use reserved tombstone prefix".toList)) :
    Fails P (rejectTombstone value) := by
  intro err herr
  rw [rejectTombstone] at herr
  split_ifs at herr
  exact Except.error.inj herr ▸ h

end failures

theorem validateAppendFields_ok_iff {eventType severity message details : Text} :
    validateAppendFields eventType severity message (some details) = .ok () ↔
      eventType ≠ [] ∧ ¬ tombstonePrefix <+: eventType ∧ byteLen eventType ≤ 128 ∧
        byteLen severity ≤ 64 ∧ byteLen message ≤ 2048 ∧ byteLen details ≤ 16384 := by
  simp [validateAppendFields, maxEventTypeLength, maxSeverityLength, maxMessageLength,
    maxDetailsLength]

theorem validateSecondaryFields_ok_iff {clientIp origin userAgent challengeId : Text} :
    validateSecondaryFields clientIp origin userAgent challengeId = .ok () ↔
      byteLen clientIp ≤ 8192 ∧ byteLen origin ≤ 8192 ∧ byteLen userAgent ≤ 8192 ∧
        byteLen challengeId ≤ 8192 := by
  simp [validateSecondaryFields, maxFieldLength]

/-- What the consumer demands of the free text. -/
structure TextFits (message details : Text) : Prop where
  message_ne_nil : message ≠ []
  message_le : byteLen message ≤ 2048
  details_le : byteLen details ≤ 16384

/-- What the consumer demands of all other fields. -/
structure FieldsFit (e : AuditEvent) : Prop where
  eventId_ne_nil : e.eventId ≠ []
  sourceService_ne_nil : e.sourceService ≠ []
  eventType_ne_nil : e.eventType ≠ []
  createdAt_ne_nil : e.createdAt ≠ []
  eventId_le : byteLen e.eventId ≤ 64
  sourceService_le : byteLen e.sourceService ≤ 128
  eventType_le : byteLen e.eventType ≤ 128
  requestId_le : byteLen e.requestId ≤ 256
  workerVersion_le : byteLen e.workerVersion ≤ 128
  geoCountry_le : byteLen e.geoCountry ≤ 8
  actorId_le : byteLen e.actorId ≤ 256
  resourceType_le : byteLen e.resourceType ≤ 128
  resourceId_le : byteLen e.resourceId ≤ 256
  queueMessageId_le : byteLen e.queueMessageId ≤ 256
  createdAt_le : byteLen e.createdAt ≤ 32
  clientIpHash_le : byteLen e.clientIpHash ≤ 8192
  origin_le : byteLen e.origin ≤ 8192
  userAgentHash_le : byteLen e.userAgentHash ≤ 8192
  challengeId_le : byteLen e.challengeId ≤ 8192

/-- The consumer accepts exactly the events whose fields fit. -/
theorem validateFieldLengths_ok_iff :
    e.validateFieldLengths = .ok () ↔ FieldsFit e ∧ TextFits e.message e.details := by
  simp only [AuditEvent.validateFieldLengths, check_then_ok_iff, requireNonEmpty_ok_iff,
    requireAtMost_ok_iff]
  constructor
  · rintro ⟨h1, h2, h3, h4, h5, h6, h7, h8, h9, h10, h11, h12, h13, h14, h15, h16, h17, h18, h19,
      h20, h21, h22⟩
    exact ⟨⟨h1, h2, h3, h5, h6, h7, h8, h11, h12, h13, h14, h15, h16, h17, h18, h19, h20, h21, h22⟩,
      ⟨h4, h9, h10⟩⟩
  · rintro ⟨⟨h1, h2, h3, h5, h6, h7, h8, h11, h12, h13, h14, h15, h16, h17, h18, h19, h20, h21,
      h22⟩, ⟨h4, h9, h10⟩⟩
    exact ⟨h1, h2, h3, h4, h5, h6, h7, h8, h9, h10, h11, h12, h13, h14, h15, h16, h17, h18, h19,
      h20, h21, h22⟩

end ProviiAudit
