import ProviiAudit.Lib.JsonObject
import ProviiAudit.Event

/-! The JSON of an event on the queue, as the derived encoders and decoders produce and read it. -/
namespace ProviiAudit

open Utf8 (Text)
open Json (Record Scalar)

/-- `rename_all = "snake_case"`: the derive macro renames the identifiers of the variants. -/
def snakeCase : Text → Text
  | [] => []
  | c :: t => c.toLower :: t.flatMap fun d => if d.isUpper then ['_', d.toLower] else [d.toLower]

/-- `rename_all = "SCREAMING_SNAKE_CASE"`. -/
def screamingSnakeCase (t : Text) : Text := (snakeCase t).map Char.toUpper

/-- The variants of an enum under their names on the wire. -/
structure UnitEnum (α : Type) where
  variants : List α
  name : α → Text
  complete : ∀ x, x ∈ variants
  name_injective : Function.Injective name
  name_ne_nil : ∀ x, name x ≠ []

def UnitEnum.serialize {α : Type} (E : UnitEnum α) (x : α) : Scalar := .string (E.name x)

def UnitEnum.fromName {α : Type} (E : UnitEnum α) (s : Text) : Option α :=
  E.variants.find? (E.name · == s)

def UnitEnum.deserialize {α : Type} (E : UnitEnum α) : Scalar → Option α
  | .string s => E.fromName s
  | _ => none

/-- `option_enum_as_string::serialize`. -/
def UnitEnum.serializeOption {α : Type} (E : UnitEnum α) : Option α → Scalar
  | none => .string []
  | some x => E.serialize x

/-- `option_enum_as_string::deserialize`. -/
def UnitEnum.deserializeOption {α : Type} (E : UnitEnum α) : Scalar → Option (Option α)
  | .string s => if s.isEmpty then some none else (E.fromName s).map some
  | _ => none

def Severity.ident : Severity → Text
  | .info => "Info".toList
  | .warning => "Warning".toList
  | .error => "Error".toList
  | .critical => "Critical".toList

def EventCategory.ident : EventCategory → Text
  | .authentication => "Authentication".toList
  | .authorization => "Authorization".toList
  | .keyAccess => "KeyAccess".toList
  | .dataMutation => "DataMutation".toList
  | .sessionLifecycle => "SessionLifecycle".toList
  | .credentialIssuance => "CredentialIssuance".toList
  | .verification => "Verification".toList
  | .adminAction => "AdminAction".toList
  | .externalCall => "ExternalCall".toList
  | .securityEvent => "SecurityEvent".toList

def Environment.ident : Environment → Text
  | .production => "Production".toList
  | .sandbox => "Sandbox".toList

def ActorType.ident : ActorType → Text
  | .user => "User".toList
  | .service => "Service".toList
  | .apiKey => "ApiKey".toList
  | .system => "System".toList

def Outcome.ident : Outcome → Text
  | .success => "Success".toList
  | .failure => "Failure".toList
  | .denied => "Denied".toList
  | .error => "Error".toList

/-- The derived name of a variant is the one `as_str` spells out. -/
theorem Severity.wire_eq (x : Severity) : snakeCase x.ident = x.asStr := by
  cases x <;> decide

theorem EventCategory.wire_eq (x : EventCategory) : screamingSnakeCase x.ident = x.asStr := by
  cases x <;> decide

theorem Environment.wire_eq (x : Environment) : snakeCase x.ident = x.asStr := by
  cases x <;> decide

theorem ActorType.wire_eq (x : ActorType) : snakeCase x.ident = x.asStr := by
  cases x <;> decide

theorem Outcome.wire_eq (x : Outcome) : snakeCase x.ident = x.asStr := by
  cases x <;> decide

def Severity.wire : UnitEnum Severity where
  variants := [.info, .warning, .error, .critical]
  name x := snakeCase x.ident
  complete x := by cases x <;> decide
  name_injective x y h := asStr_injective (by simpa only [wire_eq] using h)
  name_ne_nil x := by cases x <;> decide

def EventCategory.wire : UnitEnum EventCategory where
  variants := [.authentication, .authorization, .keyAccess, .dataMutation, .sessionLifecycle,
    .credentialIssuance, .verification, .adminAction, .externalCall, .securityEvent]
  name x := screamingSnakeCase x.ident
  complete x := by cases x <;> decide
  name_injective x y h := asStr_injective (by simpa only [wire_eq] using h)
  name_ne_nil x := by cases x <;> decide

def Environment.wire : UnitEnum Environment where
  variants := [.production, .sandbox]
  name x := snakeCase x.ident
  complete x := by cases x <;> decide
  name_injective x y h := asStr_injective (by simpa only [wire_eq] using h)
  name_ne_nil x := by cases x <;> decide

def ActorType.wire : UnitEnum ActorType where
  variants := [.user, .service, .apiKey, .system]
  name x := snakeCase x.ident
  complete x := by cases x <;> decide
  name_injective x y h := asStr_injective (by simpa only [wire_eq] using h)
  name_ne_nil x := by cases x <;> decide

def Outcome.wire : UnitEnum Outcome where
  variants := [.success, .failure, .denied, .error]
  name x := snakeCase x.ident
  complete x := by cases x <;> decide
  name_injective x y h := asStr_injective (by simpa only [wire_eq] using h)
  name_ne_nil x := by cases x <;> decide

def AuditEvent.fieldNames : List Text :=
  [ "event_id".toList, "timestamp_ms".toList, "source_service".toList, "event_type".toList,
    "severity".toList, "client_ip_hash".toList, "origin".toList, "user_agent_hash".toList,
    "challenge_id".toList, "message".toList, "details".toList, "request_id".toList,
    "environment".toList, "worker_version".toList, "geo_country".toList, "event_category".toList,
    "actor_id".toList, "actor_type".toList, "resource_type".toList, "resource_id".toList,
    "outcome".toList, "queue_message_id".toList, "created_at".toList ]

def AuditEvent.toRecord (event : AuditEvent) : Record :=
  [ ("event_id".toList, .string event.eventId),
    ("timestamp_ms".toList, .number event.timestampMs),
    ("source_service".toList, .string event.sourceService),
    ("event_type".toList, .string event.eventType),
    ("severity".toList, Severity.wire.serialize event.severity),
    ("client_ip_hash".toList, .string event.clientIpHash),
    ("origin".toList, .string event.origin),
    ("user_agent_hash".toList, .string event.userAgentHash),
    ("challenge_id".toList, .string event.challengeId),
    ("message".toList, .string event.message),
    ("details".toList, .string event.details),
    ("request_id".toList, .string event.requestId),
    ("environment".toList, Environment.wire.serialize event.environment),
    ("worker_version".toList, .string event.workerVersion),
    ("geo_country".toList, .string event.geoCountry),
    ("event_category".toList, EventCategory.wire.serializeOption event.eventCategory),
    ("actor_id".toList, .string event.actorId),
    ("actor_type".toList, ActorType.wire.serializeOption event.actorType),
    ("resource_type".toList, .string event.resourceType),
    ("resource_id".toList, .string event.resourceId),
    ("outcome".toList, Outcome.wire.serializeOption event.outcome),
    ("queue_message_id".toList, .string event.queueMessageId),
    ("created_at".toList, .string event.createdAt) ]

/-- The value of a field. A field that is missing or there twice is an error. -/
def field (r : Record) (name : Text) : Option Scalar :=
  match r.filter (·.1 == name) with
  | [m] => some m.2
  | _ => none

def asString : Scalar → Option Text
  | .string s => some s
  | _ => none

def asU64 : Scalar → Option UInt64
  | .number n => some n
  | _ => none

/-- Fields may come in any order; those of another name are skipped. -/
def AuditEvent.ofRecord (r : Record) : Option AuditEvent := do
  some {
    eventId := ← (field r "event_id".toList).bind asString
    timestampMs := ← (field r "timestamp_ms".toList).bind asU64
    sourceService := ← (field r "source_service".toList).bind asString
    eventType := ← (field r "event_type".toList).bind asString
    severity := ← (field r "severity".toList).bind Severity.wire.deserialize
    clientIpHash := ← (field r "client_ip_hash".toList).bind asString
    origin := ← (field r "origin".toList).bind asString
    userAgentHash := ← (field r "user_agent_hash".toList).bind asString
    challengeId := ← (field r "challenge_id".toList).bind asString
    message := ← (field r "message".toList).bind asString
    details := ← (field r "details".toList).bind asString
    requestId := ← (field r "request_id".toList).bind asString
    environment := ← (field r "environment".toList).bind Environment.wire.deserialize
    workerVersion := ← (field r "worker_version".toList).bind asString
    geoCountry := ← (field r "geo_country".toList).bind asString
    eventCategory := ← (field r "event_category".toList).bind EventCategory.wire.deserializeOption
    actorId := ← (field r "actor_id".toList).bind asString
    actorType := ← (field r "actor_type".toList).bind ActorType.wire.deserializeOption
    resourceType := ← (field r "resource_type".toList).bind asString
    resourceId := ← (field r "resource_id".toList).bind asString
    outcome := ← (field r "outcome".toList).bind Outcome.wire.deserializeOption
    queueMessageId := ← (field r "queue_message_id".toList).bind asString
    createdAt := ← (field r "created_at".toList).bind asString }

/-- `serde_json::to_string`. -/
def AuditEvent.toJson (J : Json.Codec) (event : AuditEvent) : Text := J.write event.toRecord

/-- `serde_json::from_str`. -/
def AuditEvent.fromJson (J : Json.Codec) (t : Text) : Option AuditEvent :=
  (J.read t).bind AuditEvent.ofRecord

variable {α : Type} {r : Record} {name : Text} {v : Scalar}

theorem UnitEnum.fromName_name (E : UnitEnum α) (x : α) : E.fromName (E.name x) = some x := by
  cases h : E.fromName (E.name x) with
  | none => simpa using List.find?_eq_none.mp h x (E.complete x)
  | some y =>
    have hy := List.find?_some h
    exact congrArg some (E.name_injective (by simpa using hy))

@[simp] theorem UnitEnum.deserialize_serialize (E : UnitEnum α) (x : α) :
    E.deserialize (E.serialize x) = some x := E.fromName_name x

@[simp] theorem UnitEnum.deserializeOption_serializeOption (E : UnitEnum α) (o : Option α) :
    E.deserializeOption (E.serializeOption o) = some o := by
  cases o with
  | none => rfl
  | some x =>
    have hne : (E.name x).isEmpty = false := by simpa using E.name_ne_nil x
    simp [serializeOption, serialize, deserializeOption, hne, E.fromName_name]

theorem field_of_mem (hr : (r.map Prod.fst).Nodup) (h : (name, v) ∈ r) :
    field r name = some v := by
  have hfilter : r.filter (·.1 == name) = [(name, v)] := by
    induction r with
    | nil => simp at h
    | cons m r ih =>
      rw [List.map_cons, List.nodup_cons] at hr
      rcases List.mem_cons.mp h with rfl | hmem
      · have hrest : r.filter (·.1 == name) = [] := by
          apply List.filter_eq_nil_iff.mpr
          intro x hx hname
          exact hr.1 (List.mem_map.mpr ⟨x, hx, by simpa using hname⟩)
        simp [hrest]
      · have hm : (m.1 == name) = false := by
          apply beq_eq_false_iff_ne.mpr
          intro hname
          exact hr.1 (List.mem_map.mpr ⟨_, hmem, hname.symm⟩)
        simp [hm, ih hr.2 hmem]
  simp [field, hfilter]

theorem AuditEvent.fieldNames_nodup : fieldNames.Nodup := by decide +kernel

/-- Every field is read back from its own place. -/
theorem AuditEvent.field_toRecord (event : AuditEvent) (i : Nat) {name : Text} {v : Scalar}
    (h : event.toRecord[i]? = some (name, v)) : field event.toRecord name = some v :=
  field_of_mem (r := event.toRecord) fieldNames_nodup (List.mem_of_getElem? h)

theorem AuditEvent.ofRecord_toRecord (event : AuditEvent) :
    ofRecord event.toRecord = some event := by
  have hfield := @field_toRecord event
  rw [ofRecord, hfield 0 rfl, hfield 1 rfl, hfield 2 rfl, hfield 3 rfl, hfield 4 rfl, hfield 5 rfl,
    hfield 6 rfl, hfield 7 rfl, hfield 8 rfl, hfield 9 rfl, hfield 10 rfl, hfield 11 rfl,
    hfield 12 rfl, hfield 13 rfl, hfield 14 rfl, hfield 15 rfl, hfield 16 rfl, hfield 17 rfl,
    hfield 18 rfl, hfield 19 rfl, hfield 20 rfl, hfield 21 rfl, hfield 22 rfl]
  simp [asString, asU64]

theorem AuditEvent.toRecord_scalars (event : AuditEvent) : ∀ m ∈ event.toRecord, m.2 ≠ .other := by
  have hoption : ∀ {α : Type} (E : UnitEnum α) (o : Option α), E.serializeOption o ≠ .other := by
    intro α E o
    cases o <;> simp [UnitEnum.serializeOption, UnitEnum.serialize]
  simp [toRecord, UnitEnum.serialize, hoption]

theorem AuditEvent.fromJson_toJson (J : Json.Codec) (event : AuditEvent) :
    fromJson J (event.toJson J) = some event := by
  rw [fromJson, toJson, J.read_write _ event.toRecord_scalars, Option.bind_some,
    ofRecord_toRecord]

end ProviiAudit
