import ProviiAudit.Lib.Utf8

/-! The queue-oriented audit event and its classification enums. -/
namespace ProviiAudit

open Utf8 (Text)

inductive Severity
  | info | warning | error | critical
  deriving DecidableEq, Repr

def Severity.asStr : Severity → Text
  | .info => "info".toList
  | .warning => "warning".toList
  | .error => "error".toList
  | .critical => "critical".toList

inductive EventCategory
  | authentication | authorization | keyAccess | dataMutation | sessionLifecycle
  | credentialIssuance | verification | adminAction | externalCall | securityEvent
  deriving DecidableEq, Repr

def EventCategory.asStr : EventCategory → Text
  | .authentication => "AUTHENTICATION".toList
  | .authorization => "AUTHORIZATION".toList
  | .keyAccess => "KEY_ACCESS".toList
  | .dataMutation => "DATA_MUTATION".toList
  | .sessionLifecycle => "SESSION_LIFECYCLE".toList
  | .credentialIssuance => "CREDENTIAL_ISSUANCE".toList
  | .verification => "VERIFICATION".toList
  | .adminAction => "ADMIN_ACTION".toList
  | .externalCall => "EXTERNAL_CALL".toList
  | .securityEvent => "SECURITY_EVENT".toList

inductive Environment
  | production | sandbox
  deriving DecidableEq, Repr

def Environment.asStr : Environment → Text
  | .production => "production".toList
  | .sandbox => "sandbox".toList

inductive ActorType
  | user | service | apiKey | system
  deriving DecidableEq, Repr

def ActorType.asStr : ActorType → Text
  | .user => "user".toList
  | .service => "service".toList
  | .apiKey => "api_key".toList
  | .system => "system".toList

inductive Outcome
  | success | failure | denied | error
  deriving DecidableEq, Repr

def Outcome.asStr : Outcome → Text
  | .success => "success".toList
  | .failure => "failure".toList
  | .denied => "denied".toList
  | .error => "error".toList

structure AuditEvent where
  eventId : Text
  timestampMs : UInt64
  sourceService : Text
  eventType : Text
  severity : Severity
  clientIpHash : Text
  origin : Text
  userAgentHash : Text
  challengeId : Text
  message : Text
  details : Text
  requestId : Text
  environment : Environment
  workerVersion : Text
  geoCountry : Text
  eventCategory : Option EventCategory
  actorId : Text
  actorType : Option ActorType
  resourceType : Text
  resourceId : Text
  outcome : Option Outcome
  queueMessageId : Text
  createdAt : Text
  deriving DecidableEq, Repr

theorem Severity.asStr_injective : Function.Injective Severity.asStr := by
  intro a b
  cases a <;> cases b <;> decide

theorem Environment.asStr_injective : Function.Injective Environment.asStr := by
  intro a b
  cases a <;> cases b <;> decide

theorem EventCategory.asStr_injective : Function.Injective EventCategory.asStr := by
  intro a b
  cases a <;> cases b <;> decide

theorem ActorType.asStr_injective : Function.Injective ActorType.asStr := by
  intro a b
  cases a <;> cases b <;> decide

theorem Outcome.asStr_injective : Function.Injective Outcome.asStr := by
  intro a b
  cases a <;> cases b <;> decide

end ProviiAudit
