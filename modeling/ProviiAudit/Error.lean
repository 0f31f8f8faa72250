import ProviiAudit.Lib.Utf8

/-! Errors returned by audit operations. -/
namespace ProviiAudit

open Utf8 (Text)

inductive AuditError
  | hmacKeyError (context : Text)
  | privacySaltTooShort (minimum actual : Nat)
  | privacySaltAllZeros
  | serialisationError (context : Text)
  | fieldValidationError (field reason : Text)
  | validationError (context : Text)
  | queueError (context : Text)
  deriving DecidableEq, Repr

namespace AuditError

def hmacKey (context : Text) : AuditError := .hmacKeyError context

def fieldValidation (field : String) (reason : Text) : AuditError :=
  .fieldValidationError field.toList reason

end AuditError

end ProviiAudit
