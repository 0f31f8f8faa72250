import Mathlib.Data.List.Sort
import Mathlib.Data.List.Lex
import ProviiAudit.Lib.Hex
import ProviiAudit.Error
import ProviiAudit.Event

/-! The consumer's digest chain: batch hashes, signatures and chain verification.

SHA-256 and HMAC-SHA256 are parameters: functions to 32 bytes. -/
namespace ProviiAudit

open Utf8 (Text asBytes decimal)

/-- A SHA-256 digest or an HMAC-SHA256 tag. -/
abbrev Digest := { b : List UInt8 // b.length = 32 }

structure Crypto where
  sha256 : List UInt8 → Digest
  /-- Key, then message. A key of any length is accepted. -/
  hmacSha256 : List UInt8 → List UInt8 → Digest
  hex : Hex.Codec

def digestGenesisHash : Text :=
  ("provii-audit-digest-genesis-" ++
    "0000000000000000000000000000000000000000000000000000000000000000").toList

def minDigestKeyLength : Nat := 32

def validateDigestKey (hmacKey : List UInt8) : Except AuditError Unit :=
  if hmacKey.length < minDigestKeyLength then
    .error (.hmacKey ("digest HMAC key too short: expected at least ".toList ++
      decimal minDigestKeyLength ++ " bytes, got ".toList ++ decimal hmacKey.length))
  else if hmacKey.all (· == 0) then
    .error (.hmacKey "digest HMAC key must not be all zeros".toList)
  else .ok ()

/-- The order on `str`: byte values, lexicographically. -/
def byteLe (a b : Text) : Prop :=
  (asBytes a).map UInt8.toNat ≤ (asBytes b).map UInt8.toNat

instance : DecidableRel byteLe := fun _ _ => inferInstanceAs (Decidable (_ ≤ _))

/-- The text that is hashed: the sorted ids, each behind its byte length and a colon. -/
def batchPreimage (eventIds : List Text) : Text :=
  (eventIds.insertionSort byteLe).flatMap fun id => decimal (asBytes id).length ++ ':' :: id

def computeBatchHash (C : Crypto) (eventIds : List Text) : Text :=
  C.hex.encode (C.sha256 (asBytes (batchPreimage eventIds))).val

/-- The separator between signed fields, `b"|"`. -/
def pipe : List UInt8 := [124]

def computeDigestSignature (C : Crypto) (batchHash previousHash : Text)
    (hmacKey : List UInt8) (keyId : Text) : Except AuditError Text :=
  match validateDigestKey hmacKey with
  | .error e => .error e
  | .ok () => .ok (C.hex.encode (C.hmacSha256 hmacKey
      (asBytes batchHash ++ pipe ++ asBytes previousHash ++ pipe ++ asBytes keyId)).val)

def deriveKeyId (C : Crypto) (key : List UInt8) : Text :=
  let fullHex := C.hex.encode (C.sha256 key).val
  (Utf8.getTo fullHex 8).getD fullHex

structure DigestEntry where
  batchHash : Text
  previousHash : Text
  digestSignature : Text
  keyId : Text
  deriving DecidableEq, Repr

inductive ChainVerification
  | valid (entriesVerified : Nat)
  | invalid (firstMismatchIndex : Nat) (batchHash : Text)
  deriving DecidableEq, Repr

/-- The loop of `verifyChain`, from entry `idx` on; `entriesLen` is the whole slice's length. -/
def verifyEntries (C : Crypto) (hmacKey : List UInt8) (entriesLen : Nat) :
    Nat → Text → List DigestEntry → Except AuditError ChainVerification
  | _, _, [] => .ok (.valid entriesLen)
  | idx, expectedPrevious, entry :: rest =>
    if entry.previousHash ≠ expectedPrevious then .ok (.invalid idx entry.batchHash)
    else
      match C.hex.decode entry.digestSignature with
      | .error e => .error (.fieldValidation "digest_signature"
          ("invalid hex at chain index ".toList ++ decimal idx ++ ": ".toList ++ e))
      | .ok storedTag =>
        -- `verify_slice` compares length and bytes.
        if (C.hmacSha256 hmacKey (asBytes entry.batchHash ++ pipe ++
            asBytes entry.previousHash ++ pipe ++ asBytes entry.keyId)).val ≠ storedTag then
          .ok (.invalid idx entry.batchHash)
        else verifyEntries C hmacKey entriesLen (idx + 1) entry.batchHash rest

def verifyChain (C : Crypto) (entries : List DigestEntry) (hmacKey : List UInt8) :
    Except AuditError ChainVerification :=
  if entries.isEmpty then .ok (.valid 0)
  else
    match validateDigestKey hmacKey with
    | .error e => .error e
    | .ok () => verifyEntries C hmacKey entries.length 0 digestGenesisHash entries

def eventBindParams (event : AuditEvent) : List Text :=
  [ event.eventId,
    decimal event.timestampMs.toNat,
    event.sourceService,
    event.eventType,
    event.severity.asStr,
    event.clientIpHash,
    event.origin,
    event.userAgentHash,
    event.challengeId,
    event.message,
    event.details,
    event.requestId,
    event.environment.asStr,
    event.workerVersion,
    event.geoCountry,
    (event.eventCategory.map EventCategory.asStr).getD [],
    event.actorId,
    (event.actorType.map ActorType.asStr).getD [],
    event.resourceType,
    event.resourceId,
    (event.outcome.map Outcome.asStr).getD [],
    event.queueMessageId,
    event.createdAt ]

end ProviiAudit
