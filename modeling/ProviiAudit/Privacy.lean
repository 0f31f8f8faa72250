import ProviiAudit.Digest

/-! Keyed hashes of client data, with a domain tag for each kind of value. -/
namespace ProviiAudit

open Utf8 (Text asBytes)

def ipDomainTag : List UInt8 := asBytes "provii-ip-v0".toList

def uaDomainTag : List UInt8 := asBytes "provii-ua-v0".toList

def originDomainTag : List UInt8 := asBytes "provii-origin-v0".toList

def minSaltLength : Nat := 32

/-- The salt of a deployment. -/
structure PrivacyContext where
  salt : List UInt8
  long : minSaltLength ≤ salt.length
  nonzero : salt.all (· == 0) = false

def PrivacyContext.new (salt : List UInt8) : Except AuditError PrivacyContext :=
  if hlong : salt.length < minSaltLength then
    .error (.privacySaltTooShort minSaltLength salt.length)
  else if hzero : salt.all (· == 0) = true then .error .privacySaltAllZeros
  else .ok ⟨salt, Nat.le_of_not_lt hlong, by simpa using hzero⟩

/-- HMAC of the tag and the value under the salt; HMAC takes a key of any length. -/
def hashTagged (C : Crypto) (tag salt : List UInt8) (value : Text) : Except AuditError Text :=
  .ok (C.hex.encode (C.hmacSha256 salt (tag ++ asBytes value)).val)

def PrivacyContext.hashIp (C : Crypto) (ctx : PrivacyContext) (ip : Text) :
    Except AuditError Text :=
  hashTagged C ipDomainTag ctx.salt ip

def PrivacyContext.hashUserAgent (C : Crypto) (ctx : PrivacyContext) (ua : Text) :
    Except AuditError Text :=
  hashTagged C uaDomainTag ctx.salt ua

def PrivacyContext.hashOrigin (C : Crypto) (ctx : PrivacyContext) (origin : Text) :
    Except AuditError Text :=
  hashTagged C originDomainTag ctx.salt origin

end ProviiAudit
