import ProviiAudit.Digest.Tamper
import ProviiAudit.Limits

/-! What the stored hashes of client data reveal when they are compared. -/
namespace ProviiAudit

open Utf8 (Text asBytes)

variable {C : Crypto} {host : Host} {logger : AuditLogger} {params : AuditParams} {e : AuditEvent}
  {ctx : PrivacyContext} {x y v w : Text}

/-- The fields of an event that hold a hash. -/
inductive HashedField
  | clientIp
  | userAgent
  | origin
  deriving DecidableEq, Repr

namespace HashedField

variable {k l : HashedField}

def tag : HashedField → List UInt8
  | clientIp => ipDomainTag
  | userAgent => uaDomainTag
  | origin => originDomainTag

/-- The value as the caller gives it. -/
def raw (params : AuditParams) : HashedField → Text
  | clientIp => params.rawIp
  | userAgent => params.rawUserAgent
  | origin => params.origin

/-- The value as the event holds it. -/
def stored (e : AuditEvent) : HashedField → Text
  | clientIp => e.clientIpHash
  | userAgent => e.userAgentHash
  | origin => e.origin

/-- The hash of a value of this kind. -/
def hash (C : Crypto) (ctx : PrivacyContext) : HashedField → Text → Except AuditError Text
  | clientIp => ctx.hashIp C
  | userAgent => ctx.hashUserAgent C
  | origin => ctx.hashOrigin C

/-- What HMAC is computed of. -/
def message (k : HashedField) (v : Text) : List UInt8 := k.tag ++ asBytes v

theorem hash_eq (ctx : PrivacyContext) (v : Text) :
    k.hash C ctx v = .ok (C.hex.encode (C.hmacSha256 ctx.salt (k.message v)).val) := by
  cases k <;> rfl

/-- The tags differ before any of them ends. -/
theorem tag_prefix : ∀ k l : HashedField, k ≠ l → k.tag.take 8 ≠ l.tag.take 8 := by
  intro k l h
  cases k <;> cases l <;> first | exact absurd rfl h | decide

theorem message_injective (h : k.message v = l.message w) : k = l ∧ v = w := by
  have htag : k = l := by
    by_contra hne
    apply tag_prefix k l hne
    have hlong : ∀ k : HashedField, 8 ≤ k.tag.length := by
      intro k
      cases k <;> decide
    have htake := congrArg (List.take 8) h
    rwa [message, message, List.take_append_of_le_length (hlong k),
      List.take_append_of_le_length (hlong l)] at htake
  subst htag
  exact ⟨rfl, Utf8.asBytes_injective (List.append_cancel_left h)⟩

/-- HMAC under the salt of the logger does not collide on the messages of two values. -/
def Distinct (C : Crypto) (ctx : PrivacyContext) (k : HashedField) (v : Text) (l : HashedField)
    (w : Text) : Prop :=
  C.hmacSha256 ctx.salt (k.message v) = C.hmacSha256 ctx.salt (l.message w) →
    k.message v = l.message w

theorem hash_eq_iff (h : Distinct C ctx k v l w) :
    k.hash C ctx v = l.hash C ctx w ↔ k = l ∧ v = w := by
  constructor
  · intro heq
    rw [hash_eq, hash_eq, Except.ok.injEq] at heq
    exact message_injective (h (Subtype.ext (C.hex.encode_injective heq)))
  · rintro ⟨rfl, rfl⟩
    rfl

/-- Each field holds the hash of its value, under the tag of its kind. -/
theorem stored_ok (he : e ∈ (logger.logEvent C host params).2.sink) (k : HashedField) :
    hashUnlessEmpty (k.hash C logger.privacy) (k.raw params) = .ok (k.stored e) := by
  obtain ⟨-, hashed, hprepare, hbuild⟩ := mem_logEvent_sink.mp he
  obtain ⟨-, -, -, -, heq⟩ := build_ok_iff.mp hbuild
  obtain ⟨-, -, hip, hua, horigin⟩ := prepare_ok_iff.mp hprepare
  generalize isoTimestamp host.currentTimestampMs = createdAt at heq
  rw [heq]
  cases k with
  | clientIp => exact hip
  | userAgent => exact hua
  | origin => exact horigin

theorem hashUnlessEmpty_nil_iff (h : hashUnlessEmpty (k.hash C ctx) v = .ok x) :
    x = [] ↔ v = [] := by
  rw [hashUnlessEmpty] at h
  split_ifs at h with hv
  · simp [← Except.ok.inj h, List.isEmpty_iff.mp hv]
  · rw [hash_eq, Except.ok.injEq] at h
    have hlen := C.hex.encode_length (C.hmacSha256 ctx.salt (k.message v)).val
    rw [h, (C.hmacSha256 ctx.salt (k.message v)).property] at hlen
    have hx : x ≠ [] := by
      rintro rfl
      simp at hlen
    simp_all

/-- Two stored values are equal when both hold no hash, or the hashes of one value of one kind. -/
theorem stored_eq_iff (hx : hashUnlessEmpty (k.hash C ctx) v = .ok x)
    (hy : hashUnlessEmpty (l.hash C ctx) w = .ok y) (h : Distinct C ctx k v l w) :
    x = y ↔ (v = [] ∧ w = []) ∨ (k = l ∧ v = w) := by
  have hv := hashUnlessEmpty_nil_iff hx
  have hw := hashUnlessEmpty_nil_iff hy
  by_cases hv0 : v = []
  · by_cases hw0 : w = []
    · simp_all
    · have hne : x ≠ y := fun heq => hw0 (hw.mp (heq ▸ hv.mpr hv0))
      have hvw : v ≠ w := fun heq => hw0 (heq ▸ hv0)
      simp [hne, hw0, hvw]
  · by_cases hw0 : w = []
    · have hne : x ≠ y := fun heq => hv0 (hv.mp (heq ▸ hw.mpr hw0))
      have hvw : v ≠ w := fun heq => hv0 (heq ▸ hw0)
      simp [hne, hv0, hvw]
    · rw [hashUnlessEmpty, if_neg (by simpa using hv0)] at hx
      rw [hashUnlessEmpty, if_neg (by simpa using hw0)] at hy
      have hxy : k.hash C ctx v = l.hash C ctx w ↔ x = y := by rw [hx, hy, Except.ok.injEq]
      simp [← hxy, hash_eq_iff h, hv0]

end HashedField

/-- Events correlate by equal values of one kind and by nothing else, as far as HMAC under the
salt of the logger does not collide. -/
theorem hashes_correlate (C : Crypto) (logger : AuditLogger) :
    (∀ (host host' : Host) (params params' : AuditParams) (e e' : AuditEvent) (k l : HashedField),
      e ∈ (logger.logEvent C host params).2.sink → e' ∈ (logger.logEvent C host' params').2.sink →
      HashedField.Distinct C logger.privacy k (k.raw params) l (l.raw params') →
      (k.stored e = l.stored e' ↔
        (k.raw params = [] ∧ l.raw params' = []) ∨ (k = l ∧ k.raw params = l.raw params'))) ∧
    ∀ (k l : HashedField) (v w : Text), k ≠ l → HashedField.Distinct C logger.privacy k v l w →
      k.hash C logger.privacy v ≠ l.hash C logger.privacy w := by
  constructor
  · intro host host' params params' e e' k l he he' hmac
    exact HashedField.stored_eq_iff (HashedField.stored_ok he k) (HashedField.stored_ok he' l) hmac
  · intro k l v w hne hmac heq
    exact hne ((HashedField.hash_eq_iff hmac).mp heq).1

/-- A call with a client address and a user agent. -/
def clientParams : AuditParams :=
  { AuditParams.default with
    eventType := "evt".toList
    message := "msg".toList
    rawIp := "203.0.113.7".toList
    rawUserAgent := "curl/8.5".toList }

def clientHmac (_ message : List UInt8) : Digest :=
  if message = HashedField.clientIp.message clientParams.rawIp then
    ⟨[225, 92, 189, 232, 4, 197, 209, 74, 177, 52, 245, 193, 118, 84, 73, 214, 253, 88, 158, 88, 68,
      72, 89, 0, 50, 88, 115, 139, 62, 126, 21, 247], rfl⟩
  else if message = HashedField.userAgent.message clientParams.rawUserAgent then
    ⟨[160, 136, 6, 5, 58, 28, 107, 133, 35, 12, 87, 250, 100, 231, 24, 211, 211, 180, 33, 115, 153,
      182, 250, 56, 132, 194, 176, 112, 243, 36, 17, 232], rfl⟩
  else if message = HashedField.origin.message "https://shop.example".toList then
    ⟨[154, 107, 231, 242, 184, 148, 121, 6, 118, 201, 212, 43, 62, 194, 249, 57, 81, 196, 87, 27,
      30, 37, 196, 50, 36, 8, 131, 138, 126, 83, 64, 216], rfl⟩
  else zeroDigest

/-- HMAC-SHA256 of the values under the salt of the logger. -/
def clientCrypto : Crypto := ⟨sampleSha256, clientHmac, Hex.lower⟩

def clientEvent : AuditEvent :=
  { sampleBuilt with
    clientIpHash := "e15cbde804c5d14ab134f5c1765449d6fd589e58444859003258738b3e7e15f7".toList
    userAgentHash := "a08806053a1c6b85230c57fa64e718d3d3b4217399b6fa3884c2b070f32411e8".toList
    geoCountry := [] }

theorem clientEvent_sent :
    clientEvent ∈ (sampleLogger.logEvent clientCrypto zeroHost clientParams).2.sink := by
  decide +kernel

theorem client_distinct : HashedField.Distinct clientCrypto sampleLogger.privacy .clientIp
    clientParams.rawIp .userAgent clientParams.rawUserAgent :=
  fun h => absurd h (by decide +kernel)

theorem hashes_correlate_sample : (clientEvent.clientIpHash = clientEvent.userAgentHash ↔
      (clientParams.rawIp = [] ∧ clientParams.rawUserAgent = []) ∨
        (HashedField.clientIp = .userAgent ∧ clientParams.rawIp = clientParams.rawUserAgent)) ∧
    HashedField.clientIp.hash clientCrypto sampleLogger.privacy clientParams.rawIp ≠
      HashedField.userAgent.hash clientCrypto sampleLogger.privacy clientParams.rawUserAgent :=
  ⟨(hashes_correlate clientCrypto sampleLogger).1 zeroHost zeroHost clientParams clientParams
      clientEvent clientEvent .clientIp .userAgent clientEvent_sent clientEvent_sent
      client_distinct,
    (hashes_correlate clientCrypto sampleLogger).2 .clientIp .userAgent clientParams.rawIp
      clientParams.rawUserAgent (by decide) client_distinct⟩

end ProviiAudit
