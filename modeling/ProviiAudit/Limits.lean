import ProviiAudit.Digest.Tamper
import ProviiAudit.Logger

/-! Which events the logger sends that the consumer rejects. -/
namespace ProviiAudit

open Utf8 (Text)

variable {C : Crypto} {host : Host} {logger : AuditLogger} {params : AuditParams} {e : AuditEvent}

/-- The fields that only the consumer limits are within its limits. -/
def WithinLimits (logger : AuditLogger) (params : AuditParams) : Prop :=
  byteLen logger.sourceService ≤ 128 ∧ byteLen params.requestId ≤ 256 ∧
    byteLen params.workerVersion ≤ 128 ∧ byteLen params.geoCountry ≤ 8 ∧
      byteLen params.actorId ≤ 256 ∧ byteLen params.resourceType ≤ 128 ∧
        byteLen params.resourceId ≤ 256

/-- All other fields of an event that comes to the sink fit, however they were filled. -/
theorem fieldsFit_iff (C : Crypto) (host : Host) (logger : AuditLogger) (params : AuditParams)
    (e : AuditEvent) (he : e ∈ (logger.logEvent C host params).2.sink) :
    FieldsFit e ↔ WithinLimits logger params := by
  obtain ⟨-, hashed, hprepare, hbuild⟩ := mem_logEvent_sink.mp he
  obtain ⟨hprimary, hsecondary, hip, hua, horigin⟩ := prepare_ok hprepare
  obtain ⟨htype, -, htypeLen, -, -, -⟩ := validateAppendFields_ok_iff.mp hprimary
  obtain ⟨-, -, -, hchallenge⟩ := validateSecondaryFields_ok_iff.mp hsecondary
  obtain ⟨-, -, hservice, hid, heq⟩ := build_ok_iff.mp hbuild
  have hidLen := generateUuidV4_length hid
  have hcreated := isoTimestamp_length host.currentTimestampMs
  constructor
  · intro h
    rw [heq] at h
    exact ⟨h.sourceService_le, h.requestId_le, h.workerVersion_le, h.geoCountry_le, h.actorId_le,
      h.resourceType_le, h.resourceId_le⟩
  · rintro ⟨hserviceLen, hrequest, hversion, hcountry, hactor, hresource, hresourceId⟩
    have hidNe : e.eventId ≠ [] := by
      intro hnil
      simp [hnil, byteLen] at hidLen
    generalize isoTimestamp host.currentTimestampMs = createdAt at hcreated heq
    have hcreatedNe : createdAt ≠ [] := by
      rintro rfl
      simp at hcreated
    have hcreatedLen : byteLen createdAt ≤ 32 := by
      rw [byteLen, hcreated]
      decide
    rw [heq]
    exact ⟨hidNe, hservice, htype, hcreatedNe, hidLen.trans_le (by decide), hserviceLen, htypeLen,
      hrequest, hversion, hcountry, hactor, hresource, hresourceId, Nat.zero_le _, hcreatedLen,
      hip.trans (by decide), horigin.trans (by decide), hua.trans (by decide), hchallenge⟩

def zeroHost : Host := ⟨.ok ⟨List.replicate 16 0, rfl⟩, 0⟩

/-- A logger with a sink that takes everything, under the salt of a source test. -/
def sampleLogger : AuditLogger where
  sink := some fun _ => .ok ()
  privacy := ⟨Utf8.asBytes "test-salt-minimum-32-bytes-long!!".toList, by decide, by decide⟩
  sourceService := "svc".toList

/-- A country code of nine letters. -/
def sampleParams : AuditParams :=
  { AuditParams.default with
    eventType := "evt".toList
    message := "msg".toList
    geoCountry := "Australia".toList }

def sampleBuilt : AuditEvent where
  eventId := "00000000000040008000000000000000".toList
  timestampMs := 0
  sourceService := "svc".toList
  eventType := "evt".toList
  severity := .info
  clientIpHash := []
  origin := []
  userAgentHash := []
  challengeId := []
  message := "msg".toList
  details := []
  requestId := []
  environment := .production
  workerVersion := []
  geoCountry := "Australia".toList
  eventCategory := some .securityEvent
  actorId := []
  actorType := none
  resourceType := []
  resourceId := []
  outcome := none
  queueMessageId := []
  createdAt := "1970-01-01T00:00:00.000Z".toList

theorem fieldsFit_iff_sample : sampleBuilt ∈ (sampleLogger.logEvent sampleCrypto zeroHost
      sampleParams).2.sink ∧ (FieldsFit sampleBuilt ↔ WithinLimits sampleLogger sampleParams) := by
  have hsent : sampleBuilt ∈ (sampleLogger.logEvent sampleCrypto zeroHost sampleParams).2.sink := by
    decide +kernel
  exact ⟨hsent, fieldsFit_iff sampleCrypto zeroHost sampleLogger sampleParams sampleBuilt hsent⟩

/-- The producer limits the country code by nothing, the consumer by eight bytes. -/
theorem long_country_sent : ¬ ∀ (C : Crypto) (host : Host) (logger : AuditLogger)
    (params : AuditParams), ∀ e ∈ (logger.logEvent C host params).2.sink, FieldsFit e := by
  intro h
  have hsent : sampleBuilt ∈ (sampleLogger.logEvent sampleCrypto zeroHost sampleParams).2.sink := by
    decide +kernel
  exact absurd (h _ _ _ _ _ hsent).geoCountry_le (by decide)

end ProviiAudit
