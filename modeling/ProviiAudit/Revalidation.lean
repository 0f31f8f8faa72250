import ProviiAudit.Growth

/-! What the consumer's validation says about the producer's. -/
namespace ProviiAudit

open Utf8 (Text)

variable {e : AuditEvent} {s value : Text} {field : String} {limit : Nat}

theorem severity_fits (severity : Severity) : byteLen severity.asStr ≤ 64 := by
  cases severity <;> decide

/-- The consumer does not look for the reserved prefix; in all else it is as strict as the
producer. -/
theorem revalidation_strict_iff (e : AuditEvent) (h : e.validateFieldLengths = .ok ()) :
    (validateAppendFields e.eventType e.severity.asStr e.message (some e.details) = .ok () ∧
      validateSecondaryFields e.clientIpHash e.origin e.userAgentHash e.challengeId = .ok ()) ↔
        ¬ tombstonePrefix <+: e.eventType := by
  obtain ⟨hfields, htext⟩ := validateFieldLengths_ok_iff.mp h
  rw [validateAppendFields_ok_iff, validateSecondaryFields_ok_iff]
  constructor
  · rintro ⟨⟨-, hprefix, -⟩, -⟩
    exact hprefix
  · intro hprefix
    exact ⟨⟨hfields.eventType_ne_nil, hprefix, hfields.eventType_le, severity_fits _,
      htext.message_le, htext.details_le⟩, hfields.clientIpHash_le, hfields.origin_le,
      hfields.userAgentHash_le, hfields.challengeId_le⟩

def sampleAccepted : AuditEvent := { sampleBuilt with geoCountry := "AU".toList }

/-- An event of the queue that passes itself off as erased. -/
def sampleErased : AuditEvent := { sampleAccepted with eventType := "[TOMBSTONE:X]".toList }

theorem revalidation_strict_iff_sample :
    (validateAppendFields sampleAccepted.eventType sampleAccepted.severity.asStr
        sampleAccepted.message (some sampleAccepted.details) = .ok () ∧
      validateSecondaryFields sampleAccepted.clientIpHash sampleAccepted.origin
        sampleAccepted.userAgentHash sampleAccepted.challengeId = .ok ()) ↔
        ¬ tombstonePrefix <+: sampleAccepted.eventType :=
  revalidation_strict_iff sampleAccepted (by decide)

theorem erased_accepted : ¬ ∀ e : AuditEvent, e.validateFieldLengths = .ok () →
    validateAppendFields e.eventType e.severity.asStr e.message (some e.details) = .ok () ∧
      validateSecondaryFields e.clientIpHash e.origin e.userAgentHash e.challengeId = .ok () := by
  intro h
  exact absurd (h sampleErased (by decide)).1 (by decide)

theorem stripPii_eq_nil_iff : stripPii s = [] ↔ s = [] := by
  constructor
  · intro h
    by_contra hs
    exact stripPii_ne_nil hs h
  · rintro rfl
    rfl

/-- What the consumer says about an empty field. -/
def emptyReason : Text := "must not be empty".toList

/-- A check that finds no empty field. -/
def Filled (x : Except AuditError Unit) : Prop :=
  Fails (fun err => ∀ field, err ≠ .fieldValidationError field emptyReason) x

/-- A field that is too long is reported by another reason. -/
theorem requireAtMost_filled : Filled (requireAtMost field limit value) := by
  apply requireAtMost_fails
  intro f h
  have hhead := congrArg List.head? (AuditError.fieldValidationError.inj h).2
  rw [List.append_assoc, List.head?_append_of_ne_nil _ (by decide)] at hhead
  exact absurd hhead (by decide)

theorem validateFieldLengths_filled (hid : e.eventId ≠ []) (hservice : e.sourceService ≠ [])
    (htype : e.eventType ≠ []) (hmessage : e.message ≠ []) (hcreated : e.createdAt ≠ []) :
    Filled e.validateFieldLengths := by
  rw [AuditEvent.validateFieldLengths]
  have hne : ∀ {field value}, value ≠ [] → Filled (requireNonEmpty field value) :=
    fun h => fails_of_ok (requireNonEmpty_ok_iff.mpr h)
  apply Fails.andThen (hne hid) fun _ => Fails.andThen (hne hservice) fun _ => ?_
  apply Fails.andThen (hne htype) fun _ => Fails.andThen (hne hmessage) fun _ => ?_
  apply Fails.andThen (hne hcreated) fun _ => ?_
  repeat apply Fails.andThen requireAtMost_filled fun _ => ?_
  exact requireAtMost_filled

theorem ne_nil_of_byteLen (h : 0 < byteLen s) : s ≠ [] := by
  rintro rfl
  exact absurd h (by decide)

/-- Sanitising empties no text, so every built event has its required fields. -/
theorem required_fields_filled : (∀ s, stripPii s = [] ↔ s = []) ∧
    ∀ (C : Crypto) (host : Host) (b : AuditEventBuilder) (e : AuditEvent), b.build C host = .ok e →
      e.eventId ≠ [] ∧ e.sourceService ≠ [] ∧ e.eventType ≠ [] ∧ e.message ≠ [] ∧
        e.createdAt ≠ [] ∧ Filled e.validateFieldLengths := by
  refine ⟨fun s => stripPii_eq_nil_iff, fun C host b e h => ?_⟩
  obtain ⟨htype, hmessage, hservice, hid, heq⟩ := build_ok_iff.mp h
  have hidLen := generateUuidV4_length hid
  have hidNe : e.eventId ≠ [] := ne_nil_of_byteLen (by omega)
  have hlen : byteLen (isoTimestamp host.currentTimestampMs) = 24 := isoTimestamp_length _
  generalize isoTimestamp host.currentTimestampMs = createdAt at hlen heq
  have hcreatedNe : createdAt ≠ [] := ne_nil_of_byteLen (by omega)
  have hstripped := stripPii_ne_nil hmessage
  generalize stripPii b.message = message at hstripped heq
  have hserviceNe : e.sourceService ≠ [] := heq ▸ hservice
  have htypeNe : e.eventType ≠ [] := heq ▸ htype
  have hmessageNe : e.message ≠ [] := heq ▸ hstripped
  have hcreatedNe : e.createdAt ≠ [] := heq ▸ hcreatedNe
  exact ⟨hidNe, hserviceNe, htypeNe, hmessageNe, hcreatedNe,
    validateFieldLengths_filled hidNe hserviceNe htypeNe hmessageNe hcreatedNe⟩

theorem required_fields_filled_sample : sampleBuilt.eventId ≠ [] ∧ sampleBuilt.sourceService ≠ [] ∧
    sampleBuilt.eventType ≠ [] ∧ sampleBuilt.message ≠ [] ∧ sampleBuilt.createdAt ≠ [] ∧
      Filled sampleBuilt.validateFieldLengths :=
  required_fields_filled.2 sampleCrypto zeroHost (sampleLogger.builder sampleParams ⟨[], [], []⟩)
    sampleBuilt (by decide +kernel)

end ProviiAudit
