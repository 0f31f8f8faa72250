import Mathlib.Data.List.Perm.Basic
import ProviiAudit.Lib.Framing
import ProviiAudit.Digest.Tamper

/-! What a batch hash says about the stored rows: their event ids, and nothing else. -/
namespace ProviiAudit

open Utf8 (Text asBytes decimal)

variable {C : Crypto} {ids ids' : List Text} {es fs : List AuditEvent}

instance : Std.Total byteLe := ⟨fun _ _ => le_total _ _⟩

instance : IsTrans Text byteLe := ⟨fun _ _ _ => le_trans⟩

theorem byteLe_antisymm {a b : Text} (hab : byteLe a b) (hba : byteLe b a) : a = b := by
  have h := le_antisymm hab hba
  have hinj : Function.Injective (List.map UInt8.toNat) :=
    List.map_injective_iff.mpr fun _ _ => UInt8.toNat_inj.mp
  exact Utf8.asBytes_injective (hinj h)

/-- Sorting forgets exactly the order. -/
theorem sorted_eq_iff : ids.insertionSort byteLe = ids'.insertionSort byteLe ↔ ids.Perm ids' := by
  constructor
  · intro h
    exact (List.perm_insertionSort byteLe ids).symm.trans
      (h ▸ List.perm_insertionSort byteLe ids')
  · intro h
    have hp : (ids.insertionSort byteLe).Perm (ids'.insertionSort byteLe) :=
      (List.perm_insertionSort byteLe ids).trans
        (h.trans (List.perm_insertionSort byteLe ids').symm)
    exact hp.eq_of_pairwise (fun a b _ _ => byteLe_antisymm)
      (List.pairwise_insertionSort byteLe ids) (List.pairwise_insertionSort byteLe ids')

def lengthHeader (n : Nat) : List UInt8 := asBytes (decimal n)

theorem lengthHeader_injective : Function.Injective lengthHeader :=
  Utf8.asBytes_injective.comp Utf8.decimal_injective

theorem colon_notMem_lengthHeader (n : Nat) : (58 : UInt8) ∉ lengthHeader n := by
  intro hm
  obtain ⟨c, hc, hv⟩ := Utf8.exists_of_mem_asBytes hm (by decide)
  have hd : c.isDigit := Nat.isDigit_of_mem_toDigits (by decide) (by decide) hc
  have hcolon : c = ':' := Char.toNat_inj.mp hv
  exact absurd (hcolon ▸ hd) (by decide)

theorem asBytes_batchPreimage (ids : List Text) : asBytes (batchPreimage ids) =
    Framing.frames lengthHeader 58 ((ids.insertionSort byteLe).map asBytes) := by
  have general : ∀ l : List Text, asBytes (l.flatMap fun id =>
      decimal (asBytes id).length ++ ':' :: id) =
        Framing.frames lengthHeader 58 (l.map asBytes) := by
    intro l
    induction l with
    | nil => rfl
    | cons id l ih =>
      have hcolon : String.utf8EncodeChar ':' = [58] := by decide
      simp only [List.flatMap_cons, Utf8.asBytes_append, ih, Framing.frames, List.map_cons,
        Framing.frame, lengthHeader, Utf8.asBytes_cons, hcolon, List.singleton_append]
  exact general _

/-- The hashed text determines the ids up to order. -/
theorem batchPreimage_eq_iff :
    asBytes (batchPreimage ids) = asBytes (batchPreimage ids') ↔ ids.Perm ids' := by
  rw [asBytes_batchPreimage, asBytes_batchPreimage,
    (Framing.frames_injective lengthHeader_injective colon_notMem_lengthHeader).eq_iff,
    (List.map_injective_iff.mpr Utf8.asBytes_injective).eq_iff, sorted_eq_iff]

theorem computeBatchHash_eq_iff
    (hsha : C.sha256 (asBytes (batchPreimage ids)) = C.sha256 (asBytes (batchPreimage ids')) →
      asBytes (batchPreimage ids) = asBytes (batchPreimage ids')) :
    computeBatchHash C ids = computeBatchHash C ids' ↔ ids.Perm ids' := by
  rw [← batchPreimage_eq_iff]
  constructor
  · intro h
    exact hsha (Subtype.ext (C.hex.encode_injective h))
  · intro h
    rw [computeBatchHash, computeBatchHash, h]

/-- Two lists of ids have one batch hash exactly when they hold the same ids equally often. SHA-256
is assumed not to collide on the two hashed texts. -/
theorem batch_hash_identifies_ids (C : Crypto) (a b : List Text)
    (hsha : C.sha256 (asBytes (batchPreimage a)) = C.sha256 (asBytes (batchPreimage b)) →
      asBytes (batchPreimage a) = asBytes (batchPreimage b)) :
    computeBatchHash C a = computeBatchHash C b ↔ b.Perm a :=
  (computeBatchHash_eq_iff hsha).trans (List.perm_comm)

theorem batch_hash_identifies_ids_sample :
    (computeBatchHash sampleCrypto ["e2".toList, "e1".toList, "e2".toList] =
        computeBatchHash sampleCrypto ["e2".toList, "e2".toList, "e1".toList] ↔
      ["e2".toList, "e2".toList, "e1".toList].Perm ["e2".toList, "e1".toList, "e2".toList]) ∧
    (computeBatchHash sampleCrypto ["e2".toList, "e1".toList, "e2".toList] =
        computeBatchHash sampleCrypto ["e1".toList, "e2".toList, "e1".toList] ↔
      ["e1".toList, "e2".toList, "e1".toList].Perm ["e2".toList, "e1".toList, "e2".toList]) :=
  ⟨batch_hash_identifies_ids sampleCrypto _ _ (by decide +kernel),
    batch_hash_identifies_ids sampleCrypto _ _ (by decide +kernel)⟩

/-- An absent enum is stored as the empty string, which no variant is. -/
theorem optionStr_injective {α : Type} {f : α → Text} (hf : Function.Injective f)
    (hne : ∀ x, f x ≠ []) : Function.Injective fun o : Option α => (o.map f).getD [] := by
  intro a b h
  cases a with
  | none =>
    cases b with
    | none => rfl
    | some y => exact (hne y h.symm).elim
  | some x =>
    cases b with
    | none => exact (hne x h).elim
    | some y => exact congrArg some (hf h)

theorem eventBindParams_injective : Function.Injective eventBindParams := by
  intro e f h
  have hcat := optionStr_injective EventCategory.asStr_injective (fun x => by cases x <;> decide)
  have hactor := optionStr_injective ActorType.asStr_injective (fun x => by cases x <;> decide)
  have hout := optionStr_injective Outcome.asStr_injective (fun x => by cases x <;> decide)
  simp only [eventBindParams, List.cons.injEq, and_true] at h
  obtain ⟨h1, h2, h3, h4, h5, h6, h7, h8, h9, h10, h11, h12, h13, h14, h15, h16, h17, h18, h19,
    h20, h21, h22, h23⟩ := h
  have h2 := UInt64.toNat_inj.mp (Utf8.decimal_injective h2)
  have h5 := Severity.asStr_injective h5
  have h13 := Environment.asStr_injective h13
  have h16 := hcat h16
  have h18 := hactor h18
  have h21 := hout h21
  cases e
  cases f
  simp_all

/-- The batch hash binds the rows of two lists exactly when the lists hold different ids, or the
same events. -/
theorem batch_hash_binds_rows_iff (C : Crypto) (es fs : List AuditEvent)
    (hsha : C.sha256 (asBytes (batchPreimage (es.map (·.eventId)))) =
        C.sha256 (asBytes (batchPreimage (fs.map (·.eventId)))) →
      asBytes (batchPreimage (es.map (·.eventId))) =
        asBytes (batchPreimage (fs.map (·.eventId)))) :
    (computeBatchHash C (es.map (·.eventId)) = computeBatchHash C (fs.map (·.eventId)) →
      (es.map eventBindParams).Perm (fs.map eventBindParams)) ↔
    ((es.map (·.eventId)).Perm (fs.map (·.eventId)) → es.Perm fs) := by
  rw [computeBatchHash_eq_iff hsha, List.map_perm_map_iff eventBindParams_injective]

def sampleEvent : AuditEvent where
  eventId := "e1".toList
  timestampMs := 1700000000000
  sourceService := "verifier".toList
  eventType := "USER_LOGIN".toList
  severity := .info
  clientIpHash := []
  origin := []
  userAgentHash := []
  challengeId := []
  message := "login accepted".toList
  details := "{}".toList
  requestId := []
  environment := .production
  workerVersion := []
  geoCountry := []
  eventCategory := none
  actorId := []
  actorType := none
  resourceType := []
  resourceId := []
  outcome := some .failure
  queueMessageId := []
  createdAt := []

def alteredEvent : AuditEvent := { sampleEvent with outcome := some .success }

/-- A batch of two events, the batch with one outcome changed, and one with another event. -/
def sampleBatch : List AuditEvent := [sampleEvent, { sampleEvent with eventId := "e2".toList }]

def alteredBatch : List AuditEvent := [{ sampleEvent with eventId := "e2".toList }, alteredEvent]

def otherBatch : List AuditEvent := [sampleEvent, { sampleEvent with eventId := "e3".toList }]

theorem batch_hash_binds_rows_iff_sample :
    ((computeBatchHash sampleCrypto (sampleBatch.map (·.eventId)) =
        computeBatchHash sampleCrypto (alteredBatch.map (·.eventId)) →
      (sampleBatch.map eventBindParams).Perm (alteredBatch.map eventBindParams)) ↔
    ((sampleBatch.map (·.eventId)).Perm (alteredBatch.map (·.eventId)) →
      sampleBatch.Perm alteredBatch)) ∧
    ((computeBatchHash sampleCrypto (sampleBatch.map (·.eventId)) =
        computeBatchHash sampleCrypto (otherBatch.map (·.eventId)) →
      (sampleBatch.map eventBindParams).Perm (otherBatch.map eventBindParams)) ↔
    ((sampleBatch.map (·.eventId)).Perm (otherBatch.map (·.eventId)) →
      sampleBatch.Perm otherBatch)) :=
  ⟨batch_hash_binds_rows_iff sampleCrypto sampleBatch alteredBatch (by decide +kernel),
    batch_hash_binds_rows_iff sampleCrypto sampleBatch otherBatch (by decide +kernel)⟩

/-- Turning a recorded failure into a success leaves every batch hash as it was. -/
theorem altered_outcome_keeps_batch_hash :
    (∀ C : Crypto, computeBatchHash C ([sampleEvent].map (·.eventId)) =
      computeBatchHash C ([alteredEvent].map (·.eventId))) ∧
    ¬ ([sampleEvent].map eventBindParams).Perm ([alteredEvent].map eventBindParams) :=
  ⟨fun _ => rfl, by decide⟩

end ProviiAudit
