import ProviiAudit.Digest.Verify

/-! Chains as the consumer builds them, batch after batch. -/
namespace ProviiAudit

open Utf8 (Text asBytes)
open LinkedLog (Linked tip)

variable {C : Crypto} {hmacKey : List UInt8} {chain : List DigestEntry} {prev : Text}
  {batches : List (List Text × Text)}

/-- The digest row of one batch. -/
def signEntry (C : Crypto) (hmacKey : List UInt8) (prev : Text) (eventIds : List Text)
    (keyId : Text) : Except AuditError DigestEntry :=
  match computeDigestSignature C (computeBatchHash C eventIds) prev hmacKey keyId with
  | .error e => .error e
  | .ok signature => .ok ⟨computeBatchHash C eventIds, prev, signature, keyId⟩

/-- Batches of event ids, each with the key id stored in its row. -/
def buildChain (C : Crypto) (hmacKey : List UInt8) :
    Text → List (List Text × Text) → Except AuditError (List DigestEntry)
  | _, [] => .ok []
  | prev, (eventIds, keyId) :: rest =>
    match signEntry C hmacKey prev eventIds keyId with
    | .error e => .error e
    | .ok entry => (buildChain C hmacKey entry.batchHash rest).map (entry :: ·)

/-- The rows of one key's reign: every batch carries that key's id. -/
def buildWithKey (C : Crypto) (hmacKey : List UInt8) (prev : Text)
    (batches : List (List Text)) : Except AuditError (List DigestEntry) :=
  buildChain C hmacKey prev (batches.map fun ids => (ids, deriveKeyId C hmacKey))

theorem computeDigestSignature_ok (hk : ValidKey hmacKey) (b p k : Text) :
    computeDigestSignature C b p hmacKey k = .ok (C.hex.encode (C.hmacSha256 hmacKey
      (asBytes b ++ pipe ++ asBytes p ++ pipe ++ asBytes k)).val) := by
  rw [computeDigestSignature, validateDigestKey_ok_iff.mpr hk]

theorem computeDigestSignature_bad_key (hk : ¬ ValidKey hmacKey) (b p k : Text) :
    ∃ context, computeDigestSignature C b p hmacKey k = .error (.hmacKeyError context) := by
  obtain ⟨context, herr⟩ := validateDigestKey_error hk
  exact ⟨context, by rw [computeDigestSignature, herr]⟩

/-- Everything a produced row satisfies. -/
theorem signEntry_ok_iff {eventIds : List Text} {keyId : Text} {e : DigestEntry} :
    signEntry C hmacKey prev eventIds keyId = .ok e ↔
      ValidKey hmacKey ∧ e = ⟨computeBatchHash C eventIds, prev,
        C.hex.encode (C.hmacSha256 hmacKey e.signedBytes).val, keyId⟩ := by
  by_cases hk : ValidKey hmacKey
  · rw [signEntry, computeDigestSignature_ok hk]
    constructor
    · intro h
      cases h
      exact ⟨hk, rfl⟩
    · rintro ⟨-, he⟩
      have hb : e.signedBytes = asBytes (computeBatchHash C eventIds) ++ pipe ++
          asBytes prev ++ pipe ++ asBytes keyId := by rw [he, DigestEntry.signedBytes]
      rw [hb] at he
      rw [he]
  · obtain ⟨context, herr⟩ := computeDigestSignature_bad_key (C := C) hk
      (computeBatchHash C eventIds) prev keyId
    simp [signEntry, herr, hk]

theorem buildChain_cons_ok_iff {eventIds : List Text} {keyId : Text} :
    buildChain C hmacKey prev ((eventIds, keyId) :: batches) = .ok chain ↔
      ∃ e rest, chain = e :: rest ∧ signEntry C hmacKey prev eventIds keyId = .ok e ∧
        buildChain C hmacKey e.batchHash batches = .ok rest := by
  rw [buildChain]
  cases hs : signEntry C hmacKey prev eventIds keyId with
  | error err => simp
  | ok e =>
    cases hr : buildChain C hmacKey e.batchHash batches with
    | error err => simp [hr, Except.map]
    | ok rest => simp [hr, Except.map, eq_comm]

theorem buildChain_total (hk : ValidKey hmacKey) (prev : Text)
    (batches : List (List Text × Text)) :
    ∃ chain, buildChain C hmacKey prev batches = .ok chain := by
  induction batches generalizing prev with
  | nil => exact ⟨[], rfl⟩
  | cons b batches ih =>
    obtain ⟨rest, hrest⟩ := ih (computeBatchHash C b.1)
    refine ⟨_, buildChain_cons_ok_iff.mpr ⟨⟨computeBatchHash C b.1, prev, C.hex.encode
      (C.hmacSha256 hmacKey (asBytes (computeBatchHash C b.1) ++ pipe ++ asBytes prev ++ pipe ++
        asBytes b.2)).val, b.2⟩, rest, rfl, ?_, hrest⟩⟩
    exact signEntry_ok_iff.mpr ⟨hk, rfl⟩

/-- A built chain is linked and signed, and its rows follow the batches. -/
theorem buildChain_spec (h : buildChain C hmacKey prev batches = .ok chain) :
    Chained prev chain ∧ (∀ e ∈ chain, Signed C hmacKey e) ∧
      chain.map DigestEntry.batchHash = batches.map (fun b => computeBatchHash C b.1) ∧
      chain.map DigestEntry.keyId = batches.map Prod.snd := by
  induction batches generalizing prev chain with
  | nil =>
    cases h
    simp [Linked]
  | cons b batches ih =>
    obtain ⟨e, rest, rfl, he, hrest⟩ := buildChain_cons_ok_iff.mp h
    obtain ⟨hlink, hsigned, hhash, hid⟩ := ih hrest
    obtain ⟨-, he⟩ := signEntry_ok_iff.mp he
    have hprev : e.previousHash = prev := congrArg DigestEntry.previousHash he
    have hb : e.batchHash = computeBatchHash C b.1 := congrArg DigestEntry.batchHash he
    have hkid : e.keyId = b.2 := congrArg DigestEntry.keyId he
    have hsig : Signed C hmacKey e := by
      rw [Signed, show e.digestSignature = _ from congrArg DigestEntry.digestSignature he]
      exact C.hex.decode_encode _
    refine ⟨⟨hprev, hlink⟩, ?_, by simp [hb, hhash], by simp [hkid, hid]⟩
    intro x hx
    rcases List.mem_cons.mp hx with rfl | hx
    · exact hsig
    · exact hsigned x hx

theorem buildChain_valid_key (h : buildChain C hmacKey prev batches = .ok chain)
    (hne : batches ≠ []) : ValidKey hmacKey := by
  cases batches with
  | nil => exact (hne rfl).elim
  | cons b batches =>
    obtain ⟨e, rest, -, he, -⟩ := buildChain_cons_ok_iff.mp h
    exact (signEntry_ok_iff.mp he).1

theorem buildChain_length (h : buildChain C hmacKey prev batches = .ok chain) :
    chain.length = batches.length := by
  simpa using congrArg List.length (buildChain_spec h).2.2.1

/-- Signing and verifying agree on every chain, and on every rejected key. -/
theorem built_chain_verifies (C : Crypto) (hmacKey : List UInt8) :
    (ValidKey hmacKey → ∀ batches : List (List Text × Text), ∃ chain,
      buildChain C hmacKey digestGenesisHash batches = .ok chain ∧
        verifyChain C chain hmacKey = .ok (.valid batches.length)) ∧
    (hmacKey.length < 32 ∨ (∀ b ∈ hmacKey, b = 0) →
      (∀ batchHash previousHash keyId : Text, ∃ context,
        computeDigestSignature C batchHash previousHash hmacKey keyId =
          .error (.hmacKeyError context)) ∧
      ∀ entries : List DigestEntry, entries ≠ [] → ∃ context,
        verifyChain C entries hmacKey = .error (.hmacKeyError context)) := by
  constructor
  · intro hk batches
    obtain ⟨chain, h⟩ := buildChain_total (C := C) hk digestGenesisHash batches
    obtain ⟨hlink, hsigned, -, -⟩ := buildChain_spec h
    refine ⟨chain, h, (verifyChain_signed_iff hk hsigned).mpr ⟨?_, hlink⟩⟩
    exact (buildChain_length h).symm
  · intro hbad
    have hk : ¬ ValidKey hmacKey := by
      rintro ⟨hlen, b, hb, hne⟩
      rcases hbad with hshort | hzero
      · simp only [minDigestKeyLength] at hlen
        omega
      · exact hne (hzero b hb)
    exact ⟨computeDigestSignature_bad_key hk, fun entries hne => verifyChain_bad_key hne hk⟩

/-- A batch hash is hexadecimal, so it is never the genesis text. -/
theorem computeBatchHash_ne_genesis (C : Crypto) (eventIds : List Text) :
    computeBatchHash C eventIds ≠ digestGenesisHash := by
  intro h
  have hp : 'p' ∉ computeBatchHash C eventIds := C.hex.notMem_encode (by decide) _
  exact hp (h ▸ by decide)

end ProviiAudit
