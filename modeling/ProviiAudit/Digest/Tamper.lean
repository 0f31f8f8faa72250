import ProviiAudit.Lib.Framing
import ProviiAudit.Digest.Honest

/-! What an edited digest table can still pass: only a prefix of the honest chain. -/
namespace ProviiAudit

open Utf8 (Text asBytes)
open LinkedLog (Linked tip)

variable {C : Crypto} {hmacKey : List UInt8} {batches : List (List Text)}
  {H E : List DigestEntry} {e h : DigestEntry}

/-- The fields a signature is to bind. -/
def DigestEntry.link (e : DigestEntry) : Text × Text × Text :=
  (e.batchHash, e.previousHash, e.keyId)

/-- A tag produced for an entry of `H` verifies for no other message. -/
def SymbolicMac (C : Crypto) (hmacKey : List UInt8) (H : List DigestEntry) : Prop :=
  ∀ h ∈ H, ∀ message, C.hmacSha256 hmacKey message = C.hmacSha256 hmacKey h.signedBytes →
    message = h.signedBytes

theorem pipe_notMem_asBytes {s : Text} (hs : '|' ∉ s) : (124 : UInt8) ∉ asBytes s := by
  intro hm
  obtain ⟨c, hc, hv⟩ := Utf8.exists_of_mem_asBytes hm (by decide)
  have : c = '|' := Char.toNat_inj.mp hv
  exact hs (this ▸ hc)

theorem pipe_notMem_batchHash (eventIds : List Text) : '|' ∉ computeBatchHash C eventIds :=
  C.hex.notMem_encode (by decide) _

theorem pipe_notMem_keyId : '|' ∉ deriveKeyId C hmacKey := by
  have hfull : '|' ∉ C.hex.encode (C.sha256 hmacKey).val := C.hex.notMem_encode (by decide) _
  simp only [deriveKeyId]
  cases hg : Utf8.getTo (C.hex.encode (C.sha256 hmacKey).val) 8 with
  | none => exact hfull
  | some s => exact fun hm => hfull (Utf8.mem_of_getTo hg hm)

theorem buildWithKey_spec {prev : Text} (hH : buildWithKey C hmacKey prev batches = .ok H) :
    Chained prev H ∧ (∀ h ∈ H, Signed C hmacKey h) ∧
      H.map DigestEntry.batchHash = batches.map (computeBatchHash C) ∧
      ∀ h ∈ H, h.keyId = deriveKeyId C hmacKey := by
  obtain ⟨hlink, hsigned, hhash, hid⟩ := buildChain_spec hH
  refine ⟨hlink, hsigned, by simpa [Function.comp_def] using hhash, ?_⟩
  intro h hh
  have hm : h.keyId ∈ H.map DigestEntry.keyId := List.mem_map_of_mem hh
  rw [hid] at hm
  simp only [List.map_map, List.mem_map, Function.comp_apply] at hm
  obtain ⟨_, -, heq⟩ := hm
  exact heq.symm

/-- No field of an honest row holds the separator. -/
theorem honest_pipe_free (hH : buildWithKey C hmacKey digestGenesisHash batches = .ok H)
    (hh : h ∈ H) : '|' ∉ h.batchHash ∧ '|' ∉ h.previousHash ∧ '|' ∉ h.keyId := by
  obtain ⟨hlink, -, hhash, hid⟩ := buildWithKey_spec hH
  have hash_free : ∀ x ∈ H, '|' ∉ x.batchHash := by
    intro x hx
    have hm : x.batchHash ∈ H.map DigestEntry.batchHash := List.mem_map_of_mem hx
    rw [hhash] at hm
    obtain ⟨ids, -, heq⟩ := List.mem_map.mp hm
    exact heq ▸ pipe_notMem_batchHash ids
  refine ⟨hash_free h hh, ?_, hid h hh ▸ pipe_notMem_keyId⟩
  have hm : h.previousHash ∈ digestGenesisHash :: H.map DigestEntry.batchHash := by
    rw [← hlink.map_prev]
    simp [List.mem_map_of_mem hh]
  rcases List.mem_cons.mp hm with heq | hm
  · exact heq ▸ by decide
  · obtain ⟨x, hx, heq⟩ := List.mem_map.mp hm
    exact heq ▸ hash_free x hx

/-- The signed bytes of an honest row split in one way, so they fix the fields. -/
theorem link_eq_of_signedBytes (hb : '|' ∉ h.batchHash) (hp : '|' ∉ h.previousHash)
    (hk : '|' ∉ h.keyId) (heq : e.signedBytes = h.signedBytes) : e.link = h.link := by
  obtain ⟨h1, h2, h3⟩ := Framing.join_three_inj (pipe_notMem_asBytes hb)
    (pipe_notMem_asBytes hp) (pipe_notMem_asBytes hk) heq
  simp [DigestEntry.link, Utf8.asBytes_injective h1, Utf8.asBytes_injective h2,
    Utf8.asBytes_injective h3]

/-- A row that verifies under a copied tag carries the fields of the row it was copied from. -/
theorem signed_copy_link (hH : buildWithKey C hmacKey digestGenesisHash batches = .ok H)
    (hmac : SymbolicMac C hmacKey H) (hs : Signed C hmacKey e) (hh : h ∈ H)
    (hc : C.hex.decode e.digestSignature = C.hex.decode h.digestSignature) :
    e.link = h.link := by
  have hsh : Signed C hmacKey h := (buildWithKey_spec hH).2.1 h hh
  rw [Signed] at hs hsh
  have htag : C.hmacSha256 hmacKey e.signedBytes = C.hmacSha256 hmacKey h.signedBytes := by
    rw [hs, hsh] at hc
    exact Subtype.ext (Except.ok.inj hc)
  obtain ⟨hb, hp, hk⟩ := honest_pipe_free hH hh
  exact link_eq_of_signedBytes hb hp hk (hmac h hh _ htag)

/-- The origin and the batch hashes of an honest chain are pairwise different. -/
theorem honest_ids_nodup (hH : buildWithKey C hmacKey digestGenesisHash batches = .ok H)
    (hdistinct : (batches.map (computeBatchHash C)).Nodup) :
    (digestGenesisHash :: H.map DigestEntry.batchHash).Nodup := by
  rw [(buildWithKey_spec hH).2.2.1]
  refine List.nodup_cons.mpr ⟨?_, hdistinct⟩
  intro hm
  obtain ⟨ids, -, heq⟩ := List.mem_map.mp hm
  exact computeBatchHash_ne_genesis C ids heq

/-- Whatever rows the table holds, with tags copied from the honest chain, verification
accepts only a prefix of that chain. -/
theorem accepted_chain_is_prefix (C : Crypto) (hmacKey : List UInt8)
    (batches : List (List Text)) (H E : List DigestEntry) (m : Nat)
    (hH : buildWithKey C hmacKey digestGenesisHash batches = .ok H)
    (hdistinct : (batches.map (computeBatchHash C)).Nodup)
    (hmac : SymbolicMac C hmacKey H)
    (hcopies : ∀ e ∈ E, ∃ h ∈ H, C.hex.decode e.digestSignature = C.hex.decode h.digestSignature)
    (hv : verifyChain C E hmacKey = .ok (.valid m)) :
    m = E.length ∧ E.length ≤ H.length ∧ ∀ i < m, ∃ e h, E[i]? = some e ∧ H[i]? = some h ∧
      e.batchHash = h.batchHash ∧ e.previousHash = h.previousHash ∧ e.keyId = h.keyId := by
  by_cases hne : E = []
  · subst hne
    simp only [verifyChain, List.isEmpty_nil, if_true, Except.ok.injEq,
      ChainVerification.valid.injEq] at hv
    subst hv
    simp
  · obtain ⟨hm, -, hlink, hsigned⟩ := (verifyChain_valid_iff hne).mp hv
    have hprefix : E.map DigestEntry.link <+: H.map DigestEntry.link := by
      have hHlink : LinkedLog.Linked Prod.fst (fun l => l.2.1) digestGenesisHash
          ([] ++ H.map DigestEntry.link) := LinkedLog.linked_map.mpr (buildWithKey_spec hH).1
      have hElink : LinkedLog.Linked Prod.fst (fun l => l.2.1) digestGenesisHash
          (E.map DigestEntry.link) := LinkedLog.linked_map.mpr hlink
      refine LinkedLog.prefix_of_members hHlink ?_ hElink ?_
      · simpa [Function.comp_def, DigestEntry.link] using honest_ids_nodup hH hdistinct
      · intro l hl
        obtain ⟨e, he, rfl⟩ := List.mem_map.mp hl
        obtain ⟨h, hh, hc⟩ := hcopies e he
        exact List.mem_map.mpr ⟨h, hh, (signed_copy_link hH hmac (hsigned e he) hh hc).symm⟩
    have hlen : E.length ≤ H.length := by simpa using hprefix.length_le
    refine ⟨hm, hlen, ?_⟩
    intro i hi
    have hE : i < E.length := hm ▸ hi
    have hHi : i < H.length := by omega
    have hget := hprefix.getElem (i := i) (by simpa using hE)
    simp only [List.getElem_map, DigestEntry.link, Prod.mk.injEq] at hget
    exact ⟨E[i], H[i], List.getElem?_eq_getElem hE, List.getElem?_eq_getElem hHi, hget⟩

/-- The key of a source test, for a chain of two one-event batches. -/
def sampleKey : List UInt8 := asBytes "single-entry-key-material-32byte".toList

/-- The key after a rotation. -/
def sampleNextKey : List UInt8 := List.replicate 32 7

/-- What the sample functions return off the messages of that chain. -/
def zeroDigest : Digest := ⟨List.replicate 32 0, rfl⟩

/-- SHA-256 of the texts and keys of the samples. -/
def sampleSha256 (x : List UInt8) : Digest :=
  if x = asBytes "2:e1".toList then
    ⟨[64, 182, 0, 200, 29, 101, 252, 22, 102, 196, 141, 84, 121, 99, 166, 171, 77, 255, 110, 22,
      79, 136, 126, 38, 226, 120, 38, 83, 8, 95, 22, 199], rfl⟩
  else if x = asBytes "2:e2".toList then
    ⟨[91, 63, 6, 209, 100, 244, 100, 219, 175, 226, 183, 237, 203, 111, 199, 20, 131, 90, 193, 56,
      243, 40, 63, 232, 221, 162, 130, 14, 75, 188, 76, 208], rfl⟩
  else if x = asBytes "2:e3".toList then
    ⟨[118, 70, 143, 190, 139, 163, 160, 171, 5, 240, 41, 41, 223, 244, 242, 126, 224, 170, 198,
      120, 169, 191, 110, 190, 148, 130, 235, 200, 13, 114, 27, 123], rfl⟩
  else if x = asBytes "2:e12:e2".toList then
    ⟨[41, 61, 128, 42, 193, 141, 210, 220, 170, 49, 5, 40, 220, 15, 130, 49, 199, 19, 165, 2, 6,
      138, 48, 216, 66, 173, 221, 157, 146, 187, 53, 232], rfl⟩
  else if x = asBytes "2:e12:e3".toList then
    ⟨[73, 103, 36, 225, 192, 0, 31, 126, 241, 14, 23, 254, 110, 88, 64, 107, 116, 98, 245, 222,
      18, 153, 29, 72, 126, 22, 154, 243, 223, 139, 19, 252], rfl⟩
  else if x = asBytes "2:e12:e12:e2".toList then
    ⟨[141, 157, 34, 121, 53, 42, 40, 134, 101, 69, 199, 85, 133, 140, 63, 47, 189, 206, 226, 1,
      131, 49, 240, 243, 120, 178, 104, 127, 193, 56, 238, 164], rfl⟩
  else if x = asBytes "2:e12:e22:e2".toList then
    ⟨[218, 199, 147, 173, 65, 167, 161, 48, 1, 165, 102, 242, 63, 200, 71, 111, 222, 132, 38, 61,
      149, 125, 235, 16, 23, 182, 158, 84, 129, 49, 24, 39], rfl⟩
  else if x = sampleKey then
    ⟨[48, 205, 16, 31, 203, 148, 131, 244, 128, 89, 153, 83, 195, 113, 224, 26, 176, 210, 128,
      188, 105, 72, 72, 217, 63, 160, 220, 131, 144, 249, 247, 242], rfl⟩
  else if x = sampleNextKey then
    ⟨[75, 176, 111, 142, 78, 58, 119, 21, 210, 1, 213, 115, 208, 170, 66, 55, 98, 229, 93, 171,
      214, 26, 44, 2, 39, 143, 165, 108, 198, 210, 148, 224], rfl⟩
  else zeroDigest

def sampleFirst : DigestEntry where
  batchHash := "40b600c81d65fc1666c48d547963a6ab4dff6e164f887e26e2782653085f16c7".toList
  previousHash := digestGenesisHash
  digestSignature := "fc352d1d80874b8580f91fc24ba466f46aea610bf86df00a4e5235ce62975ba3".toList
  keyId := "30cd101f".toList

def sampleSecond : DigestEntry where
  batchHash := "5b3f06d164f464dbafe2b7edcb6fc714835ac138f3283fe8dda2820e4bbc4cd0".toList
  previousHash := "40b600c81d65fc1666c48d547963a6ab4dff6e164f887e26e2782653085f16c7".toList
  digestSignature := "46ec0d263630a654f729cdf1ed82c4e45c6b6f519da9efd13a91d451d860a9fd".toList
  keyId := "30cd101f".toList

/-- The first row under the next key. -/
def sampleThird : DigestEntry where
  batchHash := "76468fbe8ba3a0ab05f02929dff4f27ee0aac678a9bf6ebe9482ebc80d721b7b".toList
  previousHash := "5b3f06d164f464dbafe2b7edcb6fc714835ac138f3283fe8dda2820e4bbc4cd0".toList
  digestSignature := "77a4d402f605057e47d5f31f41e90c030b6c8491d95869a1cb78777e1ac92267".toList
  keyId := "4bb06f8e".toList

/-- HMAC-SHA256 of the signed messages, each under its key. -/
def sampleHmac (key message : List UInt8) : Digest :=
  if key = sampleKey ∧ message = sampleFirst.signedBytes then
    ⟨[252, 53, 45, 29, 128, 135, 75, 133, 128, 249, 31, 194, 75, 164, 102, 244, 106, 234, 97, 11,
      248, 109, 240, 10, 78, 82, 53, 206, 98, 151, 91, 163], rfl⟩
  else if key = sampleKey ∧ message = sampleSecond.signedBytes then
    ⟨[70, 236, 13, 38, 54, 48, 166, 84, 247, 41, 205, 241, 237, 130, 196, 228, 92, 107, 111, 81,
      157, 169, 239, 209, 58, 145, 212, 81, 216, 96, 169, 253], rfl⟩
  else if key = sampleNextKey ∧ message = sampleThird.signedBytes then
    ⟨[119, 164, 212, 2, 246, 5, 5, 126, 71, 213, 243, 31, 65, 233, 12, 3, 11, 108, 132, 145, 217,
      88, 105, 161, 203, 120, 119, 126, 26, 201, 34, 103], rfl⟩
  else zeroDigest

def sampleCrypto : Crypto := ⟨sampleSha256, sampleHmac, Hex.lower⟩

theorem sampleMac_symbolic : SymbolicMac sampleCrypto sampleKey [sampleFirst, sampleSecond] := by
  have hne : sampleSecond.signedBytes ≠ sampleFirst.signedBytes := by decide +kernel
  have hkey : sampleKey ≠ sampleNextKey := by decide +kernel
  intro h hh message heq
  simp only [sampleCrypto, sampleHmac, true_and, hkey, false_and, if_false] at heq
  rcases List.mem_pair.mp hh with rfl | rfl
  · by_contra hm
    rw [if_neg hm, if_pos rfl] at heq
    split at heq <;> exact absurd heq (by decide)
  · by_contra hm
    rw [if_neg hm, if_neg hne, if_pos rfl] at heq
    split at heq <;> exact absurd heq (by decide)

theorem accepted_chain_is_prefix_sample : (1 : Nat) = [sampleFirst].length ∧
    [sampleFirst].length ≤ [sampleFirst, sampleSecond].length ∧
    ∀ i < 1, ∃ e h, [sampleFirst][i]? = some e ∧ [sampleFirst, sampleSecond][i]? = some h ∧
      e.batchHash = h.batchHash ∧ e.previousHash = h.previousHash ∧ e.keyId = h.keyId :=
  accepted_chain_is_prefix sampleCrypto sampleKey [["e1".toList], ["e2".toList]]
    [sampleFirst, sampleSecond] [sampleFirst] 1 (by decide +kernel) (by decide +kernel)
    sampleMac_symbolic (fun e he => ⟨e, by simp_all, rfl⟩) (by decide +kernel)

end ProviiAudit
