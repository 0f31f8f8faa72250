import ProviiAudit.Digest.Tamper

/-! What a digest signature binds. -/
namespace ProviiAudit

open Utf8 (Text asBytes)

variable {C : Crypto} {hmacKey : List UInt8} {b p k b' p' k' : Text}

/-- The signed fields with the separators between them. -/
def signedText (batchHash previousHash keyId : Text) : Text :=
  batchHash ++ ['|'] ++ previousHash ++ ['|'] ++ keyId

theorem asBytes_signedText :
    asBytes (signedText b p k) = asBytes b ++ pipe ++ asBytes p ++ pipe ++ asBytes k := by
  have hpipe : String.utf8EncodeChar '|' = pipe := by decide
  simp [signedText, Utf8.asBytes_append, Utf8.asBytes_cons, hpipe]

/-- Two signatures under a valid key are equal when the tags are. -/
theorem computeDigestSignature_eq_iff (hk : ValidKey hmacKey) :
    computeDigestSignature C b p hmacKey k = computeDigestSignature C b' p' hmacKey k' ↔
      C.hmacSha256 hmacKey (asBytes (signedText b p k)) =
        C.hmacSha256 hmacKey (asBytes (signedText b' p' k')) := by
  rw [computeDigestSignature_ok hk, computeDigestSignature_ok hk, asBytes_signedText,
    asBytes_signedText, Except.ok.injEq]
  constructor
  · intro h
    exact Subtype.ext (C.hex.encode_injective h)
  · intro h
    rw [h]

/-- A signature binds its three fields exactly when none of them holds the separator. HMAC is
assumed not to collide on the two signed texts. -/
theorem signature_binds_iff (C : Crypto) (hmacKey : List UInt8) (b p k : Text)
    (hk : ValidKey hmacKey) :
    (∀ b' p' k', (C.hmacSha256 hmacKey (asBytes (signedText b' p' k')) =
          C.hmacSha256 hmacKey (asBytes (signedText b p k)) →
        asBytes (signedText b' p' k') = asBytes (signedText b p k)) →
      computeDigestSignature C b' p' hmacKey k' = computeDigestSignature C b p hmacKey k →
        b' = b ∧ p' = p ∧ k' = k) ↔ '|' ∉ b ∧ '|' ∉ p ∧ '|' ∉ k := by
  rw [← Framing.join_three_unique_iff]
  constructor
  · intro h b' p' k' heq
    have hbytes : asBytes (signedText b' p' k') = asBytes (signedText b p k) :=
      congrArg asBytes heq
    apply h b' p' k' fun _ => hbytes
    rw [computeDigestSignature_eq_iff hk, hbytes]
  · intro h b' p' k' hmac heq
    have htag := (computeDigestSignature_eq_iff hk).mp heq
    exact h b' p' k' (Utf8.asBytes_injective (hmac htag))

theorem validKey_sample : ValidKey sampleKey := validateDigestKey_ok_iff.mp (by decide)

theorem signature_binds_iff_sample :
    (∀ b' p' k', (sampleCrypto.hmacSha256 sampleKey (asBytes (signedText b' p' k')) =
          sampleCrypto.hmacSha256 sampleKey
            (asBytes (signedText "b".toList "p".toList "k".toList)) →
        asBytes (signedText b' p' k') =
          asBytes (signedText "b".toList "p".toList "k".toList)) →
      computeDigestSignature sampleCrypto b' p' sampleKey k' =
          computeDigestSignature sampleCrypto "b".toList "p".toList sampleKey "k".toList →
        b' = "b".toList ∧ p' = "p".toList ∧ k' = "k".toList) ↔
      '|' ∉ "b".toList ∧ '|' ∉ "p".toList ∧ '|' ∉ "k".toList :=
  signature_binds_iff sampleCrypto sampleKey "b".toList "p".toList "k".toList
    validKey_sample

/-- One signed text, with the first separator taken for the end of two different fields. -/
theorem signature_ambiguous : ¬ ∀ (C : Crypto) (hmacKey : List UInt8) (b p k b' p' k' : Text),
    ValidKey hmacKey →
    (C.hmacSha256 hmacKey (asBytes (signedText b' p' k')) =
        C.hmacSha256 hmacKey (asBytes (signedText b p k)) →
      asBytes (signedText b' p' k') = asBytes (signedText b p k)) →
    computeDigestSignature C b' p' hmacKey k' = computeDigestSignature C b p hmacKey k →
      b' = b ∧ p' = p ∧ k' = k := by
  intro h
  have htext : signedText "a".toList "b|c".toList "k".toList =
      signedText "a|b".toList "c".toList "k".toList := by decide
  have hsame := h sampleCrypto sampleKey "a|b".toList "c".toList "k".toList "a".toList "b|c".toList
    "k".toList validKey_sample (fun _ => congrArg asBytes htext)
    ((computeDigestSignature_eq_iff validKey_sample).mpr (by rw [htext]))
  exact absurd hsame.1 (by decide)

end ProviiAudit
