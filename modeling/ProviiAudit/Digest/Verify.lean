import ProviiAudit.Lib.LinkedLog
import ProviiAudit.Digest

/-! What chain verification accepts, read off its loop. -/
namespace ProviiAudit

open Utf8 (Text asBytes)
open LinkedLog (Linked)

variable {C : Crypto} {hmacKey : List UInt8} {entries : List DigestEntry} {idx m n : Nat}
  {expected : Text}

def ValidKey (hmacKey : List UInt8) : Prop :=
  minDigestKeyLength ≤ hmacKey.length ∧ ∃ b ∈ hmacKey, b ≠ 0

/-- The bytes a digest signature covers. -/
def DigestEntry.signedBytes (e : DigestEntry) : List UInt8 :=
  asBytes e.batchHash ++ pipe ++ asBytes e.previousHash ++ pipe ++ asBytes e.keyId

/-- The stored signature decodes to the tag of the entry's own bytes. -/
def Signed (C : Crypto) (hmacKey : List UInt8) (e : DigestEntry) : Prop :=
  C.hex.decode e.digestSignature = .ok (C.hmacSha256 hmacKey e.signedBytes).val

/-- Every entry's `previousHash` is the `batchHash` before it. -/
abbrev Chained (origin : Text) (entries : List DigestEntry) : Prop :=
  Linked DigestEntry.batchHash DigestEntry.previousHash origin entries

theorem validateDigestKey_ok_iff : validateDigestKey hmacKey = .ok () ↔ ValidKey hmacKey := by
  simp only [validateDigestKey, ValidKey]
  split
  · simp; omega
  · split
    · simp_all
      assumption
    · simp_all

theorem validateDigestKey_error (h : ¬ ValidKey hmacKey) :
    ∃ context, validateDigestKey hmacKey = .error (.hmacKeyError context) := by
  rw [← validateDigestKey_ok_iff] at h
  simp only [validateDigestKey] at h ⊢
  split
  · exact ⟨_, rfl⟩
  · split
    · exact ⟨_, rfl⟩
    · simp_all

/-- One iteration: linkage, then the hex, then the tag. -/
theorem verifyEntries_cons (e : DigestEntry) :
    verifyEntries C hmacKey n idx expected (e :: entries) =
      if e.previousHash ≠ expected then .ok (.invalid idx e.batchHash)
      else match C.hex.decode e.digestSignature with
        | .error err => .error (.fieldValidation "digest_signature"
            ("invalid hex at chain index ".toList ++ Utf8.decimal idx ++ ": ".toList ++ err))
        | .ok tag => if (C.hmacSha256 hmacKey e.signedBytes).val ≠ tag then
              .ok (.invalid idx e.batchHash)
            else verifyEntries C hmacKey n (idx + 1) e.batchHash entries := rfl

/-- The loop accepts exactly the linked lists of correctly signed entries. -/
theorem verifyEntries_valid_iff :
    verifyEntries C hmacKey n idx expected entries = .ok (.valid m) ↔
      m = n ∧ Chained expected entries ∧ ∀ e ∈ entries, Signed C hmacKey e := by
  induction entries generalizing idx expected with
  | nil => simp [verifyEntries, Linked, eq_comm]
  | cons e rest ih =>
    rw [verifyEntries_cons]
    by_cases hp : e.previousHash = expected
    · rw [if_neg (by simpa using hp)]
      cases hd : C.hex.decode e.digestSignature with
      | error err => simp [Signed, hd]
      | ok tag =>
        by_cases ht : (C.hmacSha256 hmacKey e.signedBytes).val = tag
        · dsimp only
          rw [if_neg (not_not_intro ht), ih]
          simp [Linked, hp, Signed, hd, ht]
        · dsimp only
          rw [if_pos ht]
          have hne : tag ≠ (C.hmacSha256 hmacKey e.signedBytes).val := fun he => ht he.symm
          simp [Signed, hd, hne]
    · simp [hp, Linked]

theorem verifyChain_valid_iff (hne : entries ≠ []) :
    verifyChain C entries hmacKey = .ok (.valid m) ↔
      m = entries.length ∧ ValidKey hmacKey ∧ Chained digestGenesisHash entries ∧
        ∀ e ∈ entries, Signed C hmacKey e := by
  rw [verifyChain, if_neg (by simpa using hne)]
  by_cases hk : ValidKey hmacKey
  · rw [validateDigestKey_ok_iff.mpr hk]
    simp [verifyEntries_valid_iff, hk]
  · obtain ⟨context, herr⟩ := validateDigestKey_error hk
    simp [herr, hk]

/-- Verification never runs on a bad key. -/
theorem verifyChain_bad_key (hne : entries ≠ []) (hk : ¬ ValidKey hmacKey) :
    ∃ context, verifyChain C entries hmacKey = .error (.hmacKeyError context) := by
  obtain ⟨context, herr⟩ := validateDigestKey_error hk
  exact ⟨context, by rw [verifyChain, if_neg (by simpa using hne), herr]⟩

/-- A correctly signed list with a good key is valid exactly when it is linked. -/
theorem verifyChain_signed_iff (hk : ValidKey hmacKey) (hs : ∀ e ∈ entries, Signed C hmacKey e) :
    verifyChain C entries hmacKey = .ok (.valid m) ↔
      m = entries.length ∧ Chained digestGenesisHash entries := by
  by_cases hne : entries = []
  · subst hne
    simp [verifyChain, Linked, eq_comm]
  · rw [verifyChain_valid_iff hne]
    exact ⟨fun h => ⟨h.1, h.2.2.1⟩, fun h => ⟨h.1, hk, h.2, hs⟩⟩

end ProviiAudit
