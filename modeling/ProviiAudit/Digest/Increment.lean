import ProviiAudit.Digest.Report

/-! Verification of a chain that grows. -/
namespace ProviiAudit

open Utf8 (Text)
open LinkedLog (Linked tip)

variable {C : Crypto} {hmacKey : List UInt8} {p : Text} {entries rest : List DigestEntry}
  {idx m n : Nat} {verdict : Except AuditError ChainVerification}

/-- Any verdict but success. -/
def Bad (verdict : Except AuditError ChainVerification) : Prop := ∀ n, verdict ≠ .ok (.valid n)

/-- A row that ends the loop ends it whatever comes behind. -/
theorem verifyEntries_append_of_bad (h : verifyEntries C hmacKey m idx p entries = verdict)
    (hbad : Bad verdict) : verifyEntries C hmacKey n idx p (entries ++ rest) = verdict := by
  induction entries generalizing idx p with
  | nil => exact (hbad m h.symm).elim
  | cons e entries ih =>
    rw [List.cons_append]
    by_cases hlink : e.previousHash = p
    · cases hhex : C.hex.decode e.digestSignature with
      | error err =>
        rw [verifyEntries_bad_hex hlink hhex] at h ⊢
        exact h
      | ok tag =>
        by_cases hsigned : Signed C hmacKey e
        · rw [verifyEntries_good ⟨hlink, hsigned⟩] at h ⊢
          exact ih h
        · rw [verifyEntries_bad_tag hhex hsigned] at h ⊢
          exact h
    · rw [verifyEntries_unlinked hlink] at h ⊢
      exact h

theorem verifyChain_append_of_bad (h : verifyChain C entries hmacKey = verdict)
    (hbad : Bad verdict) : verifyChain C (entries ++ rest) hmacKey = verdict := by
  cases entries with
  | nil => exact (hbad 0 h.symm).elim
  | cons e entries =>
    rw [verifyChain, List.isEmpty_cons, if_neg Bool.false_ne_true] at h
    rw [List.cons_append, verifyChain, List.isEmpty_cons, if_neg Bool.false_ne_true]
    cases hkey : validateDigestKey hmacKey with
    | error err =>
      rw [hkey] at h
      exact h
    | ok u =>
      rw [hkey] at h
      exact verifyEntries_append_of_bad h hbad

/-- The rows before are verified on their own. -/
theorem verifyChain_prefix_valid (h : verifyChain C (entries ++ rest) hmacKey = .ok (.valid n)) :
    verifyChain C entries hmacKey = .ok (.valid entries.length) := by
  cases hes : entries with
  | nil => rfl
  | cons e es =>
    rw [← hes]
    have hne : entries ≠ [] := by simp [hes]
    obtain ⟨-, hkey, hlink, hsigned⟩ := (verifyChain_valid_iff (by simp [hne])).mp h
    apply (verifyChain_valid_iff hne).mpr
    exact ⟨rfl, hkey, (LinkedLog.linked_append.mp hlink).1,
      fun e he => hsigned e (List.mem_append_left _ he)⟩

/-- One more row is verified by itself, against the row before it. -/
theorem verifyChain_snoc_iff (hkey : ValidKey hmacKey) {e : DigestEntry} :
    verifyChain C (entries ++ [e]) hmacKey = .ok (.valid (entries.length + 1)) ↔
      verifyChain C entries hmacKey = .ok (.valid entries.length) ∧
        Good C hmacKey (tip DigestEntry.batchHash digestGenesisHash entries) e := by
  have hlength : entries.length + 1 = (entries ++ [e]).length := by simp
  rw [hlength, verifyChain_valid_iff (by simp)]
  constructor
  · rintro ⟨-, -, hlink, hsigned⟩
    have hsplit := LinkedLog.linked_append.mp hlink
    refine ⟨?_, hsplit.2.1, hsigned e (by simp)⟩
    apply (verifyChain_signed_iff hkey fun x hx => hsigned x (by simp [hx])).mpr
    exact ⟨rfl, hsplit.1⟩
  · rintro ⟨hvalid, hlink, hsigned⟩
    refine ⟨rfl, hkey, ?_⟩
    cases hes : entries with
    | nil => simpa [Linked, hes, tip, hsigned] using hlink
    | cons x es =>
      rw [← hes]
      obtain ⟨-, -, hchain, hall⟩ := (verifyChain_valid_iff (by simp [hes])).mp hvalid
      refine ⟨LinkedLog.linked_append.mpr ⟨hchain, hlink, trivial⟩, fun y hy => ?_⟩
      rcases List.mem_append.mp hy with hy | hy
      · exact hall y hy
      · obtain rfl := List.mem_singleton.mp hy
        exact hsigned

end ProviiAudit
