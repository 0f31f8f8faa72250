import ProviiAudit.Digest.Tamper

/-! Which row verification reports: the first that is not linked to its predecessor or not
signed. -/
namespace ProviiAudit

open Utf8 (Text decimal)
open LinkedLog (Linked tip)

variable {C : Crypto} {hmacKey : List UInt8} {batches : List (List Text)} {origin p : Text}
  {H entries rest : List DigestEntry} {e h : DigestEntry} {idx i j n : Nat} {tag : List UInt8}

/-- The hash entry `i` has to name: that of the entry before it, or the origin. -/
def predecessor (origin : Text) (entries : List DigestEntry) : Nat → Text
  | 0 => origin
  | i + 1 => (entries[i]?).elim [] DigestEntry.batchHash

/-- The entry is linked to its predecessor and signed. -/
def Good (C : Crypto) (hmacKey : List UInt8) (previous : Text) (e : DigestEntry) : Prop :=
  e.previousHash = previous ∧ Signed C hmacKey e

/-- All entries before `i` are good. -/
def GoodBefore (C : Crypto) (hmacKey : List UInt8) (origin : Text) (entries : List DigestEntry)
    (i : Nat) : Prop :=
  ∀ j < i, ∀ e, entries[j]? = some e → Good C hmacKey (predecessor origin entries j) e

theorem predecessor_cons :
    predecessor origin (e :: rest) (i + 1) = predecessor e.batchHash rest i := by
  cases i <;> rfl

theorem verifyEntries_good (h : Good C hmacKey p e) :
    verifyEntries C hmacKey n idx p (e :: rest) =
      verifyEntries C hmacKey n (idx + 1) e.batchHash rest := by
  obtain ⟨hlink, hsigned⟩ := h
  rw [verifyEntries_cons, if_neg (not_not_intro hlink), hsigned]
  simp

theorem verifyEntries_unlinked (h : e.previousHash ≠ p) :
    verifyEntries C hmacKey n idx p (e :: rest) = .ok (.invalid idx e.batchHash) := by
  rw [verifyEntries_cons, if_pos h]

theorem verifyEntries_bad_hex {err : Text} (hlink : e.previousHash = p)
    (hhex : C.hex.decode e.digestSignature = .error err) :
    verifyEntries C hmacKey n idx p (e :: rest) = .error (.fieldValidation "digest_signature"
      ("invalid hex at chain index ".toList ++ decimal idx ++ ": ".toList ++ err)) := by
  rw [verifyEntries_cons, if_neg (not_not_intro hlink), hhex]

theorem verifyEntries_bad_tag (hhex : C.hex.decode e.digestSignature = .ok tag)
    (hsigned : ¬ Signed C hmacKey e) :
    verifyEntries C hmacKey n idx p (e :: rest) = .ok (.invalid idx e.batchHash) := by
  have htag : (C.hmacSha256 hmacKey e.signedBytes).val ≠ tag := by
    rintro rfl
    exact hsigned hhex
  by_cases hlink : e.previousHash = p
  · rw [verifyEntries_cons, if_neg (not_not_intro hlink), hhex]
    exact if_pos htag
  · exact verifyEntries_unlinked hlink

/-- The loop gets past good entries. -/
theorem verifyEntries_skip (h : GoodBefore C hmacKey origin entries i) (hi : i ≤ entries.length) :
    verifyEntries C hmacKey n idx origin entries =
      verifyEntries C hmacKey n (idx + i) (predecessor origin entries i) (entries.drop i) := by
  induction i generalizing idx origin entries with
  | zero => rfl
  | succ i ih =>
    cases entries with
    | nil => simp at hi
    | cons e rest =>
      have hrest : GoodBefore C hmacKey e.batchHash rest i := by
        intro j hj x hx
        have hgood := h (j + 1) (by omega) x hx
        rwa [predecessor_cons] at hgood
      have hfirst : Good C hmacKey origin e := h 0 (by omega) e rfl
      rw [verifyEntries_good hfirst, ih hrest (by simpa using hi), predecessor_cons,
        List.drop_succ_cons, Nat.add_right_comm, Nat.add_assoc]

theorem verifyChain_skip (hk : ValidKey hmacKey) (hi : entries[i]? = some e)
    (h : GoodBefore C hmacKey digestGenesisHash entries i) :
    verifyChain C entries hmacKey = verifyEntries C hmacKey entries.length i
      (predecessor digestGenesisHash entries i) (e :: entries.drop (i + 1)) := by
  obtain ⟨hlt, rfl⟩ := List.getElem?_eq_some_iff.mp hi
  have hne : entries ≠ [] := List.ne_nil_of_length_pos (by omega)
  rw [verifyChain, if_neg (by simpa using hne), validateDigestKey_ok_iff.mpr hk]
  dsimp only
  rw [verifyEntries_skip h (by omega), Nat.zero_add, List.drop_eq_getElem_cons hlt]

theorem verifyEntries_no_key_error (context : Text) :
    verifyEntries C hmacKey n idx p entries ≠ .error (.hmacKeyError context) := by
  induction entries generalizing idx p with
  | nil => simp [verifyEntries]
  | cons e rest ih =>
    by_cases hlink : e.previousHash = p
    · cases hhex : C.hex.decode e.digestSignature with
      | error err => simp [verifyEntries_bad_hex hlink hhex, AuditError.fieldValidation]
      | ok tag =>
        by_cases hsigned : Signed C hmacKey e
        · rw [verifyEntries_good ⟨hlink, hsigned⟩]
          exact ih
        · simp [verifyEntries_bad_tag hhex hsigned]
    · simp [verifyEntries_unlinked hlink]

theorem verifyChain_no_key_error (hk : ValidKey hmacKey) (context : Text) :
    verifyChain C entries hmacKey ≠ .error (.hmacKeyError context) := by
  rw [verifyChain, validateDigestKey_ok_iff.mpr hk]
  split_ifs
  · simp
  · exact verifyEntries_no_key_error context

theorem not_validKey_iff :
    ¬ ValidKey hmacKey ↔ hmacKey.length < 32 ∨ ∀ b ∈ hmacKey, b = 0 := by
  rw [ValidKey, minDigestKeyLength, not_and_or, not_le]
  simp

/-- The result of verification, in every case. -/
theorem verifyChain_report (C : Crypto) (hmacKey : List UInt8) (entries : List DigestEntry) :
    (entries = [] → verifyChain C entries hmacKey = .ok (.valid 0)) ∧
    (entries ≠ [] →
      ((∃ context, verifyChain C entries hmacKey = .error (.hmacKeyError context)) ↔
        hmacKey.length < 32 ∨ ∀ b ∈ hmacKey, b = 0) ∧
      (¬ (hmacKey.length < 32 ∨ ∀ b ∈ hmacKey, b = 0) →
        (GoodBefore C hmacKey digestGenesisHash entries entries.length →
          verifyChain C entries hmacKey = .ok (.valid entries.length)) ∧
        ∀ i e, entries[i]? = some e → GoodBefore C hmacKey digestGenesisHash entries i →
          ¬ Good C hmacKey (predecessor digestGenesisHash entries i) e →
          ((∃ err, verifyChain C entries hmacKey = .error (.fieldValidation "digest_signature"
              ("invalid hex at chain index ".toList ++ decimal i ++ ": ".toList ++ err))) ↔
            e.previousHash = predecessor digestGenesisHash entries i ∧
              ∀ tag, C.hex.decode e.digestSignature ≠ .ok tag) ∧
          (¬ (e.previousHash = predecessor digestGenesisHash entries i ∧
              ∀ tag, C.hex.decode e.digestSignature ≠ .ok tag) →
            verifyChain C entries hmacKey = .ok (.invalid i e.batchHash)))) := by
  refine ⟨fun hnil => by rw [hnil]; rfl, fun hne => ⟨⟨?_, ?_⟩, fun hkey => ⟨?_, ?_⟩⟩⟩
  · rintro ⟨context, herr⟩
    rw [← not_validKey_iff]
    exact fun hk => verifyChain_no_key_error hk context herr
  · intro hbad
    exact verifyChain_bad_key hne (not_validKey_iff.mpr hbad)
  · intro hgood
    have hk : ValidKey hmacKey := not_not.mp fun h => hkey (not_validKey_iff.mp h)
    rw [verifyChain, if_neg (by simpa using hne), validateDigestKey_ok_iff.mpr hk]
    dsimp only
    rw [verifyEntries_skip hgood (Nat.le_refl _), List.drop_length]
    rfl
  · intro i e hi hgood hbad
    have hk : ValidKey hmacKey := not_not.mp fun h => hkey (not_validKey_iff.mp h)
    rw [verifyChain_skip hk hi hgood]
    by_cases hlink : e.previousHash = predecessor digestGenesisHash entries i
    · cases hhex : C.hex.decode e.digestSignature with
      | error err =>
        have hnone : ∀ tag : List UInt8, Except.error err ≠ .ok tag := by simp
        rw [verifyEntries_bad_hex hlink hhex]
        exact ⟨⟨fun _ => ⟨hlink, hnone⟩, fun _ => ⟨err, rfl⟩⟩, fun h => absurd ⟨hlink, hnone⟩ h⟩
      | ok tag =>
        have hsigned : ¬ Signed C hmacKey e := fun hs => hbad ⟨hlink, hs⟩
        simp [verifyEntries_bad_tag hhex hsigned]
    · simp [verifyEntries_unlinked hlink, hlink]

/-- The tag verifies for nothing but the rows of `H` it was produced for. -/
def SymbolicTag (C : Crypto) (hmacKey : List UInt8) (H : List DigestEntry) (tag : List UInt8) :
    Prop :=
  ∀ message, (C.hmacSha256 hmacKey message).val = tag →
    ∃ h ∈ H, C.hex.decode h.digestSignature = .ok tag ∧ message = h.signedBytes

theorem predecessor_append {pre : List DigestEntry} :
    predecessor origin (pre ++ rest) pre.length = tip DigestEntry.batchHash origin pre := by
  induction pre generalizing origin with
  | nil => rfl
  | cons e pre ih =>
    rw [List.cons_append, List.length_cons, predecessor_cons, ih]
    rfl

theorem goodBefore_append {pre : List DigestEntry} (hlink : Chained origin pre)
    (hsigned : ∀ e ∈ pre, Signed C hmacKey e) :
    GoodBefore C hmacKey origin (pre ++ rest) pre.length := by
  induction pre generalizing origin with
  | nil => exact fun j hj => absurd hj (by simp)
  | cons e pre ih =>
    intro j hj x hx
    cases j with
    | zero =>
      obtain rfl : e = x := by simpa using hx
      exact ⟨hlink.1, hsigned e (by simp)⟩
    | succ j =>
      have hrest := ih hlink.2 (fun y hy => hsigned y (by simp [hy]))
      rw [List.cons_append, predecessor_cons]
      exact hrest j (by simpa using hj) x (by simpa using hx)

/-- The row with a given predecessor is unique, so a good row in its place equals it. -/
theorem good_row_eq (hH : buildWithKey C hmacKey digestGenesisHash batches = .ok H)
    (hdistinct : (batches.map (computeBatchHash C)).Nodup) (hh : h ∈ H)
    (htag : C.hex.decode e.digestSignature = .ok tag) (hmac : SymbolicTag C hmacKey H tag)
    (hgood : Good C hmacKey h.previousHash e) :
    e.link = h.link ∧ C.hex.decode e.digestSignature = C.hex.decode h.digestSignature := by
  obtain ⟨hlink, hsigned⟩ := hgood
  have hverify : (C.hmacSha256 hmacKey e.signedBytes).val = tag := by
    rw [Signed, htag] at hsigned
    exact (Except.ok.inj hsigned).symm
  obtain ⟨x, hx, hxtag, hbytes⟩ := hmac _ hverify
  obtain ⟨hb, hp, hk⟩ := honest_pipe_free hH hx
  have hfields : e.link = x.link := link_eq_of_signedBytes hb hp hk hbytes
  have hprev : e.previousHash = x.previousHash := congrArg (fun l => l.2.1) hfields
  obtain rfl := (buildWithKey_spec hH).1.prev_inj (honest_ids_nodup hH hdistinct) hx hh
    (hprev.symm.trans hlink)
  exact ⟨hfields, htag.trans hxtag.symm⟩

/-- One row of an honest chain is replaced by another with a signature that is valid hex. -/
theorem altered_row_reported (C : Crypto) (hmacKey : List UInt8) (batches : List (List Text))
    (H : List DigestEntry) (j : Nat) (h e : DigestEntry) (tag : List UInt8)
    (hH : buildWithKey C hmacKey digestGenesisHash batches = .ok H)
    (hdistinct : (batches.map (computeBatchHash C)).Nodup) (hj : H[j]? = some h)
    (htag : C.hex.decode e.digestSignature = .ok tag) (hmac : SymbolicTag C hmacKey H tag)
    (hdiff : (e.batchHash, e.previousHash, e.keyId, C.hex.decode e.digestSignature) ≠
      (h.batchHash, h.previousHash, h.keyId, C.hex.decode h.digestSignature)) :
    verifyChain C (H.set j e) hmacKey = .ok (.invalid j e.batchHash) := by
  obtain ⟨hlink, hsigned, -, -⟩ := buildWithKey_spec hH
  have hmem : h ∈ H := List.mem_of_getElem? hj
  obtain ⟨pre, post, rfl, rfl⟩ : ∃ pre post, H = pre ++ h :: post ∧ j = pre.length := by
    obtain ⟨hlt, rfl⟩ := List.getElem?_eq_some_iff.mp hj
    refine ⟨H.take j, H.drop (j + 1), ?_, by simp; omega⟩
    rw [← List.drop_eq_getElem_cons hlt, List.take_append_drop]
  obtain ⟨hpre, hprev, -⟩ := LinkedLog.linked_append.mp hlink
  have hk : ValidKey hmacKey := by
    apply buildChain_valid_key hH
    intro hnil
    have hlen := buildChain_length hH
    simp [hnil] at hlen
  have hbefore : GoodBefore C hmacKey digestGenesisHash (pre ++ e :: post) pre.length :=
    goodBefore_append hpre fun x hx => hsigned x (by simp [hx])
  have hget : (pre ++ e :: post)[pre.length]? = some e := by simp
  rw [List.set_append_right _ _ (Nat.le_refl _), Nat.sub_self, List.set_cons_zero,
    verifyChain_skip hk hget hbefore, predecessor_append]
  by_cases hgood : e.previousHash = tip DigestEntry.batchHash digestGenesisHash pre
  · apply verifyEntries_bad_tag htag
    intro hs
    obtain ⟨hfields, hsig⟩ := good_row_eq hH hdistinct hmem htag hmac ⟨hgood.trans hprev.symm, hs⟩
    simp only [DigestEntry.link, Prod.mk.injEq] at hfields
    exact hdiff (by simp [hfields, hsig])
  · exact verifyEntries_unlinked hgood

/-- The second row with the tag of the first. -/
def sampleAltered : DigestEntry :=
  { sampleSecond with digestSignature := sampleFirst.digestSignature }

theorem altered_row_reported_sample :
    verifyChain sampleCrypto ([sampleFirst, sampleSecond].set 1 sampleAltered) sampleKey =
      .ok (.invalid 1 sampleAltered.batchHash) := by
  have htag : sampleCrypto.hex.decode sampleFirst.digestSignature =
      .ok (sampleHmac sampleKey sampleFirst.signedBytes).val := by decide +kernel
  refine altered_row_reported sampleCrypto sampleKey [["e1".toList], ["e2".toList]]
    [sampleFirst, sampleSecond] 1 sampleSecond sampleAltered _ (by decide +kernel)
    (by decide +kernel) rfl htag ?_ (by decide +kernel)
  intro message heq
  refine ⟨sampleFirst, by simp, htag, ?_⟩
  exact sampleMac_symbolic sampleFirst (by simp) message (Subtype.ext heq)

end ProviiAudit
