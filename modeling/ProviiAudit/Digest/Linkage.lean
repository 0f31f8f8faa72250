import Mathlib.Data.Finset.Basic
import ProviiAudit.Digest.Tamper

/-! Where the predecessor link falls short: rows removed between equal batch hashes, and
segments that start after a key rotation. -/
namespace ProviiAudit

open Utf8 (Text)
open LinkedLog (Linked tip)

variable {C : Crypto} {hmacKey : List UInt8} {batches : List (List Text)}
  {chain : List DigestEntry} {removed : Finset ℕ}

/-- The rows left, from row `k` on, when the rows with an index in `removed` are deleted. -/
def survivorsFrom (removed : Finset ℕ) (k : ℕ) (chain : List DigestEntry) : List DigestEntry :=
  ((chain.zipIdx k).filter fun p => p.2 ∉ removed).map Prod.fst

abbrev survivors (removed : Finset ℕ) (chain : List DigestEntry) : List DigestEntry :=
  survivorsFrom removed 0 chain

/-- What row `i` names: the hash of batch `i - 1`, or genesis. -/
def originalPrevious (C : Crypto) (batches : List (List Text)) : ℕ → Text
  | 0 => digestGenesisHash
  | i + 1 => computeBatchHash C (batches.getD i [])

/-- What verification expects of row `i`: the hash of the nearest row left before it. -/
def nearestSurvivor (C : Crypto) (batches : List (List Text)) (removed : Finset ℕ) : ℕ → Text
  | 0 => digestGenesisHash
  | i + 1 =>
    if i ∈ removed then nearestSurvivor C batches removed i
    else computeBatchHash C (batches.getD i [])

/-- Some row is left whose nearest predecessor left has another batch hash than the
batch it was chained to. -/
def SpliceVisible (C : Crypto) (batches : List (List Text)) (removed : Finset ℕ) : Prop :=
  ∃ i < batches.length, i ∉ removed ∧
    nearestSurvivor C batches removed i ≠ originalPrevious C batches i

theorem survivorsFrom_cons (k : ℕ) (e : DigestEntry) (chain : List DigestEntry) :
    survivorsFrom removed k (e :: chain) =
      if k ∈ removed then survivorsFrom removed (k + 1) chain
      else e :: survivorsFrom removed (k + 1) chain := by
  by_cases hk : k ∈ removed <;> simp [survivorsFrom, List.zipIdx_cons, hk]

theorem mem_of_mem_survivors {k : ℕ} {e : DigestEntry}
    (h : e ∈ survivorsFrom removed k chain) : e ∈ chain := by
  obtain ⟨⟨x, i⟩, hx, rfl⟩ := List.mem_map.mp h
  exact List.fst_mem_of_mem_zipIdx (List.mem_of_mem_filter hx)

/-- Induction over the rows: each row left is compared with the nearest one left before it. -/
theorem survivors_linked_iff {k : ℕ} (hlink : Chained (originalPrevious C batches k) chain)
    (hhash : chain.map DigestEntry.batchHash = (batches.drop k).map (computeBatchHash C)) :
    Chained (nearestSurvivor C batches removed k) (survivorsFrom removed k chain) ↔
      ∀ i, k ≤ i → i < k + chain.length → i ∉ removed →
        nearestSurvivor C batches removed i = originalPrevious C batches i := by
  induction chain generalizing k with
  | nil =>
    have : ∀ i, k ≤ i → ¬ i < k := fun i hi => Nat.not_lt.mpr hi
    simp_all [survivorsFrom, Linked]
  | cons e chain ih =>
    obtain ⟨he, hrest⟩ := hlink
    have hk : k < batches.length := by
      have := congrArg List.length hhash
      simp at this
      omega
    rw [List.drop_eq_getElem_cons hk, List.map_cons, List.map_cons, List.cons.injEq] at hhash
    obtain ⟨hb, hhash⟩ := hhash
    have hnext : originalPrevious C batches (k + 1) = e.batchHash := by
      simp [originalPrevious, hb, hk]
    have hih := ih (k := k + 1) (hnext ▸ hrest) hhash
    have hsplit : ∀ P : ℕ → Prop, (∀ i, k ≤ i → i < k + (e :: chain).length → P i) ↔
        P k ∧ ∀ i, k + 1 ≤ i → i < k + 1 + chain.length → P i := by
      intro P
      constructor
      · intro h
        exact ⟨h k le_rfl (by simp), fun i hi hlt => h i (by omega) (by simp; omega)⟩
      · rintro ⟨h0, h⟩ i hi hlt
        rcases Nat.eq_or_lt_of_le hi with rfl | hgt
        · exact h0
        · exact h i hgt (by simp at hlt; omega)
    rw [survivorsFrom_cons, hsplit]
    by_cases hr : k ∈ removed
    · rw [if_pos hr]
      simpa [nearestSurvivor, hr] using hih
    · rw [if_neg hr]
      have hnear : nearestSurvivor C batches removed (k + 1) = e.batchHash := by
        simp [nearestSurvivor, hr, hb, hk]
      rw [hnear] at hih
      have hstep : Chained (nearestSurvivor C batches removed k)
          (e :: survivorsFrom removed (k + 1) chain) ↔
          e.previousHash = nearestSurvivor C batches removed k ∧
            Chained e.batchHash (survivorsFrom removed (k + 1) chain) := Iff.rfl
      rw [hstep, hih, he]
      exact and_congr_left' ⟨fun h _ => h.symm, fun h => (h hr).symm⟩

/-- The rows left verify exactly when each still follows a row with the hash it names. -/
theorem survivors_valid_iff {m : ℕ}
    (h : buildWithKey C hmacKey digestGenesisHash batches = .ok chain) :
    verifyChain C (survivors removed chain) hmacKey = .ok (.valid m) ↔
      m = (survivors removed chain).length ∧ ¬ SpliceVisible C batches removed := by
  obtain ⟨hlink, hsigned, hhash, -⟩ := buildWithKey_spec h
  have hlen : chain.length = batches.length := by
    simpa using congrArg List.length hhash
  have hiff := @survivors_linked_iff C batches chain removed 0 hlink (by simpa using hhash)
  simp only [Nat.zero_le, true_implies, Nat.zero_add, nearestSurvivor, hlen] at hiff
  have hvisible : ¬ SpliceVisible C batches removed ↔
      Chained digestGenesisHash (survivors removed chain) := by
    rw [hiff]
    simp [SpliceVisible]
  rw [hvisible]
  cases hb : batches with
  | nil =>
    have hnil : chain = [] := List.eq_nil_of_length_eq_zero (by simp [hlen, hb])
    subst hnil
    simp [survivorsFrom, verifyChain, Linked, eq_comm]
  | cons b bs =>
    have hk : ValidKey hmacKey := buildChain_valid_key h (by simp [hb])
    exact verifyChain_signed_iff hk fun e he => hsigned e (mem_of_mem_survivors he)

/-- A deletion is detected exactly when it leaves a row behind another batch hash than the
one it names. -/
theorem deletion_detected_iff (C : Crypto) (hmacKey : List UInt8) (batches : List (List Text))
    (chain : List DigestEntry) (removed : Finset ℕ)
    (h : buildWithKey C hmacKey digestGenesisHash batches = .ok chain) :
    (∀ m, verifyChain C (survivors removed chain) hmacKey ≠ .ok (.valid m)) ↔
      SpliceVisible C batches removed := by
  constructor
  · intro hrej
    by_contra hv
    exact hrej _ ((survivors_valid_iff h).mpr ⟨rfl, hv⟩)
  · intro hv m hm
    exact ((survivors_valid_iff h).mp hm).2 hv

theorem deletion_detected_iff_sample :
    (∀ m, verifyChain sampleCrypto (survivors {0} [sampleFirst, sampleSecond]) sampleKey ≠
      .ok (.valid m)) ↔ SpliceVisible sampleCrypto [["e1".toList], ["e2".toList]] {0} :=
  deletion_detected_iff sampleCrypto sampleKey [["e1".toList], ["e2".toList]]
    [sampleFirst, sampleSecond] {0} (by decide +kernel)

/-- A batch delivered twice, then another one. -/
def redelivered : List (List Text) := [["e1".toList], ["e1".toList], ["e2".toList]]

/-- Whatever the hash functions, the second delivery's row can be deleted unnoticed. -/
theorem deleted_redelivery_accepted : ValidKey sampleKey ∧ ({1} : Finset ℕ).Nonempty ∧
    (∀ i ∈ ({1} : Finset ℕ), i + 1 < redelivered.length) ∧
    ∀ C : Crypto, ∃ chain,
      buildWithKey C sampleKey digestGenesisHash redelivered = .ok chain ∧
        ∃ m, verifyChain C (survivors {1} chain) sampleKey = .ok (.valid m) := by
  have hk : ValidKey sampleKey := validateDigestKey_ok_iff.mp (by decide +kernel)
  refine ⟨hk, by simp, by decide, fun C => ?_⟩
  obtain ⟨chain, h⟩ := buildChain_total (C := C) hk digestGenesisHash
    (redelivered.map fun ids => (ids, deriveKeyId C sampleKey))
  refine ⟨chain, h, _, (survivors_valid_iff h).mpr ⟨rfl, ?_⟩⟩
  rintro ⟨i, hi, hr, hne⟩
  have hcases : i = 0 ∨ i = 1 ∨ i = 2 := by
    simp only [redelivered, List.length_cons, List.length_nil] at hi
    omega
  rcases hcases with rfl | rfl | rfl
  · exact hne rfl
  · simp at hr
  · exact hne (by simp [nearestSurvivor, originalPrevious, redelivered])

/-- The batches signed under one key. -/
structure Segment where
  hmacKey : List UInt8
  batches : List (List Text)
  valid : ValidKey hmacKey
  nonempty : batches ≠ []

/-- One chain across the segments: a segment's first row names the row before it. -/
def buildSegments (C : Crypto) : Text → List Segment → Except AuditError (List (List DigestEntry))
  | _, [] => .ok []
  | prev, s :: rest =>
    match buildWithKey C s.hmacKey prev s.batches with
    | .error e => .error e
    | .ok chain =>
      (buildSegments C (tip DigestEntry.batchHash prev chain) rest).map (chain :: ·)

theorem buildSegments_cons_ok_iff {prev : Text} {s : Segment} {rest : List Segment}
    {segs : List (List DigestEntry)} :
    buildSegments C prev (s :: rest) = .ok segs ↔ ∃ chain tails, segs = chain :: tails ∧
      buildWithKey C s.hmacKey prev s.batches = .ok chain ∧
      buildSegments C (tip DigestEntry.batchHash prev chain) rest = .ok tails := by
  rw [buildSegments]
  cases hc : buildWithKey C s.hmacKey prev s.batches with
  | error err => simp
  | ok chain =>
    cases hr : buildSegments C (tip DigestEntry.batchHash prev chain) rest with
    | error err => simp [hr, Except.map]
    | ok tails => simp [hr, Except.map, eq_comm]

theorem buildSegments_total (C : Crypto) (prev : Text) (history : List Segment) :
    ∃ segs, buildSegments C prev history = .ok segs := by
  induction history generalizing prev with
  | nil => exact ⟨[], rfl⟩
  | cons s rest ih =>
    obtain ⟨chain, hc⟩ := buildChain_total (C := C) s.valid prev
      (s.batches.map fun ids => (ids, deriveKeyId C s.hmacKey))
    obtain ⟨tails, ht⟩ := ih (tip DigestEntry.batchHash prev chain)
    exact ⟨chain :: tails, buildSegments_cons_ok_iff.mpr ⟨chain, tails, rfl, hc, ht⟩⟩

/-- A non-empty chain leaves a batch hash for the next row to name, never genesis. -/
theorem tip_ne_genesis {prev : Text} (h : buildWithKey C hmacKey prev batches = .ok chain)
    (hne : batches ≠ []) : tip DigestEntry.batchHash prev chain ≠ digestGenesisHash := by
  obtain ⟨hlink, -, hhash, -⟩ := buildWithKey_spec h
  have hlast : chain ≠ [] := by
    rintro rfl
    exact hne (List.map_eq_nil_iff.mp hhash.symm)
  have hm : tip DigestEntry.batchHash prev chain ∈ chain.map DigestEntry.batchHash := by
    obtain ⟨front, e, rfl⟩ := (List.eq_nil_or_concat chain).resolve_left hlast
    simp [tip]
  rw [hhash] at hm
  obtain ⟨ids, -, heq⟩ := List.mem_map.mp hm
  exact heq ▸ computeBatchHash_ne_genesis C ids

/-- A segment alone verifies exactly when it starts at genesis. -/
theorem segment_valid_iff {prev : Text} {s : Segment}
    (h : buildWithKey C s.hmacKey prev s.batches = .ok chain) :
    verifyChain C chain s.hmacKey = .ok (.valid chain.length) ↔ prev = digestGenesisHash := by
  obtain ⟨hlink, hsigned, hhash, -⟩ := buildWithKey_spec h
  rw [verifyChain_signed_iff s.valid hsigned]
  cases chain with
  | nil => exact (s.nonempty (List.map_eq_nil_iff.mp hhash.symm)).elim
  | cons e rest =>
    constructor
    · rintro ⟨-, hg, -⟩
      exact hlink.1.symm.trans hg
    · rintro rfl
      exact ⟨rfl, hlink⟩

/-- Off genesis, no segment of a chain verifies under its own key. -/
theorem segments_invalid {prev : Text} {history : List Segment} {segs : List (List DigestEntry)}
    (h : buildSegments C prev history = .ok segs) (hprev : prev ≠ digestGenesisHash) :
    ∀ p ∈ history.zip segs,
      verifyChain C p.2 p.1.hmacKey ≠ .ok (.valid p.2.length) := by
  induction history generalizing prev segs with
  | nil => simp
  | cons s rest ih =>
    obtain ⟨chain, tails, rfl, hc, ht⟩ := buildSegments_cons_ok_iff.mp h
    intro p hp
    rcases List.mem_cons.mp hp with rfl | hp
    · exact fun hv => hprev ((segment_valid_iff hc).mp hv)
    · exact ih ht (tip_ne_genesis hc s.nonempty) p hp

/-- Segment by segment, verification succeeds on the first segment only: every segment of a
history verifies exactly when there was no rotation. -/
theorem segments_verify_iff (C : Crypto) (history : List Segment)
    (segs : List (List DigestEntry))
    (h : buildSegments C digestGenesisHash history = .ok segs) :
    (∀ q p, (history.zip segs)[q]? = some p →
      (verifyChain C p.2 p.1.hmacKey = .ok (.valid p.2.length) ↔ q = 0)) ∧
    ((∀ p ∈ history.zip segs, verifyChain C p.2 p.1.hmacKey = .ok (.valid p.2.length)) ↔
      history.length ≤ 1) := by
  cases history with
  | nil => simp
  | cons s rest =>
    obtain ⟨chain, tails, rfl, hc, ht⟩ := buildSegments_cons_ok_iff.mp h
    have hfirst : verifyChain C chain s.hmacKey = .ok (.valid chain.length) :=
      (segment_valid_iff hc).mpr rfl
    have hlater := segments_invalid ht (tip_ne_genesis hc s.nonempty)
    constructor
    · intro q p hq
      cases q with
      | zero =>
        cases hq
        exact iff_of_true hfirst rfl
      | succ q =>
        exact iff_of_false (hlater p (List.mem_of_getElem? hq)) (Nat.succ_ne_zero q)
    · cases rest with
      | nil => simp [hfirst]
      | cons s' rest =>
        obtain ⟨chain', tails', rfl, -, -⟩ := buildSegments_cons_ok_iff.mp ht
        constructor
        · intro hall
          exact (hlater (s', chain') (by simp) (hall (s', chain') (by simp))).elim
        · intro hlen
          simp at hlen

def sampleSegment : Segment where
  hmacKey := sampleKey
  batches := [["e1".toList], ["e2".toList]]
  valid := validateDigestKey_ok_iff.mp (by decide +kernel)
  nonempty := by simp

def sampleSecondSegment : Segment where
  hmacKey := sampleNextKey
  batches := [["e3".toList]]
  valid := validateDigestKey_ok_iff.mp (by decide +kernel)
  nonempty := by simp

/-- The sample segment, then one batch under a new key. -/
def rotatedHistory : List Segment := [sampleSegment, sampleSecondSegment]

def rotatedRows : List (List DigestEntry) := [[sampleFirst, sampleSecond], [sampleThird]]

theorem segments_verify_iff_sample :
    (∀ q p, (rotatedHistory.zip rotatedRows)[q]? = some p →
      (verifyChain sampleCrypto p.2 p.1.hmacKey = .ok (.valid p.2.length) ↔ q = 0)) ∧
    ((∀ p ∈ rotatedHistory.zip rotatedRows,
      verifyChain sampleCrypto p.2 p.1.hmacKey = .ok (.valid p.2.length)) ↔
      rotatedHistory.length ≤ 1) :=
  segments_verify_iff sampleCrypto rotatedHistory rotatedRows (by decide +kernel)

/-- Whatever the hash functions, the segment after a rotation is rejected under its own key. -/
theorem rotated_segment_rejected : rotatedHistory.length = 2 ∧
    ∀ C : Crypto, ∃ segs, buildSegments C digestGenesisHash rotatedHistory = .ok segs ∧
      ∃ p ∈ rotatedHistory.zip segs,
        verifyChain C p.2 p.1.hmacKey ≠ .ok (.valid p.2.length) := by
  refine ⟨rfl, fun C => ?_⟩
  obtain ⟨segs, h⟩ := buildSegments_total C digestGenesisHash rotatedHistory
  obtain ⟨chain, tails, rfl, hc, ht⟩ := buildSegments_cons_ok_iff.mp h
  obtain ⟨chain', tails', rfl, -, -⟩ := buildSegments_cons_ok_iff.mp ht
  refine ⟨_, h, (sampleSecondSegment, chain'), ?_,
    segments_invalid ht (tip_ne_genesis hc sampleSegment.nonempty) _ ?_⟩
  · exact List.mem_cons_of_mem _ (List.mem_cons_self ..)
  · exact List.mem_cons_self ..

end ProviiAudit
