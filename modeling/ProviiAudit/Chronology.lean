import ProviiAudit.CreatedAt
import ProviiAudit.Pipeline

/-! The two times of a row: the number that retention compares and the text `created_at`. -/
namespace ProviiAudit

open Runs (Run)
open Utf8 (Text)

variable {J : Json.Codec} {C : Crypto} {workers : Workers} {acts : List Action} {s : System}
  {row : Row} {e : AuditEvent} {c : Call}

theorem storedRow_createdAt : (storedRow e).value "created_at".toList = some e.createdAt :=
  Row.value_of_mem storedRow_nodup (List.mem_iff_getElem?.mpr ⟨22, rfl⟩)

theorem createdAt_of_builds (h : Call.Builds C c e) : e.createdAt = isoTimestamp e.timestampMs := by
  obtain ⟨hashed, -, hbuild⟩ := h
  obtain ⟨-, -, -, -, heq⟩ := build_ok_iff.mp hbuild
  have hms : e.timestampMs = c.host.currentTimestampMs := by
    generalize isoTimestamp c.host.currentTimestampMs = createdAt at heq
    rw [heq]
  rw [hms]
  generalize isoTimestamp c.host.currentTimestampMs = createdAt at heq ⊢
  rw [heq]

/-- The two times of a row are one time. -/
theorem times_of_row (hqueue : FromQueue J workers) (h : Run (Step J C workers) .initial acts s)
    (hrow : row ∈ s.db.events) : ∃ t : UInt64, row.timestamp = some t.toNat ∧
      row.value "created_at".toList = some (isoTimestamp t) := by
  obtain ⟨_, ⟨c, e, messageId, -, -, hbuilds, rfl⟩, rfl⟩ := logged_of_row hqueue h hrow
  refine ⟨e.timestampMs, storedRow_timestamp _, ?_⟩
  rw [storedRow_createdAt, ← createdAt_of_builds hbuilds]

/-- Whatever workers insert what they find in the queue, the rows are in one order by number and by
text, up to the end of the year 9999; and retention takes exactly the rows whose text comes before
that of the cutoff. -/
theorem rows_chronological (J : Json.Codec) (C : Crypto) (workers : Workers)
    (hqueue : FromQueue J workers) (acts : List Action) (s : System)
    (h : Run (Step J C workers) .initial acts s) (row row' : Row)
    (hrow : row ∈ s.db.events) (hrow' : row' ∈ s.db.events) : ∃ t t' : UInt64,
      (row.timestamp = some t.toNat ∧ row.value "created_at".toList = some (isoTimestamp t)) ∧
      (row'.timestamp = some t'.toNat ∧ row'.value "created_at".toList = some (isoTimestamp t')) ∧
      (byteLe (isoTimestamp t) (isoTimestamp t') ↔
        min t.toNat 253402300799999 ≤ min t'.toNat 253402300799999) ∧
      ∀ cutoff : UInt64, cutoff.toNat ≤ 253402300799999 →
        (row.Older cutoff.toNat ↔ ¬ byteLe (isoTimestamp cutoff) (isoTimestamp t)) := by
  obtain ⟨t, ht, hcreated⟩ := times_of_row hqueue h hrow
  obtain ⟨t', ht', hcreated'⟩ := times_of_row hqueue h hrow'
  refine ⟨t, t', ⟨ht, hcreated⟩, ⟨ht', hcreated'⟩, isoTimestamp_le_iff t t', fun cutoff hcut => ?_⟩
  have holder : row.Older cutoff.toNat ↔ t.toNat < cutoff.toNat := by
    rw [Row.older_iff ht, databaseNumber_lt_iff (by omega), Int.ofNat_lt]
  rw [holder, isoTimestamp_le_iff]
  omega

/-- The two visits, and a cutoff between them. -/
theorem rows_chronological_sample : byteLe visitEvent.createdAt laterEvent.createdAt ∧
    (storedRow (delivered visitEvent "m1")).Older 1695000000000 ∧
    ¬ byteLe (isoTimestamp 1695000000000) visitEvent.createdAt := by
  obtain ⟨t, t', ⟨ht, hcreated⟩, ⟨ht', hcreated'⟩, hle, hcut⟩ := rows_chronological Json.compact
    clientCrypto (queueWorkers Json.compact) (queueWorkers_fromQueue Json.compact) visitActs
    visitState visit_run (storedRow (delivered visitEvent "m1"))
    (storedRow (delivered laterEvent "m2")) (by simp [visitState]) (by simp [visitState])
  rw [storedRow_timestamp, Option.some.injEq, UInt64.toNat_inj] at ht ht'
  rw [storedRow_createdAt, Option.some.injEq] at hcreated hcreated'
  subst ht ht'
  have holder : (storedRow (delivered visitEvent "m1")).Older (1695000000000 : UInt64).toNat :=
    (storedRow_older_iff (by decide)).mpr (by decide)
  have hbefore := (hcut 1695000000000 (by decide)).mp holder
  rw [← hcreated] at hbefore
  rw [← hcreated, ← hcreated'] at hle
  exact ⟨hle.mpr (by decide), holder, hbefore⟩

end ProviiAudit
