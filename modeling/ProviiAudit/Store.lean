import Mathlib.Algebra.Group.Int.Defs
import ProviiAudit.Digest.Increment
import ProviiAudit.Lib.KeyedTable
import ProviiAudit.Lib.Rounding
import ProviiAudit.Lib.Runs
import ProviiAudit.Table

/-! The database of the audit trail. Its events are inserted once and deleted by age; its digest
rows are only added. Every order of the statements is a run. -/
namespace ProviiAudit

open KeyedTable (Deletes Removed Sweep)
open Runs (Run)
open Utf8 (Text)

def digestInsertSql : Text :=
  "INSERT INTO audit_digests (".toList ++ "batch_id, timestamp_ms, ".toList ++
    "event_count, first_event_id, ".toList ++ "last_event_id, batch_hash, ".toList ++
    "previous_hash, signature, key_id, ".toList ++ "created_at) VALUES (".toList ++
    "?1, ?2, ?3, ?4, ?5, ".toList ++ "?6, ?7, ?8, ?9, ?10)".toList

def retentionDeleteSql : Text :=
  "DELETE FROM audit_events ".toList ++ "WHERE timestamp_ms < ?1 LIMIT ?2".toList

def digestColumns : List Text :=
  [ "batch_id".toList, "timestamp_ms".toList, "event_count".toList, "first_event_id".toList,
    "last_event_id".toList, "batch_hash".toList, "previous_hash".toList, "signature".toList,
    "key_id".toList, "created_at".toList ]

def auditDigests : List Column := digestColumns.map fun name =>
  ⟨name, true, name == "batch_id".toList, none⟩

/-- The statement that adds a row to a table. -/
def insertInto (table : Text) (columns : List Text) : Text :=
  "INSERT INTO ".toList ++ table ++ " (".toList ++ ", ".toList.intercalate columns ++
    ") VALUES (".toList ++ ", ".toList.intercalate (parameters columns.length) ++ ")".toList

/-- The statement that deletes rows below a bound in one column, up to a limit. -/
def deleteBelow (table column : Text) : Text :=
  "DELETE FROM ".toList ++ table ++ " WHERE ".toList ++ column ++ " < ?1 LIMIT ?2".toList

theorem digestInsertSql_eq :
    digestInsertSql = insertInto "audit_digests".toList digestColumns := by decide +kernel

theorem retentionDeleteSql_eq :
    retentionDeleteSql = deleteBelow "audit_events".toList "timestamp_ms".toList := by
  decide +kernel

/-- The constraints of any schema. -/
def Row.Satisfies (schema : List Column) (row : Row) : Prop :=
  ∀ c ∈ schema, c.Admits (row.value c.name)

instance (schema : List Column) (row : Row) : Decidable (row.Satisfies schema) :=
  inferInstanceAs (Decidable (∀ c ∈ schema, _))

def Row.eventId (row : Row) : Option Text := row.value "event_id".toList

def Row.batchId (row : Row) : Option Text := row.value "batch_id".toList

/-- The number that a text of digits is. -/
def number? (s : Text) : Option Nat :=
  if s ≠ [] ∧ s.all Char.isDigit then some (Nat.ofDigitChars 10 s 0) else none

/-- The column has the affinity of integers: a text of digits compares as its number. -/
def Row.timestamp (row : Row) : Option Nat := (row.value "timestamp_ms".toList).bind number?

/-- 2^1024 stands for the numbers that are too large for a double. -/
def infinity : Nat := (2 ^ 128) ^ 8

/-- The database keeps an integer of 64 bits as it is, and a larger one as a double. -/
def databaseNumber (n : Int) : Int :=
  if n < 2 ^ 63 then n else (min (Rounding.toBits 53 n.toNat) infinity : Nat)

/-- `timestamp_ms < ?1`. -/
def Row.Older (cutoff : Int) (row : Row) : Prop :=
  ∃ n ∈ row.timestamp, databaseNumber n < databaseNumber cutoff

instance (cutoff : Int) : DecidablePred (Row.Older cutoff) := fun row =>
  inferInstanceAs (Decidable (∃ n ∈ row.timestamp, databaseNumber n < databaseNumber cutoff))

/-- The part of a digest row that the verification reads. -/
def Row.digestEntry (row : Row) : DigestEntry where
  batchHash := (row.value "batch_hash".toList).getD []
  previousHash := (row.value "previous_hash".toList).getD []
  digestSignature := (row.value "signature".toList).getD []
  keyId := (row.value "key_id".toList).getD []

structure Database where
  events : List Row
  digests : List Row

/-- The chain as the verification gets it, oldest first. -/
def Database.chain (db : Database) : List DigestEntry := db.digests.map Row.digestEntry

/-- The statements with what is bound to them. -/
inductive Statement
  | insertEvent (event : AuditEvent)
  | insertDigest (params : List Text)
  | deleteOlder (cutoff limit : Int)

inductive Exec : Database → Statement → Database → Prop
  | insertEvent (db : Database) (e : AuditEvent) :
      Exec db (.insertEvent e)
        { db with events := insertOrIgnore db.events (eventBindParams e) }
  | insertDigest (db : Database) (params : List Text) :
      Row.Satisfies auditDigests (digestColumns.zip params) →
      Row.batchId (digestColumns.zip params) ∉ db.digests.map Row.batchId →
      Exec db (.insertDigest params) { db with digests := db.digests ++ [digestColumns.zip params] }
  /-- A row that breaks a constraint is an error, and the table stays. -/
  | refuseDigest (db : Database) (params : List Text) :
      ¬ (Row.Satisfies auditDigests (digestColumns.zip params) ∧
        Row.batchId (digestColumns.zip params) ∉ db.digests.map Row.batchId) →
      Exec db (.insertDigest params) db
  /-- The database chooses the rows. -/
  | deleteOlder (db : Database) (cutoff limit : Int) (n : Nat) (rows : List Row) :
      Deletes (Row.Older cutoff) limit n db.events rows →
      Exec db (.deleteOlder cutoff limit) { db with events := rows }

/-- The events of a history, in order. -/
def inserted (history : List Statement) : List AuditEvent :=
  history.filterMap fun
    | .insertEvent e => some e
    | _ => none

variable {db db' : Database} {s : Statement} {history : List Statement} {e f : AuditEvent}
  {row : Row} {cutoff limit n m : Int} {table rows : List Row} {es fs : List AuditEvent}
  {size : Nat} {counts : List Nat}

/-- Rounding keeps the order. -/
theorem databaseNumber_mono (h : n ≤ m) : databaseNumber n ≤ databaseNumber m := by
  rw [databaseNumber, databaseNumber]
  by_cases hm : m < 2 ^ 63
  · rwa [if_pos (h.trans_lt hm), if_pos hm]
  · rw [if_neg hm]
    by_cases hn : n < 2 ^ 63
    · have hpow : 2 ^ 63 ≤ min (Rounding.toBits 53 m.toNat) infinity :=
        Nat.le_min.mpr ⟨Rounding.pow_le_toBits (by decide) (by omega), by decide⟩
      rw [if_pos hn]
      exact hn.le.trans (mod_cast hpow)
    · have hle : Rounding.toBits 53 n.toNat ≤ Rounding.toBits 53 m.toNat :=
        Rounding.toBits_mono (by decide) (Int.toNat_le_toNat h)
      rw [if_neg hn]
      exact Int.ofNat_le.mpr
        (Nat.le_min.mpr ⟨(Nat.min_le_left _ _).trans hle, Nat.min_le_right _ _⟩)

theorem databaseNumber_lt_iff (hm : m < 2 ^ 63) : databaseNumber n < databaseNumber m ↔ n < m := by
  constructor
  · intro h
    by_contra hle
    exact absurd (databaseNumber_mono (not_lt.mp hle)) (not_le.mpr h)
  · intro h
    rwa [databaseNumber, databaseNumber, if_pos (h.trans hm), if_pos hm]

/-- The largest timestamp is not below 2^64. -/
example : databaseNumber (2 ^ 64 - 1) = databaseNumber (2 ^ 64) := by decide +kernel

theorem mem_inserted : e ∈ inserted history ↔ .insertEvent e ∈ history := by
  simp only [inserted, List.mem_filterMap]
  constructor
  · rintro ⟨s, hs, h⟩
    cases s with
    | insertEvent f =>
      cases h
      exact hs
    | insertDigest params => cases h
    | deleteOlder cutoff limit => cases h
  · intro h
    exact ⟨_, h, rfl⟩

theorem inserted_append {before after : List Statement} :
    inserted (before ++ after) = inserted before ++ inserted after := List.filterMap_append

theorem storedRow_id (e : AuditEvent) : (storedRow e).eventId = some e.eventId :=
  storedRow_eventId

theorem number?_decimal (n : Nat) : number? (Utf8.decimal n) = some n := by
  have hdigits : (Utf8.decimal n).all Char.isDigit = true := by
    rw [List.all_eq_true]
    intro c hc
    exact Nat.isDigit_of_mem_toDigits (by decide) (by decide) hc
  have hne : Utf8.decimal n ≠ [] := Nat.toDigits_ne_nil
  rw [number?, if_pos ⟨hne, hdigits⟩, Utf8.decimal, Nat.ofDigitChars_ten_toDigits]

theorem storedRow_timestamp (e : AuditEvent) :
    (storedRow e).timestamp = some e.timestampMs.toNat := by
  have hvalue : (storedRow e).value "timestamp_ms".toList =
      some (Utf8.decimal e.timestampMs.toNat) := by
    apply Row.value_of_mem storedRow_nodup
    exact List.mem_cons_of_mem _ List.mem_cons_self
  rw [Row.timestamp, hvalue, Option.bind_some, number?_decimal]

theorem Row.older_iff {t : Nat} (ht : row.timestamp = some t) :
    row.Older cutoff ↔ databaseNumber t < databaseNumber cutoff := by
  rw [Row.Older, ht]
  simp

/-- A later bound takes the rows of an earlier one. -/
theorem Row.Older.mono (h : row.Older n) (hle : n ≤ m) : row.Older m := by
  obtain ⟨t, ht, hlt⟩ := h
  exact ⟨t, ht, hlt.trans_le (databaseNumber_mono hle)⟩

theorem storedRow_not_older (h : cutoff ≤ e.timestampMs.toNat) : ¬ (storedRow e).Older cutoff := by
  rw [Row.older_iff (storedRow_timestamp e), not_lt]
  exact databaseNumber_mono h

theorem storedRow_older_iff (hcut : cutoff < 2 ^ 63) :
    (storedRow e).Older cutoff ↔ (e.timestampMs.toNat : Int) < cutoff := by
  rw [Row.older_iff (storedRow_timestamp e), databaseNumber_lt_iff hcut]

/-- The insertion is the one of a table with the event ids as keys. -/
theorem insertOrIgnore_eq_insertNew : insertOrIgnore table (eventBindParams e) =
    KeyedTable.insertNew Row.eventId table (storedRow e) := by
  have hkey : (∃ stored ∈ table, stored.value "event_id".toList = some e.eventId) ↔
      (storedRow e).eventId ∈ table.map Row.eventId := by
    rw [storedRow_id, List.mem_map]
    rfl
  rw [insertOrIgnore_eq, KeyedTable.insertNew]
  by_cases h : (storedRow e).eventId ∈ table.map Row.eventId
  · rw [if_pos h, if_pos (hkey.mpr h)]
  · rw [if_neg h, if_neg (mt hkey.mp h)]

theorem storeAll_eq_insertAll :
    storeAll es = KeyedTable.insertAll Row.eventId [] (es.map storedRow) := by
  rw [storeAll, KeyedTable.insertAll, List.foldl_map]
  congr 1
  funext table e
  exact insertOrIgnore_eq_insertNew

theorem exec_events (h : Exec db s db') :
    (∃ e, s = .insertEvent e ∧
      db'.events = KeyedTable.insertNew Row.eventId db.events (storedRow e)) ∨
    (∃ params, s = .insertDigest params ∧ db'.events = db.events) ∨
    (∃ cutoff limit n, s = .deleteOlder cutoff limit ∧
      Removed (Row.Older cutoff) n db.events db'.events) := by
  cases h with
  | insertEvent e => exact .inl ⟨e, rfl, insertOrIgnore_eq_insertNew⟩
  | insertDigest params _ _ => exact .inr (.inl ⟨params, rfl, rfl⟩)
  | refuseDigest params _ => exact .inr (.inl ⟨params, rfl, rfl⟩)
  | deleteOlder cutoff limit n rows hd => exact .inr (.inr ⟨cutoff, limit, n, rfl, hd.1⟩)

theorem ids_nodup_step (h : Exec db s db') (hdb : (db.events.map Row.eventId).Nodup) :
    (db'.events.map Row.eventId).Nodup := by
  rcases exec_events h with ⟨e, -, heq⟩ | ⟨params, -, heq⟩ | ⟨cutoff, limit, n, -, hr⟩
  · rw [heq]
    exact KeyedTable.nodup_insertNew hdb
  · rwa [heq]
  · exact hdb.sublist (hr.sublist.map _)

theorem ids_nodup_run (h : Run Exec db history db') (hdb : (db.events.map Row.eventId).Nodup) :
    (db'.events.map Row.eventId).Nodup := by
  induction h with
  | nil => exact hdb
  | snoc _ hstep ih => exact ids_nodup_step hstep ih

/-- Every row was there before or comes from an insertion. -/
theorem row_of_run (h : Run Exec db history db') (hrow : row ∈ db'.events) :
    row ∈ db.events ∨ ∃ e ∈ inserted history, row = storedRow e := by
  induction h with
  | nil => exact .inl hrow
  | @snoc before s t u _ hstep ih =>
    have hold : row ∈ t.events → row ∈ db.events ∨ ∃ e ∈ inserted (before ++ [s]),
        row = storedRow e := by
      intro hmem
      rcases ih hmem with hdb | ⟨e, he, rfl⟩
      · exact .inl hdb
      · exact .inr ⟨e, by simp [inserted_append, he], rfl⟩
    rcases exec_events hstep with ⟨e, rfl, heq⟩ | ⟨params, -, heq⟩ | ⟨cutoff, limit, n, -, hr⟩
    · rw [heq, KeyedTable.mem_insertNew] at hrow
      rcases hrow with hmem | ⟨rfl, -⟩
      · exact hold hmem
      · exact .inr ⟨e, by simp [mem_inserted], rfl⟩
    · exact hold (heq ▸ hrow)
    · exact hold (hr.sublist.subset hrow)

/-- No deletion of the history takes a row of this age. -/
def Outlives (history : List Statement) (e : AuditEvent) : Prop :=
  ∀ cutoff limit : Int, .deleteOlder cutoff limit ∈ history → cutoff ≤ e.timestampMs.toNat

theorem kept_step (h : Exec db s db') (hlives : Outlives [s] e) (hmem : storedRow e ∈ db.events) :
    storedRow e ∈ db'.events := by
  rcases exec_events h with ⟨f, -, heq⟩ | ⟨params, -, heq⟩ | ⟨cutoff, limit, n, rfl, hr⟩
  · rw [heq, KeyedTable.mem_insertNew]
    exact .inl hmem
  · rwa [heq]
  · rcases hr.mem_or hmem with hkept | holder
    · exact hkept
    · exact absurd holder (storedRow_not_older (hlives cutoff limit (by simp)))

/-- The first event with an id is stored, and stays while no deletion takes its age. -/
theorem first_kept (h : Run Exec db history db') (hdb : db.events = [])
    (hfirst : (inserted history).find? (fun f => f.eventId = e.eventId) = some e)
    (hlives : Outlives history e) : storedRow e ∈ db'.events := by
  induction h with
  | nil => simp [inserted] at hfirst
  | @snoc before s t u hrun hstep ih =>
    have hbefore : Outlives before e := fun cutoff limit hmem =>
      hlives cutoff limit (List.mem_append_left _ hmem)
    have hlast : Outlives [s] e := fun cutoff limit hmem =>
      hlives cutoff limit (List.mem_append_right _ hmem)
    rw [inserted_append, List.find?_append, Option.or_eq_some_iff] at hfirst
    rcases hfirst with hfirst | ⟨hnone, hfirst⟩
    · exact kept_step hstep hlast (ih hfirst hbefore)
    · obtain rfl : s = .insertEvent e := by
        have hs := mem_inserted.mp (List.mem_of_find?_eq_some hfirst)
        exact (List.mem_singleton.mp hs).symm
      rcases exec_events hstep with ⟨f, hf, heq⟩ | ⟨_, hf, -⟩ | ⟨_, _, _, hf, -⟩
      · cases hf
        rw [heq, KeyedTable.mem_insertNew]
        refine .inr ⟨rfl, ?_⟩
        -- A row with this id comes from an earlier event with it, and there is none.
        intro htaken
        obtain ⟨row, hrow, hid⟩ := List.mem_map.mp htaken
        rcases row_of_run hrun hrow with hmem | ⟨f, hf, rfl⟩
        · simp [hdb] at hmem
        · rw [storedRow_id, storedRow_id, Option.some.injEq] at hid
          exact List.find?_eq_none.mp hnone f hf (by simpa using hid)
      · cases hf
      · cases hf

/-- After every run of statements each event id has one row at most, which holds an inserted
event; and the first event that came with an id has it while no deletion takes its age. -/
theorem events_of_run (digests : List Row) (h : Run Exec ⟨[], digests⟩ history db) :
    (db.events.map Row.eventId).Nodup ∧
    (∀ row ∈ db.events, ∃ e ∈ inserted history, row = storedRow e) ∧
    ∀ e, (inserted history).find? (fun f => f.eventId = e.eventId) = some e →
      Outlives history e → storedRow e ∈ db.events := by
  refine ⟨ids_nodup_run h (by simp), ?_, fun e hfirst hlives => first_kept h rfl hfirst hlives⟩
  intro row hrow
  rcases row_of_run h hrow with hmem | hfrom
  · simp at hmem
  · exact hfrom

/-- Insertions alone. -/
theorem run_inserts (es : List AuditEvent) (digests : List Row) :
    Run Exec ⟨[], digests⟩ (es.map .insertEvent) ⟨storeAll es, digests⟩ := by
  induction es using List.reverseRecOn with
  | nil => exact .nil
  | append_singleton es e ih =>
    have hstep : storeAll (es ++ [e]) = insertOrIgnore (storeAll es) (eventBindParams e) := by
      rw [storeAll, List.foldl_append]
      rfl
    rw [List.map_append, hstep]
    exact ih.snoc (.insertEvent _ e)

def expiredEvent : AuditEvent :=
  { sampleEvent with eventId := "e0".toList, timestampMs := 1690000000000 }

/-- An event of the day before the cutoff, and one that is delivered twice. -/
def sampleDelivered : List AuditEvent := [expiredEvent, sampleEvent, sampleEvent]

theorem storeAll_delivered :
    storeAll sampleDelivered = [storedRow expiredEvent, storedRow sampleEvent] := by
  have hids : expiredEvent.eventId ≠ sampleEvent.eventId := by decide
  simp [storeAll_eq_insertAll, sampleDelivered, KeyedTable.insertAll, KeyedTable.insertNew,
    storedRow_id, hids.symm]

def sampleCutoff : Int := 1695000000000

theorem expired_older : (storedRow expiredEvent).Older sampleCutoff :=
  (storedRow_older_iff (by decide)).mpr (by decide)

theorem sample_not_older : ¬ (storedRow sampleEvent).Older sampleCutoff :=
  storedRow_not_older (by decide)

theorem storeAll_single : storeAll [e] = [storedRow e] := by
  simp [storeAll_eq_insertAll, KeyedTable.insertAll, KeyedTable.insertNew]

theorem sample_deletes : Deletes (Row.Older sampleCutoff) (1 : Nat) 1 (storeAll sampleDelivered)
    (storeAll [sampleEvent]) := by
  have hone : KeyedTable.taken (1 : Nat) ([storedRow expiredEvent, storedRow sampleEvent].countP
      (Row.Older sampleCutoff ·)) = 1 := by
    simp [KeyedTable.taken, expired_older, sample_not_older]
  rw [storeAll_delivered, storeAll_single]
  exact ⟨.drop expired_older (.refl _), hone.symm⟩

/-- The deliveries, and a deletion between the two ages. -/
def sampleHistory : List Statement :=
  sampleDelivered.map .insertEvent ++ [.deleteOlder sampleCutoff (1 : Nat)]

theorem sampleHistory_run (digests : List Row) :
    Run Exec ⟨[], digests⟩ sampleHistory ⟨storeAll [sampleEvent], digests⟩ :=
  (run_inserts sampleDelivered digests).snoc (.deleteOlder _ _ _ _ _ sample_deletes)

theorem events_of_run_sample : ((storeAll [sampleEvent]).map Row.eventId).Nodup ∧
    (∀ row ∈ storeAll [sampleEvent], ∃ e ∈ inserted sampleHistory, row = storedRow e) ∧
    storedRow sampleEvent ∈ storeAll [sampleEvent] := by
  obtain ⟨hnodup, hrows, hfirst⟩ := events_of_run [] (sampleHistory_run [])
  refine ⟨hnodup, hrows, hfirst sampleEvent (by decide) fun cutoff limit h => ?_⟩
  obtain ⟨rfl, rfl⟩ : cutoff = sampleCutoff ∧ limit = (1 : Nat) := by
    simpa [sampleHistory] using h
  decide

/-- The statements that a caller repeats. -/
theorem run_of_sweep {digests : List Row} (h : Sweep (Row.Older cutoff) limit counts table rows) :
    Run Exec ⟨table, digests⟩ (List.replicate counts.length (.deleteOlder cutoff limit))
      ⟨rows, digests⟩ := by
  induction h with
  | nil => exact .nil
  | cons hd _ ih =>
    rw [List.length_cons, List.replicate_succ, ← List.singleton_append]
    exact (Run.single (.deleteOlder ⟨_, digests⟩ _ _ _ _ hd)).append ih

/-- The events that a cutoff leaves. -/
def retained (cutoff : Int) (es : List AuditEvent) : List AuditEvent :=
  es.filter fun e => cutoff ≤ e.timestampMs.toNat

/-- Events with one id are on one side of the cutoff. -/
def OneAge (cutoff : Int) (es : List AuditEvent) : Prop :=
  ∀ e ∈ es, ∀ f ∈ es, e.eventId = f.eventId →
    (cutoff ≤ e.timestampMs.toNat ↔ cutoff ≤ f.timestampMs.toNat)

instance : Decidable (OneAge cutoff es) :=
  inferInstanceAs (Decidable (∀ e ∈ es, ∀ f ∈ es, e.eventId = f.eventId →
    (cutoff ≤ e.timestampMs.toNat ↔ cutoff ≤ f.timestampMs.toNat)))

theorem storeAll_append_singleton :
    storeAll (es ++ [e]) = KeyedTable.insertNew Row.eventId (storeAll es) (storedRow e) := by
  rw [← insertOrIgnore_eq_insertNew, storeAll, storeAll, List.foldl_append]
  rfl

/-- The events whose rows a cutoff leaves. -/
def unexpired (cutoff : Int) (es : List AuditEvent) : List AuditEvent :=
  es.filter fun e => ¬ (storedRow e).Older cutoff

theorem unexpired_eq (hbound : cutoff < 2 ^ 63) : unexpired cutoff es = retained cutoff es := by
  refine List.filter_congr fun e _ => decide_eq_decide.mpr ?_
  rw [storedRow_older_iff hbound, not_lt]

/-- Among the rows that a cutoff leaves, those of older events have never been. -/
theorem filter_run (h : Run Exec db history db') (hdb : db.events = [])
    (hage : ∀ e ∈ inserted history, ∀ f ∈ inserted history, e.eventId = f.eventId →
      ((storedRow e).Older cutoff ↔ (storedRow f).Older cutoff))
    (hcut : ∀ c limit, .deleteOlder c limit ∈ history → c ≤ cutoff) :
    db'.events.filter (¬ Row.Older cutoff ·) = storeAll (unexpired cutoff (inserted history)) := by
  induction h with
  | nil => simp [hdb, inserted, unexpired, storeAll]
  | @snoc before s t u hrun hstep ih =>
    have hrest := ih
      (fun e he f hf => hage e (by simp [inserted_append, he]) f (by simp [inserted_append, hf]))
      fun c limit hmem => hcut c limit (List.mem_append_left _ hmem)
    rcases exec_events hstep with ⟨e, rfl, heq⟩ | ⟨params, rfl, heq⟩ | ⟨c, limit, n, rfl, hr⟩
    · have hes : inserted (before ++ [.insertEvent e]) = inserted before ++ [e] := inserted_append
      rw [hes, unexpired, List.filter_append, ← unexpired, heq]
      by_cases hold : (storedRow e).Older cutoff
      · -- An older event leaves no trace among the others.
        have hfilter : [e].filter (fun e => ¬ (storedRow e).Older cutoff) = [] := by simp [hold]
        rw [hfilter, List.append_nil, ← hrest]
        exact KeyedTable.filter_insertNew_of_neg (by simp [hold])
      · have hfilter : [e].filter (fun e => ¬ (storedRow e).Older cutoff) = [e] := by simp [hold]
        rw [hfilter, storeAll_append_singleton, ← hrest]
        refine KeyedTable.filter_insertNew (by simp [hold]) ?_
        intro row hrow hid
        rcases row_of_run hrun hrow with hnil | ⟨f, hf, rfl⟩
        · simp [hdb] at hnil
        · have hsame : f.eventId = e.eventId := by simpa [storedRow_id] using hid
          simpa using mt (hage f (by simp [hes, hf]) e (by simp [hes]) hsame).mp hold
    · have hes : inserted (before ++ [.insertDigest params]) = inserted before := by
        rw [inserted_append]
        simp [inserted]
      rw [hes, heq, hrest]
    · have hes : inserted (before ++ [.deleteOlder c limit]) = inserted before := by
        rw [inserted_append]
        simp [inserted]
      rw [hes, ← hrest]
      exact hr.filter_of_imp fun row hrow => hrow.mono (hcut c limit (by simp))

theorem swept_eq (h : Run Exec db history db') (hdb : db.events = [])
    (hage : ∀ e ∈ inserted history, ∀ f ∈ inserted history, e.eventId = f.eventId →
      ((storedRow e).Older cutoff ↔ (storedRow f).Older cutoff))
    (hcut : ∀ c limit, .deleteOlder c limit ∈ history → c ≤ cutoff)
    (hsweep : Sweep (Row.Older cutoff) size counts db'.events rows)
    (hdone : ∃ n ∈ counts, n < size) : rows = storeAll (unexpired cutoff (inserted history)) := by
  obtain ⟨n, hremoved⟩ := hsweep.removed
  rw [hremoved.eq_filter (hsweep.none_left hdone)]
  exact filter_run h hdb hage hcut

/-- A finished sweep leaves the table as if the older events had never come, whatever was deleted
on the way and in whatever portions. From 2^63 on a cutoff is rounded. -/
theorem settled_table (digests : List Row) (h : Run Exec ⟨[], digests⟩ history db)
    (hbound : cutoff < 2 ^ 63) (hage : OneAge cutoff (inserted history))
    (hcut : ∀ c limit, .deleteOlder c limit ∈ history → c ≤ cutoff)
    (hsweep : Sweep (Row.Older cutoff) size counts db.events rows)
    (hdone : ∃ n ∈ counts, n < size) : rows = storeAll (retained cutoff (inserted history)) := by
  rw [← unexpired_eq hbound]
  refine swept_eq h rfl (fun e he f hf hid => ?_) hcut hsweep hdone
  rw [storedRow_older_iff hbound, storedRow_older_iff hbound, ← not_le, ← not_le]
  exact not_congr (hage e he f hf hid)

/-- One row at a time: the second deletion finds none. -/
theorem sample_sweep : Sweep (Row.Older sampleCutoff) (1 : Nat) [1, 0] (storeAll sampleDelivered)
    (storeAll [sampleEvent]) := by
  have hnone : KeyedTable.taken (1 : Nat) ([storedRow sampleEvent].countP
      (Row.Older sampleCutoff ·)) = 0 := by
    simp [KeyedTable.taken, sample_not_older]
  refine .cons sample_deletes ?_
  rw [storeAll_single]
  exact .cons ⟨.refl _, hnone.symm⟩ .nil

theorem settled_table_sample : storeAll [sampleEvent] =
    storeAll (retained sampleCutoff (inserted (sampleDelivered.map .insertEvent))) :=
  settled_table [] (run_inserts sampleDelivered []) (by decide) (by decide +kernel)
    (fun c limit h => by simp [sampleDelivered] at h) sample_sweep ⟨0, by decide⟩

/-- Two databases that got the same events, in any order and any number of times, and dropped the
same ages, hold the same rows. -/
theorem redelivery_settles {other : List Statement} {size' : Nat} {counts' : List Nat}
    {rows' : List Row} (digests digests' : List Row)
    (h : Run Exec ⟨[], digests⟩ history db) (h' : Run Exec ⟨[], digests'⟩ other db')
    (hsame : ∀ e, .insertEvent e ∈ history ↔ .insertEvent e ∈ other)
    (hone : ∀ e f, .insertEvent e ∈ history → .insertEvent f ∈ history →
      e.eventId = f.eventId → e = f)
    (hcut : ∀ c limit, .deleteOlder c limit ∈ history ++ other → c ≤ cutoff)
    (hsweep : Sweep (Row.Older cutoff) size counts db.events rows)
    (hdone : ∃ n ∈ counts, n < size)
    (hsweep' : Sweep (Row.Older cutoff) size' counts' db'.events rows')
    (hdone' : ∃ n ∈ counts', n < size') : rows.Perm rows' := by
  have hinj : ∀ e ∈ inserted history, ∀ f ∈ inserted history, e.eventId = f.eventId → e = f :=
    fun e he f hf => hone e f (mem_inserted.mp he) (mem_inserted.mp hf)
  have hmem : ∀ e, e ∈ inserted history ↔ e ∈ inserted other := fun e => by
    rw [mem_inserted, mem_inserted, hsame]
  have hinj' : ∀ e ∈ inserted other, ∀ f ∈ inserted other, e.eventId = f.eventId → e = f :=
    fun e he f hf => hinj e ((hmem e).mpr he) f ((hmem f).mpr hf)
  rw [swept_eq h rfl (fun e he f hf hid => by rw [hinj e he f hf hid])
      (fun c limit hc => hcut c limit (List.mem_append_left _ hc)) hsweep hdone,
    swept_eq h' rfl (fun e he f hf hid => by rw [hinj' e he f hf hid])
      (fun c limit hc => hcut c limit (List.mem_append_right _ hc)) hsweep' hdone',
    storeAll_eq_insertAll, storeAll_eq_insertAll]
  apply KeyedTable.insertAll_perm
  · intro x hx y hy hkey
    obtain ⟨e, he, rfl⟩ := List.mem_map.mp hx
    obtain ⟨f, hf, rfl⟩ := List.mem_map.mp hy
    rw [storedRow_id, storedRow_id, Option.some.injEq] at hkey
    rw [hinj e (List.mem_filter.mp he).1 f (List.mem_filter.mp hf).1 hkey]
  · intro x
    simp only [List.mem_map, unexpired, List.mem_filter, hmem]

theorem redelivery_settles_sample : (storeAll [sampleEvent]).Perm (storeAll [sampleEvent]) := by
  -- The other database got the two events the other way round, and sweeps at once.
  have hother : Sweep (Row.Older sampleCutoff) (5 : Nat) [1] (storeAll sampleDelivered.reverse)
      (storeAll [sampleEvent]) := by
    have htable : storeAll sampleDelivered.reverse =
        [storedRow sampleEvent, storedRow expiredEvent] := by
      have hids : sampleEvent.eventId ≠ expiredEvent.eventId := by decide
      simp [storeAll_eq_insertAll, sampleDelivered, KeyedTable.insertAll, KeyedTable.insertNew,
        storedRow_id, hids.symm]
    have hcount : KeyedTable.taken (5 : Nat) ([storedRow sampleEvent,
        storedRow expiredEvent].countP (Row.Older sampleCutoff ·)) = 1 := by
      simp [KeyedTable.taken, expired_older, sample_not_older]
    rw [htable, storeAll_single]
    exact .cons ⟨.keep _ (.drop expired_older .nil), hcount.symm⟩ .nil
  have hone : ∀ e ∈ sampleDelivered, ∀ f ∈ sampleDelivered, e.eventId = f.eventId → e = f := by
    decide +kernel
  exact redelivery_settles [] [] (run_inserts sampleDelivered [])
    (run_inserts sampleDelivered.reverse []) (by simp)
    (fun e f he hf => hone e (by simpa using he) f (by simpa using hf))
    (fun c limit h => by simp [sampleDelivered] at h) sample_sweep ⟨0, by simp, by simp⟩
    hother ⟨1, by simp, by simp⟩

/-- How a table gets rid of its older rows: which statement of a sweep deletes how many, when the
sweep may stop, and what is left. -/
theorem retention_sweep (cutoff : Int) (size : Nat) (hsize : 0 < size) (table : List Row) :
    (∀ k, ∃ counts rows, counts.length = k ∧ Sweep (Row.Older cutoff) size counts table rows) ∧
    ∀ counts rows, Sweep (Row.Older cutoff) size counts table rows →
      (∀ digests, Run Exec ⟨table, digests⟩
        (List.replicate counts.length (.deleteOlder cutoff size)) ⟨rows, digests⟩) ∧
      counts = (List.range counts.length).map
        (fun i => min size (table.countP (Row.Older cutoff ·) - i * size)) ∧
      rows.Sublist table ∧
      rows.filter (¬ Row.Older cutoff ·) = table.filter (¬ Row.Older cutoff ·) ∧
      ((∃ n ∈ counts, n < size) ↔
        table.countP (Row.Older cutoff ·) / size < counts.length) ∧
      ((∃ n ∈ counts, n < size) → rows = table.filter (¬ Row.Older cutoff ·)) := by
  refine ⟨fun k => KeyedTable.exists_sweep _ _ k table, fun counts rows h => ?_⟩
  obtain ⟨n, hremoved⟩ := h.removed
  exact ⟨fun digests => run_of_sweep h, h.counts_eq, hremoved.sublist, hremoved.filter_not,
    h.done_iff hsize, fun hdone => hremoved.eq_filter (h.none_left hdone)⟩

theorem retention_sweep_sample : [1, 0] = (List.range [1, 0].length).map (fun i => min 1
    ((storeAll sampleDelivered).countP (Row.Older sampleCutoff ·) - i * 1)) :=
  ((retention_sweep sampleCutoff 1 (by decide) (storeAll sampleDelivered)).2 [1, 0]
    (storeAll [sampleEvent]) sample_sweep).2.1

theorem exec_digests (h : Exec db s db') : db'.digests = db.digests ∨
    ∃ row, Row.batchId row ∉ db.digests.map Row.batchId ∧ db'.digests = db.digests ++ [row] := by
  cases h with
  | insertEvent e => exact .inl rfl
  | insertDigest params _ hnew => exact .inr ⟨_, hnew, rfl⟩
  | refuseDigest params _ => exact .inl rfl
  | deleteOlder cutoff limit n rows _ => exact .inl rfl

theorem digests_of_run (h : Run Exec db history db') : db.digests <+: db'.digests := by
  refine h.related (R := fun db db' => db.digests <+: db'.digests) (fun _ => List.prefix_rfl)
    (fun _ _ _ => List.IsPrefix.trans) fun db s db' hstep => ?_
  rcases exec_digests hstep with heq | ⟨row, -, heq⟩
  · rw [heq]
  · exact ⟨[row], heq.symm⟩

theorem batchIds_nodup_run (h : Run Exec db history db')
    (hdb : (db.digests.map Row.batchId).Nodup) : (db'.digests.map Row.batchId).Nodup := by
  induction h with
  | nil => exact hdb
  | snoc _ hstep ih =>
    rcases exec_digests hstep with heq | ⟨row, hnew, heq⟩
    · rwa [heq]
    · rw [heq, List.map_append, List.nodup_append]
      refine ⟨ih, by simp, fun a ha b hb => ?_⟩
      obtain rfl := List.mem_singleton.mp hb
      rintro rfl
      exact hnew ha

/-- No statement takes a verdict back: a chain that fails to verify fails in the same way after
every run, and a chain that verifies did so at every time before. -/
theorem verdict_of_run (C : Crypto) (hmacKey : List UInt8) (h : Run Exec db history db') :
    db.digests <+: db'.digests ∧
    ((db.digests.map Row.batchId).Nodup → (db'.digests.map Row.batchId).Nodup) ∧
    (∀ verdict, verifyChain C db.chain hmacKey = verdict → Bad verdict →
      verifyChain C db'.chain hmacKey = verdict) ∧
    ∀ n, verifyChain C db'.chain hmacKey = .ok (.valid n) →
      verifyChain C db.chain hmacKey = .ok (.valid db.digests.length) := by
  obtain ⟨added, hadded⟩ := digests_of_run h
  have hchain : db'.chain = db.chain ++ added.map Row.digestEntry := by
    rw [Database.chain, ← hadded, List.map_append]
    rfl
  refine ⟨⟨added, hadded⟩, batchIds_nodup_run h, ?_, ?_⟩
  · intro verdict hverdict hbad
    rw [hchain]
    exact verifyChain_append_of_bad hverdict hbad
  · intro n hn
    rw [hchain] at hn
    have hvalid := verifyChain_prefix_valid hn
    rwa [Database.chain, List.length_map] at hvalid

/-- A row of one event in a batch of its own. -/
def sampleDigestParams (batchId eventId : Text) (e : DigestEntry) : List Text :=
  [ batchId, "0".toList, "1".toList, eventId, eventId, e.batchHash, e.previousHash,
    e.digestSignature, e.keyId, "1970-01-01T00:00:00.000Z".toList ]

def sampleDigestRow (batchId eventId : Text) (e : DigestEntry) : Row :=
  digestColumns.zip (sampleDigestParams batchId eventId e)

/-- A database without the first row of its chain. -/
def cutDatabase : Database where
  events := []
  digests := [sampleDigestRow "b2".toList "e2".toList sampleSecond]

theorem verdict_of_run_sample : verifyChain sampleCrypto (cutDatabase.chain ++ [sampleFirst])
    sampleKey = .ok (.invalid 0 sampleSecond.batchHash) := by
  have hstep : Exec cutDatabase
      (.insertDigest (sampleDigestParams "b1".toList "e1".toList sampleFirst)) _ :=
    .insertDigest _ _ (by decide +kernel) (by decide +kernel)
  have hverdict : verifyChain sampleCrypto cutDatabase.chain sampleKey =
      .ok (.invalid 0 sampleSecond.batchHash) := by decide +kernel
  exact (verdict_of_run sampleCrypto sampleKey (Run.single hstep)).2.2.1 _ hverdict (by simp [Bad])

end ProviiAudit
