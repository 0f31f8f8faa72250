import ProviiAudit.Digest.Rows
import ProviiAudit.Wire

/-! The table of audit events: the statement that fills it, its constraints, and what it stores. -/
namespace ProviiAudit

open Utf8 (Text)

def insertSql : Text :=
  "INSERT OR IGNORE INTO audit_events (".toList ++ "event_id, timestamp_ms, ".toList ++
    "source_service, event_type, severity, ".toList ++ "client_ip_hash, origin, ".toList ++
    "user_agent_hash, challenge_id, ".toList ++ "message, details, request_id, ".toList ++
    "environment, worker_version, geo_country, ".toList ++ "event_category, actor_id, ".toList ++
    "actor_type, resource_type, resource_id, ".toList ++ "outcome, queue_message_id, ".toList ++
    "created_at) VALUES (".toList ++ "?1, ?2, ?3, ?4, ?5, ?6, ?7, ".toList ++
    "?8, ?9, ?10, ?11, ?12, ?13, ?14, ".toList ++ "?15, ?16, ?17, ?18, ?19, ".toList ++
    "?20, ?21, ?22, ?23)".toList

/-- The columns that the statement lists, in its order. -/
def insertColumns : List Text :=
  [ "event_id".toList, "timestamp_ms".toList, "source_service".toList, "event_type".toList,
    "severity".toList, "client_ip_hash".toList, "origin".toList, "user_agent_hash".toList,
    "challenge_id".toList, "message".toList, "details".toList, "request_id".toList,
    "environment".toList, "worker_version".toList, "geo_country".toList, "event_category".toList,
    "actor_id".toList, "actor_type".toList, "resource_type".toList, "resource_id".toList,
    "outcome".toList, "queue_message_id".toList, "created_at".toList ]

/-- The parameters `?1` to `?n`. -/
def parameters (n : Nat) : List Text := (List.range n).map fun i => '?' :: Utf8.decimal (i + 1)

/-- The statement that fills these columns from as many parameters. -/
def insertStatement (columns : List Text) : Text :=
  "INSERT OR IGNORE INTO audit_events (".toList ++ ", ".toList.intercalate columns ++
    ") VALUES (".toList ++ ", ".toList.intercalate (parameters columns.length) ++ ")".toList

theorem insertSql_eq : insertSql = insertStatement insertColumns := by decide +kernel

structure Column where
  name : Text
  notNull : Bool
  unique : Bool
  /-- `CHECK(name IN (...))`. -/
  check : Option (List Text)

def Column.plain (name : Text) : Column := ⟨name, true, false, none⟩

def Column.oneOf (name : Text) (values : List Text) : Column := ⟨name, true, false, some values⟩

def auditEvents : List Column :=
  [ ⟨"event_id".toList, true, true, none⟩,
    .plain "timestamp_ms".toList,
    .plain "source_service".toList,
    .plain "event_type".toList,
    .oneOf "severity".toList ["info".toList, "warning".toList, "error".toList, "critical".toList],
    .plain "client_ip_hash".toList,
    .plain "origin".toList,
    .plain "user_agent_hash".toList,
    .plain "challenge_id".toList,
    .plain "message".toList,
    .plain "details".toList,
    .plain "request_id".toList,
    .oneOf "environment".toList ["production".toList, "sandbox".toList],
    .plain "worker_version".toList,
    .plain "geo_country".toList,
    .oneOf "event_category".toList ["".toList, "AUTHENTICATION".toList, "AUTHORIZATION".toList,
      "KEY_ACCESS".toList, "DATA_MUTATION".toList, "SESSION_LIFECYCLE".toList,
      "CREDENTIAL_ISSUANCE".toList, "VERIFICATION".toList, "ADMIN_ACTION".toList,
      "EXTERNAL_CALL".toList, "SECURITY_EVENT".toList],
    .plain "actor_id".toList,
    .oneOf "actor_type".toList ["".toList, "user".toList, "service".toList, "api_key".toList,
      "system".toList],
    .plain "resource_type".toList,
    .plain "resource_id".toList,
    .oneOf "outcome".toList ["".toList, "success".toList, "failure".toList, "denied".toList,
      "error".toList],
    .plain "queue_message_id".toList,
    .plain "created_at".toList ]

/-- What a statement supplies for each column. -/
abbrev Row := List (Text × Text)

/-- The value in a column, `NULL` being `none`. -/
def Row.value (row : Row) (name : Text) : Option Text := (row.find? (·.1 == name)).map (·.2)

/-- `NOT NULL` and `CHECK`. A check of `NULL` passes. -/
def Column.Admits (c : Column) (v : Option Text) : Prop :=
  (c.notNull = true → v ≠ none) ∧ ∀ values ∈ c.check, ∀ s ∈ v, s ∈ values

instance (c : Column) (v : Option Text) : Decidable (c.Admits v) :=
  inferInstanceAs (Decidable (_ ∧ _))

def Row.Admitted (row : Row) : Prop := ∀ c ∈ auditEvents, c.Admits (row.value c.name)

instance (row : Row) : Decidable row.Admitted :=
  inferInstanceAs (Decidable (∀ c ∈ auditEvents, _))

/-- `UNIQUE`: two rows agree in such a column, on a value other than `NULL`. -/
def Row.Conflicts (row stored : Row) : Prop :=
  ∃ c ∈ auditEvents, c.unique = true ∧ row.value c.name ≠ none ∧
    row.value c.name = stored.value c.name

instance (row stored : Row) : Decidable (row.Conflicts stored) :=
  inferInstanceAs (Decidable (∃ c ∈ auditEvents, _))

/-- `INSERT OR IGNORE`: a row that breaks a constraint is left out without an error. -/
def insertOrIgnore (table : List Row) (params : List Text) : List Row :=
  let row : Row := insertColumns.zip params
  if row.Admitted ∧ ∀ stored ∈ table, ¬ row.Conflicts stored then table ++ [row] else table

def storedRow (event : AuditEvent) : Row := insertColumns.zip (eventBindParams event)

/-- The text of a field of the JSON. -/
def fieldText : Json.Scalar → Text
  | .string s => s
  | .number n => Utf8.decimal n.toNat
  | .other => []

variable {row : Row} {table : List Row} {name s : Text} {e f : AuditEvent}

theorem columns_eq : auditEvents.map Column.name = insertColumns := rfl

theorem fieldNames_eq : AuditEvent.fieldNames = insertColumns := rfl

theorem fieldText_string : fieldText (.string s) = s := rfl

theorem fieldText_number {n : UInt64} : fieldText (.number n) = Utf8.decimal n.toNat := rfl

theorem fieldText_serializeOption {α : Type} (E : UnitEnum α) (o : Option α) :
    fieldText (E.serializeOption o) = (o.map E.name).getD [] := by
  cases o <;> rfl

/-- Column by column, the row holds the texts of the JSON. -/
theorem storedRow_eq : storedRow e = e.toRecord.map fun m => (m.1, fieldText m.2) := by
  have hsev : Severity.wire.name = Severity.asStr := funext Severity.wire_eq
  have henv : Environment.wire.name = Environment.asStr := funext Environment.wire_eq
  have hcat : EventCategory.wire.name = EventCategory.asStr := funext EventCategory.wire_eq
  have hact : ActorType.wire.name = ActorType.asStr := funext ActorType.wire_eq
  have hout : Outcome.wire.name = Outcome.asStr := funext Outcome.wire_eq
  simp only [storedRow, insertColumns, eventBindParams, AuditEvent.toRecord, List.zip_cons_cons,
    List.zip_nil_right, List.map_cons, List.map_nil, fieldText_serializeOption,
    UnitEnum.serialize, fieldText_string, fieldText_number, hsev, henv, hcat, hact, hout]

theorem Row.value_of_mem (hrow : (row.map Prod.fst).Nodup) (h : (name, s) ∈ row) :
    row.value name = some s := by
  induction row with
  | nil => simp at h
  | cons m row ih =>
    rw [List.map_cons, List.nodup_cons] at hrow
    rcases List.mem_cons.mp h with rfl | hmem
    · simp [value]
    · have hne : m.1 ≠ name := by
        rintro rfl
        exact hrow.1 (List.mem_map.mpr ⟨_, hmem, rfl⟩)
      have hrest := ih hrow.2 hmem
      simpa [value, List.find?_cons, hne] using hrest

theorem storedRow_nodup : ((storedRow e).map Prod.fst).Nodup := by
  have hnames : (storedRow e).map Prod.fst = insertColumns := rfl
  rw [hnames, ← fieldNames_eq]
  exact AuditEvent.fieldNames_nodup

theorem Column.admits_plain : (plain name).Admits (some s) := by simp [Admits, plain]

theorem Column.admits_oneOf {values : List Text} :
    (oneOf name values).Admits (some s) ↔ s ∈ values := by simp [Admits, oneOf]

/-- Each check lists the names of its enum, with the empty text where the enum may be absent. -/
theorem params_admitted :
    ∀ x ∈ auditEvents.zip (eventBindParams e), x.1.Admits (some x.2) := by
  have hid : (Column.mk "event_id".toList true true none).Admits (some e.eventId) := by
    simp [Column.Admits]
  simp only [auditEvents, eventBindParams, List.zip_cons_cons, List.zip_nil_right,
    List.forall_mem_cons, Column.admits_plain, Column.admits_oneOf, hid, true_and]
  refine ⟨?_, ?_, ?_, ?_, ?_, by simp⟩
  · cases e.severity <;> decide
  · cases e.environment <;> decide
  · rcases e.eventCategory with _ | x
    · decide
    · cases x <;> decide
  · rcases e.actorType with _ | x
    · decide
    · cases x <;> decide
  · rcases e.outcome with _ | x
    · decide
    · cases x <;> decide

theorem storedRow_admitted : (storedRow e).Admitted := by
  intro c hc
  have hfst : (auditEvents.zip (eventBindParams e)).map Prod.fst = auditEvents := rfl
  rw [← hfst] at hc
  obtain ⟨⟨c', s⟩, hx, rfl⟩ := List.mem_map.mp hc
  have hrow : (c'.name, s) ∈ storedRow e := by
    rw [storedRow, ← columns_eq, List.zip_map_left]
    exact List.mem_map.mpr ⟨_, hx, rfl⟩
  rw [Row.value_of_mem storedRow_nodup hrow]
  exact params_admitted _ hx

theorem storedRow_eventId : (storedRow e).value "event_id".toList = some e.eventId := by
  apply Row.value_of_mem storedRow_nodup
  exact List.mem_cons_self

/-- Only the event id is unique. -/
theorem storedRow_conflicts_iff :
    (storedRow e).Conflicts row ↔ row.value "event_id".toList = some e.eventId := by
  have hunique : ∀ c ∈ auditEvents, c.unique = true → c.name = "event_id".toList := by decide
  constructor
  · rintro ⟨c, hc, hu, -, heq⟩
    rw [hunique c hc hu, storedRow_eventId] at heq
    exact heq.symm
  · intro h
    refine ⟨_, List.mem_cons_self, rfl, ?_⟩
    rw [storedRow_eventId, h]
    exact ⟨Option.some_ne_none _, rfl⟩

theorem insertOrIgnore_eq : insertOrIgnore table (eventBindParams e) =
    if ∃ stored ∈ table, stored.value "event_id".toList = some e.eventId then table
    else table ++ [storedRow e] := by
  have hrow : insertOrIgnore table (eventBindParams e) =
      if (storedRow e).Admitted ∧ ∀ stored ∈ table, ¬ (storedRow e).Conflicts stored then
        table ++ [storedRow e] else table := rfl
  simp only [hrow, storedRow_admitted, storedRow_conflicts_iff, true_and]
  by_cases h : ∃ stored ∈ table, stored.value "event_id".toList = some e.eventId
  · rw [if_pos h, if_neg]
    obtain ⟨stored, hmem, heq⟩ := h
    exact fun hall => hall stored hmem heq
  · rw [if_neg h, if_pos]
    exact fun stored hmem heq => h ⟨stored, hmem, heq⟩

/-- The table after the events of a run, from an empty one. -/
def storeAll (es : List AuditEvent) : List Row :=
  es.foldl (fun table e => insertOrIgnore table (eventBindParams e)) []

/-- An event comes through the queue as it was. Its row holds, in each column of the statement,
the text of the JSON field of that name, satisfies the constraints, and is left out of a table
only where that holds a row with the same event id. -/
theorem event_stored (J : Json.Codec) (e : AuditEvent) :
    AuditEvent.fromJson J (e.toJson J) = some e ∧
    (insertSql = insertStatement insertColumns ∧ insertColumns.length = 23 ∧
      (eventBindParams e).length = 23) ∧
    (∀ name s, (name, s) ∈ insertColumns.zip (eventBindParams e) →
      (field e.toRecord name).map fieldText = some s) ∧
    (storedRow e).Admitted ∧
    (∀ table, insertOrIgnore table (eventBindParams e) =
      if ∃ stored ∈ table, stored.value "event_id".toList = some e.eventId then table
      else table ++ [storedRow e]) ∧
    ∀ f, eventBindParams e = eventBindParams f → e = f := by
  refine ⟨e.fromJson_toJson J, ⟨insertSql_eq, rfl, rfl⟩, ?_, storedRow_admitted,
    fun table => insertOrIgnore_eq, fun f h => eventBindParams_injective h⟩
  intro name s h
  change (name, s) ∈ storedRow e at h
  rw [storedRow_eq] at h
  obtain ⟨m, hm, heq⟩ := List.mem_map.mp h
  obtain ⟨rfl, rfl⟩ := Prod.mk.inj heq
  rw [field_of_mem (r := e.toRecord) AuditEvent.fieldNames_nodup hm, Option.map_some]

theorem event_stored_sample :
    AuditEvent.fromJson Json.compact (sampleEvent.toJson Json.compact) = some sampleEvent :=
  (event_stored Json.compact sampleEvent).1

end ProviiAudit
