import ProviiAudit.Calls
import ProviiAudit.Correlation
import ProviiAudit.Store

/-! The trail from the calls of the services to the database. The queue delivers a message late,
often or never, in any order. The workers behind it are other programs: they may execute the
statements of this repository whenever they like, and insert what they find in the messages. -/
namespace ProviiAudit

open Runs (Run)
open Utf8 (Text)

structure System where
  /-- The bodies of all messages ever sent. -/
  sent : List Text
  db : Database

def System.initial : System := ⟨[], ⟨[], []⟩⟩

/-- The statements that the workers may execute in a state of the system. -/
abbrev Workers := System → Statement → Prop

/-- The event in a message, with the id that the queue gave to the message. -/
def Received (J : Json.Codec) (body : Text) (event : AuditEvent) : Prop :=
  ∃ e messageId, AuditEvent.fromJson J body = some e ∧ event = { e with queueMessageId := messageId }

/-- The workers insert only what they deserialise from messages of the queue. -/
def FromQueue (J : Json.Codec) (workers : Workers) : Prop :=
  ∀ s e, workers s (.insertEvent e) → ∃ body ∈ s.sent, Received J body e

inductive Action
  | log (c : Call)
  | execute (statement : Statement)

inductive Step (J : Json.Codec) (C : Crypto) (workers : Workers) : System → Action → System → Prop
  | log (s : System) (c : Call) : Step J C workers s (.log c)
      { s with sent := s.sent ++ (c.result C).2.sink.map (AuditEvent.toJson J) }
  | execute (s : System) (statement : Statement) (db : Database) :
      workers s statement → Exec s.db statement db →
      Step J C workers s (.execute statement) { s with db := db }

/-- What an action does to the database. -/
def Action.statements : Action → List Statement
  | .log _ => []
  | .execute statement => [statement]

def executed (acts : List Action) : List Statement := acts.flatMap Action.statements

variable {J : Json.Codec} {C : Crypto} {workers : Workers} {s t : System} {a : Action}
  {acts : List Action} {e : AuditEvent} {body : Text} {db : Database}

theorem executed_snoc : executed (acts ++ [a]) = executed acts ++ a.statements := by
  rw [executed, List.flatMap_append, List.flatMap_singleton, executed]

/-- The system refines the database. -/
theorem database_of_step (h : Step J C workers s a t) : Run Exec s.db a.statements t.db := by
  cases h with
  | log c => exact .nil
  | execute statement db _ hexec => exact .single hexec

theorem database_of_run (h : Run (Step J C workers) s acts t) :
    Run Exec s.db (executed acts) t.db := by
  induction h with
  | nil => exact .nil
  | snoc _ hstep ih =>
    rw [executed_snoc]
    exact ih.append (database_of_step hstep)

/-- The event of a logged call as it comes back from the queue. -/
def Logged (C : Crypto) (acts : List Action) (event : AuditEvent) : Prop :=
  ∃ c e messageId, Action.log c ∈ acts ∧ Call.Passes C c ∧ Call.Builds C c e ∧
    event = { e with queueMessageId := messageId }

theorem Logged.append {more : List Action} (h : Logged C acts e) : Logged C (acts ++ more) e := by
  obtain ⟨c, e, messageId, hlog, hrest⟩ := h
  exact ⟨c, e, messageId, List.mem_append_left _ hlog, hrest⟩

theorem sent_of_run (h : Run (Step J C workers) .initial acts s) (hbody : body ∈ s.sent) :
    ∃ c e, Action.log c ∈ acts ∧ Call.Passes C c ∧ Call.Builds C c e ∧ body = e.toJson J := by
  induction h with
  | nil => simp [System.initial] at hbody
  | @snoc acts a s t _ hstep ih =>
    have hold : body ∈ s.sent → ∃ c e, Action.log c ∈ acts ++ [a] ∧ Call.Passes C c ∧
        Call.Builds C c e ∧ body = e.toJson J := by
      intro hmem
      obtain ⟨c, e, hlog, hrest⟩ := ih hmem
      exact ⟨c, e, List.mem_append_left _ hlog, hrest⟩
    cases hstep with
    | log c =>
      rcases List.mem_append.mp hbody with hmem | hmem
      · exact hold hmem
      · obtain ⟨e, he, rfl⟩ := List.mem_map.mp hmem
        obtain ⟨o, hdelivers, hsink⟩ := Call.sink_delivers C c
        obtain rfl : o = some e := by
          rw [hsink] at he
          simpa using he
        exact ⟨c, e, by simp, hdelivers.passes.mp (by simp), hdelivers.builds e rfl, rfl⟩
    | execute statement db _ _ => exact hold hbody

theorem logged_of_received (h : Run (Step J C workers) .initial acts s) (hbody : body ∈ s.sent)
    (hreceived : Received J body e) : Logged C acts e := by
  obtain ⟨c, e', hlog, hpasses, hbuilds, rfl⟩ := sent_of_run h hbody
  obtain ⟨f, messageId, hdecoded, heq⟩ := hreceived
  rw [AuditEvent.fromJson_toJson, Option.some.injEq] at hdecoded
  subst hdecoded
  exact ⟨c, e', messageId, hlog, hpasses, hbuilds, heq⟩

/-- Whatever is inserted was logged. -/
theorem logged_of_run (hqueue : FromQueue J workers) (h : Run (Step J C workers) .initial acts s)
    (he : e ∈ inserted (executed acts)) : Logged C acts e := by
  induction h with
  | nil => simp [executed, inserted] at he
  | @snoc acts a s t hrun hstep ih =>
    rw [executed_snoc, inserted_append] at he
    rcases List.mem_append.mp he with hmem | hmem
    · exact (ih hmem).append
    · cases hstep with
      | log c => simp [Action.statements, inserted] at hmem
      | execute statement db hworkers _ =>
        obtain rfl : .insertEvent e = statement := by
          simpa [Action.statements] using mem_inserted.mp hmem
        obtain ⟨body, hbody, hreceived⟩ := hqueue s e hworkers
        exact (logged_of_received hrun hbody hreceived).append

/-- A row comes from a logged call. -/
theorem logged_of_row {row : Row} (hqueue : FromQueue J workers)
    (h : Run (Step J C workers) .initial acts s) (hrow : row ∈ s.db.events) :
    ∃ e, Logged C acts e ∧ row = storedRow e := by
  rcases row_of_run (database_of_run h) hrow with hnone | ⟨e, he, rfl⟩
  · simp [System.initial] at hnone
  · exact ⟨e, logged_of_run hqueue h he, rfl⟩

/-- One row holds the event id, as long as no deletion takes the age of an event with it. -/
theorem stored_once {digests : List Row} {history : List Statement}
    (h : Run Exec ⟨[], digests⟩ history db) (he : e ∈ inserted history)
    (hlives : ∀ f ∈ inserted history, f.eventId = e.eventId → Outlives history f) :
    (db.events.map Row.eventId).count (some e.eventId) = 1 := by
  obtain ⟨f, hfirst⟩ : ∃ f, (inserted history).find? (fun f => f.eventId = e.eventId) = some f :=
    Option.isSome_iff_exists.mp (List.find?_isSome.mpr ⟨e, he, decide_eq_true rfl⟩)
  have hid : f.eventId = e.eventId := by simpa using List.find?_some hfirst
  have hmem : f ∈ inserted history := List.mem_of_find?_eq_some hfirst
  rw [← hid] at hfirst ⊢
  have hrow : storedRow f ∈ db.events := first_kept h rfl hfirst (hlives f hmem hid)
  apply List.count_eq_one_of_mem (ids_nodup_run h (by simp))
  exact List.mem_map.mpr ⟨_, hrow, storedRow_id f⟩

/-- Whatever workers insert what they find in the queue, each row holds an event that a logged call
built, as it came back from the queue; and an event that was inserted once or more has one row, as
long as no deletion takes its age. -/
theorem system_run (J : Json.Codec) (C : Crypto) (workers : Workers) (hqueue : FromQueue J workers)
    (acts : List Action) (s : System) (h : Run (Step J C workers) .initial acts s) :
    (∀ row ∈ s.db.events, ∃ e, Logged C acts e ∧ row = storedRow e) ∧
    ∀ e ∈ inserted (executed acts),
      (∀ f ∈ inserted (executed acts), f.eventId = e.eventId → Outlives (executed acts) f) →
      (s.db.events.map Row.eventId).count (some e.eventId) = 1 :=
  ⟨fun _ hrow => logged_of_row hqueue h hrow,
    fun _ he hlives => stored_once (database_of_run h) he hlives⟩

/-- Workers that insert each event they receive, as often as they receive it, and sweep. -/
def queueWorkers (J : Json.Codec) : Workers
  | s, .insertEvent e => ∃ body ∈ s.sent, Received J body e
  | _, .insertDigest _ => True
  | _, .deleteOlder _ _ => True

theorem queueWorkers_fromQueue (J : Json.Codec) : FromQueue J (queueWorkers J) := fun _ _ h => h

/-- A call with personal data in each of its fields. -/
def visitParams : AuditParams :=
  { clientParams with
    origin := "https://shop.example".toList
    message := "login,carol@example.com,10.0.0.1".toList
    details := "\x7b\"dob\":\"1990-05-17\"\x7d".toList }

def visit : Call :=
  ⟨sampleLogger, { zeroHost with currentTimestampMs := 1690000000000 }, visitParams⟩

/-- The same call four months later. -/
def laterVisit : Call :=
  ⟨sampleLogger, ⟨.ok ⟨List.replicate 16 1, rfl⟩, 1700000000000⟩, visitParams⟩

def visitEvent : AuditEvent :=
  { clientEvent with
    timestampMs := 1690000000000
    origin := "9a6be7f2b894790676c9d42b3ec2f93951c4571b1e25c4322408838a7e5340d8".toList
    message := "login,[REDACTED_EMAIL],[REDACTED_IP]".toList
    details := "\x7b\"dob\":\"[REDACTED_DOB]\"\x7d".toList
    createdAt := "2023-07-22T04:26:40.000Z".toList }

def laterEvent : AuditEvent :=
  { visitEvent with
    eventId := "01010101010141018101010101010101".toList
    timestampMs := 1700000000000
    createdAt := "2023-11-14T22:13:20.000Z".toList }

/-- The event as the queue delivers it under an id. -/
def delivered (e : AuditEvent) (messageId : String) : AuditEvent :=
  { e with queueMessageId := messageId.toList }

/-- The first message is delivered twice, and the deletion finds nothing of its age. -/
def visitActs : List Action :=
  [.log visit, .execute (.insertEvent (delivered visitEvent "m1")), .log laterVisit,
    .execute (.insertEvent (delivered laterEvent "m2")),
    .execute (.insertEvent (delivered visitEvent "m3")), .execute (.deleteOlder 1680000000000 10)]

def visitState : System :=
  ⟨[visitEvent.toJson Json.compact, laterEvent.toJson Json.compact],
    ⟨[storedRow (delivered visitEvent "m1"), storedRow (delivered laterEvent "m2")], []⟩⟩

theorem visit_sink : (visit.result clientCrypto).2.sink = [visitEvent] := by decide +kernel

theorem laterVisit_sink : (laterVisit.result clientCrypto).2.sink = [laterEvent] := by
  decide +kernel

theorem visit_log {c : Call} (bodies : List Text) (db : Database)
    (hsink : (c.result clientCrypto).2.sink = [e]) :
    Step Json.compact clientCrypto (queueWorkers Json.compact) ⟨bodies, db⟩ (.log c)
      ⟨bodies ++ [e.toJson Json.compact], db⟩ := by
  have hstep : Step Json.compact clientCrypto (queueWorkers Json.compact) ⟨bodies, db⟩ (.log c) _ :=
    .log _ _
  rwa [hsink] at hstep

theorem visit_insert {bodies : List Text} (events : List Row) (e : AuditEvent) (messageId : String)
    (hbody : e.toJson Json.compact ∈ bodies) :
    Step Json.compact clientCrypto (queueWorkers Json.compact) ⟨bodies, ⟨events, []⟩⟩
      (.execute (.insertEvent (delivered e messageId)))
      ⟨bodies, ⟨KeyedTable.insertNew Row.eventId events (storedRow (delivered e messageId)), []⟩⟩ := by
  rw [← insertOrIgnore_eq_insertNew]
  exact .execute _ _ _ ⟨_, hbody, e, _, e.fromJson_toJson Json.compact, rfl⟩ (.insertEvent _ _)

theorem visit_kept : Exec visitState.db (.deleteOlder 1680000000000 10) visitState.db := by
  have hfirst : ¬ (storedRow (delivered visitEvent "m1")).Older 1680000000000 :=
    storedRow_not_older (by decide)
  have hlater : ¬ (storedRow (delivered laterEvent "m2")).Older 1680000000000 :=
    storedRow_not_older (by decide)
  refine .deleteOlder _ _ _ 0 _ ⟨.refl _, ?_⟩
  simp [KeyedTable.taken, visitState, hfirst, hlater]

theorem visit_run :
    Run (Step Json.compact clientCrypto (queueWorkers Json.compact)) .initial visitActs visitState := by
  have hids : laterEvent.eventId ≠ visitEvent.eventId := by decide
  have htable : KeyedTable.insertNew Row.eventId (KeyedTable.insertNew Row.eventId
      (KeyedTable.insertNew Row.eventId [] (storedRow (delivered visitEvent "m1")))
        (storedRow (delivered laterEvent "m2"))) (storedRow (delivered visitEvent "m3")) =
      visitState.db.events := by
    simp [KeyedTable.insertNew, storedRow_id, delivered, hids, visitState]
  have hinserted : Run (Step Json.compact clientCrypto (queueWorkers Json.compact)) .initial
      [.log visit, .execute (.insertEvent (delivered visitEvent "m1")), .log laterVisit,
        .execute (.insertEvent (delivered laterEvent "m2")),
        .execute (.insertEvent (delivered visitEvent "m3"))] visitState := by
    have hfirst := (Run.single (visit_log [] ⟨[], []⟩ visit_sink)).snoc
      (visit_insert [] visitEvent "m1" (by simp))
    have hlater := (hfirst.snoc (visit_log _ _ laterVisit_sink)).snoc
      (visit_insert _ laterEvent "m2" (by simp))
    have hagain := hlater.snoc (visit_insert _ visitEvent "m3" (by simp))
    rw [htable] at hagain
    exact hagain
  exact hinserted.snoc (.execute _ _ _ trivial visit_kept)

theorem system_run_sample :
    (∀ row ∈ visitState.db.events, ∃ e, Logged clientCrypto visitActs e ∧ row = storedRow e) ∧
    (visitState.db.events.map Row.eventId).count (some visitEvent.eventId) = 1 := by
  obtain ⟨hrows, hone⟩ := system_run Json.compact clientCrypto (queueWorkers Json.compact)
    (queueWorkers_fromQueue Json.compact) visitActs visitState visit_run
  refine ⟨hrows, hone (delivered visitEvent "m1") (by simp [executed, visitActs,
    Action.statements, inserted]) fun f hf hid cutoff limit hmem => ?_⟩
  obtain ⟨rfl, rfl⟩ : cutoff = 1680000000000 ∧ limit = 10 := by
    simpa [executed, visitActs, Action.statements] using hmem
  have hf' : f = delivered visitEvent "m1" ∨ f = delivered laterEvent "m2" ∨
      f = delivered visitEvent "m3" := by
    simpa [executed, visitActs, Action.statements, inserted] using hf
  rcases hf' with rfl | rfl | rfl <;> decide

end ProviiAudit
