import ProviiAudit.Calls
import ProviiAudit.Wire

/-! Calls whose sink is the queue: what they return tells whether the queue has their event. -/
namespace ProviiAudit

open Utf8 (Text)

/-- `QueueAuditSink::write`. A queue is what it answers to a message. -/
def queueWrite (J : Json.Codec) (send : Text → Except Text Unit) (event : AuditEvent) :
    Except AuditError Unit :=
  match send (event.toJson J) with
  | .ok () => .ok ()
  | .error e => .error (.queueError ("Queue send failed: ".toList ++ e))

/-- A call of a logger over a queue. -/
structure QueueCall where
  send : Text → Except Text Unit
  privacy : PrivacyContext
  sourceService : Text
  host : Host
  params : AuditParams

namespace QueueCall

def call (J : Json.Codec) (q : QueueCall) : Call :=
  ⟨⟨some (queueWrite J q.send), q.privacy, q.sourceService⟩, q.host, q.params⟩

/-- The messages that the queue takes. -/
def enqueued (J : Json.Codec) (C : Crypto) (q : QueueCall) : List Text :=
  (((q.call J).result C).2.sink.map (AuditEvent.toJson J)).filter fun body => (q.send body).isOk

variable {J : Json.Codec} {C : Crypto} {q : QueueCall} {calls : List QueueCall}

/-- What a call tells of the message that it may have left in the queue. -/
structure Tells (J : Json.Codec) (C : Crypto) (q : QueueCall) (o : Option Text) : Prop where
  ok_iff : ((q.call J).result C).1 = .ok () ↔ o ≠ none
  message : ∀ body ∈ o, ∃ e, Call.Builds C (q.call J) e ∧ body = e.toJson J ∧
    AuditEvent.fromJson J body = some e
  refused : (∃ context, ((q.call J).result C).1 = .error (.queueError context)) ↔
    ((q.call J).result C).2.sink ≠ [] ∧ o = none

theorem exists_told (J : Json.Codec) (C : Crypto) (q : QueueCall) :
    ∃ o, Tells J C q o ∧ q.enqueued J C = o.toList := by
  rw [enqueued]
  rcases Call.result_cases C (q.call J) with ⟨-, field, reason, h⟩ | ⟨-, -, field, reason, line, h⟩ |
    ⟨-, -, -, reason, line, h⟩ | ⟨-, -, -, e, line, hbuilds, ⟨hnone, -⟩ | ⟨write, hwrite, h⟩⟩
  · exact ⟨none, ⟨by simp [h], by simp, by simp [h]⟩, by simp [h]⟩
  · exact ⟨none, ⟨by simp [h], by simp, by simp [h]⟩, by simp [h]⟩
  · exact ⟨none, ⟨by simp [h], by simp, by simp [h]⟩, by simp [h]⟩
  · cases hnone
  · obtain rfl : queueWrite J q.send = write := Option.some.inj hwrite
    cases hsend : q.send (e.toJson J) with
    | ok u =>
      have hok : queueWrite J q.send e = .ok () := by rw [queueWrite, hsend]
      rw [hok] at h
      refine ⟨some (e.toJson J), ⟨by simp [h], ?_, by simp [h]⟩, ?_⟩
      · intro body hbody
        obtain rfl := Option.some.inj hbody
        exact ⟨e, hbuilds, rfl, e.fromJson_toJson J⟩
      · simp [h, hsend, Except.isOk, Except.toBool]
    | error context =>
      have herr : queueWrite J q.send e =
          .error (.queueError ("Queue send failed: ".toList ++ context)) := by
        rw [queueWrite, hsend]
      rw [herr] at h
      exact ⟨none, ⟨by simp [h], by simp, by simp [h]⟩,
        by simp [h, hsend, Except.isOk, Except.toBool]⟩

end QueueCall

/-- In every run the queue has one message for each call that returned `Ok`, in the order of the
calls and with the event that was built; and a call left its event behind without a message exactly
when it returned the error of the queue. -/
theorem queue_run (J : Json.Codec) (C : Crypto) (calls : List QueueCall) :
    ∃ os, List.Forall₂ (QueueCall.Tells J C) calls os ∧
      calls.flatMap (QueueCall.enqueued J C) = os.reduceOption := by
  induction calls with
  | nil => exact ⟨[], .nil, rfl⟩
  | cons q calls ih =>
    obtain ⟨o, ho, hq⟩ := q.exists_told J C
    obtain ⟨os, hos, hrest⟩ := ih
    refine ⟨o :: os, .cons ho hos, ?_⟩
    rw [List.flatMap_cons, hq, hrest]
    cases o with
    | none => exact (List.reduceOption_cons_of_none os).symm
    | some body => exact (List.reduceOption_cons_of_some body os).symm

end ProviiAudit
