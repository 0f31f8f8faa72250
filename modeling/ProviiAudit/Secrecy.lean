import ProviiAudit.Correlation
import ProviiAudit.Pipeline
import ProviiAudit.Revalidation
import ProviiAudit.Sanitize.FixedPoint
import ProviiAudit.Sanitize.Items

/-! What is left of personal data: the trail has hashes of client data and sanitised text, and
cannot tell apart what these do not. -/
namespace ProviiAudit

open Runs (Run)
open Utf8 (Text asBytes byteOf)

/-- The calls differ in personal data alone, and there in nothing that a hash or the sanitiser
shows. -/
structure Call.Twin (C : Crypto) (c d : Call) : Prop where
  logger : d.logger = c.logger
  host : d.host = c.host
  rest : d.params = { c.params with
    rawIp := d.params.rawIp
    rawUserAgent := d.params.rawUserAgent
    origin := d.params.origin
    message := d.params.message
    details := d.params.details }
  checked : Call.Checked c.params ↔ Call.Checked d.params
  hashes : ∀ k : HashedField, hashUnlessEmpty (k.hash C c.logger.privacy) (k.raw c.params) =
    hashUnlessEmpty (k.hash C c.logger.privacy) (k.raw d.params)
  message : stripPii c.params.message = stripPii d.params.message
  details : stripPii c.params.details = stripPii d.params.details

/-- The sanitiser replaces the word as a whole. -/
inductive Personal : Text → Text → Prop
  | ipv6 {w : Text} : ipv6At (asBytes w) 0 = some (asBytes w).length → Personal w redactedIp
  | ipv4 {w : Text} : ipv4At (asBytes w) 0 = some (asBytes w).length → Personal w redactedIp
  | email {w : Text} {i : Nat} : IsAddress (asBytes w) i → Personal w redactedEmail
  | dob {w : Text} : dobAt (asBytes w) 0 = some (asBytes w).length → Personal w redactedDob

/-- Equal words, or personal data of one kind. -/
def SameKind (w w' : Text) : Prop := w = w' ∨ ∃ R, Personal w R ∧ Personal w' R

variable {C : Crypto} {c d : Call} {host : Host} {hashed : Hashes} {b : AuditEventBuilder}
  {e : AuditEvent} {calls calls' : List Call} {st : Trace}

/-- The builder uses of the free text only what the sanitiser leaves. -/
theorem build_congr {m n : Text} (hm : stripPii m = stripPii b.message)
    (hn : stripPii n = stripPii b.details) :
    ({ b with message := m, details := n }).build C host = b.build C host := by
  have hrequire : requireNonEmpty "message" m = requireNonEmpty "message" b.message := by
    have hnil : m = [] ↔ b.message = [] := by
      rw [← stripPii_eq_nil_iff, hm, stripPii_eq_nil_iff]
    rw [requireNonEmpty, requireNonEmpty]
    by_cases h : m = []
    · rw [h, hnil.mp h]
    · rw [if_neg (by simpa using h), if_neg (by simpa using mt hnil.mpr h)]
  simp only [AuditEventBuilder.build, hrequire, hm, hn]

theorem prepare_twin (h : Call.Twin C c d) (hc : c.logger.prepare C c.params = .ok hashed) :
    c.logger.prepare C d.params = .ok hashed := by
  obtain ⟨hprimary, hsecondary, hip, hua, horigin⟩ := prepare_ok_iff.mp hc
  obtain ⟨hprimary', hsecondary'⟩ := h.checked.mp ⟨hprimary, hsecondary⟩
  exact prepare_ok_iff.mpr ⟨hprimary', hsecondary', (h.hashes .clientIp).symm.trans hip,
    (h.hashes .userAgent).symm.trans hua, (h.hashes .origin).symm.trans horigin⟩

theorem consoleLine_twin (h : Call.Twin C c d) :
    c.logger.consoleLine d.params hashed = c.logger.consoleLine c.params hashed := by
  rw [h.rest]
  rfl

theorem build_twin (h : Call.Twin C c d) :
    (c.logger.builder d.params hashed).build C host =
      (c.logger.builder c.params hashed).build C host := by
  have hbuilder : c.logger.builder d.params hashed = { c.logger.builder c.params hashed with
      message := d.params.message
      details := d.params.details } := by
    conv_lhs => rw [h.rest]
    rfl
  rw [hbuilder]
  exact build_congr h.message.symm h.details.symm

theorem trace_twin (h : Call.Twin C c d) : (d.result C).2 = (c.result C).2 := by
  rw [Call.result, Call.result, h.logger, h.host, AuditLogger.logEvent, AuditLogger.logEvent]
  cases hprepare : c.logger.prepare C c.params with
  | ok hashed =>
    rw [prepare_twin h hprepare]
    dsimp only
    rw [consoleLine_twin h, build_twin h]
  | error err =>
    have hno : ¬ Call.Checked d.params := by
      rw [← h.checked]
      intro hchecked
      obtain ⟨hashed, hok⟩ := Call.prepare_of_checked C hchecked
      cases hprepare.symm.trans hok
    obtain ⟨field, reason, herr⟩ := Call.prepare_of_not_checked C hno
    rw [← h.logger, herr]

theorem run_twin (h : List.Forall₂ (Call.Twin C) calls calls') :
    Call.run C st calls' = Call.run C st calls := by
  induction h generalizing st with
  | nil => rfl
  | @cons c d calls calls' hcall _ ih =>
    have hstep : Call.step C st d = Call.step C st c := by
      rw [Call.step, Call.step, trace_twin hcall]
    have hrun : ∀ c calls, Call.run C st (c :: calls) = Call.run C (Call.step C st c) calls :=
      fun _ _ => rfl
    rw [hrun, hrun, hstep, ih]

theorem Personal.stripPii_eq {w R : Text} (h : Personal w R) : stripPii w = R := by
  cases h with
  | ipv6 h => exact stripPii_ipv6 h
  | ipv4 h => exact stripPii_ipv4 h
  | email h => exact stripPii_address h
  | dob h => exact stripPii_dob h

theorem stripPii_same_kinds {sep : Char} {words words' : List Text} (hsep : isMixing sep = false)
    (hwords : ∀ w ∈ words ++ words', ChainFree (stripIpv4 (stripIpv6 w)))
    (h : List.Forall₂ SameKind words words') :
    stripPii ([sep].intercalate words) = stripPii ([sep].intercalate words') := by
  have hmap : words.map stripPii = words'.map stripPii := by
    clear hwords
    induction h with
    | nil => rfl
    | @cons w w' words words' hw _ ih =>
      have hword : stripPii w = stripPii w' := by
        rcases hw with rfl | ⟨R, hw, hw'⟩
        · rfl
        · exact hw.stripPii_eq.trans hw'.stripPii_eq.symm
      rw [List.map_cons, List.map_cons, hword, ih]
  rw [stripPii_intercalate hsep fun w hw => hwords w (List.mem_append_left _ hw),
    stripPii_intercalate hsep fun w hw => hwords w (List.mem_append_right _ hw), hmap]

def visitWords : List Text :=
  ["login".toList, "carol@example.com".toList, "10.0.0.1".toList]

/-- Another visitor, from another address. -/
def otherWords : List Text :=
  ["login".toList, "d.van-dam@mail.example.org".toList, "192.168.100.200".toList]

def otherVisit : Call :=
  { visit with params := { visitParams with message := [','].intercalate otherWords } }

theorem other_words : List.Forall₂ SameKind visitWords otherWords := by
  have hcarol : Personal "carol@example.com".toList redactedEmail :=
    @Personal.email _ 5 (by decide)
  have hother : Personal "d.van-dam@mail.example.org".toList redactedEmail :=
    @Personal.email _ 9 (by decide)
  exact .cons (.inl rfl) (.cons (.inr ⟨_, hcarol, hother⟩)
    (.cons (.inr ⟨_, .ipv4 (by decide), .ipv4 (by decide)⟩) .nil))

def HashedField.column : HashedField → Text
  | clientIp => "client_ip_hash".toList
  | userAgent => "user_agent_hash".toList
  | origin => "origin".toList

theorem storedRow_hash (k : HashedField) : (storedRow e).value k.column = some (k.stored e) := by
  apply Row.value_of_mem storedRow_nodup
  cases k with
  | clientIp => exact List.mem_iff_getElem?.mpr ⟨5, rfl⟩
  | userAgent => exact List.mem_iff_getElem?.mpr ⟨7, rfl⟩
  | origin => exact List.mem_iff_getElem?.mpr ⟨6, rfl⟩

theorem storedRow_message : (storedRow e).value "message".toList = some e.message :=
  Row.value_of_mem storedRow_nodup (List.mem_iff_getElem?.mpr ⟨9, rfl⟩)

theorem storedRow_details : (storedRow e).value "details".toList = some e.details :=
  Row.value_of_mem storedRow_nodup (List.mem_iff_getElem?.mpr ⟨10, rfl⟩)

/-- The hashes of a built event. -/
theorem stored_of_builds (h : Call.Builds C c e) (k : HashedField) :
    hashUnlessEmpty (k.hash C c.logger.privacy) (k.raw c.params) = .ok (k.stored e) := by
  obtain ⟨hashed, hprepare, hbuild⟩ := h
  obtain ⟨-, -, -, -, heq⟩ := build_ok_iff.mp hbuild
  obtain ⟨-, -, hip, hua, horigin⟩ := prepare_ok_iff.mp hprepare
  generalize isoTimestamp c.host.currentTimestampMs = createdAt at heq
  rw [heq]
  cases k with
  | clientIp => exact hip
  | userAgent => exact hua
  | origin => exact horigin

/-- Whatever workers insert what they find in the queue, each row comes of a logged call, and has
the hashes of its client data and its text as the sanitiser leaves it: without IPv4 addresses, email
addresses and dates of birth. -/
theorem rows_sanitised (J : Json.Codec) (C : Crypto) (workers : Workers)
    (hqueue : FromQueue J workers) (acts : List Action) (s : System)
    (h : Run (Step J C workers) .initial acts s) (row : Row) (hrow : row ∈ s.db.events) :
    ∃ c, Action.log c ∈ acts ∧
      (∀ k : HashedField, ∃ v, row.value k.column = some v ∧
        hashUnlessEmpty (k.hash C c.logger.privacy) (k.raw c.params) = .ok v) ∧
      row.value "message".toList = some (stripPii c.params.message) ∧
      row.value "details".toList = some (stripPii c.params.details) ∧
      ∀ text ∈ [c.params.message, c.params.details], ChainFree (stripIpv4 (stripIpv6 text)) →
        (∀ i, ipv4At (asBytes (stripPii text)) i = none) ∧
        (∀ i, (asBytes (stripPii text))[i]? = some (byteOf '@') →
          scanEmailDomainForward (asBytes (stripPii text)) (i + 1) = none ∨
            scanEmailLocalBack (asBytes (stripPii text)) i = i) ∧
        ∀ i, dobAt (asBytes (stripPii text)) i = none := by
  obtain ⟨_, ⟨c, e, messageId, hlog, -, hbuilds, rfl⟩, rfl⟩ := logged_of_row hqueue h hrow
  have hstored : ∀ k : HashedField,
      k.stored { e with queueMessageId := messageId } = k.stored e := by
    intro k
    cases k <;> rfl
  obtain ⟨hmessage, hdetails⟩ : e.message = stripPii c.params.message ∧
      e.details = stripPii c.params.details := by
    obtain ⟨hashed, -, hbuild⟩ := hbuilds
    exact (build_text hbuild).2
  refine ⟨c, hlog, fun k => ⟨_, storedRow_hash k, ?_⟩, ?_, ?_, ?_⟩
  · rw [hstored]
    exact stored_of_builds hbuilds k
  · rw [storedRow_message, hmessage]
  · rw [storedRow_details, hdetails]
  · intro text _ ht
    obtain ⟨h4, he, hd⟩ := stripPii_clean ht
    rw [ipv4At_eq, dobAt_eq, ← noAddress_iff]
    exact ⟨Recogniser.clean_iff.mp h4, noAddress_of_clean he, Recogniser.clean_iff.mp hd⟩

theorem rows_sanitised_sample : ∃ c, Action.log c ∈ visitActs ∧ c.params = visitParams ∧
    (∀ k : HashedField, ∃ v, (storedRow (delivered visitEvent "m1")).value k.column = some v ∧
      hashUnlessEmpty (k.hash clientCrypto c.logger.privacy) (k.raw c.params) = .ok v) ∧
    (storedRow (delivered visitEvent "m1")).value "message".toList =
      some (stripPii visitParams.message) ∧
    (storedRow (delivered visitEvent "m1")).value "details".toList =
      some (stripPii visitParams.details) ∧
    ∀ i, ipv4At (asBytes (stripPii visitParams.message)) i = none := by
  obtain ⟨c, hlog, hhashes, hmessage, hdetails, hclean⟩ := rows_sanitised Json.compact clientCrypto
    (queueWorkers Json.compact) (queueWorkers_fromQueue Json.compact) visitActs visitState visit_run
    (storedRow (delivered visitEvent "m1")) (by simp [visitState])
  obtain hparams : c.params = visitParams := by
    have hcases : c = visit ∨ c = laterVisit := by simpa [visitActs] using hlog
    rcases hcases with rfl | rfl <;> rfl
  rw [hparams] at hmessage hdetails hclean
  have hchain : ChainFree (stripIpv4 (stripIpv6 visitParams.message)) :=
    chainFree_of_count (by decide)
  exact ⟨c, hlog, hparams, hhashes, hmessage, hdetails, (hclean _ (by simp) hchain).1⟩

end ProviiAudit
