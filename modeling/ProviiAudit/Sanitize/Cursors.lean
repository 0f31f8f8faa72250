import ProviiAudit.Sanitize.MachineParsers

/-! The cursors of the four scanners: between characters, moving on, and never wrapping. -/
namespace ProviiAudit

open Utf8 (Text asBytes byteOf IsCharBoundary)
open Machine (PointerWidth)
open Words (Comp Flow Visits)

variable {width : PointerWidth} {input R : Text} {st : Cursor} {i stop : Nat} {wrapped : Bool}

/-- In front of a character a step wraps nowhere and takes the cursor to a later boundary. -/
structure StepSafe (machineStep : Text → Cursor → Comp Cursor) (step : Text → Cursor → Cursor)
    (input : Text) : Prop where
  runs : ∀ st, IsCharBoundary input st.i → st.i < (asBytes input).length →
    machineStep input st = pure (step input st)
  boundary : ∀ st, IsCharBoundary input st.i → st.i < (asBytes input).length →
    IsCharBoundary input (step input st).i
  advances : ∀ st, st.i < (step input st).i

theorem copyChar_machine (hfits : Fits width (asBytes input)) (hb : IsCharBoundary input st.i)
    (hlt : st.i < (asBytes input).length) :
    Machine.copyChar width input st = pure (copyChar input st) := by
  obtain ⟨c, hc, hnext⟩ := hb.charAt hlt
  simp only [Machine.copyChar, copyChar, hc]
  rw [hfits.add hlt.le (c.utf8Size_le_four.trans (by decide)), pure_bind]

theorem redact_machine (hfits : Fits width (asBytes input)) (hlt : st.i < (asBytes input).length) :
    Machine.redact width stop R st = pure ⟨max stop (st.i + 1), R⟩ := by
  rw [Machine.redact, hfits.add hlt.le (by decide), pure_bind]

theorem redactStep_safe (r : Recogniser) {recognise : Text → Nat → Comp (Option Nat)}
    (hfits : Fits width (asBytes input)) (hrecognise : ∀ {i}, i ≤ (asBytes input).length →
      recognise input i = pure (r.find (asBytes input) i)) :
    StepSafe (Machine.redactStep width recognise R) (redactStep r.find R) input where
  runs st hb hlt := by
    rw [Machine.redactStep, redactStep, hrecognise hlt.le, pure_bind]
    cases r.find (asBytes input) st.i with
    | none => exact copyChar_machine hfits hb hlt
    | some stop => exact redact_machine hfits hlt
  boundary st hb hlt := by
    obtain ⟨i, out⟩ := st
    obtain ⟨x, y, rfl, rfl⟩ := hb
    cases hm : r.matcher.len x.getLast? y with
    | none =>
      cases y with
      | nil => simp at hlt
      | cons c y =>
        rw [redactStep_keep hm]
        exact ⟨x ++ [c], y, by simp, rfl⟩
    | some n =>
      obtain ⟨w, y, rfl, rfl⟩ := Span.exists_split (r.matcher.le hm)
      rw [redactStep_redact hm]
      exact ⟨x ++ w, y, by simp, rfl⟩
  advances := redactStep_advances r.find R input

theorem scanEmailLocalBack_le (bytes : Bytes) (pos : Nat) : scanEmailLocalBack bytes pos ≤ pos := by
  induction pos with
  | zero => exact le_rfl
  | succ pos ih =>
    rw [scanEmailLocalBack]
    split_ifs
    · exact Nat.le_succ_of_le ih
    · exact le_rfl

theorem emailStep_safe (hfits : Fits width (asBytes input)) :
    StepSafe (Machine.emailStep width) emailStep input where
  runs st hb hlt := by
    have hcopy := copyChar_machine hfits hb hlt
    have hback := scanEmailLocalBack_le (asBytes input) st.i
    have hdomain : Machine.scanEmailDomainForward width (asBytes input) (st.i + 1) =
        pure (scanEmailDomainForward (asBytes input) (st.i + 1)) :=
      scanEmailDomainForward_machine hfits hlt
    rw [Machine.emailStep, emailStep]
    by_cases hat : (asBytes input)[st.i]? = some (byteOf '@')
    · simp only [hat, if_true, scanEmailLocalBack_machine hfits hlt.le,
        hfits.add hlt.le (by decide : 1 ≤ 10), hdomain, hfits.sub hback (by omega), pure_bind,
        redact_machine hfits hlt, hcopy]
      cases scanEmailDomainForward (asBytes input) (st.i + 1) with
      | none => rfl
      | some domainEnd =>
        dsimp only
        split_ifs <;> rfl
    · simp only [hat, if_false]
      exact hcopy
  boundary st hb hlt := by
    obtain ⟨i, out⟩ := st
    obtain ⟨x, y, rfl, rfl⟩ := hb
    cases y with
    | nil => simp at hlt
    | cons c y =>
      by_cases hmatch : c = '@' ∧ addressLen x y ≠ none
      · obtain ⟨rfl, hsome⟩ := hmatch
        obtain ⟨n, hn⟩ := Option.ne_none_iff_exists'.mp hsome
        have hle : n ≤ y.length := by simpa using domainLen_le (addressLen_some_iff.mp hn).2
        obtain ⟨w, y, rfl, rfl⟩ := Span.exists_split hle
        rw [emailStep_redact hn]
        exact ⟨x ++ '@' :: w, y, by simp, rfl⟩
      · rw [emailStep_keep fun hc => by_contra fun hne => hmatch ⟨hc, hne⟩]
        exact ⟨x ++ [c], y, by simp, rfl⟩
  advances := emailStep_advances input

section loops

variable {machineStep : Text → Cursor → Comp Cursor} {step : Text → Cursor → Cursor}

theorem StepSafe.turn (h : StepSafe machineStep step input) (hb : IsCharBoundary input st.i)
    (hlt : st.i < (asBytes input).length) :
    Machine.turn machineStep input st = pure (.next (step input st)) := by
  rw [Machine.turn, inside, if_pos (by simpa using hlt), h.runs st hb hlt, pure_bind]

theorem turn_done (hge : ¬ st.i < (asBytes input).length) :
    Machine.turn machineStep input st = pure (.done st.result) := by
  rw [Machine.turn, inside, if_neg (by simpa using hge)]

/-- The cursor is between characters whenever the loop condition is tested. -/
theorem StepSafe.visits (h : StepSafe machineStep step input)
    (hvisit : Visits (Machine.turn machineStep input) ⟨0, []⟩ st wrapped) :
    IsCharBoundary input st.i ∧ wrapped = false := by
  refine hvisit.invariant (P := fun st => IsCharBoundary input st.i) (fun st hb => ?_)
    ⟨[], input, rfl, rfl⟩
  by_cases hlt : st.i < (asBytes input).length
  · exact .inr ⟨_, h.turn hb hlt, h.boundary st hb hlt⟩
  · exact .inl ⟨_, turn_done hlt⟩

theorem StepSafe.run (h : StepSafe machineStep step input) :
    Machine.runPass machineStep input = pure (runPass step input) := by
  refine Words.loop_while (f := Cursor.result) (P := fun st => IsCharBoundary input st.i)
    (fun st => (asBytes input).length - st.i) (fun st hb hin => ?_) (fun st hb hout => ?_)
    ⟨[], input, rfl, rfl⟩ (Nat.sub_le ..)
  · have hlt : st.i < (asBytes input).length := by simpa [inside] using hin
    exact ⟨h.turn hb hlt, h.boundary st hb hlt, Nat.sub_lt_sub_left hlt (h.advances st)⟩
  · exact turn_done (by simpa [inside] using hout)

end loops

inductive Scanner
  | ipv6
  | ipv4
  | emails
  | dobPatterns

/-- A turn of the scanner's loop. -/
def Scanner.machineStep (width : PointerWidth) : Scanner → Text → Cursor → Comp Cursor
  | ipv6 => Machine.redactStep width (Machine.ipv6At width) redactedIp
  | ipv4 => Machine.redactStep width (Machine.ipv4At width) redactedIp
  | emails => Machine.emailStep width
  | dobPatterns => Machine.redactStep width (Machine.dobAt width) redactedDob

def Scanner.machineStrip (width : PointerWidth) : Scanner → Text → Comp Text
  | ipv6 => Machine.stripIpv6 width
  | ipv4 => Machine.stripIpv4 width
  | emails => Machine.stripEmails width
  | dobPatterns => Machine.stripDobPatterns width

def Scanner.step : Scanner → Text → Cursor → Cursor
  | ipv6 => redactStep ipv6At redactedIp
  | ipv4 => redactStep ipv4At redactedIp
  | emails => emailStep
  | dobPatterns => redactStep dobAt redactedDob

def Scanner.strip : Scanner → Text → Text
  | ipv6 => stripIpv6
  | ipv4 => stripIpv4
  | emails => stripEmails
  | dobPatterns => stripDobPatterns

theorem Scanner.safe (scanner : Scanner) (hfits : Fits width (asBytes input)) :
    StepSafe (scanner.machineStep width) scanner.step input := by
  cases scanner with
  | ipv6 =>
    rw [machineStep, step, ipv6At_eq]
    exact redactStep_safe ipv6Recogniser hfits fun hi => ipv6At_eq ▸ ipv6At_machine hfits hi
  | ipv4 =>
    rw [machineStep, step, ipv4At_eq]
    exact redactStep_safe ipv4Recogniser hfits fun hi => ipv4At_eq ▸ ipv4At_machine hfits hi
  | emails => exact emailStep_safe hfits
  | dobPatterns =>
    rw [machineStep, step, dobAt_eq]
    exact redactStep_safe dobRecogniser hfits fun hi => dobAt_eq ▸ dobAt_machine hfits hi

theorem Scanner.machineStrip_eq (scanner : Scanner) (hfits : Fits width (asBytes input)) :
    scanner.machineStrip width input = pure (scanner.strip input) := by
  have hrun := (scanner.safe hfits).run
  cases scanner <;> exact hrun

inductive Parser
  | ipv6
  | ipv4
  | emailDomain
  | isoDate
  | slashDate
  | dotDate

/-- The end position of a match at `start`. -/
def Parser.machineEnd (width : PointerWidth) (bytes : Bytes) (start : Nat) :
    Parser → Comp (Option Nat)
  | ipv6 => Machine.tryParseIpv6 width bytes start
  | ipv4 => do
    let found ← Machine.tryParseIpv4 width bytes start
    return found.map Prod.fst
  | emailDomain => Machine.scanEmailDomainForward width bytes start
  | isoDate => Machine.tryParseIsoDate width bytes start
  | slashDate => Machine.tryParseSlashDate width bytes start
  | dotDate => Machine.tryParseDotDate width bytes start

def Parser.endOf (bytes : Bytes) (start : Nat) : Parser → Option Nat
  | ipv6 => tryParseIpv6 bytes start
  | ipv4 => (tryParseIpv4 bytes start).map Prod.fst
  | emailDomain => scanEmailDomainForward bytes start
  | isoDate => tryParseIsoDate bytes start
  | slashDate => tryParseSlashDate bytes start
  | dotDate => tryParseDotDate bytes start

theorem Parser.machineEnd_eq (parser : Parser) {bytes : Bytes} {start : Nat}
    (hfits : Fits width bytes) (hstart : start ≤ bytes.length) :
    parser.machineEnd width bytes start = pure (parser.endOf bytes start) := by
  cases parser with
  | ipv6 => exact tryParseIpv6_machine hfits hstart
  | ipv4 =>
    rw [machineEnd, tryParseIpv4_machine hfits hstart, pure_bind]
    rfl
  | emailDomain => exact scanEmailDomainForward_machine hfits hstart
  | isoDate => exact tryParseIsoDate_machine hfits hstart
  | slashDate => exact tryParseSlashDate_machine hfits hstart
  | dotDate => exact tryParseDotDate_machine hfits hstart

/-- Every parser measures the bytes from the start on. -/
theorem Parser.exists_headLen (parser : Parser) (bytes : Bytes) (start : Nat) :
    ∃ headLen : Option Nat, parser.endOf bytes start = headLen.map (start + ·) ∧
      ∀ n, headLen = some n → 0 < n ∧ n ≤ (bytes.drop start).length := by
  have hten : ∀ {n}, n = 10 ∧ DateWindow (bytes.drop start) →
      0 < n ∧ n ≤ (bytes.drop start).length := by
    rintro n ⟨rfl, hwindow⟩
    exact ⟨Nat.succ_pos 9, hwindow.len⟩
  cases parser with
  | ipv6 => exact ⟨_, tryParseIpv6_eq, fun n h => ⟨ipv6HeadLen_pos h, ipv6HeadLen_le h⟩⟩
  | ipv4 =>
    refine ⟨quadLen 4 (bytes.drop start), ?_, fun n h => ⟨quadLen_pos h, quadLen_le h⟩⟩
    rw [endOf, tryParseIpv4_eq, Option.map_map]
    rfl
  | emailDomain =>
    exact ⟨_, scanEmailDomainForward_eq, fun n h => ⟨domainLen_pos h, domainLen_le h⟩⟩
  | isoDate => exact ⟨_, tryParseIsoDate_drop .., fun n h => hten (tryParseIsoDate_window h)⟩
  | slashDate => exact ⟨_, tryParseSlashDate_drop .., fun n h => hten (tryParseSlashDate_window h)⟩
  | dotDate => exact ⟨_, tryParseDotDate_drop .., fun n h => hten (tryParseDotDate_window h)⟩

theorem Parser.end_bounds (parser : Parser) {bytes : Bytes} {start : Nat}
    (h : parser.endOf bytes start = some stop) : start < stop ∧ stop ≤ bytes.length := by
  obtain ⟨headLen, heq, hlen⟩ := parser.exists_headLen bytes start
  rw [heq] at h
  obtain ⟨n, hn, rfl⟩ := Option.map_eq_some_iff.mp h
  obtain ⟨hpos, hle⟩ := hlen n hn
  rw [List.length_drop] at hle
  omega

/-- At the head of a scanner's loop. -/
structure CursorSafe (scanner : Scanner) (s : Machine.Str width) (st : Cursor) (wrapped : Bool) :
    Prop where
  boundary : IsCharBoundary s.text st.i
  le : st.i ≤ (asBytes s.text).length
  unwrapped : wrapped = false
  /-- There is a character to copy, so no byte is skipped. -/
  character : st.i < (asBytes s.text).length → ∃ c, Utf8.charAt s.text st.i = some c
  advances : st.i < (asBytes s.text).length → ∃ st',
    (scanner.machineStep width s.text st).run wrapped = some (st', false) ∧ st.i < st'.i

/-- At every turn of every scanner the cursor is safe, every match ends behind its start and
within the text, and every scanner ends without a wrap. -/
theorem cursors_safe (s : Machine.Str width) :
    (∀ (scanner : Scanner) st wrapped,
      Visits (Machine.turn (scanner.machineStep width) s.text) ⟨0, []⟩ st wrapped →
        CursorSafe scanner s st wrapped) ∧
    (∀ (parser : Parser) start, start ≤ (asBytes s.text).length → ∃ found,
      (parser.machineEnd width (asBytes s.text) start).run false = some (found, false) ∧
        ∀ stop, found = some stop → start < stop ∧ stop ≤ (asBytes s.text).length) ∧
    ∀ scanner : Scanner,
      (scanner.machineStrip width s.text).run false = some (scanner.strip s.text, false) := by
  have hfits := s.fits_bytes
  refine ⟨fun scanner st wrapped hvisit => ?_, fun parser start hstart => ?_, fun scanner => ?_⟩
  · have hsafe := scanner.safe hfits
    obtain ⟨hb, rfl⟩ := hsafe.visits hvisit
    refine ⟨hb, hb.le, rfl, fun hlt => ?_, fun hlt => ?_⟩
    · obtain ⟨c, hc, -⟩ := hb.charAt hlt
      exact ⟨c, hc⟩
    · refine ⟨scanner.step s.text st, ?_, hsafe.advances st⟩
      rw [hsafe.runs st hb hlt]
      rfl
  · refine ⟨parser.endOf (asBytes s.text) start, ?_, fun stop => parser.end_bounds⟩
    rw [parser.machineEnd_eq hfits hstart]
    rfl
  · rw [scanner.machineStrip_eq hfits]
    rfl

example : (Machine.stripIpv6 .bits32 "é ::1".toList).run false =
    some ("é [REDACTED_IP]".toList, false) := by decide +kernel

end ProviiAudit
