import ProviiAudit.Sanitize.Domain
import ProviiAudit.Sanitize.Machine

/-! On every text that fits in memory the machine's parsers wrap nowhere, end, and return what
the parsers on natural numbers return. -/
namespace ProviiAudit

open Utf8 (Text asBytes byteOf)
open Machine (PointerWidth)
open Words (Comp loop_eq)

variable {width : PointerWidth} {bytes : Bytes} {p : UInt8 → Bool} {a b pos start stop i n : Nat}

/-- Positions a few bytes behind the end are still words. -/
def Fits (width : PointerWidth) (bytes : Bytes) : Prop := bytes.length + 16 < 2 ^ width.bits

theorem Machine.Str.fits_bytes (s : Machine.Str width) : Fits width (asBytes s.text) := by
  have hfits := s.fits
  rw [Fits]
  cases width <;> simp only [PointerWidth.bits] at hfits ⊢ <;> omega

theorem Fits.add (hfits : Fits width bytes) (ha : a ≤ bytes.length) (hb : b ≤ 10) :
    Machine.add width a b = pure (a + b) := by
  rw [Fits] at hfits
  exact Words.wrappingAdd_eq (by omega)

theorem Fits.sub (hfits : Fits width bytes) (hb : b ≤ a) (ha : a ≤ bytes.length + 10) :
    Machine.sub width a b = pure (a - b) := by
  rw [Fits] at hfits
  exact Words.wrappingSub_eq hb (by omega)

theorem add8_eq (h : a + b < 256) : Machine.add8 a b = pure (a + b) := Words.wrappingAdd_eq h

theorem lt_of_any (h : (bytes[pos]?).any p = true) : pos < bytes.length := by
  by_contra hle
  rw [List.getElem?_eq_none (Nat.le_of_not_lt hle)] at h
  simp at h

@[simp] theorem holdsAt_eq : Machine.holdsAt bytes p pos = (bytes[pos]?).any p := by
  rw [Machine.holdsAt, Bool.eq_iff_iff, Bool.and_eq_true, decide_eq_true_eq]
  exact and_iff_right_of_imp lt_of_any

theorem boundedBy_machine (hfits : Fits width bytes) (hi : i ≤ bytes.length) :
    Machine.boundedBy width bytes p i stop = pure (boundedBy p bytes i stop) := by
  rw [Machine.boundedBy, boundedBy]
  by_cases h0 : i = 0
  · simp [h0]
  · rw [if_neg h0, hfits.sub (Nat.one_le_iff_ne_zero.mpr h0) (by omega),
      beq_false_of_ne h0]
    simp

theorem skipWhile_next (h : (bytes[pos]?).any p = true) :
    skipWhile p bytes (pos + 1) = skipWhile p bytes pos := by
  have hlt := lt_of_any h
  rw [List.getElem?_eq_getElem hlt, Option.any_some] at h
  rw [skipWhile, skipWhile, List.drop_eq_getElem_cons hlt, List.takeWhile_cons_of_pos h,
    List.length_cons]
  omega

theorem skipWhile_stop (h : (bytes[pos]?).any p = false) : skipWhile p bytes pos = pos := by
  have hstop : Span.Stops p (bytes.drop pos) := by rwa [Span.Stops, List.head?_drop]
  rw [skipWhile, hstop.takeWhile, List.length_nil, Nat.add_zero]

theorem skipWhile_le (hpos : pos ≤ bytes.length) : skipWhile p bytes pos ≤ bytes.length := by
  have hle := (List.takeWhile_prefix (l := bytes.drop pos) p).length_le
  rw [List.length_drop] at hle
  rw [skipWhile]
  omega

theorem skipDigits_machine (hfits : Fits width bytes) (hpos : pos ≤ bytes.length) :
    Machine.skipDigits width bytes pos = pure (skipWhile isAsciiDigit bytes pos) := by
  refine loop_eq _ (· ≤ bytes.length) (bytes.length - ·) (fun pos hpos => ?_) hpos (by omega)
  simp only [holdsAt_eq]
  cases hdigit : (bytes[pos]?).any isAsciiDigit with
  | false =>
    left
    rw [if_neg (by simp), skipWhile_stop hdigit]
  | true =>
    right
    have hlt := lt_of_any hdigit
    refine ⟨pos + 1, ?_, hlt, by omega, skipWhile_next hdigit⟩
    rw [if_pos rfl, hfits.add hpos (by decide), pure_bind]

theorem octetStep_machine (hfits : Fits width bytes) {st : Machine.Octets}
    (hpos : st.pos ≤ bytes.length) (hoct : st.octets < 4) :
    Machine.octetStep width bytes st = pure
      (match octetLen (bytes.drop st.pos) with
      | some n =>
        if st.octets + 1 < 4 then
          if bytes[st.pos + n]? = some (byteOf '.') then
            .next ⟨st.pos + n + 1, st.octets + 1⟩
          else .done none
        else .next ⟨st.pos + n, st.octets + 1⟩
      | none => .done none) := by
  have hle := skipWhile_le (p := isAsciiDigit) hpos
  have hge : st.pos ≤ skipWhile isAsciiDigit bytes st.pos := Nat.le_add_right ..
  rw [Machine.octetStep, if_pos hoct]
  simp only [skipDigits_machine hfits hpos, pure_bind]
  simp (disch := omega) only [pure_bind, hfits.sub, add8_eq, hfits.add]
  rw [skipWhile] at hle ⊢
  simp only [octetLen, slice, Nat.add_sub_cancel_left]
  generalize ((bytes.drop st.pos).takeWhile isAsciiDigit).length = n at hle
  have hdot : (bytes.length ≤ st.pos + n ∨ bytes[st.pos + n]? ≠ some (byteOf '.')) ↔
      ¬ bytes[st.pos + n]? = some (byteOf '.') := by
    refine or_iff_right_of_imp fun hlen hc => ?_
    exact absurd (List.getElem?_eq_some_iff.mp hc).1 (Nat.not_lt.mpr hlen)
  simp only [hdot]
  split_ifs <;> simp_all

theorem tryParseIpv4_machine (hfits : Fits width bytes) (hstart : start ≤ bytes.length) :
    Machine.tryParseIpv4 width bytes start = pure (tryParseIpv4 bytes start) := by
  let f : Machine.Octets → Option (Nat × Bool) := fun st =>
    (ipv4Loop bytes (4 - st.octets) st.octets st.pos).map fun found => (found.1, found.2 == 4)
  refine loop_eq f (fun st => st.pos ≤ bytes.length ∧ st.octets ≤ 4) (4 - ·.octets) ?_
    ⟨hstart, Nat.zero_le 4⟩ (Nat.lt_succ_self 4)
  rintro ⟨pos, octets⟩ ⟨hpos, hoct⟩
  dsimp only at hpos hoct
  rcases Nat.lt_or_eq_of_le hoct with hlt | rfl
  · obtain ⟨left, hleft⟩ : ∃ left, 4 - octets = left + 1 := ⟨3 - octets, by omega⟩
    have hrest : 4 - (octets + 1) = left := by omega
    rw [octetStep_machine hfits hpos hlt]
    simp only [f, hleft, ipv4Loop_succ]
    cases hn : octetLen (bytes.drop pos) with
    | none => exact .inl rfl
    | some n =>
      have hle := octetLen_le hn
      rw [List.length_drop] at hle
      dsimp only
      split_ifs with hmore hdot
      · have hdotlt := (List.getElem?_eq_some_iff.mp hdot).1
        exact .inr ⟨_, rfl, ⟨hdotlt, hlt⟩, by dsimp only; omega, by simp [hrest]⟩
      · exact .inl rfl
      · exact .inr ⟨_, rfl, ⟨by dsimp only; omega, hlt⟩, by dsimp only; omega, by simp [hrest]⟩
  · exact .inl rfl

theorem ipv4At_machine {input : Text} (hfits : Fits width (asBytes input))
    (hi : i ≤ (asBytes input).length) :
    Machine.ipv4At width input i = pure (ipv4At (asBytes input) i) := by
  rw [Machine.ipv4At, ipv4At, tryParseIpv4_machine hfits hi, pure_bind]
  rcases tryParseIpv4 (asBytes input) i with _ | ⟨stop, _ | _⟩
  · rfl
  · rfl
  · dsimp only
    rw [boundedBy_machine hfits hi, pure_bind]

theorem skipGroup_machine (hfits : Fits width bytes) (hstart : start ≤ bytes.length) :
    Machine.skipGroup width bytes start =
      pure (start + groupLen (bytes.drop start), groupLen (bytes.drop start)) := by
  let run : Nat × Nat → Nat := fun st =>
    (((bytes.drop st.1).take (4 - st.2)).takeWhile isAsciiHexdigit).length
  have hresult : (start + groupLen (bytes.drop start), groupLen (bytes.drop start)) =
      (start + run (start, 0), 0 + run (start, 0)) := by
    rw [Nat.zero_add]
    rfl
  rw [Machine.skipGroup, hresult]
  refine loop_eq (fun st => (st.1 + run st, st.2 + run st))
    (fun st => st.1 ≤ bytes.length ∧ st.2 ≤ 4) (4 - ·.2) ?_ ⟨hstart, Nat.zero_le 4⟩
    (show 4 - 0 < 5 by decide)
  rintro ⟨pos, digitCount⟩ ⟨hpos, hcount⟩
  dsimp only at hpos hcount
  by_cases hdigit : pos < bytes.length ∧ digitCount < 4 ∧ (bytes[pos]?).any isAsciiHexdigit = true
  · obtain ⟨hlt, hfew, hhex⟩ := hdigit
    have hnext : run (pos, digitCount) = run (pos + 1, digitCount + 1) + 1 := by
      obtain ⟨left, hleft⟩ : ∃ left, 4 - digitCount = left + 1 := ⟨3 - digitCount, by omega⟩
      rw [List.getElem?_eq_getElem hlt, Option.any_some] at hhex
      simp only [run, hleft, List.drop_eq_getElem_cons hlt, List.take_succ_cons]
      rw [List.takeWhile_cons_of_pos hhex, List.length_cons,
        show 4 - (digitCount + 1) = left by omega]
    refine .inr ⟨(pos + 1, digitCount + 1), ?_, ⟨hlt, hfew⟩, by dsimp only; omega, ?_⟩
    · simp only [hlt, hfew, hhex, and_self, if_true]
      rw [hfits.add hpos (by decide), pure_bind, add8_eq (by omega), pure_bind]
    · rw [hnext]
      simp only [Prod.mk.injEq]
      omega
  · have hstop : run (pos, digitCount) = 0 := by
      dsimp only [run]
      by_cases hfew : digitCount < 4
      · have hhex : (bytes[pos]?).any isAsciiHexdigit = false :=
          Bool.eq_false_iff.mpr fun h => hdigit ⟨lt_of_any h, hfew, h⟩
        have hhead : Span.Stops isAsciiHexdigit ((bytes.drop pos).take (4 - digitCount)) := by
          rw [Span.Stops, List.head?_take, if_neg (by omega), List.head?_drop]
          exact hhex
        rw [hhead.takeWhile, List.length_nil]
      · simp [show 4 - digitCount = 0 by omega]
    left
    simp only [hdigit, if_false, hstop]
    rfl

theorem ipv4Suffix_machine (hfits : Fits width bytes) (hstart : start ≤ bytes.length) :
    Machine.ipv4Suffix width bytes start pos n = pure (ipv4Suffix bytes start pos n) := by
  rw [Machine.ipv4Suffix, ipv4Suffix]
  split_ifs
  · rw [tryParseIpv4_machine hfits hstart, pure_bind]
    rcases tryParseIpv4 bytes start with _ | ⟨stop, _ | _⟩
    · rfl
    · rfl
    · rfl
  · rfl

/-- A turn of the group loop either ends the parse or goes on with the next group. -/
theorem groupStep_machine (hfits : Fits width bytes) {st : Machine.Groups}
    (hpos : st.pos ≤ bytes.length) (hfew : st.groups < 8) :
    Machine.groupStep width bytes st = pure (.done (ipv6Loop bytes (8 - st.groups) st.groups st.pos
      st.sawDoubleColon)) ∨ ∃ st', Machine.groupStep width bytes st = pure (.next st') ∧
        (st'.pos ≤ bytes.length ∧ st'.groups < 8) ∧ 7 - st'.groups < 7 - st.groups ∧
          ipv6Loop bytes (8 - st'.groups) st'.groups st'.pos st'.sawDoubleColon =
            ipv6Loop bytes (8 - st.groups) st.groups st.pos st.sawDoubleColon := by
  obtain ⟨start, groups, saw⟩ := st
  dsimp only at hpos hfew ⊢
  obtain ⟨left, hleft⟩ : ∃ left, 8 - groups = left + 1 := ⟨7 - groups, by omega⟩
  have hdigits : (((bytes.drop start).take 4).takeWhile isAsciiHexdigit).length =
    groupLen (bytes.drop start) := rfl
  have hle := groupLen_le (b := bytes.drop start)
  rw [List.length_drop] at hle
  simp only [Machine.groupStep, skipGroup_machine hfits hpos, pure_bind,
    ipv4Suffix_machine hfits hpos, hleft, ipv6Loop, hdigits]
  generalize groupLen (bytes.drop start) = n at hle
  simp (disch := omega) only [add8_eq, hfits.add, hfits.sub, pure_bind, holdsAt_eq]
  by_cases h0 : n = 0
  · exact .inl (by simp only [h0, if_true])
  · simp only [h0, if_false]
    cases ipv4Suffix bytes start (start + n) n with
    | some ipv4End => exact .inl rfl
    | none =>
      have hrest : 8 - (groups + 1) = left := by omega
      have hbehind : ∀ {q}, ¬ (!(bytes[q]?).any isAsciiHexdigit) = true → q ≤ bytes.length :=
        fun hhex => (lt_of_any (by simpa using hhex)).le
      dsimp only
      split_ifs with hcolon hdouble hsaw hhex h8 hhex h8
      · exact .inl rfl
      · exact .inl rfl
      · exact .inl rfl
      · exact .inl rfl
      · exact .inr ⟨_, rfl, ⟨hbehind hhex, Nat.lt_of_not_le h8⟩, by dsimp only; omega,
          by simp [hrest]⟩
      · exact .inl rfl
      · exact .inl rfl
      · exact .inr ⟨_, rfl, ⟨hbehind hhex, Nat.lt_of_not_le h8⟩, by dsimp only; omega,
          by simp [hrest]⟩

theorem groups_machine (hfits : Fits width bytes) (hpos : pos ≤ bytes.length) (saw : Bool) :
    Words.loop (Machine.groupStep width bytes) 8 ⟨pos, 0, saw⟩ =
      pure (ipv6Loop bytes 8 0 pos saw) := by
  let f : Machine.Groups → Option Nat := fun st =>
    ipv6Loop bytes (8 - st.groups) st.groups st.pos st.sawDoubleColon
  refine loop_eq f (fun st => st.pos ≤ bytes.length ∧ st.groups < 8) (7 - ·.groups) ?_
    ⟨hpos, Nat.succ_pos 7⟩ (show 7 - 0 < 8 by decide)
  rintro st ⟨hst, hfew⟩
  exact groupStep_machine hfits hst hfew

theorem leadingDoubleColon_machine (hfits : Fits width bytes) :
    Machine.leadingDoubleColon width bytes start = pure (decide
      (bytes[start]? = some (byteOf ':') ∧ bytes[start + 1]? = some (byteOf ':'))) := by
  rw [Machine.leadingDoubleColon]
  by_cases hcolon : bytes[start]? = some (byteOf ':')
  · have hlt := (List.getElem?_eq_some_iff.mp hcolon).1
    rw [if_pos hcolon, hfits.add hlt.le (by decide), pure_bind]
    simp [hcolon, Bool.beq_eq_decide_eq]
  · simp [hcolon]

theorem tryParseIpv6_machine (hfits : Fits width bytes) (hstart : start ≤ bytes.length) :
    Machine.tryParseIpv6 width bytes start = pure (tryParseIpv6 bytes start) := by
  rw [Machine.tryParseIpv6, tryParseIpv6, leadingDoubleColon_machine hfits, pure_bind]
  simp only [decide_eq_true_eq]
  by_cases hleading : bytes[start]? = some (byteOf ':') ∧ bytes[start + 1]? = some (byteOf ':')
  · have hlt := (List.getElem?_eq_some_iff.mp hleading.2).1
    rw [if_pos hleading, if_pos hleading, hfits.add hstart (by decide), pure_bind, holdsAt_eq]
    split_ifs
    · rfl
    · exact groups_machine hfits hlt true
  · rw [if_neg hleading, if_neg hleading]
    exact groups_machine hfits hstart false

/-- An address begins with a character. -/
theorem groupsLen_pos {left : Nat} {saw : Bool} {b : Bytes} (hb : 0 < groupLen b) :
    0 < groupsLen (left + 1) saw b := by
  simp only [groupsLen, hb.ne', if_false]
  cases hs : suffixLen b (groupLen b) with
  | some q =>
    rw [suffixLen] at hs
    split_ifs at hs
    exact quadLen_pos hs
  | none =>
    dsimp only
    split_ifs <;> omega

theorem ipv6HeadLen_pos {b : Bytes} (h : ipv6HeadLen b = some n) : 0 < n := by
  simp only [ipv6HeadLen] at h
  split_ifs at h with hc hhex hhex
  · exact Option.some.inj h ▸ Nat.succ_pos 1
  · have := Option.some.inj h
    omega
  · exact Option.some.inj h ▸ groupsLen_pos (groupLen_pos.mpr hhex)

/-- The parser by itself, before colons and neighbours are looked at. -/
def ipv6Parser : Recogniser where
  headLen := ipv6HeadLen
  adjacent _ := false
  alphabet := isIpv6Char
  alphabet_ascii := isIpv6Char_ascii
  adjacent_alphabet _ h := absurd h (by decide)
  headLen_append := ipv6HeadLen_append
  headLen_pos := ipv6HeadLen_pos
  headLen_le := ipv6HeadLen_le

theorem tryParseIpv6_eq_find : tryParseIpv6 bytes start = ipv6Parser.find bytes start := by
  have hbounded : ∀ stop, boundedBy (fun _ => false) bytes start stop = true := fun stop => by
    simp [boundedBy]
  rw [tryParseIpv6_eq, Recogniser.find]
  simp only [ipv6Parser, hbounded]
  cases ipv6HeadLen (bytes.drop start) with
  | none => rfl
  | some n => rfl

/-- The parsed segment is a piece of the text, whether it counts as an address or not. -/
theorem getRange_parsed {input : Text} (h : tryParseIpv6 (asBytes input) i = some stop) :
    ∃ segment, Utf8.getRange input i stop = some segment ∧
      asBytes segment = slice (asBytes input) i stop := by
  rw [tryParseIpv6_eq_find] at h
  obtain ⟨u, w, y, rfl, rfl, rfl, -⟩ := Recogniser.find_some_iff.mp h
  refine ⟨w, Utf8.getRange_append, ?_⟩
  rw [slice, Utf8.asBytes_append, Utf8.asBytes_append, Utf8.asBytes_append, List.drop_left,
    List.length_append, Nat.add_sub_cancel_left, List.take_left]

theorem ipv6At_machine {input : Text} (hfits : Fits width (asBytes input))
    (hi : i ≤ (asBytes input).length) :
    Machine.ipv6At width input i = pure (ipv6At (asBytes input) i) := by
  rw [Machine.ipv6At, ipv6At, tryParseIpv6_machine hfits hi, pure_bind]
  cases hparse : tryParseIpv6 (asBytes input) i with
  | none => rfl
  | some stop =>
    obtain ⟨segment, hrange, hslice⟩ := getRange_parsed hparse
    dsimp only
    rw [hrange, Option.getD_some, hslice]
    by_cases hcolons : (slice (asBytes input) i stop).count (byteOf ':') ≥ 2
    · rw [if_pos hcolons, boundedBy_machine hfits hi, pure_bind]
      simp only [hcolons, true_and]
    · rw [if_neg hcolons, if_neg fun h => hcolons h.1]

theorem scanEmailLocalBack_machine (hfits : Fits width bytes) (hpos : pos ≤ bytes.length) :
    Machine.scanEmailLocalBack width bytes pos = pure (scanEmailLocalBack bytes pos) := by
  refine loop_eq _ (· ≤ bytes.length) id (fun pos hpos => ?_) hpos (Nat.lt_succ_of_le hpos)
  cases pos with
  | zero => exact .inl rfl
  | succ before =>
    rw [if_pos (Nat.succ_pos before), hfits.sub (Nat.le_add_left 1 before) (by omega), pure_bind,
      Nat.add_sub_cancel, scanEmailLocalBack]
    split_ifs with hlocal
    · exact .inr ⟨before, rfl, by omega, Nat.lt_succ_self before, rfl⟩
    · exact .inl rfl

/-- The last dot lies before the position. -/
theorem domainLoop_bounds (rest : Bytes) (st : DomainScan)
    (hdot : st.sawDot = true → st.lastDotPos < st.pos) :
    (domainLoop rest st).pos ≤ st.pos + rest.length ∧
      ((domainLoop rest st).sawDot = true →
        (domainLoop rest st).lastDotPos < (domainLoop rest st).pos) := by
  induction rest generalizing st with
  | nil => exact ⟨le_rfl, hdot⟩
  | cons c rest ih =>
    rw [domainLoop, List.length_cons]
    split_ifs
    · obtain ⟨hle, hlast⟩ := ih { st with pos := st.pos + 1 } fun h => Nat.lt_succ_of_lt (hdot h)
      exact ⟨by dsimp only at hle; omega, hlast⟩
    · obtain ⟨hle, hlast⟩ := ih ⟨st.pos + 1, true, st.pos⟩ fun _ => Nat.lt_succ_self _
      exact ⟨by dsimp only at hle; omega, hlast⟩
    · exact ⟨Nat.le_add_right .., hdot⟩

theorem domains_machine (hfits : Fits width bytes) (hstart : start ≤ bytes.length) :
    Words.loop (Machine.domainStep width bytes) (bytes.length + 1) ⟨start, false, 0⟩ =
      pure (some (domainLoop (bytes.drop start) ⟨start, false, 0⟩)) := by
  let f : DomainScan → Option DomainScan := fun st => some (domainLoop (bytes.drop st.pos) st)
  refine loop_eq f (·.pos ≤ bytes.length) (bytes.length - ·.pos) (fun st hpos => ?_) hstart
    (by dsimp only; omega)
  rw [Machine.domainStep]
  by_cases hlt : st.pos < bytes.length
  · rw [if_pos hlt, List.getElem?_eq_getElem hlt]
    simp (disch := omega) only [hfits.add, pure_bind]
    simp only [f, List.drop_eq_getElem_cons hlt, domainLoop]
    split_ifs
    · exact .inr ⟨_, rfl, hlt, by dsimp only; omega, rfl⟩
    · exact .inr ⟨_, rfl, hlt, by dsimp only; omega, rfl⟩
    · exact .inl rfl
  · left
    rw [if_neg hlt]
    simp [f, List.drop_eq_nil_of_le (Nat.le_of_not_lt hlt), domainLoop]

/-- The bytes of a range pass a test when those of the slice do. -/
theorem all_range_eq (hstop : stop ≤ bytes.length) :
    ((List.range' start (stop - start)).all fun j => (bytes[j]?).any p) =
      (slice bytes start stop).all p := by
  rw [Bool.eq_iff_iff, List.all_eq_true, List.all_eq_true]
  constructor
  · intro h c hc
    obtain ⟨k, hk⟩ := List.mem_iff_getElem?.mp hc
    rw [slice, List.getElem?_take] at hk
    split_ifs at hk with hlt
    rw [List.getElem?_drop] at hk
    simpa [hk] using h (start + k) (List.mem_range'_1.mpr ⟨Nat.le_add_right .., by omega⟩)
  · intro h j hj
    obtain ⟨hle, hlt⟩ := List.mem_range'_1.mp hj
    have hget : bytes[j]? = some bytes[j] := List.getElem?_eq_getElem (by omega)
    have hmem : bytes[j] ∈ slice bytes start stop := by
      refine List.mem_iff_getElem?.mpr ⟨j - start, ?_⟩
      rw [slice, List.getElem?_take, if_pos (by omega), List.getElem?_drop,
        Nat.add_sub_of_le hle, hget]
    rw [hget, Option.any_some]
    exact h _ hmem

theorem scanEmailDomainForward_machine (hfits : Fits width bytes) (hstart : start ≤ bytes.length) :
    Machine.scanEmailDomainForward width bytes start =
      pure (scanEmailDomainForward bytes start) := by
  rw [Machine.scanEmailDomainForward, scanEmailDomainForward, domains_machine hfits hstart,
    pure_bind]
  obtain ⟨hle, hlast⟩ := domainLoop_bounds (bytes.drop start) ⟨start, false, 0⟩ (by simp)
  generalize domainLoop (bytes.drop start) ⟨start, false, 0⟩ = st at hle hlast
  have hpos : st.pos ≤ bytes.length := by
    rw [List.length_drop] at hle
    dsimp only at hle
    omega
  dsimp only
  cases hdot : st.sawDot with
  | false => rfl
  | true =>
    have hlt := hlast hdot
    simp (disch := omega) only [hfits.add, hfits.sub, pure_bind, all_range_eq hpos]
    split_ifs <;> rfl

theorem timeSeparatorAt_machine (hfits : Fits width bytes) (hstop : stop ≤ bytes.length) :
    Machine.timeSeparatorAt width bytes stop = pure (timeSeparatorAt bytes stop) := by
  rw [Machine.timeSeparatorAt, timeSeparatorAt]
  simp (disch := omega) only [hfits.add, pure_bind]
  by_cases htime : bytes[stop]? = some (byteOf 'T')
  · simp [htime]
  · rw [if_neg htime, beq_false_of_ne htime, Bool.false_or]
    split_ifs with hspace htens hones
    · simp [hspace, htens, hones]
    · simp [htens, hones]
    · simp [htens]
    · rw [beq_false_of_ne hspace]
      rfl

theorem window_machine (hfits : Fits width bytes) (hstart : start ≤ bytes.length) :
    Machine.window width bytes start = pure
      (if start + 10 > bytes.length then none else some (slice bytes start (start + 10))) := by
  rw [Machine.window, hfits.add hstart le_rfl, pure_bind]
  split_ifs <;> rfl

theorem untimedEnd_machine (hfits : Fits width bytes) (hstop : start + 10 ≤ bytes.length) :
    Machine.untimedEnd width bytes start = pure
      (if timeSeparatorAt bytes (start + 10) then none else some (start + 10)) := by
  rw [Machine.untimedEnd, hfits.add (Nat.le_of_add_right_le hstop) le_rfl, pure_bind,
    timeSeparatorAt_machine hfits hstop, pure_bind]

/-- No date fits in fewer than ten bytes. -/
theorem date_short {parse : Bytes → Nat → Option Nat}
    (hdrop : parse bytes start = (parse (bytes.drop start) 0).map (start + ·))
    (hwindow : ∀ {n}, parse (bytes.drop start) 0 = some n → n = 10 ∧ DateWindow (bytes.drop start))
    (hshort : start + 10 > bytes.length) : parse bytes start = none := by
  rw [hdrop, Option.map_eq_none_iff]
  by_contra hsome
  obtain ⟨n, hn⟩ := Option.ne_none_iff_exists'.mp hsome
  have hlen := (hwindow hn).2.len
  rw [List.length_drop] at hlen
  omega

theorem tryParseIsoDate_machine (hfits : Fits width bytes) (hstart : start ≤ bytes.length) :
    Machine.tryParseIsoDate width bytes start = pure (tryParseIsoDate bytes start) := by
  rw [Machine.tryParseIsoDate, window_machine hfits hstart, pure_bind]
  by_cases hshort : start + 10 > bytes.length
  · rw [if_pos hshort, date_short (tryParseIsoDate_drop ..) tryParseIsoDate_window hshort]
  · rw [if_neg hshort, tryParseIsoDate, untimedEnd_machine hfits (Nat.le_of_not_gt hshort)]
    generalize slice bytes start (start + 10) = segment
    split
    · rename_i hsegment
      obtain rfl := Option.some.inj hsegment
      dsimp only
      split_ifs <;> simp_all
    · rename_i hother
      split
      · exact absurd rfl (hother _ _ _ _ _ _ _ _ _ _)
      · rfl

theorem tryParseSlashDate_machine (hfits : Fits width bytes) (hstart : start ≤ bytes.length) :
    Machine.tryParseSlashDate width bytes start = pure (tryParseSlashDate bytes start) := by
  rw [Machine.tryParseSlashDate, window_machine hfits hstart, pure_bind]
  by_cases hshort : start + 10 > bytes.length
  · rw [if_pos hshort, date_short (tryParseSlashDate_drop ..) tryParseSlashDate_window hshort]
  · rw [if_neg hshort, tryParseSlashDate, hfits.add hstart le_rfl]
    generalize slice bytes start (start + 10) = segment
    split
    · rename_i hsegment
      obtain rfl := Option.some.inj hsegment
      dsimp only
      split_ifs <;> rfl
    · rename_i hother
      split
      · exact absurd rfl (hother _ _ _ _ _ _ _ _ _ _)
      · rfl

theorem tryParseDotDate_machine (hfits : Fits width bytes) (hstart : start ≤ bytes.length) :
    Machine.tryParseDotDate width bytes start = pure (tryParseDotDate bytes start) := by
  rw [Machine.tryParseDotDate, window_machine hfits hstart, pure_bind]
  by_cases hshort : start + 10 > bytes.length
  · rw [if_pos hshort, date_short (tryParseDotDate_drop ..) tryParseDotDate_window hshort]
  · rw [if_neg hshort, tryParseDotDate, untimedEnd_machine hfits (Nat.le_of_not_gt hshort)]
    generalize slice bytes start (start + 10) = segment
    split
    · rename_i hsegment
      obtain rfl := Option.some.inj hsegment
      dsimp only
      split_ifs <;> simp_all
    · rename_i hother
      split
      · exact absurd rfl (hother _ _ _ _ _ _ _ _ _ _)
      · rfl

theorem boundedDate_machine {parse : Nat → Comp (Option Nat)} {date : Option Nat}
    (hfits : Fits width bytes) (hi : i ≤ bytes.length) (hparse : parse i = pure date) :
    Machine.boundedDate width bytes parse i =
      pure (date.filter fun stop => boundedBy isAsciiAlphanumeric bytes i stop) := by
  rw [Machine.boundedDate, hparse, pure_bind]
  cases date with
  | none => rfl
  | some stop =>
    dsimp only
    rw [boundedBy_machine hfits hi, pure_bind, Option.filter_some]

theorem dobAt_machine {input : Text} (hfits : Fits width (asBytes input))
    (hi : i ≤ (asBytes input).length) :
    Machine.dobAt width input i = pure (dobAt (asBytes input) i) := by
  have hiso := boundedDate_machine hfits hi (tryParseIsoDate_machine hfits hi)
  have hslash := boundedDate_machine hfits hi (tryParseSlashDate_machine hfits hi)
  have hdot := boundedDate_machine hfits hi (tryParseDotDate_machine hfits hi)
  rw [Machine.dobAt, dobAt]
  simp only [hiso, hslash, hdot, pure_bind]
  split_ifs
  · cases (tryParseIsoDate (asBytes input) i).filter _ with
    | some stop => rfl
    | none =>
      cases (tryParseSlashDate (asBytes input) i).filter _ with
      | some stop => rfl
      | none => rfl
  · rfl

end ProviiAudit
