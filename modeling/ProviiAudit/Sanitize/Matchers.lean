import ProviiAudit.Lib.Scan
import ProviiAudit.Lib.Span
import ProviiAudit.Sanitize

/-! The parsers as functions of the bytes from the cursor on. -/
namespace ProviiAudit

open Utf8 (Text asBytes byteOf)
open Span (Stops)

variable {bytes b u v x y : Bytes} {start pos n k left : Nat} {saw : Bool}
  {p : UInt8 → Bool}

/-- The length of the octet at the head. -/
def octetLen (b : Bytes) : Option Nat :=
  let n := (b.takeWhile isAsciiDigit).length
  if n = 0 ∨ n > 3 then none else if parseDecimal (b.take n) > 255 then none else some n

/-- The length of `left` octets at the head, with dots between them. -/
def quadLen : Nat → Bytes → Option Nat
  | 0, _ => some 0
  | 1, b => octetLen b
  | left + 2, b =>
    match octetLen b with
    | some n =>
      if b[n]? = some (byteOf '.') then (quadLen (left + 1) (b.drop (n + 1))).map (n + 1 + ·)
      else none
    | none => none

theorem octetLen_le (h : octetLen b = some n) : n ≤ b.length := by
  have hle := (List.takeWhile_prefix (l := b) isAsciiDigit).length_le
  simp only [octetLen] at h
  split_ifs at h
  simp_all

theorem ipv4Loop_succ {octets : Nat} : ipv4Loop bytes (left + 1) octets start =
    match octetLen (bytes.drop start) with
    | some n =>
      if octets + 1 < 4 then
        if bytes[start + n]? = some (byteOf '.') then
          ipv4Loop bytes left (octets + 1) (start + n + 1)
        else none
      else ipv4Loop bytes left (octets + 1) (start + n)
    | none => none := by
  simp only [ipv4Loop, octetLen, skipWhile, slice, Nat.add_sub_cancel_left]
  split_ifs <;> rfl

theorem ipv4Loop_eq {octets : Nat} (h : octets + left = 4) :
    ipv4Loop bytes left octets pos = (quadLen left (bytes.drop pos)).map fun n => (pos + n, 4) := by
  induction left generalizing octets pos with
  | zero =>
    rw [Nat.add_zero] at h
    simp [ipv4Loop, quadLen, h]
  | succ left ih =>
    rw [ipv4Loop_succ]
    cases left with
    | zero =>
      have hoct : ¬ octets + 1 < 4 := by omega
      simp only [quadLen, hoct, if_false]
      cases octetLen (bytes.drop pos) with
      | none => rfl
      | some n => simp [ipv4Loop, show octets = 3 by omega]
    | succ left =>
      have hoct : octets + 1 < 4 := by omega
      simp only [quadLen, hoct, if_true, List.getElem?_drop]
      cases octetLen (bytes.drop pos) with
      | none => rfl
      | some n =>
        dsimp only
        split
        · rw [ih (by omega), Option.map_map, List.drop_drop]
          simp [Function.comp_def, Nat.add_assoc]
        · rfl

theorem tryParseIpv4_eq :
    tryParseIpv4 bytes start = (quadLen 4 (bytes.drop start)).map fun n => (start + n, true) := by
  rw [tryParseIpv4, ipv4Loop_eq rfl, Option.map_map]
  rfl

theorem quadLen_le (h : quadLen left b = some n) : n ≤ b.length := by
  induction left, b using quadLen.induct generalizing n with
  | case1 b => simp [← Option.some.inj h]
  | case2 b => exact octetLen_le h
  | case3 left b k hk hdot ih =>
    simp only [quadLen, hk, hdot, if_true] at h
    obtain ⟨j, hj, rfl⟩ := Option.map_eq_some_iff.mp h
    have hlt := (List.getElem?_eq_some_iff.mp hdot).1
    have := ih hj
    rw [List.length_drop] at this
    omega
  | case4 left b k hk hdot => simp [quadLen, hk, hdot] at h
  | case5 left b hk => simp [quadLen, hk] at h

theorem quadLen_pos (h : quadLen 4 b = some n) : 0 < n := by
  simp only [quadLen] at h
  split at h
  · split at h
    · obtain ⟨k, -, rfl⟩ := Option.map_eq_some_iff.mp h
      omega
    · simp at h
  · simp at h

theorem isIpv4Adjacent_of_digit {c : UInt8} (h : isAsciiDigit c = true) :
    isIpv4Adjacent c = true := by
  simp [isIpv4Adjacent, h]

theorem octetLen_append (h : Stops isIpv4Adjacent v) : octetLen (u ++ v) = octetLen u := by
  have hdigit : Stops isAsciiDigit v := h.mono fun _ => isIpv4Adjacent_of_digit
  have hle := (List.takeWhile_prefix (l := u) isAsciiDigit).length_le
  simp only [octetLen, Span.takeWhile_append hdigit, List.take_append_of_le_length hle]

/-- Octets are parsed from the digits and dots at the head. -/
theorem quadLen_append (h : Stops isIpv4Adjacent v) : quadLen left (u ++ v) = quadLen left u := by
  induction left, u using quadLen.induct with
  | case1 u => rfl
  | case2 u => exact octetLen_append h
  | case3 left u k hk hdot ih =>
    have hdot' := (Span.getElem?_append_some h (by decide) (octetLen_le hk)).mpr hdot
    have hlt := (List.getElem?_eq_some_iff.mp hdot).1
    simp only [quadLen, octetLen_append h, hk, hdot, hdot', if_true]
    rw [List.drop_append_of_le_length hlt, ih]
  | case4 left u k hk hdot =>
    have hdot' := (Span.getElem?_append_some h (by decide) (octetLen_le hk)).not.mpr hdot
    simp [quadLen, octetLen_append h, hk, hdot, hdot']
  | case5 left u hk => simp [quadLen, octetLen_append h, hk]

/-- An IPv4 suffix in place of a group of `n` digits. -/
def suffixLen (b : Bytes) (n : Nat) : Option Nat :=
  if b[n]? = some (byteOf '.') ∧ n ≤ 3 then quadLen 4 b else none

/-- The hex digits of the group at the head. -/
def groupLen (b : Bytes) : Nat := ((b.take 4).takeWhile isAsciiHexdigit).length

/-- The length of the groups at the head, at most `left` of them. -/
def groupsLen : Nat → Bool → Bytes → Nat
  | 0, _, _ => 0
  | left + 1, saw, b =>
    let n := groupLen b
    if n = 0 then 0
    else
      match suffixLen b n with
      | some q => q
      | none =>
        if b[n]? ≠ some (byteOf ':') then n
        else if b[n + 1]? = some (byteOf ':') then
          if saw then n
          else if !(b[n + 2]?).any isAsciiHexdigit then n + 2
          else n + 2 + groupsLen left true (b.drop (n + 2))
        else if !(b[n + 1]?).any isAsciiHexdigit then n
        else n + 1 + groupsLen left saw (b.drop (n + 1))

theorem ipv4Suffix_eq : ipv4Suffix bytes start (start + n) n =
    (suffixLen (bytes.drop start) n).map (start + ·) := by
  simp only [ipv4Suffix, suffixLen, tryParseIpv4_eq, List.getElem?_drop]
  split
  · cases quadLen 4 (bytes.drop start) <;> rfl
  · rfl

theorem groupLen_pos : 0 < groupLen b ↔ (b[0]?).any isAsciiHexdigit = true := by
  cases b with
  | nil => simp [groupLen]
  | cons c b => cases hc : isAsciiHexdigit c <;> simp [groupLen, hc]

/-- Once a group or a double colon is seen the loop ends with a position. -/
theorem ipv6Loop_eq {groups : Nat} (h : left + groups = 8)
    (hfound : groups ≥ 1 ∨ saw = true ∨ (bytes[pos]?).any isAsciiHexdigit = true) :
    ipv6Loop bytes left groups pos saw = some (pos + groupsLen left saw (bytes.drop pos)) := by
  induction left generalizing groups pos saw with
  | zero =>
    have hg : groups ≥ 1 := by omega
    simp [ipv6Loop, groupsLen, ipv6Found, hg]
  | succ left ih =>
    have hdigits : (((bytes.drop pos).take 4).takeWhile isAsciiHexdigit).length =
        groupLen (bytes.drop pos) := rfl
    have hfound' : ∀ s q, ipv6Found (groups + 1) s q = some q := by simp [ipv6Found]
    simp only [ipv6Loop, groupsLen, hdigits, ipv4Suffix_eq, hfound', List.getElem?_drop,
      List.drop_drop, ← Nat.add_assoc]
    by_cases h0 : groupLen (bytes.drop pos) = 0
    · have hnot := groupLen_pos.not.mp (by omega : ¬ 0 < groupLen (bytes.drop pos))
      rw [List.getElem?_drop] at hnot
      have hf : groups ≥ 1 ∨ saw = true := by simp_all
      simp [h0, ipv6Found, hf]
    · cases hs : suffixLen (bytes.drop pos) (groupLen (bytes.drop pos)) with
      | some q => simp [h0]
      | none =>
        simp only [h0, if_false, Option.map_none]
        have hlast : groups + 1 ≥ 8 → left = 0 := by omega
        have hnext : ∀ s q, ¬ (!(bytes[q]?).any isAsciiHexdigit) = true →
            ipv6Loop bytes left (groups + 1) q s =
              some (q + groupsLen left s (bytes.drop q)) := by
          intro s q hq
          exact ih (by omega) (.inr (.inr (by simpa using hq)))
        split_ifs with hcolon hdouble hsaw hhex h8 hhex h8
        · rfl
        · rfl
        · rw [Nat.add_assoc]
        · simp [hlast h8, groupsLen, Nat.add_assoc]
        · rw [hnext _ _ hhex]
          simp [Nat.add_assoc]
        · rfl
        · simp [hlast h8, groupsLen, Nat.add_assoc]
        · rw [hnext _ _ hhex]
          simp [Nat.add_assoc]

/-- The length of what is parsed at the head. -/
def ipv6HeadLen (b : Bytes) : Option Nat :=
  if b[0]? = some (byteOf ':') ∧ b[1]? = some (byteOf ':') then
    if !(b[2]?).any isAsciiHexdigit then some 2 else some (2 + groupsLen 8 true (b.drop 2))
  else if (b[0]?).any isAsciiHexdigit then some (groupsLen 8 false b)
  else none

theorem tryParseIpv6_eq :
    tryParseIpv6 bytes start = (ipv6HeadLen (bytes.drop start)).map (start + ·) := by
  simp only [tryParseIpv6, ipv6HeadLen, List.getElem?_drop, Nat.add_zero, List.drop_drop]
  split
  · split
    · rfl
    · rename_i hhex
      rw [ipv6Loop_eq rfl (.inr (.inl rfl))]
      simp [Nat.add_assoc]
  · split
    · rename_i hhex
      rw [ipv6Loop_eq rfl (.inr (.inr hhex))]
      rfl
    · rename_i hhex
      have h0 : groupLen (bytes.drop start) = 0 := by
        have := groupLen_pos.not.mpr (by simpa using hhex : ¬ ((bytes.drop start)[0]?).any _ = _)
        omega
      have hdigits : (((bytes.drop start).take 4).takeWhile isAsciiHexdigit).length = 0 := h0
      simp [ipv6Loop, hdigits, ipv6Found]

theorem groupLen_le : groupLen b ≤ b.length := by
  have h := ((List.takeWhile_prefix (l := b.take 4) isAsciiHexdigit).trans (b.take_prefix 4))
  exact h.length_le

theorem groupsLen_le (left : Nat) (saw : Bool) (b : Bytes) :
    groupsLen left saw b ≤ b.length := by
  induction left generalizing saw b with
  | zero => exact Nat.zero_le _
  | succ left ih =>
    have hle := groupLen_le (b := b)
    have hany : ∀ k, ¬ (!(b[k]?).any isAsciiHexdigit) = true → k < b.length := by
      intro k hk
      by_contra hlt
      rw [List.getElem?_eq_none (by omega)] at hk
      simp at hk
    simp only [groupsLen]
    split
    · omega
    · cases hs : suffixLen b (groupLen b) with
      | some q =>
        rw [suffixLen] at hs
        split at hs
        · exact quadLen_le hs
        · simp at hs
      | none =>
        dsimp only
        split_ifs with hc hd hsaw hhex hhex
        · exact hle
        · exact hle
        · exact (List.getElem?_eq_some_iff.mp hd).1
        · have hlt := hany _ hhex
          have := ih true (b.drop (groupLen b + 2))
          rw [List.length_drop] at this
          omega
        · exact hle
        · have hlt := hany _ hhex
          have := ih saw (b.drop (groupLen b + 1))
          rw [List.length_drop] at this
          omega

theorem ipv6HeadLen_le (h : ipv6HeadLen b = some n) : n ≤ b.length := by
  simp only [ipv6HeadLen] at h
  split_ifs at h with hc hhex hhex
  · rw [← Option.some.inj h]
    exact (List.getElem?_eq_some_iff.mp hc.2).1
  · have hlt := (List.getElem?_eq_some_iff.mp hc.2).1
    have := groupsLen_le 8 true (b.drop 2)
    rw [List.length_drop] at this
    have := Option.some.inj h
    omega
  · rw [← Option.some.inj h]
    exact groupsLen_le ..

/-- What the IPv6 parser looks at. -/
def isIpv6Char (b : UInt8) : Bool := isIpv6Adjacent b || b == byteOf '.'

theorem groupLen_append (h : Stops isAsciiHexdigit v) : groupLen (u ++ v) = groupLen u := by
  rw [groupLen, groupLen, List.take_append]
  have hstop : Stops isAsciiHexdigit (v.take (4 - u.length)) := by
    cases v with
    | nil => simpa using h
    | cons c v => cases 4 - u.length with
      | zero => rfl
      | succ n => exact h
  rw [Span.takeWhile_append hstop]

theorem isIpv6Char_of_hexdigit {c : UInt8} (h : isAsciiHexdigit c = true) :
    isIpv6Char c = true := by
  simp [isIpv6Char, isIpv6Adjacent, h]

theorem isIpv6Char_of_ipv4 {c : UInt8} (h : isIpv4Adjacent c = true) : isIpv6Char c = true := by
  simp only [isIpv4Adjacent, Bool.or_eq_true] at h
  rcases h with h | h
  · exact isIpv6Char_of_hexdigit (by simp [isAsciiHexdigit, h])
  · simp [isIpv6Char, h]

theorem suffixLen_append (h : Stops isIpv6Char v) (hn : n ≤ u.length) :
    suffixLen (u ++ v) n = suffixLen u n := by
  have hdots : Stops isIpv4Adjacent v := h.mono fun _ => isIpv6Char_of_ipv4
  have hdot : (u ++ v)[n]? = some (byteOf '.') ↔ u[n]? = some (byteOf '.') :=
    Span.getElem?_append_some h (by decide) hn
  simp only [suffixLen, hdot, quadLen_append hdots]

/-- Groups are parsed from the hex digits, colons and dots at the head. -/
theorem groupsLen_append (h : Stops isIpv6Char v) :
    groupsLen left saw (u ++ v) = groupsLen left saw u := by
  have hhex : Stops isAsciiHexdigit v := h.mono fun _ => isIpv6Char_of_hexdigit
  have hcolon : ∀ {w : Bytes} {k}, k ≤ w.length →
      ((w ++ v)[k]? = some (byteOf ':') ↔ w[k]? = some (byteOf ':')) :=
    fun hk => Span.getElem?_append_some h (by decide) hk
  induction left generalizing saw u with
  | zero => rfl
  | succ left ih =>
    have hle := groupLen_le (b := u)
    simp only [groupsLen, groupLen_append hhex, suffixLen_append h hle, ne_eq, hcolon hle]
    by_cases h0 : u[groupLen u]? = some (byteOf ':')
    · have hlt := (List.getElem?_eq_some_iff.mp h0).1
      simp only [hcolon hlt, Span.any_getElem?_append hhex hlt]
      rw [List.drop_append_of_le_length hlt, ih]
      by_cases h1 : u[groupLen u + 1]? = some (byteOf ':')
      · have hlt' := (List.getElem?_eq_some_iff.mp h1).1
        rw [Span.any_getElem?_append hhex hlt', List.drop_append_of_le_length hlt', ih]
      · simp [h1]
    · simp [h0]

theorem ipv6HeadLen_append (h : Stops isIpv6Char v) :
    ipv6HeadLen (u ++ v) = ipv6HeadLen u := by
  have hhex : Stops isAsciiHexdigit v := h.mono fun _ => isIpv6Char_of_hexdigit
  have hcolon : ∀ {k}, k ≤ u.length →
      ((u ++ v)[k]? = some (byteOf ':') ↔ u[k]? = some (byteOf ':')) :=
    fun hk => Span.getElem?_append_some h (by decide) hk
  simp only [ipv6HeadLen, groupsLen_append h, hcolon (Nat.zero_le _),
    Span.any_getElem?_append hhex (Nat.zero_le _)]
  by_cases h0 : u[0]? = some (byteOf ':')
  · have hlt := (List.getElem?_eq_some_iff.mp h0).1
    simp only [hcolon hlt]
    by_cases h1 : u[1]? = some (byteOf ':')
    · have hlt' := (List.getElem?_eq_some_iff.mp h1).1
      rw [Span.any_getElem?_append hhex hlt', List.drop_append_of_le_length hlt',
        groupsLen_append h]
    · simp [h1]
  · simp [h0]

/-- The characters of a date. -/
def isDateChar (b : UInt8) : Bool :=
  isAsciiDigit b || b == byteOf '-' || b == byteOf '/' || b == byteOf '.'

/-- What the date parsers look at, with the time separators behind a date. -/
def isDobChar (b : UInt8) : Bool :=
  isAsciiAlphanumeric b || b == byteOf '-' || b == byteOf '/' || b == byteOf '.' ||
    b == byteOf ' ' || b == byteOf ':'

/-- A date layout at the head. -/
def dateHeadLen (b : Bytes) : Option Nat :=
  if (b[0]?).any isAsciiDigit then
    ((tryParseIsoDate b 0).or (tryParseSlashDate b 0)).or (tryParseDotDate b 0)
  else none

theorem isDobChar_of_digit {c : UInt8} (h : isAsciiDigit c = true) : isDobChar c = true := by
  simp [isDobChar, isAsciiAlphanumeric, h]

theorem isDateChar_of_digit {c : UInt8} (h : isAsciiDigit c = true) : isDateChar c = true := by
  simp [isDateChar, h]

theorem isDobChar_of_date {c : UInt8} (h : isDateChar c = true) : isDobChar c = true := by
  simp only [isDateChar, Bool.or_eq_true] at h
  rcases h with ((h | h) | h) | h <;> simp [isDobChar, isAsciiAlphanumeric, h]

/-- A window of ten bytes that a date parser can accept. -/
structure DateWindow (b : Bytes) : Prop where
  len : 10 ≤ b.length
  chars : ∀ c ∈ b.take 10, isDateChar c = true
  last : (b[9]?).any isAsciiDigit = true

theorem slice_drop : slice bytes start (start + k) = slice (bytes.drop start) 0 k := by
  simp [slice]

theorem timeSeparatorAt_drop :
    timeSeparatorAt bytes (start + k) = timeSeparatorAt (bytes.drop start) k := by
  simp [timeSeparatorAt, Nat.add_assoc]

theorem dateWindow_of_slice {l : Bytes} (hs : slice b 0 10 = l) (hl : l.length = 10)
    (hall : ∀ c ∈ l, isDateChar c = true) (hlast : (l[9]?).any isAsciiDigit = true) :
    DateWindow b := by
  have htake : b.take 10 = l := by simpa [slice] using hs
  refine ⟨?_, htake ▸ hall, ?_⟩
  · rw [← htake, List.length_take] at hl
    omega
  · rwa [← htake, List.getElem?_take_of_lt (by omega)] at hlast

theorem tryParseIsoDate_window (h : tryParseIsoDate b 0 = some n) : n = 10 ∧ DateWindow b := by
  simp only [tryParseIsoDate] at h
  split at h
  · rename_i hs
    split_ifs at h with hc
    simp only [Bool.and_eq_true, List.all_cons, beq_iff_eq] at hc
    refine ⟨by simpa using h.symm, dateWindow_of_slice hs rfl ?_ (by simp [hc])⟩
    simp_all [isDateChar_of_digit]
    decide
  · simp at h

theorem tryParseSlashDate_window (h : tryParseSlashDate b 0 = some n) :
    n = 10 ∧ DateWindow b := by
  simp only [tryParseSlashDate] at h
  split at h
  · rename_i hs
    split_ifs at h with hc
    simp only [Bool.and_eq_true, List.all_cons, beq_iff_eq] at hc
    refine ⟨by simpa using h.symm, dateWindow_of_slice hs rfl ?_ (by simp [hc])⟩
    simp_all [isDateChar_of_digit]
    decide
  · simp at h

theorem tryParseDotDate_window (h : tryParseDotDate b 0 = some n) : n = 10 ∧ DateWindow b := by
  simp only [tryParseDotDate] at h
  split at h
  · rename_i hs
    split_ifs at h with hc
    simp only [Bool.and_eq_true, List.all_cons, beq_iff_eq] at hc
    refine ⟨by simpa using h.symm, dateWindow_of_slice hs rfl ?_ (by simp [hc])⟩
    simp_all [isDateChar_of_digit]
    decide
  · simp at h

theorem tryParseIsoDate_drop (bytes : Bytes) (start : Nat) :
    tryParseIsoDate bytes start = (tryParseIsoDate (bytes.drop start) 0).map (start + ·) := by
  simp only [tryParseIsoDate, slice_drop, timeSeparatorAt_drop, Nat.zero_add]
  split
  · split_ifs <;> rfl
  · rfl

theorem tryParseSlashDate_drop (bytes : Bytes) (start : Nat) :
    tryParseSlashDate bytes start = (tryParseSlashDate (bytes.drop start) 0).map (start + ·) := by
  simp only [tryParseSlashDate, slice_drop, Nat.zero_add]
  split
  · split_ifs <;> rfl
  · rfl

theorem tryParseDotDate_drop (bytes : Bytes) (start : Nat) :
    tryParseDotDate bytes start = (tryParseDotDate (bytes.drop start) 0).map (start + ·) := by
  simp only [tryParseDotDate, slice_drop, timeSeparatorAt_drop, Nat.zero_add]
  split
  · split_ifs <;> rfl
  · rfl

theorem timeSeparatorAt_append (h : Stops isDobChar v) (hk : k ≤ u.length) :
    timeSeparatorAt (u ++ v) k = timeSeparatorAt u k := by
  have hchar : ∀ {c j}, isDobChar c = true → j ≤ u.length →
      ((u ++ v)[j]? == some c) = (u[j]? == some c) := by
    intro c j hc hj
    rw [Bool.eq_iff_iff, beq_iff_eq, beq_iff_eq]
    exact Span.getElem?_append_some h hc hj
  have hdigit : ∀ {j}, j ≤ u.length →
      ((u ++ v)[j]?).any isAsciiDigit = (u[j]?).any isAsciiDigit :=
    Span.any_getElem?_append (h.mono fun _ => isDobChar_of_digit)
  have hnext : ∀ {j}, (u[j]?).any isAsciiDigit = true → j + 1 ≤ u.length := by
    intro j hj
    by_contra hlt
    rw [List.getElem?_eq_none (by omega)] at hj
    simp at hj
  have hT : isDobChar (byteOf 'T') = true := by decide
  have hspace : isDobChar (byteOf ' ') = true := by decide
  have hcolon : isDobChar (byteOf ':') = true := by decide
  simp only [timeSeparatorAt, hchar hT hk, hchar hspace hk]
  by_cases h0 : u[k]? = some (byteOf ' ')
  · have hk1 := (List.getElem?_eq_some_iff.mp h0).1
    rw [hdigit hk1]
    by_cases h1 : (u[k + 1]?).any isAsciiDigit = true
    · rw [hdigit (hnext h1)]
      by_cases h2 : (u[k + 2]?).any isAsciiDigit = true
      · rw [hchar hcolon (hnext h2)]
      · simp [h2]
    · simp [h1]
  · simp only [beq_false_of_ne h0, Bool.false_and]

/-- A date parser reads a window of ten bytes of its alphabet, and then what follows. -/
theorem date_append {f : Bytes → Option Nat} (h : Stops isDobChar v)
    (hwindow : ∀ {b n}, f b = some n → n = 10 ∧ DateWindow b)
    (hlong : 10 ≤ u.length → f (u ++ v) = f u) : f (u ++ v) = f u := by
  by_cases hlen : 10 ≤ u.length
  · exact hlong hlen
  · have hu : f u = none := by
      by_contra hs
      obtain ⟨n, hn⟩ := Option.ne_none_iff_exists'.mp hs
      exact hlen (hwindow hn).2.len
    rw [hu]
    by_contra hs
    obtain ⟨n, hn⟩ := Option.ne_none_iff_exists'.mp hs
    obtain ⟨hle, hall, -⟩ := (hwindow hn).2
    cases v with
    | nil => simp_all
    | cons c v =>
      have hc : isDobChar c = true := by
        apply isDobChar_of_date
        apply hall
        rw [List.take_append, List.mem_append]
        right
        cases hk : 10 - u.length with
        | zero => omega
        | succ k => simp
      rw [Span.stops_cons.mp h] at hc
      exact absurd hc (by decide)

theorem slice_append (hk : k ≤ u.length) : slice (u ++ v) 0 k = slice u 0 k := by
  simp [slice, List.take_append_of_le_length hk]

theorem dateHeadLen_append (h : Stops isDobChar v) : dateHeadLen (u ++ v) = dateHeadLen u := by
  have hiso : tryParseIsoDate (u ++ v) 0 = tryParseIsoDate u 0 :=
    date_append (f := (tryParseIsoDate · 0)) h tryParseIsoDate_window fun hlen => by
      simp only [tryParseIsoDate, Nat.zero_add, slice_append hlen, timeSeparatorAt_append h hlen]
  have hslash : tryParseSlashDate (u ++ v) 0 = tryParseSlashDate u 0 :=
    date_append (f := (tryParseSlashDate · 0)) h tryParseSlashDate_window fun hlen => by
      simp only [tryParseSlashDate, Nat.zero_add, slice_append hlen]
  have hdot : tryParseDotDate (u ++ v) 0 = tryParseDotDate u 0 :=
    date_append (f := (tryParseDotDate · 0)) h tryParseDotDate_window fun hlen => by
      simp only [tryParseDotDate, Nat.zero_add, slice_append hlen, timeSeparatorAt_append h hlen]
  have hdigit : Stops isAsciiDigit v := h.mono fun _ => isDobChar_of_digit
  simp only [dateHeadLen, hiso, hslash, hdot, Span.any_getElem?_append hdigit (Nat.zero_le _)]

theorem dateHeadLen_some (h : dateHeadLen b = some n) : n = 10 ∧ DateWindow b := by
  rw [dateHeadLen] at h
  split_ifs at h
  rcases Option.or_eq_some_iff.mp h with h | ⟨-, h⟩
  · rcases Option.or_eq_some_iff.mp h with h | ⟨-, h⟩
    · exact tryParseIsoDate_window h
    · exact tryParseSlashDate_window h
  · exact tryParseDotDate_window h

theorem boundedBy_zero : boundedBy p b 0 n = !(b[n]?).any p := by
  by_cases h : b.length ≤ n
  · simp [boundedBy, List.getElem?_eq_none h]
  · simp [boundedBy, h]

theorem boundedBy_append : boundedBy p (x ++ y) x.length (x.length + n) =
    (!x.getLast?.any p && boundedBy p y 0 n) := by
  have hbefore : (x.length == 0 || !((x ++ y)[x.length - 1]?).any p) = !x.getLast?.any p := by
    rcases List.eq_nil_or_concat x with rfl | ⟨x, c, rfl⟩
    · rfl
    · simp
  have hafter : (x ++ y)[x.length + n]? = y[n]? := by
    rw [List.getElem?_append_right (Nat.le_add_right ..), Nat.add_sub_cancel_left]
  simp [boundedBy, hbefore, hafter]

/-- A recogniser parses at the head, and rejects a match that touches an adjacent byte. -/
structure Recogniser where
  headLen : Bytes → Option Nat
  adjacent : UInt8 → Bool
  alphabet : UInt8 → Bool
  alphabet_ascii : Utf8.AsciiOnly alphabet
  adjacent_alphabet : ∀ c, adjacent c = true → alphabet c = true
  headLen_append : ∀ {u v}, Stops alphabet v → headLen (u ++ v) = headLen u
  headLen_pos : ∀ {b n}, headLen b = some n → 0 < n
  headLen_le : ∀ {b n}, headLen b = some n → n ≤ b.length

variable {r : Recogniser}

/-- What is recognised consists of bytes of the alphabet. -/
theorem Recogniser.headLen_alphabet (h : r.headLen b = some n) :
    ∀ c ∈ b.take n, r.alphabet c = true := by
  have hsplit := List.takeWhile_append_dropWhile (p := r.alphabet) (l := b)
  rw [← hsplit, r.headLen_append (Span.stops_dropWhile r.alphabet b)] at h
  intro c hc
  rw [← hsplit, List.take_append_of_le_length (r.headLen_le h)] at hc
  exact List.mem_takeWhile_imp (List.mem_of_mem_take hc)

def Recogniser.find (r : Recogniser) (bytes : Bytes) (i : Nat) : Option Nat :=
  ((r.headLen (bytes.drop i)).map (i + ·)).filter fun stop => boundedBy r.adjacent bytes i stop

theorem isAsciiAlphanumeric_ascii : Utf8.AsciiOnly isAsciiAlphanumeric := by
  intro c h
  simp only [isAsciiAlphanumeric, isAsciiAlphabetic, isAsciiDigit, Bool.or_eq_true,
    Bool.and_eq_true, decide_eq_true_eq, UInt8.le_iff_toNat_le] at h
  rw [UInt8.lt_iff_toNat_lt]
  simp at h ⊢
  omega

theorem isAsciiAlphanumeric_of_hexdigit {c : UInt8} (h : isAsciiHexdigit c = true) :
    isAsciiAlphanumeric c = true := by
  simp only [isAsciiHexdigit, isAsciiAlphanumeric, isAsciiAlphabetic, isAsciiDigit,
    Bool.or_eq_true, Bool.and_eq_true, decide_eq_true_eq, UInt8.le_iff_toNat_le,
    UInt8.reduceToNat] at h ⊢
  omega

theorem isIpv6Char_ascii : Utf8.AsciiOnly isIpv6Char := by
  intro c h
  simp only [isIpv6Char, isIpv6Adjacent, Bool.or_eq_true, beq_iff_eq] at h
  rcases h with (h | rfl) | rfl
  · exact isAsciiAlphanumeric_ascii c (isAsciiAlphanumeric_of_hexdigit h)
  · decide
  · decide

theorem isIpv4Adjacent_ascii : Utf8.AsciiOnly isIpv4Adjacent :=
  fun c h => isIpv6Char_ascii c (isIpv6Char_of_ipv4 h)

theorem isDobChar_ascii : Utf8.AsciiOnly isDobChar := by
  intro c h
  simp only [isDobChar, Bool.or_eq_true, beq_iff_eq] at h
  rcases h with ((((h | rfl) | rfl) | rfl) | rfl) | rfl
  · exact isAsciiAlphanumeric_ascii c h
  all_goals decide

def ipv4Recogniser : Recogniser where
  headLen := quadLen 4
  adjacent := isIpv4Adjacent
  alphabet := isIpv4Adjacent
  alphabet_ascii := isIpv4Adjacent_ascii
  adjacent_alphabet _ := id
  headLen_append := quadLen_append
  headLen_pos := quadLen_pos
  headLen_le := quadLen_le

/-- The length of an address with two colons at the head. -/
def ipv6AddressLen (b : Bytes) : Option Nat :=
  (ipv6HeadLen b).filter fun n => (b.take n).count (byteOf ':') ≥ 2

theorem ipv6AddressLen_pos (h : ipv6AddressLen b = some n) : 0 < n := by
  obtain ⟨-, hcount⟩ := Option.filter_eq_some_iff.mp h
  cases n with
  | zero => simp at hcount
  | succ n => exact Nat.succ_pos n

theorem ipv6AddressLen_append (h : Stops isIpv6Char v) :
    ipv6AddressLen (u ++ v) = ipv6AddressLen u := by
  rw [ipv6AddressLen, ipv6AddressLen, ipv6HeadLen_append h]
  cases hn : ipv6HeadLen u with
  | none => rfl
  | some n => simp only [Option.filter_some, List.take_append_of_le_length (ipv6HeadLen_le hn)]

def ipv6Recogniser : Recogniser where
  headLen := ipv6AddressLen
  adjacent := isIpv6Adjacent
  alphabet := isIpv6Char
  alphabet_ascii := isIpv6Char_ascii
  adjacent_alphabet c h := by simp [isIpv6Char, h]
  headLen_append h := ipv6AddressLen_append h
  headLen_pos := ipv6AddressLen_pos
  headLen_le h := ipv6HeadLen_le (Option.eq_some_of_filter_eq_some h)

def dobRecogniser : Recogniser where
  headLen := dateHeadLen
  adjacent := isAsciiAlphanumeric
  alphabet := isDobChar
  alphabet_ascii := isDobChar_ascii
  adjacent_alphabet c h := by simp [isDobChar, h]
  headLen_append := dateHeadLen_append
  headLen_pos h := by simp [(dateHeadLen_some h).1]
  headLen_le h := by
    obtain ⟨rfl, hwindow⟩ := dateHeadLen_some h
    exact hwindow.len

theorem ipv4At_eq : ipv4At = ipv4Recogniser.find := by
  funext bytes i
  simp only [ipv4At, Recogniser.find, ipv4Recogniser, tryParseIpv4_eq]
  cases quadLen 4 (bytes.drop i) with
  | none => rfl
  | some n => rfl

theorem ipv6At_eq : ipv6At = ipv6Recogniser.find := by
  funext bytes i
  simp only [ipv6At, Recogniser.find, ipv6Recogniser, ipv6AddressLen, tryParseIpv6_eq, slice]
  cases ipv6HeadLen (bytes.drop i) with
  | none => rfl
  | some n =>
    simp only [Option.map_some, Nat.add_sub_cancel_left, Option.filter_some]
    split_ifs <;> simp_all [Option.filter_some]

theorem dobAt_eq : dobAt = dobRecogniser.find := by
  funext bytes i
  have hdigit : isAsciiDigit (bytes.getD i 0) = ((bytes.drop i)[0]?).any isAsciiDigit := by
    rw [List.getElem?_drop, List.getD_eq_getElem?_getD]
    cases bytes[i + 0]? with
    | none => rfl
    | some c => rfl
  have hfilter : ∀ f : Bytes → Option Nat, (∀ {n}, f (bytes.drop i) = some n → n = 10) →
      ((f (bytes.drop i)).map (i + ·)).filter (boundedBy isAsciiAlphanumeric bytes i) =
        if boundedBy isAsciiAlphanumeric bytes i (i + 10) then (f (bytes.drop i)).map (i + ·)
        else none := by
    intro f hf
    cases hn : f (bytes.drop i) with
    | none => simp
    | some n => simp [Option.filter_some, hf hn]
  have hiso := hfilter (tryParseIsoDate · 0) fun h => (tryParseIsoDate_window h).1
  have hslash := hfilter (tryParseSlashDate · 0) fun h => (tryParseSlashDate_window h).1
  have hdot := hfilter (tryParseDotDate · 0) fun h => (tryParseDotDate_window h).1
  have hdate := hfilter dateHeadLen fun h => (dateHeadLen_some h).1
  rw [dobAt, hdigit, tryParseIsoDate_drop, tryParseSlashDate_drop, tryParseDotDate_drop]
  simp only [Recogniser.find, dobRecogniser]
  rw [hdate]
  rw [hiso, hslash, hdot, dateHeadLen]
  split_ifs
  · simp only [Option.orElse_eq_orElse, Option.orElse_eq_or, Option.map_or, Option.or_assoc]
  · rfl
  · rfl
  · rfl

end ProviiAudit
