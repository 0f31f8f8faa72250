import ProviiAudit.Lib.Words
import ProviiAudit.Sanitize

/-! The scanners with the arithmetic of the machine: `usize` positions and `u8` counters, which
wrap. A loop out of fuel fails. -/
namespace ProviiAudit.Machine

open Utf8 (Text asBytes byteOf charAt)
open Words (Comp Flow loop)

/-- The sizes of `usize`. -/
inductive PointerWidth
  | bits16
  | bits32
  | bits64

def PointerWidth.bits : PointerWidth → Nat
  | bits16 => 16
  | bits32 => 32
  | bits64 => 64

/-- A `&str`: nothing in memory is larger than `isize::MAX` bytes. -/
structure Str (width : PointerWidth) where
  text : Text
  fits : (asBytes text).length < 2 ^ (width.bits - 1)

variable (width : PointerWidth) (bytes : Bytes)

/-- `usize::wrapping_add`. -/
def add (a b : Nat) : Comp Nat := Words.wrappingAdd width.bits a b

/-- `usize::wrapping_sub`. -/
def sub (a b : Nat) : Comp Nat := Words.wrappingSub width.bits a b

/-- `u8::wrapping_add`. -/
def add8 (a b : Nat) : Comp Nat := Words.wrappingAdd 8 a b

/-- `pos < bytes.len() && bytes.get(pos).is_some_and(p)`. -/
def holdsAt (p : UInt8 → Bool) (pos : Nat) : Bool := pos < bytes.length && (bytes[pos]?).any p

/-- `before_ok && after_ok`. -/
def boundedBy (p : UInt8 → Bool) (i stop : Nat) : Comp Bool := do
  let beforeOk ← if i = 0 then pure true else do
    let before ← sub width i 1
    pure !(bytes[before]?).any p
  return beforeOk && (bytes.length ≤ stop || !(bytes[stop]?).any p)

/-- The loop over the digits of an octet. -/
def skipDigits : Nat → Comp Nat :=
  loop (fun pos => do
    if holdsAt bytes isAsciiDigit pos then
      let pos ← add width pos 1
      return .next pos
    else return .done pos) (bytes.length + 1)

structure Octets where
  pos : Nat
  octets : Nat

/-- A turn of `while octets < 4`. -/
def octetStep (st : Octets) : Comp (Flow Octets (Option (Nat × Bool))) := do
  if st.octets < 4 then
    let octetStart := st.pos
    let pos ← skipDigits width bytes octetStart
    let digitCount ← sub width pos octetStart
    if digitCount = 0 ∨ digitCount > 3 then return .done none
    else if parseDecimal (slice bytes octetStart pos) > 255 then return .done none
    else
      let octets ← add8 st.octets 1
      if octets < 4 then
        if bytes.length ≤ pos ∨ bytes[pos]? ≠ some (byteOf '.') then return .done none
        else
          let pos ← add width pos 1
          return .next ⟨pos, octets⟩
      else return .next ⟨pos, octets⟩
  else return .done (some (st.pos, st.octets == 4))

def tryParseIpv4 (start : Nat) : Comp (Option (Nat × Bool)) :=
  loop (octetStep width bytes) 5 ⟨start, 0⟩

/-- The end of the IPv4 address redacted at `i`, if there is one. -/
def ipv4At (input : Text) (i : Nat) : Comp (Option Nat) := do
  match ← tryParseIpv4 width (asBytes input) i with
  | some (stop, true) =>
    let bounded ← boundedBy width (asBytes input) isIpv4Adjacent i stop
    return if bounded then some stop else none
  | _ => return none

/-- The loop over the digits of a group. -/
def skipGroup (groupStart : Nat) : Comp (Nat × Nat) :=
  loop (fun (pos, digitCount) => do
    if pos < bytes.length ∧ digitCount < 4 ∧ (bytes[pos]?).any isAsciiHexdigit then
      let pos ← add width pos 1
      let digitCount ← add8 digitCount 1
      return .next (pos, digitCount)
    else return .done (pos, digitCount)) 5 (groupStart, 0)

def ipv4Suffix (groupStart pos digitCount : Nat) : Comp (Option Nat) := do
  if bytes[pos]? = some (byteOf '.') ∧ digitCount ≤ 3 then
    match ← tryParseIpv4 width bytes groupStart with
    | some (ipv4End, true) => return some ipv4End
    | _ => return none
  else return none

structure Groups where
  pos : Nat
  groups : Nat
  sawDoubleColon : Bool

/-- A turn of the group loop. -/
def groupStep (st : Groups) : Comp (Flow Groups (Option Nat)) := do
  let (pos, digitCount) ← skipGroup width bytes st.pos
  if digitCount = 0 then return .done (ipv6Found st.groups st.sawDoubleColon pos)
  else
    let groups ← add8 st.groups 1
    match ← ipv4Suffix width bytes st.pos pos digitCount with
    | some ipv4End => return .done (some ipv4End)
    | none =>
      if bytes[pos]? ≠ some (byteOf ':') then
        return .done (ipv6Found groups st.sawDoubleColon pos)
      else
        let next ← add width pos 1
        if bytes[next]? = some (byteOf ':') then
          if st.sawDoubleColon then return .done (ipv6Found groups st.sawDoubleColon pos)
          else
            let pos ← add width pos 2
            if !holdsAt bytes isAsciiHexdigit pos then return .done (ipv6Found groups true pos)
            else if groups ≥ 8 then return .done (ipv6Found groups true pos)
            else return .next ⟨pos, groups, true⟩
        else
          let pos ← add width pos 1
          if !holdsAt bytes isAsciiHexdigit pos then
            let pos ← sub width pos 1
            return .done (ipv6Found groups st.sawDoubleColon pos)
          else if groups ≥ 8 then return .done (ipv6Found groups st.sawDoubleColon pos)
          else return .next ⟨pos, groups, st.sawDoubleColon⟩

/-- `::` at `start`; the second colon is looked for behind the first one only. -/
def leadingDoubleColon (start : Nat) : Comp Bool := do
  if bytes[start]? = some (byteOf ':') then
    let next ← add width start 1
    return bytes[next]? == some (byteOf ':')
  else return false

def tryParseIpv6 (start : Nat) : Comp (Option Nat) := do
  let leading ← leadingDoubleColon width bytes start
  if leading then
    let pos ← add width start 2
    if !holdsAt bytes isAsciiHexdigit pos then return some pos
    else loop (groupStep width bytes) 8 ⟨pos, 0, true⟩
  else loop (groupStep width bytes) 8 ⟨start, 0, false⟩

/-- The end of the IPv6 address redacted at `i`, if there is one. -/
def ipv6At (input : Text) (i : Nat) : Comp (Option Nat) := do
  match ← tryParseIpv6 width (asBytes input) i with
  | some stop =>
    let segment := (Utf8.getRange input i stop).getD []
    if (asBytes segment).count (byteOf ':') ≥ 2 then
      let bounded ← boundedBy width (asBytes input) isIpv6Adjacent i stop
      return if bounded then some stop else none
    else return none
  | none => return none

def scanEmailLocalBack : Nat → Comp Nat :=
  loop (fun pos => do
    if 0 < pos then
      let before ← sub width pos 1
      if (bytes[before]?).any isEmailLocalChar then
        let pos ← sub width pos 1
        return .next pos
      else return .done pos
    else return .done pos) (bytes.length + 1)

/-- A turn of the domain loop. -/
def domainStep (st : DomainScan) : Comp (Flow DomainScan (Option DomainScan)) := do
  if st.pos < bytes.length then
    match bytes[st.pos]? with
    | some b =>
      if isAsciiAlphanumeric b || b == byteOf '-' then
        let pos ← add width st.pos 1
        return .next { st with pos := pos }
      else if b == byteOf '.' then
        let pos ← add width st.pos 1
        return .next ⟨pos, true, st.pos⟩
      else return .done (some st)
    | none => return .done none
  else return .done (some st)

def scanEmailDomainForward (start : Nat) : Comp (Option Nat) := do
  match ← loop (domainStep width bytes) (bytes.length + 1) ⟨start, false, 0⟩ with
  | none => return none
  | some st =>
    if !st.sawDot then return none
    else
      let afterDot ← add width st.lastDotPos 1
      let tldLen ← sub width st.pos afterDot
      if tldLen < 2 then return none
      else
        let afterDot ← add width st.lastDotPos 1
        let alphabetic := (List.range' afterDot (st.pos - afterDot)).all fun j =>
          (bytes[j]?).any isAsciiAlphabetic
        return if alphabetic then some st.pos else none

/-- `T` or ` HH:` follows. -/
def timeSeparatorAt (stop : Nat) : Comp Bool := do
  if bytes[stop]? = some (byteOf 'T') then return true
  else if bytes[stop]? = some (byteOf ' ') then
    let tens ← add width stop 1
    if (bytes[tens]?).any isAsciiDigit then
      let ones ← add width stop 2
      if (bytes[ones]?).any isAsciiDigit then
        let colon ← add width stop 3
        return bytes[colon]? == some (byteOf ':')
      else return false
    else return false
  else return false

/-- The ten bytes from `start` on, `bytes.get(start..start + 10)`. -/
def window (start : Nat) : Comp (Option Bytes) := do
  let stop ← add width start 10
  if stop > bytes.length then return none
  else
    let stop ← add width start 10
    return some (slice bytes start stop)

/-- The end of a window, unless a time follows. -/
def untimedEnd (start : Nat) : Comp (Option Nat) := do
  let stop ← add width start 10
  let timed ← timeSeparatorAt width bytes stop
  return if timed then none else some stop

def tryParseIsoDate (start : Nat) : Comp (Option Nat) := do
  match ← window width bytes start with
  | some [y₀, y₁, y₂, y₃, h₀, m₀, m₁, h₁, d₀, d₁] =>
    if [y₀, y₁, y₂, y₃, m₀, m₁, d₀, d₁].all isAsciiDigit && h₀ == byteOf '-' &&
        h₁ == byteOf '-' && inRange dobYearLower dobYearUpper (parseDecimal [y₀, y₁, y₂, y₃]) &&
        inRange 1 12 (parseDecimal [m₀, m₁]) && inRange 1 31 (parseDecimal [d₀, d₁]) then
      untimedEnd width bytes start
    else return none
  | _ => return none

def tryParseSlashDate (start : Nat) : Comp (Option Nat) := do
  match ← window width bytes start with
  | some [a₀, a₁, s₀, b₀, b₁, s₁, y₀, y₁, y₂, y₃] =>
    let first := parseDecimal [a₀, a₁]
    let second := parseDecimal [b₀, b₁]
    if [a₀, a₁, b₀, b₁, y₀, y₁, y₂, y₃].all isAsciiDigit && s₀ == byteOf '/' &&
        s₁ == byteOf '/' && inRange dobYearLower dobYearUpper (parseDecimal [y₀, y₁, y₂, y₃]) &&
        ((inRange 1 31 first && inRange 1 12 second) ||
          (inRange 1 12 first && inRange 1 31 second)) then
      let stop ← add width start 10
      return some stop
    else return none
  | _ => return none

def tryParseDotDate (start : Nat) : Comp (Option Nat) := do
  match ← window width bytes start with
  | some [d₀, d₁, p₀, m₀, m₁, p₁, y₀, y₁, y₂, y₃] =>
    if [d₀, d₁, m₀, m₁, y₀, y₁, y₂, y₃].all isAsciiDigit && p₀ == byteOf '.' &&
        p₁ == byteOf '.' && inRange dobYearLower dobYearUpper (parseDecimal [y₀, y₁, y₂, y₃]) &&
        inRange 1 31 (parseDecimal [d₀, d₁]) && inRange 1 12 (parseDecimal [m₀, m₁]) then
      untimedEnd width bytes start
    else return none
  | _ => return none

/-- A parsed date, when it is bounded by its neighbours. -/
def boundedDate (parse : Nat → Comp (Option Nat)) (i : Nat) : Comp (Option Nat) := do
  match ← parse i with
  | some stop =>
    let bounded ← boundedBy width bytes isAsciiAlphanumeric i stop
    return if bounded then some stop else none
  | none => return none

/-- The end of the date redacted at `i`: the three layouts are tried in turn. -/
def dobAt (input : Text) (i : Nat) : Comp (Option Nat) := do
  let bytes := asBytes input
  if isAsciiDigit (bytes.getD i 0) then
    match ← boundedDate width bytes (tryParseIsoDate width bytes) i with
    | some stop => return some stop
    | none =>
      match ← boundedDate width bytes (tryParseSlashDate width bytes) i with
      | some stop => return some stop
      | none => boundedDate width bytes (tryParseDotDate width bytes) i
  else return none

/-- Advance one character, or one byte off a character boundary. -/
def copyChar (input : Text) (st : Cursor) : Comp Cursor := do
  match charAt input st.i with
  | some ch =>
    let i ← add width st.i ch.utf8Size
    return ⟨i, st.result ++ [ch]⟩
  | none =>
    let i ← add width st.i 1
    return ⟨i, st.result⟩

/-- What is written for a match that ends at `stop`. -/
def redact (stop : Nat) (result : Text) (st : Cursor) : Comp Cursor := do
  let i ← add width st.i 1
  return ⟨max stop i, result⟩

def redactStep (recognise : Text → Nat → Comp (Option Nat)) (placeholder input : Text)
    (st : Cursor) : Comp Cursor := do
  match ← recognise input st.i with
  | some stop => redact width stop (st.result ++ placeholder) st
  | none => copyChar width input st

def emailStep (input : Text) (st : Cursor) : Comp Cursor := do
  let bytes := asBytes input
  if bytes[st.i]? = some (byteOf '@') then
    let localStart ← scanEmailLocalBack width bytes st.i
    let start ← add width st.i 1
    match ← scanEmailDomainForward width bytes start with
    | some domainEnd =>
      if localStart < st.i then
        let localLen ← sub width st.i localStart
        redact width domainEnd (popChars localLen st.result ++ redactedEmail) st
      else copyChar width input st
    | none => copyChar width input st
  else copyChar width input st

/-- A turn of `while i < len`. -/
def turn (step : Text → Cursor → Comp Cursor) (input : Text) (st : Cursor) :
    Comp (Flow Cursor Text) := do
  if inside input st then
    let st ← step input st
    return .next st
  else return .done st.result

def runPass (step : Text → Cursor → Comp Cursor) (input : Text) : Comp Text :=
  loop (turn step input) ((asBytes input).length + 1) ⟨0, []⟩

def stripIpv4 (input : Text) : Comp Text :=
  runPass (redactStep width (ipv4At width) redactedIp) input

def stripIpv6 (input : Text) : Comp Text :=
  runPass (redactStep width (ipv6At width) redactedIp) input

def stripEmails (input : Text) : Comp Text := runPass (emailStep width) input

def stripDobPatterns (input : Text) : Comp Text :=
  runPass (redactStep width (dobAt width) redactedDob) input

end ProviiAudit.Machine
