import Mathlib.Data.List.Basic
import Mathlib.Logic.Function.Iterate
import ProviiAudit.Lib.Loop
import ProviiAudit.Lib.Utf8

/-! Redaction of IP addresses, email addresses and dates of birth in free text.

Positions are byte offsets into the UTF-8 encoding; a byte literal `b'.'` is `byteOf '.'`. -/
namespace ProviiAudit

open Utf8 (Text asBytes byteOf charAt)

abbrev Bytes := List UInt8

def dobYearLower : Nat := 1920

def dobYearUpper : Nat := 2013

def redactedIp : Text := "[REDACTED_IP]".toList

def redactedEmail : Text := "[REDACTED_EMAIL]".toList

def redactedDob : Text := "[REDACTED_DOB]".toList

def isAsciiDigit (b : UInt8) : Bool := 48 ≤ b && b ≤ 57

def isAsciiAlphabetic (b : UInt8) : Bool := (65 ≤ b && b ≤ 90) || (97 ≤ b && b ≤ 122)

def isAsciiAlphanumeric (b : UInt8) : Bool := isAsciiAlphabetic b || isAsciiDigit b

def isAsciiHexdigit (b : UInt8) : Bool :=
  isAsciiDigit b || (65 ≤ b && b ≤ 70) || (97 ≤ b && b ≤ 102)

/-- The bytes from `start` to before `stop`: `bytes.get(start..stop)`. -/
def slice (bytes : Bytes) (start stop : Nat) : Bytes := (bytes.drop start).take (stop - start)

/-- `while bytes.get(pos).is_some_and(p) { pos += 1 }`. -/
def skipWhile (p : UInt8 → Bool) (bytes : Bytes) (pos : Nat) : Nat :=
  pos + ((bytes.drop pos).takeWhile p).length

/-- The value of decimal digits. -/
def parseDecimal (digits : Bytes) : Nat := digits.foldl (fun v b => 10 * v + (b.toNat - 48)) 0

/-- The bytes around `i..stop` do not satisfy `p`: `before_ok && after_ok`. -/
def boundedBy (p : UInt8 → Bool) (bytes : Bytes) (i stop : Nat) : Bool :=
  (i == 0 || !(bytes[i - 1]?).any p) && (bytes.length ≤ stop || !(bytes[stop]?).any p)

def isIpv4Adjacent (b : UInt8) : Bool := isAsciiDigit b || b == byteOf '.'

/-- The loop `while octets < 4`, with `left = 4 - octets`. -/
def ipv4Loop (bytes : Bytes) : Nat → Nat → Nat → Option (Nat × Nat)
  | 0, octets, pos => some (pos, octets)
  | left + 1, octets, octetStart =>
    let pos := skipWhile isAsciiDigit bytes octetStart
    let digitCount := pos - octetStart
    if digitCount = 0 ∨ digitCount > 3 then none
    else if parseDecimal (slice bytes octetStart pos) > 255 then none
    else if octets + 1 < 4 then
      if bytes[pos]? = some (byteOf '.') then ipv4Loop bytes left (octets + 1) (pos + 1)
      else none
    else ipv4Loop bytes left (octets + 1) pos

def tryParseIpv4 (bytes : Bytes) (start : Nat) : Option (Nat × Bool) :=
  (ipv4Loop bytes 4 0 start).map fun (pos, octets) => (pos, octets == 4)

/-- The end of the IPv4 address redacted at `i`, if there is one. -/
def ipv4At (bytes : Bytes) (i : Nat) : Option Nat :=
  match tryParseIpv4 bytes i with
  | some (stop, true) => if boundedBy isIpv4Adjacent bytes i stop then some stop else none
  | _ => none

def isIpv6Adjacent (b : UInt8) : Bool := isAsciiHexdigit b || b == byteOf ':'

/-- The return value after the loop. -/
def ipv6Found (groups : Nat) (sawDoubleColon : Bool) (pos : Nat) : Option Nat :=
  if groups ≥ 1 ∨ sawDoubleColon then some pos else none

/-- An IPv4 suffix that starts with the group `groupStart..pos`. -/
def ipv4Suffix (bytes : Bytes) (groupStart pos digitCount : Nat) : Option Nat :=
  if bytes[pos]? = some (byteOf '.') ∧ digitCount ≤ 3 then
    match tryParseIpv4 bytes groupStart with
    | some (ipv4End, true) => some ipv4End
    | _ => none
  else none

/-- The group loop. Eight groups end it, so fuel 8 is never used up. -/
def ipv6Loop (bytes : Bytes) : Nat → Nat → Nat → Bool → Option Nat
  | 0, groups, pos, sawDoubleColon => ipv6Found groups sawDoubleColon pos
  | fuel + 1, groups, groupStart, sawDoubleColon =>
    let digitCount := (((bytes.drop groupStart).take 4).takeWhile isAsciiHexdigit).length
    let pos := groupStart + digitCount
    if digitCount = 0 then ipv6Found groups sawDoubleColon pos
    else
      let groups := groups + 1
      match ipv4Suffix bytes groupStart pos digitCount with
      | some ipv4End => some ipv4End
      | none =>
        if bytes[pos]? ≠ some (byteOf ':') then ipv6Found groups sawDoubleColon pos
        else if bytes[pos + 1]? = some (byteOf ':') then
          if sawDoubleColon then ipv6Found groups sawDoubleColon pos
          else if !(bytes[pos + 2]?).any isAsciiHexdigit then ipv6Found groups true (pos + 2)
          else if groups ≥ 8 then ipv6Found groups true (pos + 2)
          else ipv6Loop bytes fuel groups (pos + 2) true
        -- a trailing colon without a group behind it is given back
        else if !(bytes[pos + 1]?).any isAsciiHexdigit then ipv6Found groups sawDoubleColon pos
        else if groups ≥ 8 then ipv6Found groups sawDoubleColon (pos + 1)
        else ipv6Loop bytes fuel groups (pos + 1) sawDoubleColon

def tryParseIpv6 (bytes : Bytes) (start : Nat) : Option Nat :=
  if bytes[start]? = some (byteOf ':') ∧ bytes[start + 1]? = some (byteOf ':') then
    if !(bytes[start + 2]?).any isAsciiHexdigit then some (start + 2)
    else ipv6Loop bytes 8 0 (start + 2) true
  else ipv6Loop bytes 8 0 start false

/-- The end of the IPv6 address redacted at `i`, if there is one. -/
def ipv6At (bytes : Bytes) (i : Nat) : Option Nat :=
  match tryParseIpv6 bytes i with
  | some stop =>
    let colonCount := (slice bytes i stop).count (byteOf ':')
    if colonCount ≥ 2 ∧ boundedBy isIpv6Adjacent bytes i stop then some stop else none
  | none => none

def isEmailLocalChar (b : UInt8) : Bool :=
  isAsciiAlphanumeric b || b == byteOf '.' || b == byteOf '_' || b == byteOf '%' ||
    b == byteOf '+' || b == byteOf '-'

/-- Back from `atPos` to the start of the local part. -/
def scanEmailLocalBack (bytes : Bytes) : Nat → Nat
  | 0 => 0
  | pos + 1 =>
    if (bytes[pos]?).any isEmailLocalChar then scanEmailLocalBack bytes pos else pos + 1

structure DomainScan where
  pos : Nat
  sawDot : Bool
  lastDotPos : Nat

/-- The domain loop, on the bytes from its position on. -/
def domainLoop : Bytes → DomainScan → DomainScan
  | [], st => st
  | b :: rest, st =>
    if isAsciiAlphanumeric b || b == byteOf '-' then domainLoop rest { st with pos := st.pos + 1 }
    else if b == byteOf '.' then domainLoop rest ⟨st.pos + 1, true, st.pos⟩
    else st

def scanEmailDomainForward (bytes : Bytes) (start : Nat) : Option Nat :=
  let st := domainLoop (bytes.drop start) ⟨start, false, 0⟩
  if !st.sawDot then none
  else if st.pos - (st.lastDotPos + 1) < 2 then none
  else if (slice bytes (st.lastDotPos + 1) st.pos).all isAsciiAlphabetic then some st.pos
  else none

/-- `T` or ` HH:` follows. -/
def timeSeparatorAt (bytes : Bytes) (stop : Nat) : Bool :=
  bytes[stop]? == some (byteOf 'T') ||
    (bytes[stop]? == some (byteOf ' ') && (bytes[stop + 1]?).any isAsciiDigit &&
      (bytes[stop + 2]?).any isAsciiDigit && bytes[stop + 3]? == some (byteOf ':'))

def inRange (lower upper n : Nat) : Bool := lower ≤ n && n ≤ upper

def tryParseIsoDate (bytes : Bytes) (start : Nat) : Option Nat :=
  match slice bytes start (start + 10) with
  | [y₀, y₁, y₂, y₃, h₀, m₀, m₁, h₁, d₀, d₁] =>
    if [y₀, y₁, y₂, y₃, m₀, m₁, d₀, d₁].all isAsciiDigit && h₀ == byteOf '-' &&
        h₁ == byteOf '-' && inRange dobYearLower dobYearUpper (parseDecimal [y₀, y₁, y₂, y₃]) &&
        inRange 1 12 (parseDecimal [m₀, m₁]) && inRange 1 31 (parseDecimal [d₀, d₁]) &&
        !timeSeparatorAt bytes (start + 10) then
      some (start + 10)
    else none
  | _ => none

/-- `DD/MM/YYYY` or `MM/DD/YYYY`. -/
def tryParseSlashDate (bytes : Bytes) (start : Nat) : Option Nat :=
  match slice bytes start (start + 10) with
  | [a₀, a₁, s₀, b₀, b₁, s₁, y₀, y₁, y₂, y₃] =>
    let first := parseDecimal [a₀, a₁]
    let second := parseDecimal [b₀, b₁]
    if [a₀, a₁, b₀, b₁, y₀, y₁, y₂, y₃].all isAsciiDigit && s₀ == byteOf '/' &&
        s₁ == byteOf '/' && inRange dobYearLower dobYearUpper (parseDecimal [y₀, y₁, y₂, y₃]) &&
        ((inRange 1 31 first && inRange 1 12 second) ||
          (inRange 1 12 first && inRange 1 31 second)) then
      some (start + 10)
    else none
  | _ => none

def tryParseDotDate (bytes : Bytes) (start : Nat) : Option Nat :=
  match slice bytes start (start + 10) with
  | [d₀, d₁, p₀, m₀, m₁, p₁, y₀, y₁, y₂, y₃] =>
    if [d₀, d₁, m₀, m₁, y₀, y₁, y₂, y₃].all isAsciiDigit && p₀ == byteOf '.' &&
        p₁ == byteOf '.' && inRange dobYearLower dobYearUpper (parseDecimal [y₀, y₁, y₂, y₃]) &&
        inRange 1 31 (parseDecimal [d₀, d₁]) && inRange 1 12 (parseDecimal [m₀, m₁]) &&
        !timeSeparatorAt bytes (start + 10) then
      some (start + 10)
    else none
  | _ => none

/-- The end of the date redacted at `i`: the three layouts are tried in turn. -/
def dobAt (bytes : Bytes) (i : Nat) : Option Nat :=
  let bounded := fun stop => boundedBy isAsciiAlphanumeric bytes i stop
  if isAsciiDigit (bytes.getD i 0) then
    (tryParseIsoDate bytes i).filter bounded <|> (tryParseSlashDate bytes i).filter bounded <|>
      (tryParseDotDate bytes i).filter bounded
  else none

structure Cursor where
  i : Nat
  result : Text
  deriving DecidableEq

/-- Advance one character, or one byte off a character boundary. -/
def copyChar (input : Text) (st : Cursor) : Cursor :=
  match charAt input st.i with
  | some ch => ⟨st.i + ch.utf8Size, st.result ++ [ch]⟩
  | none => ⟨st.i + 1, st.result⟩

/-- What recognises a match at `i` returns its end; the match becomes the placeholder. -/
def redactStep (recognise : Bytes → Nat → Option Nat) (placeholder input : Text) (st : Cursor) :
    Cursor :=
  match recognise (asBytes input) st.i with
  | some stop => ⟨max stop (st.i + 1), st.result ++ placeholder⟩
  | none => copyChar input st

/-- `result.pop()`, `n` times. -/
def popChars (n : Nat) (result : Text) : Text := List.dropLast^[n] result

def emailStep (input : Text) (st : Cursor) : Cursor :=
  let bytes := asBytes input
  if bytes[st.i]? = some (byteOf '@') then
    let localStart := scanEmailLocalBack bytes st.i
    match scanEmailDomainForward bytes (st.i + 1) with
    | some domainEnd =>
      if localStart < st.i then
        ⟨max domainEnd (st.i + 1), popChars (st.i - localStart) st.result ++ redactedEmail⟩
      else copyChar input st
    | none => copyChar input st
  else copyChar input st

/-- `while i < len`. -/
def inside (input : Text) (st : Cursor) : Bool := st.i < (asBytes input).length

/-- Every step advances the cursor, so the length of the input is enough fuel. -/
def runPass (step : Text → Cursor → Cursor) (input : Text) : Text :=
  (Loop.whileLoop (inside input) (step input) (asBytes input).length ⟨0, []⟩).result

def stripIpv4 (input : Text) : Text := runPass (redactStep ipv4At redactedIp) input

def stripIpv6 (input : Text) : Text := runPass (redactStep ipv6At redactedIp) input

def stripEmails (input : Text) : Text := runPass emailStep input

def stripDobPatterns (input : Text) : Text := runPass (redactStep dobAt redactedDob) input

def stripPii (input : Text) : Text :=
  stripDobPatterns (stripEmails (stripIpv4 (stripIpv6 input)))

end ProviiAudit
