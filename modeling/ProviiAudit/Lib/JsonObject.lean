import ProviiAudit.Lib.Hex
import ProviiAudit.Lib.Span

/-! JSON objects of strings and unsigned numbers. `Codec` is what a user of a JSON library relies
on. -/
namespace Json

open Utf8 (Text)

inductive Scalar
  | string (s : Text)
  | number (n : UInt64)
  /-- A value of any other kind. -/
  | other
  deriving DecidableEq, Repr

/-- The members of an object, in their order. -/
abbrev Record := List (Text × Scalar)

/-- A writer of objects with a reader that gives strings and numbers back. -/
structure Codec where
  write : Record → Text
  read : Text → Option Record
  read_write : ∀ r, (∀ m ∈ r, m.2 ≠ .other) → read (write r) = some r

def shortEscapes : List (Char × Char) :=
  [('"', '"'), ('\\', '\\'), (Char.ofNat 8, 'b'), ('\t', 't'), ('\n', 'n'), (Char.ofNat 12, 'f'),
    ('\r', 'r')]

def escape (c : Char) : Text :=
  match shortEscapes.find? (·.1 == c) with
  | some e => ['\\', e.2]
  | none =>
    if c.toNat < 32 then ['\\', 'u', '0', '0', Hex.digit (c.toNat / 16), Hex.digit (c.toNat % 16)]
    else [c]

def quote (s : Text) : Text := '"' :: (s.flatMap escape ++ ['"'])

def writeScalar : Scalar → Text
  | .string s => quote s
  | .number n => Utf8.decimal n.toNat
  | .other => "null".toList

def writeMember (m : Text × Scalar) : Text := quote m.1 ++ ':' :: writeScalar m.2

/-- The members behind the first, with the closing brace. -/
def writeMore : Record → Text
  | [] => ['}']
  | m :: r => ',' :: (writeMember m ++ writeMore r)

def writeObject : Record → Text
  | [] => "{}".toList
  | m :: r => '{' :: (writeMember m ++ writeMore r)

/-- Four hexadecimal digits of a character that is not a surrogate. -/
def readUnicode (h : Text) : Option Char := do
  let digits ← h.mapM Hex.value
  let n := digits.foldl (fun n d => 16 * n + d) 0
  if n < 0xd800 ∨ 0xdfff < n then some (Char.ofNat n) else none

/-- One character of a string, escaped or not. -/
def readChar : Text → Option (Char × Text)
  | [] => none
  | c :: t =>
    if c ≠ '\\' then some (c, t)
    else
      match t with
      | [] => none
      | e :: t =>
        if e = 'u' then (readUnicode (t.take 4)).map (·, t.drop 4)
        else (shortEscapes.find? (·.2 == e)).map (·.1, t)

/-- The characters of a string, up to the closing quotation mark. -/
def readBody : Nat → Text → Option (Text × Text)
  | 0, _ => none
  | fuel + 1, t =>
    if t.head? = some '"' then some ([], t.tail)
    else do
      let (c, t) ← readChar t
      let (s, t) ← readBody fuel t
      some (c :: s, t)

def readNumber (t : Text) : Option (UInt64 × Text) :=
  let digits := t.takeWhile Char.isDigit
  let n := Nat.ofDigitChars 10 digits 0
  if digits = [] ∨ UInt64.size ≤ n then none
  else some (.ofNat n, t.dropWhile Char.isDigit)

def readScalar (t : Text) : Option (Scalar × Text) :=
  if t.head? = some '"' then (readBody t.length t.tail).map fun p => (.string p.1, p.2)
  else (readNumber t).map fun p => (.number p.1, p.2)

def readMember (t : Text) : Option ((Text × Scalar) × Text) :=
  if t.head? = some '"' then do
    let (name, t) ← readBody t.length t.tail
    if t.head? = some ':' then
      let (v, t) ← readScalar t.tail
      some ((name, v), t)
    else none
  else none

def readMore : Nat → Text → Option Record
  | 0, _ => none
  | fuel + 1, t =>
    if t = ['}'] then some []
    else if t.head? = some ',' then do
      let (m, t) ← readMember t.tail
      let r ← readMore fuel t
      some (m :: r)
    else none

def readObject (t : Text) : Option Record :=
  if t = "{}".toList then some []
  else if t.head? = some '{' then do
    let (m, t) ← readMember t.tail
    let r ← readMore t.length t
    some (m :: r)
  else none

variable {c : Char} {s t : Text} {r : Record} {k : Nat}

theorem shortEscapes_letters : ∀ e ∈ shortEscapes,
    e.2 ≠ 'u' ∧ shortEscapes.find? (·.2 == e.2) = some e := by decide

theorem readUnicode_low (h : c.toNat < 32) :
    readUnicode ['0', '0', Hex.digit (c.toNat / 16), Hex.digit (c.toNat % 16)] = some c := by
  have hzero : Hex.value '0' = some 0 := rfl
  have hsum : 16 * (c.toNat / 16) + c.toNat % 16 = c.toNat := by omega
  have hvalid : c.toNat < 55296 := by omega
  simp [readUnicode, hzero, Hex.value_digit _ (show c.toNat / 16 < 16 by omega),
    Hex.value_digit _ (show c.toNat % 16 < 16 by omega), hsum, hvalid]

theorem readChar_escape : readChar (escape c ++ t) = some (c, t) := by
  unfold escape
  cases h : shortEscapes.find? (·.1 == c) with
  | some e =>
    have hc : e.1 = c := by simpa using List.find?_some h
    obtain ⟨hu, hfind⟩ := shortEscapes_letters e (List.mem_of_find?_eq_some h)
    simp [readChar, hu, hfind, hc]
  | none =>
    have hne : c ≠ '\\' := by
      rintro rfl
      simp [shortEscapes] at h
    by_cases hlow : c.toNat < 32
    · simp [hlow, readChar, readUnicode_low hlow]
    · simp [hlow, readChar, hne]

theorem head_escape : (escape c ++ t).head? ≠ some '"' := by
  unfold escape
  cases h : shortEscapes.find? (·.1 == c) with
  | some e => simp
  | none =>
    have hne : c ≠ '"' := by
      rintro rfl
      simp [shortEscapes] at h
    by_cases hlow : c.toNat < 32
    · simp [hlow]
    · simp [hlow, hne]

/-- The fuel covers the characters and the quotation mark behind them. -/
theorem readBody_quoted (h : s.length < k) :
    readBody k (s.flatMap escape ++ '"' :: t) = some (s, t) := by
  induction s generalizing k with
  | nil =>
    cases k with
    | zero => exact absurd h (Nat.not_lt_zero _)
    | succ k => simp [readBody]
  | cons c s ih =>
    cases k with
    | zero => exact absurd h (Nat.not_lt_zero _)
    | succ k =>
      have hs := ih (k := k) (by simpa using h)
      have hhead := head_escape (c := c) (t := s.flatMap escape ++ '"' :: t)
      rw [List.flatMap_cons, List.append_assoc, readBody, if_neg hhead, readChar_escape]
      simp [hs]

theorem length_quoted : s.length ≤ (s.flatMap escape ++ t).length := by
  induction s with
  | nil => simp
  | cons c s ih =>
    have hc : escape c ≠ [] := by
      intro hnil
      have h := readChar_escape (c := c) (t := [])
      simp [hnil, readChar] at h
    have := List.length_pos_iff.mpr hc
    simp only [List.flatMap_cons, List.length_append, List.length_cons] at ih ⊢
    omega

theorem isDigit_of_mem_decimal {n : Nat} (h : c ∈ Utf8.decimal n) : c.isDigit = true :=
  Nat.isDigit_of_mem_toDigits (by decide) (by decide) h

theorem readNumber_decimal (n : UInt64) (ht : Span.Stops Char.isDigit t) :
    readNumber (Utf8.decimal n.toNat ++ t) = some (n, t) := by
  have htake : (Utf8.decimal n.toNat ++ t).takeWhile Char.isDigit = Utf8.decimal n.toNat := by
    rw [Span.takeWhile_append ht, List.takeWhile_eq_self_iff]
    exact fun d => isDigit_of_mem_decimal
  have hdrop : (Utf8.decimal n.toNat ++ t).dropWhile Char.isDigit = t := by
    have hsplit := List.takeWhile_append_dropWhile (p := Char.isDigit)
      (l := Utf8.decimal n.toNat ++ t)
    rw [htake] at hsplit
    exact List.append_cancel_left hsplit
  have hvalue : Nat.ofDigitChars 10 (Utf8.decimal n.toNat) 0 = n.toNat :=
    Nat.ofDigitChars_ten_toDigits
  have hlt : ¬ UInt64.size ≤ n.toNat := Nat.not_le.mpr n.toNat_lt
  have hne : Utf8.decimal n.toNat ≠ [] := Nat.toDigits_ne_nil
  simp only [readNumber, htake, hdrop, hvalue]
  rw [if_neg (by simp [hne, hlt]), UInt64.ofNat_toNat]

theorem readScalar_write {v : Scalar} (hv : v ≠ .other) (ht : Span.Stops Char.isDigit t) :
    readScalar (writeScalar v ++ t) = some (v, t) := by
  cases v with
  | string s =>
    have hbody : readBody ((s.flatMap escape ++ '"' :: t).length + 1)
        (s.flatMap escape ++ '"' :: t) = some (s, t) :=
      readBody_quoted (Nat.lt_succ_of_le length_quoted)
    simpa [readScalar, writeScalar, quote] using hbody
  | number n =>
    have hhead : (Utf8.decimal n.toNat ++ t).head? ≠ some '"' := by
      intro h
      have hne : Utf8.decimal n.toNat ≠ [] := Nat.toDigits_ne_nil
      rw [List.head?_append_of_ne_nil _ hne] at h
      exact absurd (isDigit_of_mem_decimal (List.mem_of_mem_head? h)) (by decide)
    rw [writeScalar, readScalar, if_neg hhead, readNumber_decimal n ht]
    rfl
  | other => exact absurd rfl hv

theorem readMember_write {m : Text × Scalar} (hm : m.2 ≠ .other) (ht : Span.Stops Char.isDigit t) :
    readMember (writeMember m ++ t) = some (m, t) := by
  have hname : readBody ((m.1.flatMap escape ++ '"' :: (':' :: (writeScalar m.2 ++ t))).length + 1)
      (m.1.flatMap escape ++ '"' :: (':' :: (writeScalar m.2 ++ t))) =
        some (m.1, ':' :: (writeScalar m.2 ++ t)) :=
    readBody_quoted (Nat.lt_succ_of_le length_quoted)
  have hshape : writeMember m ++ t =
      '"' :: (m.1.flatMap escape ++ '"' :: (':' :: (writeScalar m.2 ++ t))) := by
    simp [writeMember, quote]
  rw [hshape, readMember, if_pos List.head?_cons, List.tail_cons, List.length_cons, hname]
  simp [readScalar_write hm ht]

/-- A comma or a brace follows every member. -/
theorem stops_writeMore : Span.Stops Char.isDigit (writeMore r) := by
  cases r <;> rfl

theorem readMore_write (h : ∀ m ∈ r, m.2 ≠ .other) (hk : r.length < k) :
    readMore k (writeMore r) = some r := by
  induction r generalizing k with
  | nil =>
    cases k with
    | zero => exact absurd hk (Nat.not_lt_zero _)
    | succ k => rfl
  | cons m r ih =>
    cases k with
    | zero => exact absurd hk (Nat.not_lt_zero _)
    | succ k =>
      have hr := ih (k := k) (fun x hx => h x (List.mem_cons_of_mem _ hx)) (by simpa using hk)
      have hm := readMember_write (h m List.mem_cons_self) (stops_writeMore (r := r))
      simp [readMore, writeMore, hm, hr]

theorem length_writeMore : r.length < (writeMore r).length := by
  induction r with
  | nil => simp [writeMore]
  | cons m r ih =>
    simp only [writeMore, List.length_cons, List.length_append]
    omega

theorem readObject_write (h : ∀ m ∈ r, m.2 ≠ .other) : readObject (writeObject r) = some r := by
  cases r with
  | nil => rfl
  | cons m r =>
    have hm := readMember_write (h m List.mem_cons_self) (stops_writeMore (r := r))
    have hr := readMore_write (fun x hx => h x (List.mem_cons_of_mem _ hx))
      (length_writeMore (r := r))
    have hne : writeObject (m :: r) ≠ "{}".toList := by simp [writeObject, writeMember, quote]
    rw [readObject, if_neg hne, writeObject, if_pos List.head?_cons, List.tail_cons, hm]
    simp [hr]

def compact : Codec where
  write := writeObject
  read := readObject
  read_write _ h := readObject_write h

end Json
