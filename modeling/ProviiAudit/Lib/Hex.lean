import ProviiAudit.Lib.Utf8

/-! Hexadecimal text. `Codec` is what a user of a hex library relies on. -/
namespace Hex

open Utf8 (Text)

def alphabet : Text := "0123456789abcdef".toList

/-- A lowercase encoder with a decoder that reads its output back. -/
structure Codec where
  encode : List UInt8 → Text
  decode : Text → Except Text (List UInt8)
  decode_encode : ∀ b, decode (encode b) = .ok b
  encode_alphabet : ∀ b, ∀ c ∈ encode b, c ∈ alphabet
  encode_length : ∀ b, (encode b).length = 2 * b.length

/-- An encoded byte list holds no character outside the alphabet. -/
theorem Codec.notMem_encode (h : Codec) {c : Char} (hc : c ∉ alphabet) (b : List UInt8) :
    c ∉ h.encode b := fun hm => hc (h.encode_alphabet b c hm)

/-- Encoded text is ASCII, two bytes for each. -/
theorem Codec.encode_bytes (h : Codec) (b : List UInt8) :
    (Utf8.asBytes (h.encode b)).length = 2 * b.length := by
  have hascii : ∀ c ∈ h.encode b, c.toNat < 128 := by
    intro c hc
    have halphabet : alphabet.all (·.toNat < 128) = true := by decide
    simpa using List.all_eq_true.mp halphabet c (h.encode_alphabet b c hc)
  rw [Utf8.asBytes_ascii hascii, List.length_map, h.encode_length]

theorem Codec.encode_injective (h : Codec) : Function.Injective h.encode := by
  intro a b hab
  have := congrArg h.decode hab
  simpa [h.decode_encode] using this

def digit (n : Nat) : Char := alphabet.getD n '0'

/-- Decoding takes both cases of a digit. -/
def value (c : Char) : Option Nat :=
  if '0' ≤ c ∧ c ≤ '9' then some (c.toNat - 48)
  else if 'a' ≤ c ∧ c ≤ 'f' then some (c.toNat - 87)
  else if 'A' ≤ c ∧ c ≤ 'F' then some (c.toNat - 55)
  else none

def encodeBytes (b : List UInt8) : Text :=
  b.flatMap fun x => [digit (x.toNat / 16), digit (x.toNat % 16)]

def decodeFrom : Nat → Text → Except Text (List UInt8)
  | _, [] => .ok []
  | _, [_] => .error "Odd number of digits".toList
  | i, hi :: lo :: rest =>
    match value hi, value lo with
    | none, _ => .error ("Invalid character ".toList ++ [hi] ++ " at position ".toList ++
        Utf8.decimal i)
    | some _, none => .error ("Invalid character ".toList ++ [lo] ++ " at position ".toList ++
        Utf8.decimal (i + 1))
    | some h, some l => (decodeFrom (i + 2) rest).map (UInt8.ofNat (16 * h + l) :: ·)

theorem value_digit : ∀ n < 16, value (digit n) = some n := by decide

theorem digit_mem : ∀ n < 16, digit n ∈ alphabet := by decide

theorem decodeFrom_encodeBytes (i : Nat) (b : List UInt8) :
    decodeFrom i (encodeBytes b) = .ok b := by
  induction b generalizing i with
  | nil => rfl
  | cons x b ih =>
    have hx := x.toNat_lt
    have hsum : 16 * (x.toNat / 16) + x.toNat % 16 = x.toNat := by omega
    have hrest := ih (i + 2)
    simp only [encodeBytes] at hrest
    simp [encodeBytes, decodeFrom, value_digit _ (show x.toNat / 16 < 16 by omega),
      value_digit _ (show x.toNat % 16 < 16 by omega), hsum, hrest, Except.map]

theorem encodeBytes_alphabet (b : List UInt8) : ∀ c ∈ encodeBytes b, c ∈ alphabet := by
  intro c hc
  obtain ⟨x, -, hx⟩ := List.mem_flatMap.mp hc
  have hlt := x.toNat_lt
  rcases List.mem_pair.mp hx with rfl | rfl
  · exact digit_mem _ (by omega)
  · exact digit_mem _ (by omega)

theorem encodeBytes_length (b : List UInt8) : (encodeBytes b).length = 2 * b.length := by
  induction b with
  | nil => rfl
  | cons x b ih =>
    simp only [encodeBytes, List.flatMap_cons, List.length_append, List.length_cons,
      List.length_nil] at ih ⊢
    omega

theorem digit_injective {m n : Nat} (hm : m < 16) (hn : n < 16) (h : digit m = digit n) :
    m = n := by
  have hvalue := congrArg value h
  rwa [value_digit m hm, value_digit n hn, Option.some.injEq] at hvalue

theorem exists_digit {c : Char} (hc : c ∈ alphabet) : ∃ n < 16, digit n = c := by
  have hall : alphabet.all (fun c => (List.range 16).any fun n => digit n == c) = true := by decide
  obtain ⟨n, hn, heq⟩ := List.any_eq_true.mp (List.all_eq_true.mp hall c hc)
  exact ⟨n, List.mem_range.mp hn, beq_iff_eq.mp heq⟩

/-- Every text of digits of even length encodes some bytes. -/
theorem exists_encodeBytes {s : Text} {n : Nat} (hlen : s.length = 2 * n)
    (hs : ∀ c ∈ s, c ∈ alphabet) : ∃ b, b.length = n ∧ encodeBytes b = s := by
  induction n generalizing s with
  | zero => exact ⟨[], rfl, (List.length_eq_zero_iff.mp hlen).symm⟩
  | succ n ih =>
    rcases s with _ | ⟨c, _ | ⟨d, t⟩⟩
    · simp only [List.length_nil] at hlen
      omega
    · simp only [List.length_cons, List.length_nil] at hlen
      omega
    · simp only [List.length_cons] at hlen
      obtain ⟨b, hb, rfl⟩ := ih (s := t) (by omega) fun c hc => hs c (by simp [hc])
      obtain ⟨hi, hhi, rfl⟩ := exists_digit (hs c (by simp))
      obtain ⟨lo, hlo, rfl⟩ := exists_digit (hs d (by simp))
      have hbyte : (UInt8.ofNat (16 * hi + lo)).toNat = 16 * hi + lo :=
        UInt8.toNat_ofNat_of_lt' (by change _ < 256; omega)
      have hhigh : (16 * hi + lo) / 16 = hi := by omega
      have hlow : (16 * hi + lo) % 16 = lo := by omega
      refine ⟨UInt8.ofNat (16 * hi + lo) :: b, by simp [hb], ?_⟩
      rw [encodeBytes, List.flatMap_cons, hbyte, hhigh, hlow]
      rfl

/-- Each byte begins at an even position, with its high half. -/
theorem encodeBytes_getElem? (b : List UInt8) (i : Nat) :
    (encodeBytes b)[2 * i]? = b[i]?.map fun x => digit (x.toNat / 16) := by
  induction b generalizing i with
  | nil => rfl
  | cons x b ih =>
    cases i with
    | zero => rfl
    | succ i =>
      have hskip : (encodeBytes (x :: b))[2 * (i + 1)]? = (encodeBytes b)[2 * i]? := rfl
      rw [hskip, ih, List.getElem?_cons_succ]

def lower : Codec where
  encode := encodeBytes
  decode s := if s.length % 2 = 1 then .error "Odd number of digits".toList else decodeFrom 0 s
  decode_encode b := by
    simp [encodeBytes_length, decodeFrom_encodeBytes]
  encode_alphabet := encodeBytes_alphabet
  encode_length := encodeBytes_length

end Hex
