import Mathlib.Data.List.Basic
import Mathlib.Data.List.TakeWhile
import Mathlib.Logic.Function.Basic

/-! Strings as sequences of Unicode scalar values, and their UTF-8 bytes. -/
namespace Utf8

/-- A string: its Unicode scalar values in order. -/
abbrev Text := List Char

def asBytes (s : Text) : List UInt8 := s.flatMap String.utf8EncodeChar

/-- The leading byte of a character. It decides every ASCII-only test. -/
def byteOf (c : Char) : UInt8 := (String.utf8EncodeChar c).headD 0

/-- The character whose encoding starts at byte `i`: `s.get(i..)?.chars().next()`. -/
def charAt : Text → Nat → Option Char
  | [], _ => none
  | c :: _, 0 => some c
  | c :: s, i + 1 => if i + 1 < c.utf8Size then none else charAt s (i + 1 - c.utf8Size)

/-- The prefix of `n` bytes, when it ends between two characters: `s.get(..n)`. -/
def getTo : Text → Nat → Option Text
  | _, 0 => some []
  | [], _ + 1 => none
  | c :: s, n + 1 =>
    if n + 1 < c.utf8Size then none else (getTo s (n + 1 - c.utf8Size)).map (c :: ·)

/-- The text from byte `n` on, when that is between two characters: `s.get(n..)`. -/
def getFrom : Text → Nat → Option Text
  | s, 0 => some s
  | [], _ + 1 => none
  | c :: s, n + 1 => if n + 1 < c.utf8Size then none else getFrom s (n + 1 - c.utf8Size)

/-- `s.get(i..j)`. -/
def getRange (s : Text) (i j : Nat) : Option Text :=
  if i ≤ j then (getFrom s i).bind fun t => getTo t (j - i) else none

/-- Decimal digits, as an integer is displayed. -/
def decimal (n : Nat) : Text := Nat.toDigits 10 n

variable {s t : Text} {c : Char} {p : UInt8 → Bool}

@[simp] theorem asBytes_nil : asBytes [] = [] := rfl

@[simp] theorem asBytes_cons : asBytes (c :: s) = String.utf8EncodeChar c ++ asBytes s := rfl

@[simp] theorem asBytes_append : asBytes (s ++ t) = asBytes s ++ asBytes t :=
  List.flatMap_append

theorem asBytes_injective : Function.Injective asBytes := by
  intro s t h
  have he : s.utf8Encode = t.utf8Encode := by
    simpa [List.utf8Encode, asBytes] using congrArg List.toByteArray h
  have hs : String.ofList s = String.ofList t := by
    rw [← String.toByteArray_inj]
    simpa using he
  simpa using congrArg String.toList hs

theorem charAt_cons_add (k : Nat) : charAt (c :: s) (c.utf8Size + k) = charAt s k := by
  obtain ⟨n, hn⟩ := Nat.exists_eq_add_of_le' (Char.utf8Size_pos c)
  rw [hn, show n + 1 + k = n + k + 1 by omega, charAt, if_neg (by omega)]
  congr 1
  omega

/-- Behind a prefix stands the next character. -/
theorem charAt_append : charAt (s ++ c :: t) (asBytes s).length = some c := by
  induction s with
  | nil => rfl
  | cons d s ih =>
    rw [List.cons_append, asBytes_cons, List.length_append, String.length_utf8EncodeChar,
      charAt_cons_add, ih]

theorem getFrom_append : getFrom (s ++ t) (asBytes s).length = some t := by
  induction s with
  | nil => cases t <;> rfl
  | cons c s ih =>
    obtain ⟨n, hn⟩ := Nat.exists_eq_add_of_le' (Char.utf8Size_pos c)
    rw [List.cons_append, asBytes_cons, List.length_append, String.length_utf8EncodeChar, hn,
      Nat.add_right_comm, getFrom, if_neg (by omega), hn, ← Nat.add_right_comm,
      Nat.add_sub_cancel_left, ih]

theorem getTo_append : getTo (s ++ t) (asBytes s).length = some s := by
  induction s with
  | nil => cases t <;> rfl
  | cons c s ih =>
    obtain ⟨n, hn⟩ := Nat.exists_eq_add_of_le' (Char.utf8Size_pos c)
    rw [List.cons_append, asBytes_cons, List.length_append, String.length_utf8EncodeChar, hn,
      Nat.add_right_comm, getTo, if_neg (by omega), hn, ← Nat.add_right_comm,
      Nat.add_sub_cancel_left, ih, Option.map_some]

theorem getRange_append {u : Text} :
    getRange (u ++ (s ++ t)) (asBytes u).length (asBytes (u ++ s)).length = some s := by
  rw [getRange, asBytes_append, List.length_append, if_pos (Nat.le_add_right ..), getFrom_append,
    Option.bind_some, Nat.add_sub_cancel_left, getTo_append]

theorem length_le_asBytes : s.length ≤ (asBytes s).length := by
  induction s with
  | nil => exact Nat.le_refl _
  | cons c s ih =>
    have hc := Char.utf8Size_pos c
    rw [asBytes_cons, List.length_append, String.length_utf8EncodeChar, List.length_cons]
    omega

theorem mem_of_getTo {n : Nat} (h : getTo s n = some t) {c : Char} (hc : c ∈ t) : c ∈ s := by
  induction s generalizing n t with
  | nil => cases n <;> simp_all [getTo]
  | cons d s ih =>
    cases n with
    | zero => simp_all [getTo]
    | succ n =>
      simp only [getTo] at h
      split at h
      · simp at h
      · obtain ⟨u, hu, rfl⟩ := Option.map_eq_some_iff.mp h
        rcases List.mem_cons.mp hc with rfl | hc
        · simp
        · simp [ih hu hc]

theorem decimal_injective : Function.Injective decimal := by
  intro m n h
  have := congrArg (fun d => Nat.ofDigitChars 10 d 0) h
  simpa [decimal, Nat.ofDigitChars_ten_toDigits] using this

theorem encode_ascii (h : c.toNat < 128) : String.utf8EncodeChar c = [byteOf c] := by
  have hv : c.toNat ≤ 127 := Nat.le_of_lt_succ h
  simp [byteOf, String.utf8EncodeChar, hv]

theorem encode_high (h : 128 ≤ c.toNat) {b : UInt8} (hb : b ∈ String.utf8EncodeChar c) :
    128 ≤ b := by
  have hv : ¬ c.val.toNat ≤ 127 := by
    intro hle
    exact absurd (Nat.lt_succ_of_le hle) (Nat.not_lt.mpr h)
  rw [UInt8.le_iff_toNat_le]
  simp only [String.utf8EncodeChar, hv, if_false] at hb
  split at hb
  · rcases List.mem_pair.mp hb with rfl | rfl <;> simp [UInt8.toNat_ofNat'] <;> omega
  · split at hb
    · simp only [List.mem_cons, List.not_mem_nil, or_false] at hb
      rcases hb with rfl | rfl | rfl <;> simp [UInt8.toNat_ofNat'] <;> omega
    · simp only [List.mem_cons, List.not_mem_nil, or_false] at hb
      rcases hb with rfl | rfl | rfl | rfl <;> simp [UInt8.toNat_ofNat'] <;> omega

theorem byteOf_mem : byteOf c ∈ String.utf8EncodeChar c := by
  have h := String.utf8EncodeChar_ne_nil (c := c)
  rw [byteOf]
  cases he : String.utf8EncodeChar c with
  | nil => exact (h he).elim
  | cons b l => simp

theorem byteOf_lt_iff : byteOf c < 128 ↔ c.toNat < 128 := by
  constructor
  · intro h
    by_contra hc
    have := encode_high (Nat.le_of_not_lt hc) byteOf_mem
    exact absurd h (UInt8.not_lt.mpr this)
  · intro h
    have hv : c.toNat ≤ 127 := Nat.le_of_lt_succ h
    rw [UInt8.lt_iff_toNat_lt]
    simp [byteOf, String.utf8EncodeChar, hv]
    omega

theorem byteOf_toNat (h : c.toNat < 128) : (byteOf c).toNat = c.toNat := by
  have hv : c.toNat ≤ 127 := Nat.le_of_lt_succ h
  simp [byteOf, String.utf8EncodeChar, hv]
  omega

theorem eq_of_byteOf (hd : d.toNat < 128) (h : byteOf c = byteOf d) : c = d := by
  have hc : c.toNat < 128 := by
    rw [← byteOf_lt_iff, h, byteOf_lt_iff]
    exact hd
  apply Char.toNat_inj.mp
  rw [← byteOf_toNat hc, h, byteOf_toNat hd]

/-- A test that only ASCII bytes pass. -/
def AsciiOnly (p : UInt8 → Bool) : Prop := ∀ b, p b = true → b < 128

/-- A character whose leading byte passes such a test is that byte. -/
theorem AsciiOnly.encode (hp : AsciiOnly p) (h : p (byteOf c) = true) :
    String.utf8EncodeChar c = [byteOf c] :=
  encode_ascii (byteOf_lt_iff.mp (hp _ h))

/-- No byte of a character passes an ASCII test that its leading byte fails. -/
theorem AsciiOnly.encode_false (hp : AsciiOnly p) (h : p (byteOf c) = false) {b : UInt8}
    (hb : b ∈ String.utf8EncodeChar c) : p b = false := by
  by_cases hc : c.toNat < 128
  · rw [encode_ascii hc, List.mem_singleton] at hb
    rwa [hb]
  · cases hpb : p b with
    | false => rfl
    | true =>
      exact absurd (hp b hpb) (UInt8.not_lt.mpr (encode_high (Nat.le_of_not_lt hc) hb))

theorem head?_asBytes : (asBytes s).head? = s.head?.map byteOf := by
  cases s with
  | nil => rfl
  | cons c s =>
    have h := String.utf8EncodeChar_ne_nil (c := c)
    cases he : String.utf8EncodeChar c with
    | nil => exact (h he).elim
    | cons b l => simp [he, byteOf]

theorem AsciiOnly.getLast?_any (hp : AsciiOnly p) :
    (asBytes s).getLast?.any p = s.getLast?.any (fun c => p (byteOf c)) := by
  rcases List.eq_nil_or_concat s with rfl | ⟨s, c, rfl⟩
  · rfl
  · have h := String.utf8EncodeChar_ne_nil (c := c)
    simp only [List.concat_eq_append, asBytes_append, asBytes_cons, asBytes_nil,
      List.append_nil, List.getLast?_append_of_ne_nil _ h, List.getLast?_singleton,
      List.getLast?_append]
    cases hc : p (byteOf c) with
    | true => simp [hp.encode hc, hc]
    | false =>
      rw [List.getLast?_eq_some_getLast h]
      simp [hp.encode_false hc (List.getLast_mem h), hc]

/-- Taking bytes under an ASCII test takes whole characters. -/
theorem AsciiOnly.takeWhile (hp : AsciiOnly p) :
    (asBytes s).takeWhile p = (s.takeWhile (fun c => p (byteOf c))).map byteOf := by
  induction s with
  | nil => rfl
  | cons c s ih =>
    cases hc : p (byteOf c) with
    | true => simp [hp.encode hc, hc, ih]
    | false =>
      have h := String.utf8EncodeChar_ne_nil (c := c)
      cases he : String.utf8EncodeChar c with
      | nil => exact (h he).elim
      | cons b l =>
        have hb : p b = false := hp.encode_false hc (by simp [he])
        simp [he, hc, hb]

theorem asBytes_ascii (h : ∀ c ∈ s, c.toNat < 128) : asBytes s = s.map byteOf := by
  induction s with
  | nil => rfl
  | cons c s ih =>
    rw [asBytes_cons, encode_ascii (h c (by simp)), ih (fun d hd => h d (by simp [hd]))]
    rfl

theorem AsciiOnly.asBytes_eq (hp : AsciiOnly p) (h : ∀ c ∈ s, p (byteOf c) = true) :
    asBytes s = s.map byteOf :=
  asBytes_ascii fun c hc => byteOf_lt_iff.mp (hp _ (h c hc))

theorem byteOf_mem_asBytes (h : c ∈ s) : byteOf c ∈ asBytes s :=
  List.mem_flatMap.mpr ⟨c, h, byteOf_mem⟩

/-- A string of ASCII bytes has one character for each. -/
theorem asBytes_eq_map (h : ∀ b ∈ asBytes s, b < 128) : asBytes s = s.map byteOf :=
  asBytes_ascii fun _ hc => byteOf_lt_iff.mp (h _ (byteOf_mem_asBytes hc))

/-- An ASCII byte of a string is one of its characters. -/
theorem exists_of_mem_asBytes {b : UInt8} (hb : b ∈ asBytes s) (hlt : b < 128) :
    ∃ c ∈ s, c.toNat = b.toNat := by
  obtain ⟨c, hc, hbc⟩ := List.mem_flatMap.mp hb
  refine ⟨c, hc, ?_⟩
  by_cases hh : c.toNat < 128
  · rw [encode_ascii hh, List.mem_singleton] at hbc
    rw [hbc, byteOf_toNat hh]
  · exact absurd hlt (UInt8.not_lt.mpr (encode_high (Nat.le_of_not_lt hh) hbc))

/-- `s.is_char_boundary(i)`. -/
def IsCharBoundary (s : Text) (i : Nat) : Prop := ∃ u v, s = u ++ v ∧ i = (asBytes u).length

theorem IsCharBoundary.le {i : Nat} (h : IsCharBoundary s i) : i ≤ (asBytes s).length := by
  obtain ⟨u, v, rfl, rfl⟩ := h
  simp

/-- Before the end of the string a character starts there, and the next one behind it. -/
theorem IsCharBoundary.charAt {i : Nat} (h : IsCharBoundary s i) (hlt : i < (asBytes s).length) :
    ∃ c, charAt s i = some c ∧ IsCharBoundary s (i + c.utf8Size) := by
  obtain ⟨u, v, rfl, rfl⟩ := h
  cases v with
  | nil => simp at hlt
  | cons c v => exact ⟨c, charAt_append, u ++ [c], v, by simp, by simp⟩

/-- An ASCII byte stands at the start of a character. -/
theorem exists_boundary {i : Nat} {b : UInt8} (h : (asBytes s)[i]? = some b) (hb : b < 128) :
    ∃ u v, s = u ++ v ∧ i = (asBytes u).length := by
  induction s generalizing i with
  | nil => simp at h
  | cons c s ih =>
    rw [asBytes_cons] at h
    rcases Nat.lt_or_ge i (String.utf8EncodeChar c).length with hlt | hge
    · rw [List.getElem?_append_left hlt] at h
      have hmem := List.mem_of_getElem? h
      have hc : c.toNat < 128 := by
        by_contra hc
        exact absurd hb (UInt8.not_lt.mpr (encode_high (Nat.le_of_not_lt hc) hmem))
      rw [encode_ascii hc, List.length_singleton] at hlt
      exact ⟨[], c :: s, rfl, by simp; omega⟩
    · rw [List.getElem?_append_right hge] at h
      obtain ⟨u, v, rfl, hi⟩ := ih h
      exact ⟨c :: u, v, rfl, by rw [asBytes_cons, List.length_append]; omega⟩

/-- Of two prefixes the one with fewer bytes has fewer characters. -/
theorem length_asBytes_le_iff {u v : Text} (hu : u <+: s) (hv : v <+: s) :
    (asBytes u).length ≤ (asBytes v).length ↔ u.length ≤ v.length := by
  have hmono : ∀ {u v : Text}, u <+: v → (asBytes u).length ≤ (asBytes v).length ∧
      ((asBytes v).length ≤ (asBytes u).length → v.length ≤ u.length) := by
    rintro u _ ⟨w, rfl⟩
    have hw := length_le_asBytes (s := w)
    simp only [asBytes_append, List.length_append]
    omega
  rcases List.prefix_or_prefix_of_prefix hu hv with h | h
  · exact ⟨fun _ => h.length_le, fun _ => (hmono h).1⟩
  · have hle := h.length_le
    obtain ⟨h₁, h₂⟩ := hmono h
    constructor
    · intro hlen
      have := h₂ hlen
      omega
    · intro hlen
      obtain rfl := h.eq_of_length (by omega)
      exact le_rfl

end Utf8
