import Mathlib.Data.List.Chain
import Mathlib.Data.List.Infix
import ProviiAudit.Lib.Utf8

/-! The grammar of JSON texts, and what holds between the tokens of a value. -/
namespace Json

open Utf8 (Text)

/-- A character that stands for itself in a string. -/
def isUnescaped (c : Char) : Bool := 32 ≤ c.toNat && c != '"' && c != '\\'

/-- The characters of a string between its quotation marks. -/
inductive StringBody : Text → Prop
  | nil : StringBody []
  | unescaped {c : Char} {b : Text} : isUnescaped c = true → StringBody b → StringBody (c :: b)
  | escape {c : Char} {b : Text} : c ∈ "\"\\/bfnrt".toList → StringBody b →
      StringBody ('\\' :: c :: b)
  | unicode {c₁ c₂ c₃ c₄ : Char} {b : Text} : c₁.isHexDigit = true → c₂.isHexDigit = true →
      c₃.isHexDigit = true → c₄.isHexDigit = true → StringBody b →
      StringBody ('\\' :: 'u' :: c₁ :: c₂ :: c₃ :: c₄ :: b)

def IsString (u : Text) : Prop := ∃ b, u = '"' :: (b ++ ['"']) ∧ StringBody b

def IsDigits (u : Text) : Prop := u ≠ [] ∧ ∀ c ∈ u, c.isDigit = true

/-- No leading zeros. -/
def IsInt (u : Text) : Prop := IsDigits u ∧ (u.head? = some '0' → u = ['0'])

def IsFrac (u : Text) : Prop := ∃ v, u = '.' :: v ∧ IsDigits v

def IsExp (u : Text) : Prop :=
  ∃ e sign v, u = e :: (sign ++ v) ∧ (e = 'e' ∨ e = 'E') ∧
    (sign = [] ∨ sign = ['-'] ∨ sign = ['+']) ∧
    IsDigits v

def IsNumber (u : Text) : Prop :=
  ∃ sign int frac exp, u = sign ++ (int ++ (frac ++ exp)) ∧ (sign = [] ∨ sign = ['-']) ∧
    IsInt int ∧ (frac = [] ∨ IsFrac frac) ∧ (exp = [] ∨ IsExp exp)

inductive Token
  | beginArray | endArray | beginObject | endObject | nameSeparator | valueSeparator
  | literal | number | string
  deriving DecidableEq

def Spells : Token → Text → Prop
  | .beginArray, u => u = ['[']
  | .endArray, u => u = [']']
  | .beginObject, u => u = ['{']
  | .endObject, u => u = ['}']
  | .nameSeparator, u => u = [':']
  | .valueSeparator, u => u = [',']
  | .literal, u => u ∈ ["true".toList, "false".toList, "null".toList]
  | .number, u => IsNumber u
  | .string, u => IsString u

def isSpace (c : Char) : Bool := c == ' ' || c == '\t' || c == '\n' || c == '\r'

/-- The text consists of the tokens, with white space around them. -/
inductive Lexed : List Token → Text → Prop
  | done {w : Text} : (∀ c ∈ w, isSpace c = true) → Lexed [] w
  | token {w u t : Text} {tok : Token} {ts : List Token} : (∀ c ∈ w, isSpace c = true) →
      Spells tok u → Lexed ts t → Lexed (tok :: ts) (w ++ (u ++ t))

mutual

inductive Value : List Token → Prop
  | literal : Value [.literal]
  | number : Value [.number]
  | string : Value [.string]
  | emptyArray : Value [.beginArray, .endArray]
  | array {ts : List Token} : Elements ts → Value (.beginArray :: (ts ++ [.endArray]))
  | emptyObject : Value [.beginObject, .endObject]
  | object {ts : List Token} : Members ts → Value (.beginObject :: (ts ++ [.endObject]))

inductive Elements : List Token → Prop
  | one {v : List Token} : Value v → Elements v
  | more {v ts : List Token} : Value v → Elements ts → Elements (v ++ .valueSeparator :: ts)

inductive Members : List Token → Prop
  | one {v : List Token} : Value v → Members (.string :: .nameSeparator :: v)
  | more {v ts : List Token} : Value v → Members ts →
      Members (.string :: .nameSeparator :: (v ++ .valueSeparator :: ts))

end

/-- The text is a JSON text. -/
def IsJson (t : Text) : Prop := ∃ ts, Lexed ts t ∧ Value ts

variable {ts vs : List Token} {tok : Token} {t u v w x y b : Text} {c : Char}

def Token.scalar : Token → Bool
  | .literal | .number => true
  | _ => false

/-- `q` may stand behind `p` in a value. -/
def Follows (p q : Token) : Prop :=
  ¬ (p.scalar = true ∧ q.scalar = true) ∧ (q = .nameSeparator → p = .string)

/-- What a sequence of tokens in a value satisfies. -/
structure Ordered (ts : List Token) : Prop where
  head : ∀ p ∈ ts.head?, p ≠ .nameSeparator
  chain : ts.IsChain Follows

theorem Ordered.cons {p : Token} (hp : p ≠ .nameSeparator) (hs : p.scalar = false)
    (h : Ordered ts) : Ordered (p :: ts) := by
  constructor
  · intro q hq
    obtain rfl : p = q := by simpa using hq
    exact hp
  · apply List.isChain_cons.mpr
    refine ⟨fun q hq => ⟨by simp [hs], fun hname => ?_⟩, h.chain⟩
    exact absurd hname (h.head q hq)

/-- A closing bracket or a comma may follow everything. -/
theorem Ordered.append {p : Token} (hp : p ≠ .nameSeparator) (hs : p.scalar = false)
    (h : Ordered vs) (hts : Ordered ts) : Ordered (vs ++ p :: ts) := by
  constructor
  · intro q hq
    cases vs with
    | nil =>
      obtain rfl : p = q := by simpa using hq
      exact hp
    | cons d vs => exact h.head q hq
  · apply List.IsChain.append h.chain (hts.cons hp hs).chain
    intro a _ q hq
    obtain rfl : p = q := by simpa using hq
    exact ⟨by simp [hs], fun hname => absurd hname hp⟩

theorem Ordered.nil : Ordered [] := ⟨by simp, .nil⟩

/-- A name, its colon and a value. -/
theorem Ordered.member (h : Ordered vs) : Ordered (.string :: .nameSeparator :: vs) := by
  constructor
  · intro q hq
    obtain rfl : Token.string = q := by simpa using hq
    simp
  · apply List.IsChain.cons_cons
    · exact ⟨by simp [Token.scalar], fun _ => rfl⟩
    · apply List.isChain_cons.mpr
      refine ⟨fun q hq => ⟨by simp [Token.scalar], fun hname => ?_⟩, h.chain⟩
      exact absurd hname (h.head q hq)

mutual

theorem Value.ordered {ts : List Token} : Value ts → Ordered ts
  | .literal => ⟨by simp, .singleton _⟩
  | .number => ⟨by simp, .singleton _⟩
  | .string => ⟨by simp, .singleton _⟩
  | .emptyArray => (Ordered.cons (by simp) rfl .nil).cons (by simp) rfl
  | .array h => (h.ordered.append (by simp) rfl .nil).cons (by simp) rfl
  | .emptyObject => (Ordered.cons (by simp) rfl .nil).cons (by simp) rfl
  | .object h => (h.ordered.append (by simp) rfl .nil).cons (by simp) rfl

theorem Elements.ordered {ts : List Token} : Elements ts → Ordered ts
  | .one h => h.ordered
  | .more h hs => h.ordered.append (by simp) rfl hs.ordered

theorem Members.ordered {ts : List Token} : Members ts → Ordered ts
  | .one h => h.ordered.member
  | .more h hs => (h.ordered.append (by simp) rfl hs.ordered).member

end

/-- Where a text ends: outside escape sequences, behind a backslash, or before `left + 1` hex digits
of a `\u` sequence. -/
inductive Mode
  | plain
  | escape
  | unicode (left : Nat)
  deriving DecidableEq

def Mode.step : Mode → Char → Mode
  | .plain, c => if c = '\\' then .escape else .plain
  | .escape, c => if c = 'u' then .unicode 3 else .plain
  | .unicode 0, _ => .plain
  | .unicode (left + 1), _ => .unicode left

/-- The mode at the end of the text. -/
def modeAfter (m : Mode) (t : Text) : Mode := t.foldl Mode.step m

/-- The text ends inside an escape sequence. -/
def InEscape (t : Text) : Prop := modeAfter .plain t ≠ .plain

instance : Decidable (InEscape t) := inferInstanceAs (Decidable (_ ≠ _))

/-- The characters that may come next. -/
def Mode.Allows : Mode → Char → Prop
  | .plain, _ => True
  | .escape, c => c ∈ "\"\\/bfnrtu".toList
  | .unicode _, c => c.isHexDigit = true

/-- The text leads from one mode to another, and no escape sequence in it is malformed. -/
inductive Leads : Mode → Text → Mode → Prop
  | nil {m : Mode} : Leads m [] m
  | cons {m n : Mode} {c : Char} {t : Text} : m.Allows c → Leads (m.step c) t n → Leads m (c :: t) n

variable {m n : Mode}

@[simp] theorem modeAfter_nil : modeAfter m [] = m := rfl

@[simp] theorem modeAfter_cons : modeAfter m (c :: t) = modeAfter (m.step c) t := rfl

@[simp] theorem modeAfter_append : modeAfter m (t ++ u) = modeAfter (modeAfter m t) u :=
  List.foldl_append

theorem Leads.append {k : Mode} (h : Leads m t n) (hu : Leads n u k) : Leads m (t ++ u) k := by
  induction h with
  | nil => exact hu
  | cons hc _ ih => exact .cons hc (ih hu)

theorem Leads.mode (h : Leads m t n) : modeAfter m t = n := by
  induction h with
  | nil => rfl
  | cons _ _ ih => exact ih

/-- Every character was allowed in its mode. -/
theorem Leads.allows (h : Leads m (x ++ c :: y) n) : (modeAfter m x).Allows c := by
  induction x generalizing m with
  | nil =>
    cases h with
    | cons hc _ => exact hc
  | cons d x ih =>
    cases h with
    | cons _ hrest => exact ih hrest

/-- Text without a backslash stays outside escape sequences. -/
theorem leads_plain (h : '\\' ∉ t) : Leads .plain t .plain := by
  induction t with
  | nil => exact .nil
  | cons c t ih =>
    rw [List.mem_cons, not_or] at h
    refine .cons trivial ?_
    rw [Mode.step, if_neg (Ne.symm h.1)]
    exact ih h.2

theorem modeAfter_plain (h : '\\' ∉ t) : modeAfter .plain t = .plain := (leads_plain h).mode

theorem StringBody.leads (h : StringBody b) : Leads .plain b .plain := by
  induction h with
  | nil => exact .nil
  | @unescaped c b hc _ ih =>
    have hne : c ≠ '\\' := by
      rintro rfl
      exact absurd hc (by decide)
    refine .cons trivial ?_
    rwa [Mode.step, if_neg hne]
  | @escape c b hc _ ih =>
    have hne : c ≠ 'u' := by
      rintro rfl
      exact absurd hc (by decide)
    refine .cons trivial (.cons ?_ ?_)
    · exact List.mem_append_left ['u'] hc
    · simpa [Mode.step, hne] using ih
  | unicode h₁ h₂ h₃ h₄ _ ih =>
    have hu : 'u' ∈ "\"\\/bfnrtu".toList := by decide
    exact .cons trivial (.cons hu (.cons h₁ (.cons h₂ (.cons h₃ (.cons h₄ ih)))))

def isPunctuation (c : Char) : Bool :=
  c == '[' || c == ']' || c == '{' || c == '}' || c == ':' || c == ','

/-- The characters of numbers and literal names. -/
def isScalarChar (c : Char) : Bool := c.isAlphanum || c == '-' || c == '+' || c == '.'

theorem isScalarChar_of_digit (h : c.isDigit = true) : isScalarChar c = true := by
  simp [isScalarChar, Char.isAlphanum, h]

theorem IsNumber.chars (h : IsNumber u) : ∀ c ∈ u, isScalarChar c = true := by
  obtain ⟨sign, int, frac, exp, rfl, hsign, hint, hfrac, hexp⟩ := h
  simp only [List.forall_mem_append]
  refine ⟨?_, fun c hc => isScalarChar_of_digit (hint.1.2 c hc), ?_, ?_⟩
  · rcases hsign with rfl | rfl
    · simp
    · exact List.forall_mem_singleton.mpr rfl
  · rcases hfrac with rfl | ⟨v, rfl, hv⟩
    · simp
    · exact List.forall_mem_cons.mpr ⟨rfl, fun c hc => isScalarChar_of_digit (hv.2 c hc)⟩
  · rcases hexp with rfl | ⟨e, sign, v, rfl, he, hsign, hv⟩
    · simp
    · rw [List.forall_mem_cons, List.forall_mem_append]
      refine ⟨?_, ?_, fun c hc => isScalarChar_of_digit (hv.2 c hc)⟩
      · rcases he with rfl | rfl <;> rfl
      · rcases hsign with rfl | rfl | rfl
        · simp
        · exact List.forall_mem_singleton.mpr rfl
        · exact List.forall_mem_singleton.mpr rfl

theorem Spells.scalar_chars (h : Spells tok u) (hs : tok.scalar = true) :
    ∀ c ∈ u, isScalarChar c = true := by
  cases tok with
  | literal =>
    have hlit : u ∈ ["true".toList, "false".toList, "null".toList] := h
    simp only [List.mem_cons, List.not_mem_nil, or_false] at hlit
    rcases hlit with rfl | rfl | rfl <;> exact List.all_eq_true.mp rfl
  | number => exact IsNumber.chars h
  | _ => simp [Token.scalar] at hs

/-- A number has one dot at most. -/
theorem IsNumber.dots (h : IsNumber u) : u.count '.' ≤ 1 := by
  have hdigits : ∀ {v : Text}, IsDigits v → v.count '.' = 0 := by
    intro v hv
    rw [List.count_eq_zero]
    intro hmem
    exact absurd (hv.2 _ hmem) (by decide)
  obtain ⟨sign, int, frac, exp, rfl, hsign, hint, hfrac, hexp⟩ := h
  have hs : sign.count '.' = 0 := by rcases hsign with rfl | rfl <;> rfl
  have hf : frac.count '.' ≤ 1 := by
    rcases hfrac with rfl | ⟨v, rfl, hv⟩
    · simp
    · simp [hdigits hv]
  have he : exp.count '.' = 0 := by
    rcases hexp with rfl | ⟨e, sign, v, rfl, he, hsign, hv⟩
    · simp
    · rcases he with rfl | rfl <;> rcases hsign with rfl | rfl | rfl <;> simp [hdigits hv]
  simp only [List.count_append, hs, hdigits hint.1, he]
  omega

/-- No digit stands before a minus sign. -/
def NoDigitMinus (u : Text) : Prop := u.IsChain fun c d => ¬ (c.isDigit = true ∧ d = '-')

theorem noDigitMinus_of_notMem (hv : '-' ∉ v) : NoDigitMinus v := by
  induction v with
  | nil => exact .nil
  | cons c v ih =>
    rw [List.mem_cons, not_or] at hv
    apply List.isChain_cons.mpr
    refine ⟨?_, ih hv.2⟩
    rintro d hd ⟨-, rfl⟩
    exact hv.2 (List.mem_of_mem_head? hd)

/-- A minus sign opens a number or follows the letter of the exponent. -/
theorem IsNumber.minus (h : IsNumber u) : NoDigitMinus u := by
  have hdigits : ∀ {v : Text}, IsDigits v → '-' ∉ v := fun hv hmem =>
    absurd (hv.2 _ hmem) (by decide)
  have happend : ∀ {x y : Text}, NoDigitMinus x → NoDigitMinus y → y.head? ≠ some '-' →
      NoDigitMinus (x ++ y) := by
    intro x y hx hy hhead
    apply List.IsChain.append hx hy
    rintro a - d hd ⟨-, rfl⟩
    exact hhead hd
  obtain ⟨sign, int, frac, exp, rfl, hsign, hint, hfrac, hexp⟩ := h
  have hexp' : NoDigitMinus exp ∧ exp.head? ≠ some '-' := by
    rcases hexp with rfl | ⟨e, sign, v, rfl, he, hsign, hv⟩
    · exact ⟨.nil, by simp⟩
    · have hletter : e.isDigit = false ∧ e ≠ '-' := by rcases he with rfl | rfl <;> decide
      refine ⟨?_, by simpa using hletter.2⟩
      apply List.isChain_cons.mpr
      refine ⟨fun d _ hd => by simp [hletter.1] at hd, ?_⟩
      rcases hsign with rfl | rfl | rfl
      · exact noDigitMinus_of_notMem (hdigits hv)
      · apply List.isChain_cons.mpr
        refine ⟨fun d _ hd => absurd hd.1 (by decide), noDigitMinus_of_notMem (hdigits hv)⟩
      · apply noDigitMinus_of_notMem
        simpa using hdigits hv
  have hfrac' : '-' ∉ frac := by
    rcases hfrac with rfl | ⟨v, rfl, hv⟩
    · simp
    · simpa using hdigits hv
  have hhead : ∀ {z : Text}, '-' ∉ z → ∀ {y : Text}, y.head? ≠ some '-' →
      (z ++ y).head? ≠ some '-' := by
    intro z hz y hy
    cases z with
    | nil => exact hy
    | cons c z =>
      have hne : c ≠ '-' := fun hc => hz (by simp [hc])
      simpa using hne
  have htail := happend (noDigitMinus_of_notMem hfrac') hexp'.1 hexp'.2
  have hrest := happend (noDigitMinus_of_notMem (hdigits hint.1)) htail (hhead hfrac' hexp'.2)
  have hsign' : NoDigitMinus sign := by
    rcases hsign with rfl | rfl
    · exact .nil
    · exact .singleton _
  exact happend hsign' hrest (hhead (hdigits hint.1) (hhead hfrac' hexp'.2))

theorem Spells.scalar_dots (h : Spells tok u) (hs : tok.scalar = true) : u.count '.' ≤ 1 := by
  cases tok with
  | literal =>
    have hlit : u ∈ ["true".toList, "false".toList, "null".toList] := h
    simp only [List.mem_cons, List.not_mem_nil, or_false] at hlit
    rcases hlit with rfl | rfl | rfl <;> decide
  | number => exact IsNumber.dots h
  | _ => simp [Token.scalar] at hs

theorem Spells.scalar_minus (h : Spells tok u) (hs : tok.scalar = true) : NoDigitMinus u := by
  cases tok with
  | literal =>
    apply noDigitMinus_of_notMem
    have hlit : u ∈ ["true".toList, "false".toList, "null".toList] := h
    simp only [List.mem_cons, List.not_mem_nil, or_false] at hlit
    rcases hlit with rfl | rfl | rfl <;> decide
  | number => exact IsNumber.minus h
  | _ => simp [Token.scalar] at hs

theorem Spells.punctuation (h : Spells tok u) (hs : tok.scalar = false) (hne : tok ≠ .string) :
    ∃ c, u = [c] ∧ isPunctuation c = true ∧ (c = ':' → tok = .nameSeparator) := by
  cases tok with
  | literal => simp [Token.scalar] at hs
  | number => simp [Token.scalar] at hs
  | string => exact absurd rfl hne
  | nameSeparator => exact ⟨':', h, rfl, fun _ => rfl⟩
  | beginArray => exact ⟨'[', h, rfl, by decide⟩
  | endArray => exact ⟨']', h, rfl, by decide⟩
  | beginObject => exact ⟨'{', h, rfl, by decide⟩
  | endObject => exact ⟨'}', h, rfl, by decide⟩
  | valueSeparator => exact ⟨',', h, rfl, by decide⟩

/-- What stands between two strings: no token is a string, and no two scalars are neighbours. -/
structure Between (ts : List Token) (t : Text) : Prop where
  lexed : Lexed ts t
  chain : ts.IsChain Follows
  noString : .string ∉ ts

theorem Between.tail {sp : Text} (h : Between (tok :: ts) t) (ht : Lexed ts sp) : Between ts sp :=
  ⟨ht, (List.isChain_cons.mp h.chain).2, fun hmem => h.noString (List.mem_cons_of_mem tok hmem)⟩

/-- Behind a scalar comes white space, a punctuation character or the end. -/
theorem Between.behind_scalar {sp : Text} (h : Between (tok :: ts) sp) (hs : tok.scalar = true)
    (ht : Lexed ts (c :: t)) : isSpace c = true ∨ isPunctuation c = true := by
  generalize hct : c :: t = r at ht
  cases ht with
  | done hw => exact .inl (hw c (by simp [← hct]))
  | @token w u t' tok' ts hw hu _ =>
    cases w with
    | nil =>
      have hfollows := (List.isChain_cons.mp h.chain).1 tok' rfl
      have hnot : tok'.scalar = false := by
        by_contra hne
        exact hfollows.1 ⟨hs, by simpa using hne⟩
      have hstring : tok' ≠ .string := by
        rintro rfl
        exact h.noString (by simp)
      obtain ⟨d, rfl, hd, -⟩ := hu.punctuation hnot hstring
      obtain ⟨rfl, -⟩ : c = d ∧ t = t' := by simpa using hct
      exact .inr hd
    | cons d w =>
      obtain ⟨rfl, -⟩ := List.cons_eq_cons.mp hct
      exact .inl (hw c (by simp))

/-- A word of such a text lies in one scalar. -/
theorem Between.word (h : Between ts t) (hw : w <:+: t) (hne : w ≠ [])
    (hchars : ∀ c ∈ w, isSpace c = false ∧ isPunctuation c = false) :
    ∃ tok u, tok.scalar = true ∧ Spells tok u ∧ w <:+: u := by
  have hl := h.lexed
  -- no character of the word is white space
  have hspace : ∀ {sp a : Text}, (∀ c ∈ sp, isSpace c = true) → a ⊆ sp → a ⊆ w → a = [] := by
    intro sp a hsp ha haw
    cases a with
    | nil => rfl
    | cons c a =>
      have hc := (hchars c (haw (by simp))).1
      simp [hsp c (ha (by simp))] at hc
  induction hl with
  | done hsp => exact absurd (hspace hsp hw.subset (List.Subset.refl w)) hne
  | @token sp u t tok ts hsp hu ht ih =>
    have hword : w <:+: u ++ t := by
      rcases List.infix_append_iff.mp hw with hin | hin | ⟨a, b, rfl, ha, hb⟩
      · exact absurd (hspace hsp hin.subset (List.Subset.refl w)) hne
      · exact hin
      · obtain rfl := hspace hsp ha.subset (List.subset_append_left a b)
        exact hb.isInfix
    have hstring : tok ≠ .string := by
      rintro rfl
      exact h.noString (by simp)
    have hstart : ∀ {a : Text}, a ⊆ u → a ⊆ w → a ≠ [] → tok.scalar = true := by
      intro a hau haw ha
      by_contra hs
      obtain ⟨d, rfl, hd, -⟩ := hu.punctuation (by simpa using hs) hstring
      obtain ⟨c, a, rfl⟩ := List.exists_cons_of_ne_nil ha
      obtain rfl : c = d := by simpa using hau (List.mem_cons_self ..)
      have hc := (hchars c (haw (by simp))).2
      simp [hd] at hc
    rcases List.infix_append_iff.mp hword with hin | hin | ⟨a, b, rfl, ha, hb⟩
    · exact ⟨tok, u, hstart hin.subset (List.Subset.refl w) hne, hu, hin⟩
    · exact ih (h.tail ht) hin
    · rcases eq_or_ne a [] with rfl | hane
      · exact ih (h.tail ht) hb.isInfix
      · have hs := hstart ha.subset (List.subset_append_left a b) hane
        cases b with
        | nil => exact ⟨tok, u, hs, hu, by simpa using ha.isInfix⟩
        | cons c b =>
          -- the word would run over the end of a scalar
          obtain ⟨t', rfl⟩ := hb
          have hc := hchars c (by simp)
          rcases h.behind_scalar hs ht with hc' | hc'
          · simp [hc'] at hc
          · simp [hc'] at hc

/-- A colon stands only at the beginning. -/
theorem Between.colons (h : Between ts t) :
    t.count ':' ≤ 1 ∧ (ts.head? ≠ some .nameSeparator → ':' ∉ t) := by
  have hl := h.lexed
  have hspace : ∀ {sp : Text}, (∀ c ∈ sp, isSpace c = true) → ':' ∉ sp := by
    intro sp hsp hmem
    exact absurd (hsp _ hmem) (by decide)
  induction hl with
  | done hsp =>
    have hnot := hspace hsp
    exact ⟨by simp [List.count_eq_zero.mpr hnot], fun _ => hnot⟩
  | @token sp u t tok ts hsp hu ht ih =>
    obtain ⟨-, hrest⟩ := ih (h.tail ht)
    have hstring : tok ≠ .string := by
      rintro rfl
      exact h.noString (by simp)
    -- only a string is followed by a colon
    have hhead : ts.head? ≠ some .nameSeparator := by
      intro hname
      exact hstring (((List.isChain_cons.mp h.chain).1 _ hname).2 rfl)
    have hnot := List.count_eq_zero.mpr (hspace hsp)
    have htail := List.count_eq_zero.mpr (hrest hhead)
    simp only [List.count_append, hnot, htail, List.mem_append, not_or]
    cases hs : tok.scalar with
    | true =>
      have hmem : ':' ∉ u := fun hmem => absurd (hu.scalar_chars hs _ hmem) (by decide)
      rw [List.count_eq_zero.mpr hmem]
      exact ⟨by omega, fun _ => ⟨hspace hsp, hmem, hrest hhead⟩⟩
    | false =>
      obtain ⟨d, rfl, -, hd⟩ := hu.punctuation hs hstring
      constructor
      · have := List.count_le_length (a := ':') (l := [d])
        simp only [List.length_singleton] at this
        omega
      · intro hne
        refine ⟨hspace hsp, ?_, hrest hhead⟩
        intro hmem
        obtain rfl : ':' = d := by simpa using hmem
        exact hne (by rw [hd rfl]; rfl)

/-- The characters between strings. -/
theorem Between.chars (h : Between ts t) :
    ∀ c ∈ t, isSpace c = true ∨ isPunctuation c = true ∨ isScalarChar c = true := by
  have hl := h.lexed
  induction hl with
  | done hsp => exact fun c hc => .inl (hsp c hc)
  | @token sp u t tok ts hsp hu ht ih =>
    have hstring : tok ≠ .string := by
      rintro rfl
      exact h.noString (by simp)
    simp only [List.forall_mem_append]
    refine ⟨fun c hc => .inl (hsp c hc), ?_, ih (h.tail ht)⟩
    cases hs : tok.scalar with
    | true => exact fun c hc => .inr (.inr (hu.scalar_chars hs c hc))
    | false =>
      obtain ⟨d, rfl, hd, -⟩ := hu.punctuation hs hstring
      exact List.forall_mem_singleton.mpr (.inr (.inl hd))

theorem isAlphanum_of_hexDigit (h : c.isHexDigit = true) : c.isAlphanum = true := by
  have hhex : c.isHexDigit = (c.isDigit || (decide (c.val ≥ 97) && decide (c.val ≤ 102)) ||
      (decide (c.val ≥ 65) && decide (c.val ≤ 70))) := rfl
  have halnum : c.isAlphanum = ((decide (c.val ≥ 65 ∧ c.val ≤ 90) ||
      (decide (c.val ≥ 97) && decide (c.val ≤ 122))) || c.isDigit) := rfl
  rw [hhex] at h
  rw [halnum]
  cases hd : c.isDigit with
  | true => simp
  | false =>
    simp only [hd, UInt32.le_iff_toNat_le, Bool.or_eq_true, Bool.and_eq_true, decide_eq_true_eq,
      ge_iff_le, UInt32.reduceToNat, Bool.false_or, Bool.or_false] at h ⊢
    omega

theorem Lexed.space {sp : Text} (h : Lexed ts t) (hsp : ∀ c ∈ sp, isSpace c = true) :
    Lexed ts (sp ++ t) := by
  cases h with
  | done hw => exact .done (List.forall_mem_append.mpr ⟨hsp, hw⟩)
  | token hw hu ht =>
    rw [← List.append_assoc]
    exact .token (List.forall_mem_append.mpr ⟨hsp, hw⟩) hu ht

theorem Lexed.append (h : Lexed vs v) (ht : Lexed ts t) : Lexed (vs ++ ts) (v ++ t) := by
  induction h with
  | done hw => exact ht.space hw
  | token hw hu _ ih =>
    rw [List.append_assoc, List.append_assoc]
    exact .token hw hu ih

/-- No escape sequence in the tokens is malformed or left open. -/
theorem Lexed.leads (h : Lexed ts t) : Leads .plain t .plain := by
  have hspace : ∀ {sp : Text}, (∀ c ∈ sp, isSpace c = true) → Leads .plain sp .plain := by
    intro sp hsp
    apply leads_plain
    intro hmem
    exact absurd (hsp _ hmem) (by decide)
  induction h with
  | done hw => exact hspace hw
  | @token w u t tok ts hw hu _ ih =>
    refine (hspace hw).append (Leads.append ?_ ih)
    by_cases hstring : tok = .string
    · subst hstring
      obtain ⟨b, rfl, hb⟩ := hu
      exact .cons trivial (hb.leads.append (.cons trivial .nil))
    · apply leads_plain
      intro hmem
      cases hs : tok.scalar with
      | true => exact absurd (hu.scalar_chars hs _ hmem) (by decide)
      | false =>
        obtain ⟨d, rfl, hd, -⟩ := hu.punctuation hs hstring
        obtain rfl : '\\' = d := by simpa using hmem
        exact absurd hd (by decide)

/-- Inside an escape sequence a digit stands behind a letter or a digit. -/
theorem Leads.alphanum_before {e : Char} (h : Leads .plain (x ++ e :: c :: y) n)
    (hx : InEscape (x ++ [e])) (hc : c.isDigit = true) : e.isAlphanum = true := by
  have hbefore := h.allows
  rw [← List.singleton_append, ← List.append_assoc] at h
  have hallows := h.allows
  rw [InEscape] at hx
  rw [modeAfter_append] at hx hallows
  cases hm : modeAfter .plain x with
  | plain =>
    rw [hm] at hx hallows
    by_cases he : e = '\\'
    · subst he
      have hletters : "\"\\/bfnrtu".toList.all (fun c => !c.isDigit) = true := by decide
      have hletter := List.all_eq_true.mp hletters c hallows
      simp [hc] at hletter
    · simp [Mode.step, he] at hx
  | escape =>
    rw [hm] at hx
    by_cases he : e = 'u'
    · subst he
      decide
    · simp [Mode.step, he] at hx
  | unicode left =>
    rw [hm] at hbefore
    exact isAlphanum_of_hexDigit hbefore

/-- Behind text without escape sequences the rest of a string is that of a string. -/
theorem StringBody.drop (h : StringBody (w ++ y)) (hw : '\\' ∉ w) : StringBody y := by
  induction w with
  | nil => exact h
  | cons c w ih =>
    rw [List.mem_cons, not_or] at hw
    generalize hb : c :: w ++ y = b at h
    cases h with
    | nil => simp at hb
    | unescaped hc hrest =>
      obtain ⟨rfl, rfl⟩ := List.cons_eq_cons.mp hb
      exact ih hrest hw.2
    | escape hc hrest => exact absurd (List.cons_eq_cons.mp hb).1.symm hw.1
    | unicode h₁ h₂ h₃ h₄ hrest => exact absurd (List.cons_eq_cons.mp hb).1.symm hw.1

theorem StringBody.append_unescaped (h : StringBody y) (hw : ∀ c ∈ w, isUnescaped c = true) :
    StringBody (w ++ y) := by
  induction w with
  | nil => exact h
  | cons c w ih =>
    obtain ⟨hc, hw⟩ := List.forall_mem_cons.mp hw
    exact .unescaped hc (ih hw)

/-- A string alone is a JSON text. -/
theorem isJson_string (h : StringBody b) : IsJson ('"' :: (b ++ ['"'])) := by
  refine ⟨[.string], ?_, .string⟩
  have hnone : ∀ c ∈ ([] : Text), isSpace c = true := by simp
  simpa using Lexed.token hnone (show Spells .string _ from ⟨b, rfl, h⟩) (.done hnone)

end Json
