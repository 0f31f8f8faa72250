import ProviiAudit.Lib.Json
import ProviiAudit.Lib.Splice

/-! Rewriting the strings of a JSON text.

A matcher that finds nothing outside strings and does not look across quotation marks and
backslashes keeps a JSON text well formed as long as no match starts inside an escape sequence. When
one does, the placeholder takes the place of the characters that the sequence lacks. -/
namespace Json

open Utf8 (Text)
open Scan (Matcher scan Clean Separates lastOr)

variable {m : Matcher Char} {R s t x y w b o : Text} {p : Option Char} {c : Char} {k n : Mode}
  {ts r : List Token}

/-- The matcher works inside the strings of JSON texts. -/
structure WithinStrings (m : Matcher Char) : Prop where
  quote : Separates m '"'
  backslash : Separates m '\\'
  bracket : Separates m '['
  between : ∀ ts t, Between ts t → Clean m none t

/-- A match starts inside an escape sequence. -/
def StartsInEscape (m : Matcher Char) (t : Text) : Prop :=
  ∃ x y, t = x ++ y ∧ InEscape x ∧ m.len x.getLast? y ≠ none

/-- An opening bracket stands inside an escape sequence. -/
def Broken (n : Mode) (t : Text) : Prop := ∃ x y, t = x ++ '[' :: y ∧ modeAfter n x ≠ .plain

theorem IsJson.not_broken (h : IsJson t) : ¬ Broken .plain t := by
  rintro ⟨x, y, rfl, hx⟩
  obtain ⟨ts, hl, -⟩ := h
  have hallows := hl.leads.allows
  cases hn : modeAfter .plain x with
  | plain => exact hx hn
  | escape =>
    rw [hn] at hallows
    exact absurd hallows (by simp only [Mode.Allows]; decide)
  | unicode left =>
    rw [hn] at hallows
    exact absurd hallows (by simp only [Mode.Allows]; decide)

theorem Broken.cons (h : Broken (n.step c) t) : Broken n (c :: t) := by
  obtain ⟨x, y, rfl, hx⟩ := h
  exact ⟨c :: x, y, rfl, hx⟩

theorem Broken.append (hw : modeAfter n w = n) (h : Broken n t) : Broken n (w ++ t) := by
  obtain ⟨x, y, rfl, hx⟩ := h
  exact ⟨w ++ x, y, by simp, by rwa [modeAfter_append, hw]⟩

/-- A scan leaves no text well formed in which a match starts or a bracket stands inside an escape
sequence. -/
theorem broken_scan (hm : WithinStrings m) (hR : '\\' ∉ R) (hs : s = x ++ y)
    (hx : modeAfter n x ≠ .plain) (h : m.len (lastOr p x) y ≠ none ∨ y.head? = some '[') :
    Broken n (scan m ('[' :: R) p s) := by
  induction p, s using m.induction generalizing n x with
  | nil p =>
    obtain ⟨rfl, rfl⟩ := List.append_eq_nil_iff.mp hs.symm
    simp at h
  | keep p c s hnone ih =>
    rw [Scan.scan_keep hnone]
    cases x with
    | nil =>
      obtain rfl : c :: s = y := hs
      rcases h with h | h
      · exact absurd hnone h
      · obtain rfl : c = '[' := by simpa using h
        exact ⟨[], _, rfl, hx⟩
    | cons d x =>
      obtain ⟨rfl, rfl⟩ := List.cons_eq_cons.mp hs
      exact (ih rfl hx (by simpa using h)).cons
  | redact p w z hw ih =>
    rw [Scan.scan_redact hw]
    by_cases hn : n = .plain
    · subst hn
      have hback := hm.backslash.notMem hw
      have hplain : modeAfter .plain ('[' :: R) = .plain := by
        apply modeAfter_plain
        simpa using hR
      rcases List.append_eq_append_iff.mp hs with ⟨a, rfl, rfl⟩ | ⟨a, rfl, -⟩
      · rw [modeAfter_append, modeAfter_plain hback] at hx
        exact (ih rfl hx (by simpa using h)).append hplain
      · -- the match starts before the escape sequence does
        rw [List.mem_append, not_or] at hback
        exact absurd (modeAfter_plain hback.1) hx
    · exact ⟨[], _, rfl, hn⟩

theorem stringBody_scan (hm : WithinStrings m) (hR : ∀ c ∈ R, isUnescaped c = true)
    (hb : StringBody b)
    (h : ∀ x y, b = x ++ y → InEscape x → m.len (lastOr p x) y = none) :
    StringBody (scan m R p b) := by
  induction hlen : b.length using Nat.strong_induction_on generalizing p b with
  | _ N ih =>
    -- what holds of the whole body holds behind a complete escape sequence
    have hrest : ∀ {e b' : Text}, b = e ++ b' → modeAfter .plain e = .plain →
        ∀ x y, b' = x ++ y → InEscape x → m.len (lastOr (lastOr p e) x) y = none := by
      rintro e _ rfl he x y rfl hx
      have hnone := h (e ++ x) y (by simp)
      rw [InEscape, modeAfter_append, he, Scan.lastOr_append] at hnone
      exact hnone hx
    cases hb with
    | nil => exact .nil
    | @unescaped c b hc hb =>
      cases hmatch : m.len p (c :: b) with
      | none =>
        have hstep : modeAfter .plain [c] = .plain := by
          apply modeAfter_plain
          intro hmem
          obtain rfl : '\\' = c := by simpa using hmem
          exact absurd hc (by decide)
        rw [Scan.scan_keep hmatch]
        exact .unescaped hc (ih _ (by simp at hlen; omega) hb (hrest (e := [c]) rfl hstep) rfl)
      | some n =>
        obtain ⟨w, y, hsplit, rfl⟩ := Span.exists_split (m.le hmatch)
        have hb' : StringBody (w ++ y) := hsplit ▸ .unescaped hc hb
        rw [hsplit] at hmatch ⊢
        have hpos := m.pos hmatch
        have hback := hm.backslash.notMem hmatch
        have hlens := congrArg List.length hsplit
        rw [Scan.scan_redact hmatch]
        refine (ih _ ?_ (hb'.drop hback) (hrest hsplit (modeAfter_plain hback)) rfl).append_unescaped
          hR
        simp only [List.length_append] at hlens
        omega
    | @escape c b hc hb =>
      have hne : c ≠ 'u' := by
        rintro rfl
        exact absurd hc (by decide)
      have h₁ := h ['\\'] (c :: b) rfl (by decide)
      have hmode : modeAfter .plain ['\\', c] = .plain := by simp [Mode.step, hne]
      have hscan := ih _ (by simp at hlen; omega) hb (hrest (e := ['\\', c]) rfl hmode) rfl
      simp only [Scan.lastOr_cons, Scan.lastOr_nil] at h₁
      rw [Scan.scan_keep hm.backslash.len_cons, Scan.scan_keep h₁]
      exact .escape hc hscan
    | @unicode c₁ c₂ c₃ c₄ b hx₁ hx₂ hx₃ hx₄ hb =>
      have h₁ := h ['\\'] ('u' :: c₁ :: c₂ :: c₃ :: c₄ :: b) rfl (by decide)
      have h₂ := h ['\\', 'u'] (c₁ :: c₂ :: c₃ :: c₄ :: b) rfl (by decide)
      have h₃ := h ['\\', 'u', c₁] (c₂ :: c₃ :: c₄ :: b) rfl (by simp [InEscape, Mode.step])
      have h₄ := h ['\\', 'u', c₁, c₂] (c₃ :: c₄ :: b) rfl (by simp [InEscape, Mode.step])
      have h₅ := h ['\\', 'u', c₁, c₂, c₃] (c₄ :: b) rfl (by simp [InEscape, Mode.step])
      have hmode : modeAfter .plain ['\\', 'u', c₁, c₂, c₃, c₄] = .plain := by simp [Mode.step]
      have hscan := ih _ (by simp at hlen; omega) hb
        (hrest (e := ['\\', 'u', c₁, c₂, c₃, c₄]) rfl hmode) rfl
      simp only [Scan.lastOr_cons, Scan.lastOr_nil] at h₁ h₂ h₃ h₄ h₅
      rw [Scan.scan_keep hm.backslash.len_cons, Scan.scan_keep h₁, Scan.scan_keep h₂,
        Scan.scan_keep h₃, Scan.scan_keep h₄, Scan.scan_keep h₅]
      exact .unicode hx₁ hx₂ hx₃ hx₄ hscan

theorem InEscape.ne_nil (h : InEscape x) : x ≠ [] := by
  rintro rfl
  exact h rfl

/-- Behind text that leaves no escape sequence open, what starts inside one starts there in the
whole text. -/
theorem unmatched_behind (h : ∀ x y, t = x ++ y → InEscape x → m.len (lastOr none x) y = none)
    (ht : t = o ++ s) (ho : modeAfter .plain o = .plain) :
    ∀ x y, s = x ++ y → InEscape x → m.len (lastOr none x) y = none := by
  rintro x y rfl hx
  have hnone := h (o ++ x) y (by simp [ht])
  rw [InEscape, modeAfter_append, ho, Scan.lastOr_append,
    Scan.lastOr_of_ne_nil (q := none) hx.ne_nil] at hnone
  exact hnone hx

/-- White space stands between two strings as well. -/
theorem Between.append (h : Between ts t) (hw : ∀ c ∈ w, isSpace c = true) :
    Between ts (t ++ w) := by
  refine ⟨?_, h.chain, h.noString⟩
  have hl := h.lexed.append (.done hw)
  rwa [List.append_nil] at hl

theorem lexed_scan (hm : WithinStrings m) (hR : ∀ c ∈ R, isUnescaped c = true) (hl : Lexed ts t)
    (ho : Between r o) (hchain : (r ++ ts).IsChain Follows)
    (h : ∀ x y, o ++ t = x ++ y → InEscape x → m.len (lastOr none x) y = none) :
    ∃ t', Lexed ts t' ∧ scan m R none (o ++ t) = o ++ t' := by
  induction hl generalizing r o with
  | @done w hw =>
    have hbetween : Between r (o ++ w) := ho.append hw
    exact ⟨w, .done hw, Scan.scan_of_clean (hm.between _ _ hbetween)⟩
  | @token w u t tok ts hw hu hl ih =>
    have hrest : (tok :: ts).IsChain Follows := hchain.right_of_append
    by_cases hstring : tok = .string
    · subst hstring
      obtain ⟨b, rfl, hb⟩ := hu
      have hbetween : Between r (o ++ w) := ho.append hw
      have hplain : modeAfter .plain (o ++ w) = .plain := hbetween.lexed.leads.mode
      have hbody := unmatched_behind (o := o ++ (w ++ ['"'])) (s := b ++ '"' :: t) h (by simp)
        (by rw [← List.append_assoc, modeAfter_append, hplain]; rfl)
      have htail := unmatched_behind (o := b ++ ['"']) (s := t) hbody (by simp)
        (by rw [modeAfter_append, hb.leads.mode]; rfl)
      obtain ⟨t', hl', hscan⟩ := ih (r := []) (o := []) ⟨.done (by simp), .nil, by simp⟩
        (List.isChain_cons.mp hrest).2 htail
      have hb' : StringBody (scan m R none b) := by
        refine stringBody_scan hm hR hb fun x y hxy hx => ?_
        rw [← hm.quote.stop _ y t]
        exact hbody x (y ++ '"' :: t) (by simp [hxy]) hx
      refine ⟨w ++ (('"' :: (scan m R none b ++ ['"'])) ++ t'), .token hw ⟨_, rfl, hb'⟩ hl', ?_⟩
      have hsplit : o ++ (w ++ ('"' :: (b ++ ['"']) ++ t)) = (o ++ w) ++ '"' :: (b ++ '"' :: t) := by
        simp
      rw [List.nil_append, List.nil_append] at hscan
      rw [hsplit, Scan.scan_sep hm.quote, Scan.scan_sep hm.quote,
        Scan.scan_of_clean (hm.between _ _ hbetween), hscan]
      simp
    · have hbetween : Between (r ++ [tok]) (o ++ (w ++ u)) := by
        refine ⟨?_, ?_, ?_⟩
        · have := ho.lexed.append (.token hw hu (.done (w := []) (by simp)))
          rwa [List.append_nil] at this
        · rw [← List.singleton_append, ← List.append_assoc] at hchain
          exact hchain.left_of_append
        · rw [List.mem_append, not_or]
          exact ⟨ho.noString, by simpa using Ne.symm hstring⟩
      obtain ⟨t', hl', hscan⟩ := ih hbetween (by simpa using hchain) (by simpa using h)
      refine ⟨w ++ (u ++ t'), .token hw hu hl', ?_⟩
      simpa using hscan

/-- A scan inside strings keeps a JSON text well formed exactly when no match starts inside an
escape sequence. -/
theorem isJson_scan_iff (hm : WithinStrings m) (hR : ∀ c ∈ R, isUnescaped c = true)
    (hjson : IsJson t) : IsJson (scan m ('[' :: R) none t) ↔ ¬ StartsInEscape m t := by
  constructor
  · rintro hscan ⟨x, y, hxy, hx, hmatch⟩
    have hback : '\\' ∉ R := fun hmem => absurd (hR _ hmem) (by decide)
    exact hscan.not_broken (broken_scan hm hback hxy hx (.inl (by simpa [lastOr] using hmatch)))
  · intro h
    obtain ⟨ts, hl, hv⟩ := hjson
    have hnone : ∀ x y, [] ++ t = x ++ y → InEscape x → m.len (lastOr none x) y = none := by
      intro x y hxy hx
      by_contra hne
      exact h ⟨x, y, hxy, hx, by simpa [lastOr] using hne⟩
    have hplaceholder : ∀ c ∈ '[' :: R, isUnescaped c = true :=
      List.forall_mem_cons.mpr ⟨rfl, hR⟩
    obtain ⟨t', hl', hscan⟩ := lexed_scan (r := []) hm hplaceholder hl
      ⟨.done (by simp), .nil, by simp⟩ hv.ordered.chain hnone
    rw [List.nil_append, List.nil_append] at hscan
    exact ⟨ts, by rwa [hscan], hv⟩

end Json
