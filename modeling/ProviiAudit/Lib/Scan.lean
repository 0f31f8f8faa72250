import Mathlib.Algebra.GroupWithZero.Nat
import Mathlib.Data.List.Basic
import Mathlib.Data.List.Infix
import Mathlib.Data.Nat.ModEq
import ProviiAudit.Lib.Span

/-! Left-to-right rewriting of a list: wherever a matcher recognises a stretch, the stretch
is replaced by a placeholder and the scan resumes behind it. -/
namespace Scan

/-- A matcher sees the element before a position and the list from there on. It returns the
length of the stretch it recognises, which is neither empty nor longer than the list. -/
structure Matcher (α : Type*) where
  len : Option α → List α → Option Nat
  pos : ∀ {p s n}, len p s = some n → 0 < n
  le : ∀ {p s n}, len p s = some n → n ≤ s.length

variable {α : Type*} {m : Matcher α} {R : List α} {p : Option α} {c : α} {s w x y z k : List α}
  {n : Nat}

/-- The element before the end of `x`, when `p` stands before its start. -/
def lastOr (p : Option α) (x : List α) : Option α := x.getLast?.or p

@[simp] theorem lastOr_nil : lastOr p ([] : List α) = p := rfl

@[simp] theorem lastOr_cons : lastOr p (c :: x) = lastOr (some c) x := by
  cases x <;> simp [lastOr, List.getLast?_cons]

@[simp] theorem lastOr_append : lastOr p (x ++ y) = lastOr (lastOr p x) y := by
  simp [lastOr, List.getLast?_append, Option.or_assoc]

/-- `skip` counts the elements of a recognised stretch that are still to pass. -/
def scanFrom (m : Matcher α) (R : List α) : Option α → Nat → List α → List α
  | _, _, [] => []
  | _, skip + 1, c :: s => scanFrom m R (some c) skip s
  | p, 0, c :: s =>
    match m.len p (c :: s) with
    | some n => R ++ scanFrom m R (some c) (n - 1) s
    | none => c :: scanFrom m R (some c) 0 s

def scan (m : Matcher α) (R : List α) (p : Option α) (s : List α) : List α := scanFrom m R p 0 s

/-- The stretches of the list between the replaced ones. -/
def piecesFrom (m : Matcher α) : Option α → Nat → List α → List (List α)
  | _, _, [] => [[]]
  | _, skip + 1, c :: s => piecesFrom m (some c) skip s
  | p, 0, c :: s =>
    match m.len p (c :: s) with
    | some n => [] :: piecesFrom m (some c) (n - 1) s
    | none => (piecesFrom m (some c) 0 s).modifyHead (c :: ·)

def pieces (m : Matcher α) (p : Option α) (s : List α) : List (List α) := piecesFrom m p 0 s

theorem scanFrom_skip (hw : w.length = n) :
    scanFrom m R p n (w ++ y) = scanFrom m R (lastOr p w) 0 y := by
  subst hw
  induction w generalizing p with
  | nil => rfl
  | cons c w ih => simpa [scanFrom] using ih

theorem piecesFrom_skip (hw : w.length = n) :
    piecesFrom m p n (w ++ y) = piecesFrom m (lastOr p w) 0 y := by
  subst hw
  induction w generalizing p with
  | nil => rfl
  | cons c w ih => simpa [piecesFrom] using ih

@[simp] theorem len_nil : m.len p [] = none := by
  cases h : m.len p [] with
  | none => rfl
  | some n =>
    have hpos := m.pos h
    have hle := m.le h
    simp at hle
    omega

@[simp] theorem scan_nil : scan m R p [] = [] := rfl

@[simp] theorem pieces_nil : pieces m p [] = [[]] := rfl

theorem scan_keep (h : m.len p (c :: s) = none) :
    scan m R p (c :: s) = c :: scan m R (some c) s := by
  simp [scan, scanFrom, h]

/-- A stretch in which nothing begins is kept. -/
theorem scan_keep_run (h : ∀ u c v, w = u ++ c :: v → m.len (lastOr p u) (c :: (v ++ y)) = none) :
    scan m R p (w ++ y) = w ++ scan m R (lastOr p w) y := by
  induction w generalizing p with
  | nil => rfl
  | cons c w ih =>
    have hrest : ∀ u d v, w = u ++ d :: v → m.len (lastOr (some c) u) (d :: (v ++ y)) = none :=
      fun u d v hw => by simpa using h (c :: u) d v (by simp [hw])
    rw [List.cons_append, scan_keep (by simpa using h [] c w rfl), ih hrest, lastOr_cons,
      List.cons_append]

theorem pieces_keep (h : m.len p (c :: s) = none) :
    pieces m p (c :: s) = (pieces m (some c) s).modifyHead (c :: ·) := by
  simp [pieces, piecesFrom, h]

theorem ne_nil_of_len (h : m.len p (w ++ y) = some w.length) : w ≠ [] := by
  rintro rfl
  exact absurd (m.pos h) (by simp)

theorem scan_redact (h : m.len p (w ++ y) = some w.length) :
    scan m R p (w ++ y) = R ++ scan m R (lastOr p w) y := by
  obtain ⟨c, w, rfl⟩ := List.exists_cons_of_ne_nil (ne_nil_of_len h)
  rw [List.cons_append] at h ⊢
  simp only [scan, scanFrom, h]
  rw [scanFrom_skip (by simp)]
  simp

theorem pieces_redact (h : m.len p (w ++ y) = some w.length) :
    pieces m p (w ++ y) = [] :: pieces m (lastOr p w) y := by
  obtain ⟨c, w, rfl⟩ := List.exists_cons_of_ne_nil (ne_nil_of_len h)
  rw [List.cons_append] at h ⊢
  simp only [pieces, piecesFrom, h]
  rw [piecesFrom_skip (by simp)]
  simp

/-- Induction along the scan: each step keeps one element or passes one recognised stretch. -/
theorem Matcher.induction {motive : Option α → List α → Prop} (m : Matcher α)
    (nil : ∀ p, motive p [])
    (keep : ∀ p c s, m.len p (c :: s) = none → motive (some c) s → motive p (c :: s))
    (redact : ∀ p w y, m.len p (w ++ y) = some w.length → motive (lastOr p w) y →
      motive p (w ++ y)) (p : Option α) (s : List α) : motive p s := by
  induction hs : s.length using Nat.strong_induction_on generalizing p s with
  | _ N ih =>
    cases s with
    | nil => exact nil p
    | cons c s =>
      cases hm : m.len p (c :: s) with
      | none => exact keep p c s hm (ih s.length (by simp at hs; omega) _ _ rfl)
      | some n =>
        have hpos := m.pos hm
        obtain ⟨w, y, hsplit, rfl⟩ := Span.exists_split (m.le hm)
        rw [hsplit] at hm hs ⊢
        refine redact p w y hm (ih _ ?_ _ _ rfl)
        rw [← hs, List.length_append]
        omega

theorem pieces_ne_nil (p : Option α) (s : List α) : pieces m p s ≠ [] := by
  induction p, s using m.induction with
  | nil p => simp
  | keep p c s h ih =>
    obtain ⟨k, ks, hp⟩ := List.exists_cons_of_ne_nil ih
    simp [pieces_keep h, hp]
  | redact p w y h ih => simp [pieces_redact h]

/-- The scan puts the placeholder between the stretches it keeps. -/
theorem scan_eq_intercalate : scan m R p s = R.intercalate (pieces m p s) := by
  induction p, s using m.induction with
  | nil p => rfl
  | keep p c s h ih =>
    obtain ⟨k, ks, hp⟩ := List.exists_cons_of_ne_nil (pieces_ne_nil (some c) s)
    rw [scan_keep h, pieces_keep h, ih, hp, List.modifyHead_cons,
      List.intercalate_cons_cons_left]
  | redact p w y h ih =>
    obtain ⟨k, ks, hp⟩ := List.exists_cons_of_ne_nil (pieces_ne_nil (lastOr p w) y)
    rw [scan_redact h, pieces_redact h, ih, hp, List.intercalate_cons_cons]
    simp

/-- The stretch between `before` and `after`: cut off by recognised stretches or by the ends
of the list, with nothing recognised inside. -/
structure Gap (m : Matcher α) (p : Option α) (before k after : List α) : Prop where
  left : before = [] ∨ ∃ x w, before = x ++ w ∧
    m.len (lastOr p x) (w ++ (k ++ after)) = some w.length
  right : after = [] ∨ ∃ n, m.len (lastOr p (before ++ k)) after = some n
  inside : ∀ x y, k = x ++ y → y ≠ [] → m.len (lastOr p (before ++ x)) (y ++ after) = none

theorem pieces_gaps : ∃ k ks, pieces m p s = k :: ks ∧
    (∃ after, s = k ++ after ∧ Gap m p [] k after) ∧
    ∀ k ∈ ks, ∃ before after, before ≠ [] ∧ s = before ++ (k ++ after) ∧
      Gap m p before k after := by
  induction p, s using m.induction with
  | nil p => exact ⟨[], [], rfl, ⟨[], rfl, .inl rfl, .inl rfl, by simp_all⟩, by simp⟩
  | keep p c s h ih =>
    obtain ⟨k, ks, hp, ⟨after, rfl, hk⟩, hks⟩ := ih
    refine ⟨c :: k, ks, by simp [pieces_keep h, hp], ⟨after, rfl, ⟨.inl rfl, ?_, ?_⟩⟩, ?_⟩
    · simpa using hk.right
    · intro x y hxy hy
      cases x with
      | nil =>
        rw [List.nil_append] at hxy
        subst hxy
        exact h
      | cons d x =>
        obtain ⟨rfl, rfl⟩ := List.cons_eq_cons.mp hxy
        simpa using hk.inside x y rfl hy
    · intro k' hk'
      obtain ⟨before, after', hne, hs, hg⟩ := hks k' hk'
      refine ⟨c :: before, after', by simp, by simp [hs], ⟨?_, ?_, ?_⟩⟩
      · obtain ⟨x, w, rfl, hw⟩ := hg.left.resolve_left hne
        exact .inr ⟨c :: x, w, rfl, by simpa using hw⟩
      · simpa using hg.right
      · simpa using hg.inside
  | redact p w y h ih =>
    obtain ⟨k, ks, hp, ⟨after, rfl, hk⟩, hks⟩ := ih
    refine ⟨[], k :: ks, by rw [pieces_redact h, hp], ⟨w ++ (k ++ after), rfl, ?_⟩, ?_⟩
    · exact ⟨.inl rfl, .inr ⟨_, h⟩, by simp_all⟩
    · intro k' hk'
      rcases List.mem_cons.mp hk' with rfl | hk'
      · refine ⟨w, after, ne_nil_of_len h, rfl, ⟨.inr ⟨[], w, rfl, h⟩, ?_, ?_⟩⟩
        · simpa using hk.right
        · simpa using hk.inside
      · obtain ⟨before, after', hne, hs, hg⟩ := hks k' hk'
        refine ⟨w ++ before, after', by simp [hne], by simp [hs], ⟨?_, ?_, ?_⟩⟩
        · obtain ⟨x, v, rfl, hv⟩ := hg.left.resolve_left hne
          exact .inr ⟨w ++ x, v, by simp, by simpa using hv⟩
        · simpa using hg.right
        · simpa using hg.inside

/-- Every kept stretch is a gap of the list. -/
theorem gap_of_mem_pieces (h : k ∈ pieces m p s) :
    ∃ before after, s = before ++ (k ++ after) ∧ Gap m p before k after := by
  obtain ⟨k₀, ks, hp, ⟨after, hs, hk⟩, hks⟩ := pieces_gaps (m := m) (p := p) (s := s)
  rw [hp] at h
  rcases List.mem_cons.mp h with rfl | h
  · exact ⟨[], after, hs, hk⟩
  · obtain ⟨before, after', -, hs', hg⟩ := hks k h
    exact ⟨before, after', hs', hg⟩

section brackets

variable {a body : List α} {o e : α}

theorem eq_nil_of_prefix_cons (he : e ∉ a) (h : a <+: e :: y) : a = [] := by
  cases a with
  | nil => rfl
  | cons d a =>
    obtain ⟨rfl, -⟩ := List.cons_prefix_cons.mp h
    simp at he

theorem prefix_of_prefix_scan (ho : o ∉ a) (h : a <+: scan m (o :: body) p s) : a <+: s := by
  induction p, s using m.induction generalizing a with
  | nil p => simpa using h
  | keep p c s hm ih =>
    rw [scan_keep hm] at h
    cases a with
    | nil => exact List.nil_prefix
    | cons d a =>
      rw [List.mem_cons, not_or] at ho
      rw [List.cons_prefix_cons] at h ⊢
      exact ⟨h.1, ih ho.2 h.2⟩
  | redact p w y hm ih =>
    rw [scan_redact hm] at h
    rw [eq_nil_of_prefix_cons ho h]
    exact List.nil_prefix

theorem infix_of_infix_separated (he : e ∉ a) (h : a <:+: x ++ e :: y) : a <:+: x ∨ a <:+: y := by
  rcases List.infix_append_iff.mp h with hx | hy | ⟨u, v, rfl, hu, hv⟩
  · exact .inl hx
  · rcases List.infix_cons_iff.mp hy with hpre | hy
    · rw [eq_nil_of_prefix_cons he hpre]
      exact .inl List.nil_infix
    · exact .inr hy
  · rw [List.mem_append, not_or] at he
    rw [eq_nil_of_prefix_cons he.2 hv, List.append_nil]
    exact .inl hu.isInfix

/-- A stretch of the output without the ends of the placeholder is one of the input. -/
theorem infix_of_infix_scan (ho : o ∉ a) (he : e ∉ a) (hbody : ¬ a <:+: o :: body)
    (h : a <:+: scan m (o :: body ++ [e]) p s) : a <:+: s := by
  induction p, s using m.induction with
  | nil p => exact h
  | keep p c s hm ih =>
    have hscan := scan_keep (R := o :: body ++ [e]) hm
    rw [hscan] at h
    rcases List.infix_cons_iff.mp h with hpre | hrest
    · rw [← hscan] at hpre
      exact (prefix_of_prefix_scan ho hpre).isInfix
    · exact List.infix_cons (ih hrest)
  | redact p w y hm ih =>
    rw [scan_redact hm, List.append_assoc, List.singleton_append] at h
    rcases infix_of_infix_separated he h with hR | hrest
    · exact absurd hR hbody
    · exact List.infix_append_of_infix_right (ih hrest)

end brackets

def Clean (m : Matcher α) (p : Option α) (s : List α) : Prop :=
  ∀ x y, s = x ++ y → m.len (lastOr p x) y = none

theorem scan_of_clean (h : Clean m p s) : scan m R p s = s := by
  induction s generalizing p with
  | nil => rfl
  | cons c s ih =>
    have hrest : Clean m (some c) s := by
      intro x y hxy
      simpa using h (c :: x) y (by simp [hxy])
    have hhead : m.len p (c :: s) = none := h [] (c :: s) rfl
    rw [scan_keep hhead, ih hrest]

structure Separates (m : Matcher α) (c : α) : Prop where
  stop : ∀ p x z, m.len p (x ++ c :: z) = m.len p x
  fresh : ∀ y, m.len (some c) y = m.len none y

theorem scan_congr {q : Option α} (h : ∀ y, m.len p y = m.len q y) :
    scan m R p s = scan m R q s := by
  cases s with
  | nil => rfl
  | cons c s => simp only [scan, scanFrom, h]

/-- The scan works on the two sides of a separator apart. -/
theorem scan_sep (hc : Separates m c) :
    scan m R p (x ++ c :: y) = scan m R p x ++ c :: scan m R none y := by
  induction p, x using m.induction with
  | nil p =>
    have h : m.len p (c :: y) = none := by
      simpa using hc.stop p [] y
    rw [List.nil_append, scan_keep h, scan_congr hc.fresh]
    rfl
  | keep p d x h ih =>
    have h' : m.len p (d :: (x ++ c :: y)) = none := by
      rw [← h, ← hc.stop p (d :: x) y, List.cons_append]
    rw [List.cons_append, scan_keep h', scan_keep h, ih, List.cons_append]
  | redact p w x h ih =>
    have h' : m.len p (w ++ (x ++ c :: y)) = some w.length := by
      rw [← h, ← hc.stop p (w ++ x) y, List.append_assoc]
    rw [List.append_assoc, scan_redact h', scan_redact h, ih, List.append_assoc]

/-- No match that begins in `x` runs into what follows, `y`. -/
def Within (m : Matcher α) (p : Option α) (x y : List α) : Prop :=
  ∀ u v, x = u ++ v → v ≠ [] → ∀ n, m.len (lastOr p u) (v ++ y) = some n → n ≤ v.length

theorem Within.behind (h : Within m p (x ++ w) y) : Within m (lastOr p x) w y := by
  intro u v hw hv n hn
  refine h (x ++ u) v (by rw [hw, List.append_assoc]) hv n ?_
  rwa [lastOr_append]

/-- Two texts behind such a prefix that the matches in it see alike are reached with one output. -/
theorem scan_append_congr (h : Within m p x y)
    (hsame : ∀ u v, x = u ++ v → v ≠ [] →
      m.len (lastOr p u) (v ++ z) = m.len (lastOr p u) (v ++ y)) :
    ∃ o, scan m R p (x ++ y) = o ++ scan m R (lastOr p x) y ∧
      scan m R p (x ++ z) = o ++ scan m R (lastOr p x) z := by
  induction hs : x.length using Nat.strong_induction_on generalizing p x with
  | _ N ih =>
    cases x with
    | nil => exact ⟨[], rfl, rfl⟩
    | cons c x =>
      have hz := hsame [] (c :: x) rfl (by simp)
      cases hm : m.len p (c :: (x ++ y)) with
      | none =>
        have hm' : m.len p (c :: (x ++ z)) = none := hz.trans hm
        obtain ⟨o, hy, ho⟩ := ih x.length (by simp at hs; omega) (p := some c) (x := x)
          (h.behind (x := [c])) (fun u v hx hv => by simpa using hsame (c :: u) v (by simp [hx]) hv)
          rfl
        refine ⟨c :: o, ?_, ?_⟩
        · rw [List.cons_append, scan_keep hm, hy, lastOr_cons, List.cons_append]
        · rw [List.cons_append, scan_keep hm', ho, lastOr_cons, List.cons_append]
      | some n =>
        have hle : n ≤ (c :: x).length := h [] (c :: x) rfl (by simp) n hm
        have hpos := m.pos hm
        obtain ⟨w, v, hsplit, rfl⟩ := Span.exists_split hle
        rw [← List.cons_append, hsplit, List.append_assoc] at hm
        have hm' : m.len p (w ++ (v ++ z)) = some w.length := by
          rw [← List.append_assoc, ← hsplit, List.cons_append]
          refine hz.trans ?_
          rw [hsplit, List.append_assoc]
          exact hm
        rw [hsplit] at h hsame hs ⊢
        obtain ⟨o, hy, ho⟩ := ih v.length (by simp at hs; omega) (p := lastOr p w) (x := v) h.behind
          (fun u t hx hv => by
            simpa [hx] using hsame (w ++ u) t (by simp [hx]) hv) rfl
        refine ⟨R ++ o, ?_, ?_⟩
        · rw [List.append_assoc, scan_redact hm, hy, lastOr_append, List.append_assoc]
        · rw [List.append_assoc, scan_redact hm', ho, lastOr_append, List.append_assoc]

theorem scan_append (h : Within m p x y) :
    ∃ o, scan m R p (x ++ y) = o ++ scan m R (lastOr p x) y := by
  obtain ⟨o, ho, -⟩ := scan_append_congr (R := R) h (z := y) fun _ _ _ _ => rfl
  exact ⟨o, ho⟩

def matchedFrom (m : Matcher α) : Option α → Nat → List α → List (List α)
  | _, _, [] => []
  | _, skip + 1, c :: s => matchedFrom m (some c) skip s
  | p, 0, c :: s =>
    match m.len p (c :: s) with
    | some n => (c :: s).take n :: matchedFrom m (some c) (n - 1) s
    | none => matchedFrom m (some c) 0 s

def matched (m : Matcher α) (p : Option α) (s : List α) : List (List α) := matchedFrom m p 0 s

theorem matchedFrom_skip (hw : w.length = n) :
    matchedFrom m p n (w ++ y) = matchedFrom m (lastOr p w) 0 y := by
  subst hw
  induction w generalizing p with
  | nil => rfl
  | cons c w ih => simpa [matchedFrom] using ih

theorem matched_keep (h : m.len p (c :: s) = none) :
    matched m p (c :: s) = matched m (some c) s := by
  simp [matched, matchedFrom, h]

theorem matched_redact (h : m.len p (w ++ y) = some w.length) :
    matched m p (w ++ y) = w :: matched m (lastOr p w) y := by
  obtain ⟨c, w, rfl⟩ := List.exists_cons_of_ne_nil (ne_nil_of_len h)
  rw [List.cons_append] at h ⊢
  simp only [matched, matchedFrom, h]
  rw [matchedFrom_skip (by simp)]
  simp

/-- What a scan adds and takes away, under an additive measure. -/
theorem measure_scan {f : List α → Nat} (hf : ∀ x y, f (x ++ y) = f x + f y) :
    f (scan m R p s) + ((matched m p s).map f).sum = f s + (matched m p s).length * f R := by
  induction p, s using m.induction with
  | nil p => simp [matched, matchedFrom]
  | keep p c s h ih =>
    have hcons : ∀ t, f (c :: t) = f [c] + f t := fun t => hf [c] t
    have hscan := hcons (scan m R (some c) s)
    have hs := hcons s
    rw [scan_keep h, matched_keep h]
    omega
  | redact p w y h ih =>
    rw [scan_redact h, matched_redact h, hf, hf, List.map_cons, List.sum_cons, List.length_cons,
      Nat.succ_mul]
    omega

/-- A scan whose placeholder measures no more than what it replaces. -/
theorem measure_scan_le {f : List α → Nat} (hf : ∀ x y, f (x ++ y) = f x + f y)
    (hm : ∀ p w y, m.len p (w ++ y) = some w.length → f R ≤ f w) : f (scan m R p s) ≤ f s := by
  induction p, s using m.induction with
  | nil p => exact Nat.le_refl _
  | keep p c s h ih =>
    have hscan := hf [c] (scan m R (some c) s)
    have hs := hf [c] s
    rw [List.singleton_append] at hscan hs
    rw [scan_keep h]
    omega
  | redact p w y h ih =>
    have hle := hm p w y h
    rw [scan_redact h, hf, hf]
    omega

/-- A scan whose matches have the length of the placeholder, but for multiples of `n`. -/
theorem length_scan_modEq
    (hm : ∀ p w y, m.len p (w ++ y) = some w.length → R.length ≡ w.length [MOD n]) :
    (scan m R p s).length ≡ s.length [MOD n] := by
  induction p, s using m.induction with
  | nil p => rfl
  | keep p c s h ih =>
    rw [scan_keep h]
    exact ih.add_right 1
  | redact p w y h ih =>
    rw [scan_redact h, List.length_append, List.length_append]
    exact (hm p w y h).add ih

theorem scan_ne_nil (hR : R ≠ []) (hs : s ≠ []) : scan m R p s ≠ [] := by
  induction p, s using m.induction with
  | nil p => exact absurd rfl hs
  | keep p c s h _ => simp [scan_keep h]
  | redact p w y h _ => simp [scan_redact h, hR]

def joined (cuts : List (List α × List α)) : List α := cuts.flatMap fun (k, w) => k ++ w

def replaced (R : List α) (cuts : List (List α × List α)) : List α :=
  cuts.flatMap fun (k, _) => k ++ R

@[simp] theorem joined_nil : joined ([] : List (List α × List α)) = [] := rfl

@[simp] theorem joined_cons {cuts : List (List α × List α)} :
    joined ((k, w) :: cuts) = k ++ (w ++ joined cuts) := by
  rw [joined, List.flatMap_cons, List.append_assoc]
  rfl

@[simp] theorem replaced_nil : replaced R [] = [] := rfl

@[simp] theorem replaced_cons {cuts : List (List α × List α)} :
    replaced R ((k, w) :: cuts) = k ++ (R ++ replaced R cuts) := by
  rw [replaced, List.flatMap_cons, List.append_assoc]
  rfl

/-- What holds at every cut holds at the first one and at all others. -/
theorem forall_cut_cons {cuts : List (List α × List α)}
    {P : List (List α × List α) → List α → List α → List (List α × List α) → Prop} :
    (∀ before k' w' after, (k, w) :: cuts = before ++ (k', w') :: after → P before k' w' after) ↔
      P [] k w cuts ∧ ∀ before k' w' after, cuts = before ++ (k', w') :: after →
        P ((k, w) :: before) k' w' after := by
  constructor
  · intro h
    refine ⟨h [] k w cuts rfl, ?_⟩
    rintro before k' w' after rfl
    exact h ((k, w) :: before) k' w' after rfl
  · rintro ⟨hfirst, hothers⟩ before k' w' after hcuts
    cases before with
    | nil =>
      obtain ⟨hkw, rfl⟩ := List.cons_eq_cons.mp hcuts
      obtain ⟨rfl, rfl⟩ := Prod.mk.inj hkw
      exact hfirst
    | cons cut before =>
      obtain ⟨rfl, hrest⟩ := List.cons_eq_cons.mp hcuts
      exact hothers before k' w' after hrest

/-- A scan keeps and replaces stretches, and every replaced one is a match in its place. -/
theorem exists_cuts : ∃ cuts rest, s = joined cuts ++ rest ∧
    scan m R p s = replaced R cuts ++ rest ∧ ∀ before k w after, cuts = before ++ (k, w) :: after →
      m.len (lastOr p (joined before ++ k)) (w ++ (joined after ++ rest)) = some w.length := by
  induction p, s using m.induction with
  | nil p => exact ⟨[], [], rfl, rfl, by simp⟩
  | keep p c s h ih =>
    obtain ⟨cuts, rest, hs, hscan, hmatch⟩ := ih
    rw [scan_keep h, hscan]
    cases cuts with
    | nil => exact ⟨[], c :: rest, by simp [hs], rfl, by simp⟩
    | cons cut cuts =>
      obtain ⟨k, w⟩ := cut
      obtain ⟨hfirst, hothers⟩ := forall_cut_cons.mp hmatch
      refine ⟨(c :: k, w) :: cuts, rest, by simp [hs], by simp, ?_⟩
      exact forall_cut_cons.mpr ⟨by simpa using hfirst, by simpa using hothers⟩
  | redact p w y h ih =>
    obtain ⟨cuts, rest, rfl, hscan, hmatch⟩ := ih
    rw [scan_redact h, hscan]
    refine ⟨([], w) :: cuts, rest, by simp, by simp, ?_⟩
    exact forall_cut_cons.mpr ⟨by simpa using h, by simpa using hmatch⟩

end Scan
