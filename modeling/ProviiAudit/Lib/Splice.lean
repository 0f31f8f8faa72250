import ProviiAudit.Lib.Scan
import ProviiAudit.Lib.Span

/-! Scanning a list that consists of stretches with placeholders between them. -/
namespace Scan

open Span (Stops)

variable {α : Type*} {m : Matcher α} {R R' x y k before after : List α} {p q : Option α} {c : α}
  {A D : α → Bool} {ks : List (List α)}

theorem clean_nil : Clean m p ([] : List α) := by
  intro x y h
  obtain ⟨rfl, rfl⟩ := List.append_eq_nil_iff.mp h.symm
  exact len_nil

instance {s : List α} : Decidable (Clean m p s) :=
  decidable_of_iff (∀ i < s.length + 1, m.len (lastOr p (s.take i)) (s.drop i) = none) <| by
    constructor
    · rintro h x y rfl
      simpa using h x.length (by rw [List.length_append]; omega)
    · intro h i _
      exact h _ _ (List.take_append_drop i s).symm

theorem lastOr_of_ne_nil (hx : x ≠ []) : lastOr p x = lastOr q x := by
  simp [lastOr, List.getLast?_eq_some_getLast hx]

theorem Separates.len_cons (hc : Separates m c) : m.len p (c :: y) = none := by
  simpa using hc.stop p [] y

/-- No match contains a separator. -/
theorem Separates.notMem {w : List α} (hc : Separates m c)
    (h : m.len p (w ++ y) = some w.length) : c ∉ w := by
  intro hmem
  obtain ⟨u, v, rfl⟩ := List.append_of_mem hmem
  rw [List.append_assoc, List.cons_append, hc.stop] at h
  have hle := m.le h
  simp only [List.length_append, List.length_cons] at hle
  omega

theorem Separates.len_behind (hc : Separates m c) : m.len (lastOr (some c) x) y =
    m.len (lastOr none x) y := by
  cases x with
  | nil => exact hc.fresh y
  | cons d x => rw [lastOr_cons, lastOr_cons]

/-- The scan works apart on what stands between separators, or between the ends of the list. -/
theorem scan_between {a : List α} (hc : Separates m c) (hx : x = [] ∨ x.getLast? = some c)
    (hy : y = [] ∨ y.head? = some c) : scan m R none (x ++ (a ++ y)) =
      scan m R none x ++ (scan m R none a ++ scan m R none y) := by
  have hback : ∀ z, scan m R none (z ++ y) = scan m R none z ++ scan m R none y := by
    intro z
    rcases hy with rfl | hy
    · simp
    · obtain ⟨y, rfl⟩ := List.head?_eq_some_iff.mp hy
      rw [scan_sep hc, scan_keep hc.len_cons, scan_congr hc.fresh]
  rw [← List.append_assoc, hback, ← List.append_assoc]
  congr 1
  rcases hx with rfl | hx
  · simp
  · obtain ⟨x, rfl⟩ := List.getLast?_eq_some_iff.mp hx
    rw [List.append_assoc, List.singleton_append, scan_sep hc, scan_sep hc]
    simp

theorem scan_ends (hc : Separates m c) (hx : x = [] ∨ x.getLast? = some c) :
    scan m R p x = [] ∨ (scan m R p x).getLast? = some c := by
  rcases hx with rfl | hx
  · exact .inl rfl
  · obtain ⟨x, rfl⟩ := List.getLast?_eq_some_iff.mp hx
    right
    rw [scan_sep hc]
    simp

theorem scan_begins (hc : Separates m c) (hy : y = [] ∨ y.head? = some c) :
    scan m R p y = [] ∨ (scan m R p y).head? = some c := by
  rcases hy with rfl | hy
  · exact .inl rfl
  · obtain ⟨y, rfl⟩ := List.head?_eq_some_iff.mp hy
    right
    rw [scan_keep hc.len_cons]
    rfl

/-- A list is clean when its two sides of a separator are. -/
theorem clean_sep (hc : Separates m c) :
    Clean m p (x ++ c :: y) ↔ Clean m p x ∧ Clean m none y := by
  constructor
  · intro h
    constructor
    · rintro u v rfl
      rw [← hc.stop _ v y]
      exact h u (v ++ c :: y) (by simp)
    · rintro u v rfl
      have hv := h (x ++ c :: u) v (by simp)
      rwa [lastOr_append, lastOr_cons, hc.len_behind] at hv
  · rintro ⟨hx, hy⟩ u v h
    rcases List.append_eq_append_iff.mp h with ⟨a, rfl, ha⟩ | ⟨a, rfl, rfl⟩
    · cases a with
      | nil =>
        obtain rfl : v = c :: y := ha.symm
        exact hc.len_cons
      | cons d a =>
        obtain ⟨rfl, rfl⟩ := List.cons_eq_cons.mp ha
        rw [lastOr_append, lastOr_cons, hc.len_behind]
        exact hy a v rfl
    · rw [hc.stop]
      exact hx u a rfl

/-- The matcher recognises nothing in the placeholder and does not look across it. -/
def Inert (m : Matcher α) (R : List α) : Prop :=
  ∃ o body e, R = o :: (body ++ [e]) ∧ Separates m o ∧ Separates m e ∧ Clean m none body

theorem Inert.clean_append (h : Inert m R) :
    Clean m p (x ++ (R ++ y)) ↔ Clean m p x ∧ Clean m none y := by
  obtain ⟨o, body, e, rfl, ho, he, hbody⟩ := h
  rw [List.cons_append, List.append_assoc, List.singleton_append, clean_sep ho, clean_sep he]
  simp [hbody]

theorem Inert.scan_append (h : Inert m R) :
    scan m R' p (x ++ (R ++ y)) = scan m R' p x ++ (R ++ scan m R' none y) := by
  obtain ⟨o, body, e, rfl, ho, he, hbody⟩ := h
  rw [List.cons_append, List.append_assoc, List.singleton_append, scan_sep ho, scan_sep he,
    scan_of_clean hbody]
  simp

theorem clean_intercalate (h : Inert m R) :
    Clean m none (R.intercalate ks) ↔ ∀ k ∈ ks, Clean m none k := by
  induction ks with
  | nil => simp [clean_nil]
  | cons k ks ih =>
    cases ks with
    | nil => simp
    | cons k' ks =>
      rw [List.intercalate_cons_cons, List.append_assoc, h.clean_append, ih,
        List.forall_mem_cons (l := k' :: ks)]

/-- The scan works on the stretches apart. -/
theorem scan_intercalate (h : Inert m R) :
    scan m R' none (R.intercalate ks) = R.intercalate (ks.map (scan m R' none)) := by
  induction ks with
  | nil => rfl
  | cons k ks ih =>
    cases ks with
    | nil => simp
    | cons k' ks =>
      rw [List.intercalate_cons_cons, List.append_assoc, h.scan_append, ih]
      simp only [List.map_cons, List.intercalate_cons_cons, List.append_assoc]

theorem intercalate_concat (hks : ks ≠ []) :
    R.intercalate (ks ++ [k]) = R.intercalate ks ++ (R ++ k) := by
  induction ks with
  | nil => exact absurd rfl hks
  | cons x ks ih =>
    cases ks with
    | nil => simp
    | cons z ks =>
      have hrest := ih (by simp)
      simp only [List.cons_append] at hrest ⊢
      rw [List.intercalate_cons_cons, hrest, List.intercalate_cons_cons]
      simp

theorem exists_of_mem_intercalate (h : k ∈ ks) :
    ∃ before after, R.intercalate ks = before ++ (k ++ after) ∧ (after = [] ∨ R <+: after) := by
  induction ks with
  | nil => simp at h
  | cons k' ks ih =>
    cases ks with
    | nil =>
      obtain rfl := List.mem_singleton.mp h
      exact ⟨[], [], by simp, .inl rfl⟩
    | cons k'' ks =>
      rw [List.intercalate_cons_cons, List.append_assoc]
      rcases List.mem_cons.mp h with rfl | h
      · exact ⟨[], _, rfl, .inr (List.prefix_append ..)⟩
      · obtain ⟨before, after, heq, hafter⟩ := ih h
        exact ⟨k' ++ (R ++ before), after, by simp [heq], hafter⟩

/-- Nothing is recognised at the positions of `k` while `before` and `after` surround it. -/
def Unmatched (m : Matcher α) (before k after : List α) : Prop :=
  ∀ x y, k = x ++ y → y ≠ [] → m.len (lastOr none (before ++ x)) (y ++ after) = none

theorem Gap.unmatched (h : Gap m none before k after) : Unmatched m before k after := h.inside

theorem Clean.unmatched (h : Clean m none (before ++ (k ++ after))) :
    Unmatched m before k after := by
  rintro x y rfl -
  exact h (before ++ x) (y ++ after) (by simp)

/-- A stretch starts with what may stand behind a match. -/
theorem Gap.stops (hm : ∀ p w y, m.len p (w ++ y) = some w.length → Stops A y)
    (h : Gap m none before k after) : before = [] ∨ Stops A k := by
  rcases h.left with hnil | ⟨x, w, -, hw⟩
  · exact .inl hnil
  · right
    have hstop := hm _ _ _ hw
    cases k with
    | nil => rfl
    | cons c k => exact hstop

/-- A stretch ends with what may stand before a match. -/
theorem Gap.last (hm : ∀ p y n, m.len p y = some n → p.any A = false)
    (h : Gap m none before k after) : after = [] ∨ k.getLast?.any A = false := by
  rcases h.right with hnil | ⟨n, hn⟩
  · exact .inl hnil
  · right
    have hlast := hm _ _ _ hn
    rcases List.eq_nil_or_concat k with rfl | ⟨k, c, rfl⟩
    · rfl
    · simpa using hlast

/-- A stretch whose ends cannot be those of a match is clean by itself, unless what surrounds it
prevents a match inside. -/
theorem clean_of_unmatched (h : Unmatched m before k after)
    (hedge : ∀ p w y, m.len p (w ++ y) = some w.length →
      w.head?.any D = true ∧ w.getLast?.any D = true)
    (hleft : before = [] ∨ Stops D k) (hright : after = [] ∨ k.getLast?.any D = false)
    (hinside : ∀ p w c z, m.len p (w ++ c :: z) = some w.length → c :: z <:+ k →
      m.len p (w ++ (c :: z ++ after)) ≠ none) : Clean m none k := by
  rintro x y rfl
  by_contra hne
  obtain ⟨n, hn⟩ := Option.ne_none_iff_exists'.mp hne
  obtain ⟨w, z, rfl, rfl⟩ := Span.exists_split (m.le hn)
  obtain ⟨hhead, hlast⟩ := hedge _ _ _ hn
  have hw := ne_nil_of_len hn
  have hbefore : lastOr none (before ++ x) = lastOr none x := by
    rcases hleft with rfl | hstop
    · rfl
    · cases x with
      | nil =>
        obtain ⟨c, w, rfl⟩ := List.exists_cons_of_ne_nil hw
        rw [List.nil_append, List.cons_append, Span.stops_cons] at hstop
        simp [hstop] at hhead
      | cons c x => rw [lastOr_append, lastOr_of_ne_nil (by simp)]
  have hnone := h x (w ++ z) rfl (by simp [hw])
  rw [hbefore, List.append_assoc] at hnone
  cases z with
  | nil =>
    rcases hright with rfl | hend
    · rw [List.append_nil] at hn
      simp [hn] at hnone
    · rw [List.append_nil, List.getLast?_append_of_ne_nil _ hw, hlast] at hend
      simp at hend
  | cons c z => exact hinside _ _ _ _ hn ⟨x ++ w, by simp⟩ hnone

/-- The matcher recognises `w` behind `x`. -/
def Stands (m : Matcher α) (t x w : List α) : Prop :=
  ∃ y, t = x ++ (w ++ y) ∧ m.len (lastOr none x) (w ++ y) = some w.length

/-- No match shares an element with the stretch `w`. -/
def Untouched (m : Matcher α) (x w y : List α) : Prop :=
  ∀ z v, Stands m (x ++ (w ++ y)) z v →
    z.length + v.length ≤ x.length ∨ x.length + w.length ≤ z.length

/-- No match begins inside another one. -/
def Disjoint (m : Matcher α) (t : List α) : Prop :=
  ∀ x w x' w', Stands m t x w → Stands m t x' w' → x.length < x'.length →
    x.length + w.length ≤ x'.length

section stands

variable {t w : List α}

theorem Clean.untouched (h : Clean m none (x ++ (w ++ y))) : Untouched m x w y := by
  rintro z v ⟨a, ht, hm⟩
  rw [h z _ ht] at hm
  simp at hm

theorem Stands.of_len {i : Nat} (h : m.len (lastOr none x) y = some i) :
    Stands m (x ++ y) x (y.take i) := by
  refine ⟨y.drop i, by rw [List.take_append_drop], ?_⟩
  rw [List.take_append_drop, h, List.length_take, Nat.min_eq_left (m.le h)]

theorem Untouched.of_len {i : Nat} (h : Untouched m x w y) (ht : x ++ (w ++ y) = t ++ k)
    (hm : m.len (lastOr none t) k = some i) :
    t.length + i ≤ x.length ∨ x.length + w.length ≤ t.length := by
  have hstands := Stands.of_len hm
  rw [← ht] at hstands
  have hle := h t _ hstands
  rwa [List.length_take, Nat.min_eq_left (m.le hm)] at hle

theorem Disjoint.of_len {i : Nat} (h : Disjoint m t) (ht : t = x ++ y)
    (hm : m.len (lastOr none x) y = some i) {x' w' : List α} (hstands : Stands m t x' w')
    (hlt : x.length < x'.length) : x.length + i ≤ x'.length := by
  have hle := h x _ x' w' (ht ▸ Stands.of_len hm) hstands hlt
  rwa [List.length_take, Nat.min_eq_left (m.le hm)] at hle

theorem disjoint_of_clean (h : Clean m none t) : Disjoint m t := by
  rintro x w x' w' ⟨y, rfl, hm⟩ - -
  rw [h x (w ++ y) rfl] at hm
  simp at hm

/-- Matches share no elements when none begins inside another one. -/
theorem disjoint_of_inside (h : ∀ x a b y, t = x ++ (a ++ (b ++ y)) → a ≠ [] → b ≠ [] →
    m.len (lastOr none x) (a ++ (b ++ y)) = some (a ++ b).length →
      m.len a.getLast? (b ++ y) = none) : Disjoint m t := by
  rintro x w x' w' ⟨y, rfl, hw⟩ ⟨y', ht, hw'⟩ hlt
  by_contra hin
  obtain ⟨a, rfl, hsplit⟩ : ∃ a, x' = x ++ a ∧ w ++ y = a ++ (w' ++ y') := by
    rcases List.append_eq_append_iff.mp ht with hbehind | ⟨b, rfl, -⟩
    · exact hbehind
    · rw [List.length_append] at hlt
      omega
  obtain ⟨b, rfl, hb⟩ : ∃ b, w = a ++ b ∧ w' ++ y' = b ++ y := by
    rcases List.append_eq_append_iff.mp hsplit with ⟨b, rfl, -⟩ | hbehind
    · simp only [List.length_append] at hin
      omega
    · exact hbehind
  simp only [List.length_append] at hin hlt
  have ha : a ≠ [] := List.ne_nil_of_length_pos (by omega)
  have hnone := h x a b y (by simp) ha (List.ne_nil_of_length_pos (by omega))
    (by simpa using hw)
  rw [hb, lastOr, List.getLast?_append_of_ne_nil _ ha, Option.or_none, hnone] at hw'
  simp at hw'

/-- What is kept behind a part that no match leaves is kept there in the whole list. -/
theorem pieces_append (h : Within m p x y) : ∃ ks u, u <:+ x ∧ (ks = [] → u = x) ∧
    pieces m p (x ++ y) = ks ++ (pieces m (lastOr p x) y).modifyHead (u ++ ·) := by
  induction hs : x.length using Nat.strong_induction_on generalizing p x with
  | _ N ih =>
    cases x with
    | nil =>
      obtain ⟨k, ks, hk⟩ := List.exists_cons_of_ne_nil (pieces_ne_nil (m := m) p y)
      exact ⟨[], [], List.suffix_rfl, fun _ => rfl, by simp [hk]⟩
    | cons c x =>
      cases hm : m.len p (c :: (x ++ y)) with
      | none =>
        obtain ⟨ks, u, hu, hx, hks⟩ := ih x.length (by simp at hs; omega) (p := some c) (x := x)
          (h.behind (x := [c])) rfl
        rw [List.cons_append, pieces_keep hm, hks, lastOr_cons]
        cases ks with
        | nil =>
          obtain rfl := hx rfl
          exact ⟨[], c :: u, List.suffix_rfl, fun _ => rfl, by simp [Function.comp_def]⟩
        | cons k ks => exact ⟨(c :: k) :: ks, u, hu.trans (List.suffix_cons c x), by simp, rfl⟩
      | some i =>
        have hle : i ≤ (c :: x).length := h [] (c :: x) rfl (by simp) i hm
        have hpos := m.pos hm
        obtain ⟨w, v, hsplit, rfl⟩ := Span.exists_split hle
        rw [← List.cons_append, hsplit, List.append_assoc] at hm
        rw [hsplit] at h hs ⊢
        obtain ⟨ks, u, hu, -, hks⟩ := ih v.length (by simp at hs; omega) (p := lastOr p w) (x := v)
          h.behind rfl
        refine ⟨[] :: ks, u, hu.trans (List.suffix_append w v), by simp, ?_⟩
        rw [List.append_assoc, pieces_redact hm, hks, lastOr_append, List.cons_append]

theorem pieces_keep_run (h : ∀ u v, k = u ++ v → v ≠ [] → m.len (lastOr p u) (v ++ y) = none) :
    pieces m p (k ++ y) = (pieces m (lastOr p k) y).modifyHead (k ++ ·) := by
  induction k generalizing p with
  | nil =>
    obtain ⟨k, ks, hk⟩ := List.exists_cons_of_ne_nil (pieces_ne_nil (m := m) p y)
    simp [hk]
  | cons c k ih =>
    have hrest : ∀ u v, k = u ++ v → v ≠ [] → m.len (lastOr (some c) u) (v ++ y) = none :=
      fun u v hk hv => by simpa using h (c :: u) v (by simp [hk]) hv
    rw [List.cons_append, pieces_keep (by simpa using h [] (c :: k) rfl (by simp)), ih hrest,
      lastOr_cons, List.modifyHead_modifyHead]
    rfl

/-- A gap is kept as it is when the match before it is replaced. -/
theorem mem_pieces_of_gap (hd : Disjoint m t) (ht : t = before ++ (k ++ after))
    (h : Gap m none before k after) : k ∈ pieces m none t := by
  subst ht
  have hhead : ∃ ks, pieces m (lastOr none before) (k ++ after) = k :: ks := by
    rw [pieces_keep_run (by simpa using h.inside)]
    rcases h.right with rfl | ⟨i, hi⟩
    · exact ⟨[], by simp⟩
    · obtain ⟨w, y, rfl, rfl⟩ := Span.exists_split (m.le hi)
      rw [lastOr_append] at hi
      rw [pieces_redact hi]
      exact ⟨pieces m (lastOr (lastOr (lastOr none before) k) w) y, by simp⟩
  rcases h.left with rfl | ⟨x, w, rfl, hw⟩
  · obtain ⟨ks, hks⟩ := hhead
    rw [List.nil_append, lastOr_nil] at *
    simp [hks]
  · -- no match that begins in `x` runs into `w`
    have hwithin : Within m none x (w ++ (k ++ after)) := by
      rintro u v rfl hv i hi
      have hlen := List.length_pos_of_ne_nil hv
      have hle := hd.of_len (by simp) hi ⟨k ++ after, by simp, hw⟩ (by simp; omega)
      rw [List.length_append] at hle
      omega
    obtain ⟨ks, u, -, -, hks⟩ := pieces_append hwithin
    rw [List.append_assoc, hks, pieces_redact hw]
    rw [lastOr_append] at hhead
    obtain ⟨ks', hks'⟩ := hhead
    simp [hks']

/-- A stretch that shares no element with a match is kept. -/
theorem exists_piece (hw : Untouched m x w y) :
    ∃ u v, u <:+ x ∧ v <+: y ∧ u ++ (w ++ v) ∈ pieces m none (x ++ (w ++ y)) := by
  have hwithin : Within m none x (w ++ y) := by
    rintro u v rfl hv i hi
    have hlen := List.length_pos_of_ne_nil hv
    have hle := hw.of_len (by simp) hi
    rw [List.length_append] at hle
    omega
  have hkept : ∀ u v, w = u ++ v → v ≠ [] → m.len (lastOr (lastOr none x) u) (v ++ y) = none := by
    rintro u v rfl hv
    by_contra hne
    obtain ⟨i, hi⟩ := Option.ne_none_iff_exists'.mp hne
    have hlen := List.length_pos_of_ne_nil hv
    have hpos := m.pos hi
    rw [← lastOr_append] at hi
    have hle := hw.of_len (by simp) hi
    rw [List.length_append, List.length_append] at hle
    omega
  obtain ⟨ks, u, hu, -, hks⟩ := pieces_append hwithin
  obtain ⟨v, ks', hv, ⟨after, hy, -⟩, -⟩ :=
    pieces_gaps (m := m) (p := lastOr (lastOr none x) w) (s := y)
  refine ⟨u, v, hu, ⟨after, hy.symm⟩, ?_⟩
  rw [hks, pieces_keep_run hkept, hv]
  simp

/-- The stretch goes as far as its elements are in the class. -/
structure Run (D : α → Bool) (x w y : List α) : Prop where
  chars : ∀ c ∈ w, D c = true
  left : x.getLast?.any D = false
  right : Stops D y

/-- What is recognised is recognised in a run by itself. -/
theorem exists_run (hD : ∀ c, D c = false → Separates m c)
    (hm : ∀ p w y, m.len p (w ++ y) = some w.length → ∀ c ∈ w, D c = true)
    (h : ¬ Clean m none t) :
    ∃ x w y, t = x ++ (w ++ y) ∧ Run D x w y ∧ ¬ Clean m none w := by
  simp only [Clean, not_forall] at h
  obtain ⟨x, y, rfl, hne⟩ := h
  obtain ⟨i, hi⟩ := Option.ne_none_iff_exists'.mp hne
  obtain ⟨w, y, rfl, rfl⟩ := Span.exists_split (m.le hi)
  obtain ⟨u, l, rfl, hl, hu⟩ : ∃ u l, x = u ++ l ∧ (∀ c ∈ l, D c = true) ∧
      u.getLast?.any D = false :=
    ⟨x.rdropWhile D, x.rtakeWhile D, (List.rdropWhile_append_rtakeWhile ..).symm,
      fun c hc => List.mem_rtakeWhile_imp hc, Span.getLast?_rdropWhile D x⟩
  obtain ⟨r, z, rfl, hr, hz⟩ : ∃ r z, y = r ++ z ∧ (∀ c ∈ r, D c = true) ∧ Stops D z :=
    ⟨y.takeWhile D, y.dropWhile D, (List.takeWhile_append_dropWhile ..).symm,
      fun c hc => List.mem_takeWhile_imp hc, Span.stops_dropWhile D y⟩
  refine ⟨u, l ++ (w ++ r), z, by simp, ⟨?_, hu, hz⟩, fun hclean => ?_⟩
  · simp only [List.mem_append]
    rintro c (hc | hc | hc)
    · exact hl c hc
    · exact hm _ _ _ hi c hc
    · exact hr c hc
  have hright : m.len (lastOr none (u ++ l)) (w ++ r) = some w.length := by
    cases z with
    | nil => simpa using hi
    | cons c z =>
      rw [← (hD c (Span.stops_cons.mp hz)).stop _ _ z, List.append_assoc]
      exact hi
  have hleft : m.len (lastOr none l) (w ++ r) = m.len (lastOr none (u ++ l)) (w ++ r) := by
    rcases List.eq_nil_or_concat u with rfl | ⟨u, c, rfl⟩
    · rfl
    · have hc : D c = false := by simpa using hu
      rw [List.concat_eq_append, List.append_assoc, lastOr_append, List.singleton_append,
        lastOr_cons, (hD c hc).len_behind]
  rw [hclean l (w ++ r) rfl, hright] at hleft
  simp at hleft

theorem Clean.of_separated (h : Clean m none (x ++ (w ++ y)))
    (hx : ∀ c, x.getLast? = some c → Separates m c) (hy : ∀ c, y.head? = some c → Separates m c) :
    Clean m none w := by
  have hxw : Clean m none (x ++ w) := by
    cases y with
    | nil => simpa using h
    | cons c y =>
      rw [← List.append_assoc, clean_sep (hy c rfl)] at h
      exact h.1
  rcases List.eq_nil_or_concat x with rfl | ⟨x, c, rfl⟩
  · exact hxw
  · rw [List.concat_eq_append, List.append_assoc, List.singleton_append,
      clean_sep (hx c (by simp))] at hxw
    exact hxw.2

end stands

section counting

variable [DecidableEq α] {s : List α}

theorem count_scan_le (hR : c ∉ R) : (scan m R p s).count c ≤ s.count c := by
  induction p, s using m.induction with
  | nil p => simp
  | keep p d s h ih =>
    rw [scan_keep h, List.count_cons, List.count_cons]
    omega
  | redact p w y h ih =>
    rw [scan_redact h, List.count_append, List.count_append, List.count_eq_zero.mpr hR]
    omega

/-- An element of no match and not of the placeholder is kept wherever it stands. -/
theorem count_scan_eq (hR : c ∉ R) (hm : ∀ p w y, m.len p (w ++ y) = some w.length → c ∉ w) :
    (scan m R p s).count c = s.count c := by
  induction p, s using m.induction with
  | nil p => rfl
  | keep p d s h ih => rw [scan_keep h, List.count_cons, List.count_cons, ih]
  | redact p w y h ih =>
    rw [scan_redact h, List.count_append, List.count_append, List.count_eq_zero.mpr hR,
      List.count_eq_zero.mpr (hm p w y h), ih]

/-- When no such element is lost, there was no match. -/
theorem clean_of_count (hR : c ∉ R) (hm : ∀ p w y, m.len p (w ++ y) = some w.length → c ∈ w)
    (h : s.count c ≤ (scan m R p s).count c) : Clean m p s := by
  induction p, s using m.induction with
  | nil p => exact clean_nil
  | keep p d s hnone ih =>
    rw [scan_keep hnone, List.count_cons, List.count_cons] at h
    have hclean := ih (by omega)
    intro x y hxy
    cases x with
    | nil =>
      obtain rfl : d :: s = y := hxy
      exact hnone
    | cons e x =>
      obtain ⟨rfl, rfl⟩ := List.cons_eq_cons.mp hxy
      rw [lastOr_cons]
      exact hclean x y rfl
  | redact p w y hw ih =>
    have hpos := List.count_pos_iff.mpr (hm p w y hw)
    have hle := count_scan_le (m := m) (p := lastOr p w) (s := y) hR
    rw [scan_redact hw, List.count_append, List.count_append, List.count_eq_zero.mpr hR] at h
    omega

end counting

/-- When every match lowers a measure that is not lowered, there was none. -/
theorem clean_of_measure {f : List α → Nat} {s : List α} (hf : ∀ x y, f (x ++ y) = f x + f y)
    (hm : ∀ p w y, m.len p (w ++ y) = some w.length → f R < f w) (h : f s ≤ f (scan m R p s)) :
    Clean m p s := by
  induction p, s using m.induction with
  | nil p => exact clean_nil
  | keep p d s hnone ih =>
    have hscan := hf [d] (scan m R (some d) s)
    have hs := hf [d] s
    rw [List.singleton_append] at hscan hs
    rw [scan_keep hnone] at h
    have hclean := ih (by omega)
    intro x y hxy
    cases x with
    | nil =>
      obtain rfl : d :: s = y := hxy
      exact hnone
    | cons e x =>
      obtain ⟨rfl, rfl⟩ := List.cons_eq_cons.mp hxy
      rw [lastOr_cons]
      exact hclean x y rfl
  | redact p w y hw ih =>
    have hlt := hm p w y hw
    have hle := measure_scan_le (p := lastOr p w) (s := y) hf fun p w y h => (hm p w y h).le
    rw [scan_redact hw, hf, hf] at h
    omega

end Scan
