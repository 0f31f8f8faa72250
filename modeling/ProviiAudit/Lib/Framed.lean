import ProviiAudit.Lib.Splice

/-! A scan over a list with a marked stretch in it: how far the matches around the stretch reach
into it, and what is left of it. -/
namespace Scan

variable {α : Type*} {m : Matcher α} {R : List α} {p q : Option α} {c : α}
  {e e' s u v x y z : List α} {i k n : Nat}

/-- What is written for `x` when `y` follows. -/
def front (m : Matcher α) (R : List α) : Option α → Nat → List α → List α → List α
  | _, _, [], _ => []
  | _, skip + 1, c :: x, y => front m R (some c) skip x y
  | p, 0, c :: x, y =>
    match m.len p (c :: (x ++ y)) with
    | some n => R ++ front m R (some c) (n - 1) x y
    | none => c :: front m R (some c) 0 x y

/-- How many elements of `y` a match that begins in `x` takes. -/
def overrun (m : Matcher α) : Option α → Nat → List α → List α → Nat
  | _, skip, [], _ => skip
  | _, skip + 1, c :: x, y => overrun m (some c) skip x y
  | p, 0, c :: x, y =>
    match m.len p (c :: (x ++ y)) with
    | some n => overrun m (some c) (n - 1) x y
    | none => overrun m (some c) 0 x y

/-- Where the first match in `e` begins. -/
def entry (m : Matcher α) : Option α → List α → List α → Nat
  | _, [], _ => 0
  | p, c :: e, y =>
    match m.len p (c :: (e ++ y)) with
    | some _ => 0
    | none => entry m (some c) e y + 1

theorem scanFrom_append : scanFrom m R p k (x ++ y) =
    front m R p k x y ++ scanFrom m R (lastOr p x) (overrun m p k x y) y := by
  induction x generalizing p k with
  | nil => rfl
  | cons c x ih =>
    cases k with
    | succ k => simpa [scanFrom, front, overrun] using ih
    | zero =>
      simp only [List.cons_append, scanFrom, front, overrun, lastOr_cons]
      cases m.len p (c :: (x ++ y)) with
      | none => simp only [ih, List.cons_append]
      | some n => simp only [ih, List.append_assoc]

theorem scanFrom_drop : scanFrom m R p k (e ++ y) =
    scanFrom m R (lastOr p (e.take k)) (k - e.length) (e.drop k ++ y) := by
  induction e generalizing p k with
  | nil => simp
  | cons c e ih =>
    cases k with
    | zero => simp
    | succ k => simpa [scanFrom] using ih

theorem entry_le : entry m p e y ≤ e.length := by
  induction e generalizing p with
  | nil => exact le_rfl
  | cons c e ih =>
    rw [entry, List.length_cons]
    cases m.len p (c :: (e ++ y)) with
    | none => exact Nat.succ_le_succ ih
    | some n => exact Nat.zero_le _

/-- Nothing begins before the entry. -/
theorem entry_none (hk : k < entry m p e y) :
    m.len (lastOr p (e.take k)) (e.drop k ++ y) = none := by
  induction e generalizing p k with
  | nil => exact absurd hk (Nat.not_lt_zero k)
  | cons c e ih =>
    rw [entry] at hk
    cases h : m.len p (c :: (e ++ y)) with
    | some n => simp [h] at hk
    | none =>
      rw [h] at hk
      cases k with
      | zero => simpa using h
      | succ k => simpa using ih (Nat.lt_of_succ_lt_succ hk)

theorem entry_some (hlt : entry m p e y < e.length) : ∃ n,
    m.len (lastOr p (e.take (entry m p e y))) (e.drop (entry m p e y) ++ y) = some n := by
  induction e generalizing p with
  | nil => exact absurd hlt (Nat.not_lt_zero _)
  | cons c e ih =>
    rw [entry] at hlt ⊢
    cases h : m.len p (c :: (e ++ y)) with
    | some n => exact ⟨n, by simpa using h⟩
    | none =>
      rw [h, List.length_cons] at hlt
      simpa using ih (Nat.lt_of_succ_lt_succ hlt)

/-- The entry is where a match begins and none begins before. -/
theorem entry_eq (hk : k ≤ e.length)
    (hnone : ∀ j < k, m.len (lastOr p (e.take j)) (e.drop j ++ y) = none)
    (hsome : k < e.length → m.len (lastOr p (e.take k)) (e.drop k ++ y) ≠ none) :
    entry m p e y = k := by
  rcases Nat.lt_trichotomy (entry m p e y) k with hlt | heq | hgt
  · obtain ⟨n, hn⟩ := entry_some (Nat.lt_of_lt_of_le hlt hk)
    rw [hnone _ hlt] at hn
    simp at hn
  · exact heq
  · exact absurd (entry_none hgt) (hsome (Nat.lt_of_lt_of_le hgt entry_le))

theorem scan_entry : scan m R p (e ++ y) = e.take (entry m p e y) ++
    scan m R (lastOr p (e.take (entry m p e y))) (e.drop (entry m p e y) ++ y) := by
  induction e generalizing p with
  | nil => simp
  | cons c e ih =>
    rw [entry]
    cases h : m.len p (c :: (e ++ y)) with
    | some n => simp
    | none =>
      rw [List.cons_append, scan_keep h, ih]
      simp

/-- The scan over a stretch of which `i` elements are taken. -/
theorem scanFrom_stretch (hk : k = entry m (lastOr p (e.take i)) (e.drop i) y) :
    scanFrom m R p i (e ++ y) = (e.drop i).take k ++
      scanFrom m R (lastOr p (e.take (i + k))) (i - e.length) (e.drop (i + k) ++ y) := by
  rw [scanFrom_drop]
  rcases Nat.le_total i e.length with hle | hge
  · have hscan := scan_entry (m := m) (R := R) (p := lastOr p (e.take i)) (e := e.drop i) (y := y)
    rw [Nat.sub_eq_zero_of_le hle, List.take_add, lastOr_append, ← List.drop_drop, hk]
    exact hscan
  · have hnil : e.drop i = [] := List.drop_of_length_le hge
    rw [hk, hnil]
    simp [entry, hnil]

/-- What is taken behind `x` belongs to the elements to skip, or to a match that begins in `x`. -/
theorem overrun_cases (h : 0 < overrun m p k x y) : k = x.length + overrun m p k x y ∨
    ∃ u v, x = u ++ v ∧ v ≠ [] ∧
      m.len (lastOr p u) (v ++ y) = some (v.length + overrun m p k x y) := by
  induction x generalizing p k with
  | nil => exact .inl (Nat.zero_add _).symm
  | cons c x ih =>
    have behind : ∀ {j}, 0 < overrun m (some c) j x y → j = x.length + overrun m (some c) j x y ∨
        ∃ u v, c :: x = u ++ v ∧ v ≠ [] ∧
          m.len (lastOr p u) (v ++ y) = some (v.length + overrun m (some c) j x y) := by
      intro j hpos
      refine (ih hpos).imp_right ?_
      rintro ⟨u, v, rfl, hv, hlen⟩
      exact ⟨c :: u, v, rfl, hv, by simpa using hlen⟩
    cases k with
    | succ k => exact (behind h).imp_left fun hk => by rw [overrun, List.length_cons]; omega
    | zero =>
      rw [overrun] at h ⊢
      cases hm : m.len p (c :: (x ++ y)) with
      | none =>
        rw [hm] at h
        refine (behind h).imp_left fun hk => ?_
        dsimp only at h
        omega
      | some n =>
        rw [hm] at h
        have hn := m.pos hm
        rcases behind h with hk | hmatch
        · refine .inr ⟨[], c :: x, rfl, by simp, ?_⟩
          rw [lastOr_nil, List.cons_append, hm, List.length_cons]
          congr 1
          dsimp only
          omega
        · exact .inr hmatch

theorem overrun_pos (h : 0 < overrun m p 0 x y) : ∃ u v, x = u ++ v ∧ v ≠ [] ∧
    m.len (lastOr p u) (v ++ y) = some (v.length + overrun m p 0 x y) :=
  (overrun_cases h).resolve_left (by omega)

theorem overrun_skip (h : x.length ≤ k) : overrun m p k x y = k - x.length := by
  induction x generalizing p k with
  | nil => rfl
  | cons c x ih =>
    rw [List.length_cons] at h ⊢
    obtain ⟨k, rfl⟩ := Nat.exists_eq_add_of_le' (Nat.one_le_of_lt h)
    rw [overrun, ih (by omega)]
    omega

/-- A match that leaves the front is passed, unless the scan skips its beginning. -/
theorem overrun_of_match (h : m.len (lastOr p z) (x ++ y) = some n) (hn : x.length < n)
    (hx : x ≠ []) : overrun m p k (z ++ x) y = n - x.length ∨ z.length < k ∨
      ∃ u v i, z = u ++ v ∧ v ≠ [] ∧ m.len (lastOr p u) (v ++ (x ++ y)) = some i ∧
        v.length < i := by
  induction z generalizing p k with
  | nil =>
    cases k with
    | succ k => exact .inr (.inl k.succ_pos)
    | zero =>
      left
      obtain ⟨c, x, rfl⟩ := List.exists_cons_of_ne_nil hx
      have hhead : m.len p (c :: (x ++ y)) = some n := h
      rw [List.length_cons] at hn
      rw [List.nil_append, overrun, hhead, List.length_cons]
      dsimp only
      rw [overrun_skip (by omega)]
      omega
  | cons c z ih =>
    rw [lastOr_cons] at h
    have hrest := fun k => ih (k := k) h
    have behind : (∃ u v i, z = u ++ v ∧ v ≠ [] ∧
        m.len (lastOr (some c) u) (v ++ (x ++ y)) = some i ∧ v.length < i) →
          ∃ u v i, c :: z = u ++ v ∧ v ≠ [] ∧ m.len (lastOr p u) (v ++ (x ++ y)) = some i ∧
            v.length < i := by
      rintro ⟨u, v, i, rfl, hv, hm, hi⟩
      exact ⟨c :: u, v, i, rfl, hv, by simpa using hm, hi⟩
    rw [List.cons_append]
    cases k with
    | succ k =>
      rw [overrun, List.length_cons]
      exact (hrest k).imp_right fun h => h.imp Nat.succ_lt_succ behind
    | zero =>
      rw [overrun]
      cases hm : m.len p (c :: (z ++ x ++ y)) with
      | none =>
        rcases hrest 0 with hover | hskip | hmatch
        · exact .inl hover
        · exact absurd hskip (Nat.not_lt_zero _)
        · exact .inr (.inr (behind hmatch))
      | some i =>
        rcases hrest (i - 1) with hover | hskip | hmatch
        · exact .inl hover
        · refine .inr (.inr ⟨[], c :: z, i, rfl, by simp, ?_, ?_⟩)
          · rw [← hm, lastOr_nil, List.cons_append, List.append_assoc]
          · rw [List.length_cons]
            omega
        · exact .inr (.inr (behind hmatch))

theorem getLast?_append_of_ne_nil (hR : R ≠ []) : (u ++ R).getLast? = R.getLast? := by
  obtain ⟨d, hd⟩ := Option.ne_none_iff_exists'.mp (List.getLast?_eq_none_iff.not.mpr hR)
  simp [List.getLast?_append, hd]

/-- A match that runs out of `x` leaves the placeholder last. -/
theorem front_taken (hR : R ≠ []) (hskip : 0 < k → u.getLast? = R.getLast?)
    (h : 0 < overrun m p k x y) : (u ++ front m R p k x y).getLast? = R.getLast? := by
  induction x generalizing p k u with
  | nil => simpa [front] using hskip h
  | cons c x ih =>
    cases k with
    | succ k => exact ih (fun _ => hskip k.succ_pos) h
    | zero =>
      rw [front]
      rw [overrun] at h
      cases hm : m.len p (c :: (x ++ y)) with
      | none =>
        rw [hm] at h
        simpa using ih (u := u ++ [c]) (fun h => absurd h (Nat.lt_irrefl 0)) h
      | some n =>
        rw [hm] at h
        simpa using ih (u := u ++ R) (fun _ => getLast?_append_of_ne_nil hR) h

/-- What is written ends in what was read last or in the placeholder. -/
theorem front_last (hR : R ≠ []) (hlast : u.getLast? = q ∨ u.getLast? = R.getLast?)
    (hskip : 0 < k → u.getLast? = R.getLast?) :
    (u ++ front m R p k x y).getLast? = lastOr q x ∨
      (u ++ front m R p k x y).getLast? = R.getLast? := by
  induction x generalizing p q k u with
  | nil => simpa [front] using hlast
  | cons c x ih =>
    rw [lastOr_cons]
    cases k with
    | succ k => exact ih (.inr (hskip k.succ_pos)) fun _ => hskip k.succ_pos
    | zero =>
      rw [front]
      cases m.len p (c :: (x ++ y)) with
      | none =>
        have h := ih (p := some c) (k := 0) (u := u ++ [c]) (q := some c) (.inl (by simp))
          fun h => absurd h (Nat.lt_irrefl 0)
        simpa using h
      | some n =>
        have hRlast : (u ++ R).getLast? = R.getLast? := getLast?_append_of_ne_nil hR
        have h := ih (p := some c) (k := n - 1) (q := some c) (.inr hRlast) fun _ => hRlast
        simpa using h

theorem front_congr (h : ∀ u v, x = u ++ v → v ≠ [] →
      m.len (lastOr p u) (v ++ y) = m.len (lastOr p u) (v ++ z)) :
    front m R p k x y = front m R p k x z ∧ overrun m p k x y = overrun m p k x z := by
  induction x generalizing p k with
  | nil => exact ⟨rfl, rfl⟩
  | cons c x ih =>
    have hrest : ∀ u v, x = u ++ v → v ≠ [] →
        m.len (lastOr (some c) u) (v ++ y) = m.len (lastOr (some c) u) (v ++ z) :=
      fun u v hx hv => by simpa using h (c :: u) v (by simp [hx]) hv
    cases k with
    | succ k => exact ih hrest
    | zero =>
      have hhead : m.len p (c :: (x ++ y)) = m.len p (c :: (x ++ z)) := h [] (c :: x) rfl (by simp)
      simp only [front, overrun, hhead]
      cases m.len p (c :: (x ++ z)) with
      | none => exact ⟨congrArg (c :: ·) (ih hrest).1, (ih hrest).2⟩
      | some n => exact ⟨congrArg (R ++ ·) (ih hrest).1, (ih hrest).2⟩

theorem front_of_clean (h : Clean m p (x ++ y)) : front m R p 0 x y = x := by
  induction x generalizing p with
  | nil => rfl
  | cons c x ih =>
    have hrest : Clean m (some c) (x ++ y) := fun u v hxy => by
      simpa using h (c :: u) v (by simp [hxy])
    have hhead : m.len p (c :: (x ++ y)) = none := h [] (c :: (x ++ y)) rfl
    rw [front, hhead]
    exact congrArg (c :: ·) (ih hrest)

theorem entry_congr (hlen : e.length = e'.length) (h : ∀ j ≤ entry m p e y, j < e.length →
      m.len (lastOr q (e'.take j)) (e'.drop j ++ y) = m.len (lastOr p (e.take j)) (e.drop j ++ y)) :
    entry m q e' y = entry m p e y := by
  refine entry_eq (hlen ▸ entry_le) (fun j hj => ?_) fun hlt => ?_
  · rw [h j hj.le (Nat.lt_of_lt_of_le hj entry_le)]
    exact entry_none hj
  · rw [← hlen] at hlt
    obtain ⟨n, hn⟩ := entry_some hlt
    rw [h _ le_rfl hlt, hn]
    simp

theorem scanFrom_congr (h : ∀ y, m.len p y = m.len q y) :
    scanFrom m R p k y = scanFrom m R q k y := by
  cases k with
  | zero => exact scan_congr h
  | succ k => cases y <;> rfl

theorem scan_head (hR : R ≠ []) (h : m.len p s = some n) :
    (scan m R p s).head? = R.head? := by
  obtain ⟨d, R, rfl⟩ := List.exists_cons_of_ne_nil hR
  cases s with
  | nil => simp at h
  | cons c s => simp [scan, scanFrom, h]

/-- A match over all of `z` is passed. -/
theorem scan_over (h : m.len p (z ++ y) = some n) (hz : z ≠ []) (hn : z.length ≤ n) :
    scan m R p (z ++ y) = R ++ scanFrom m R (lastOr p z) (n - z.length) y := by
  obtain ⟨c, z, rfl⟩ := List.exists_cons_of_ne_nil hz
  rw [List.cons_append] at h ⊢
  simp only [scan, scanFrom, h]
  rw [scanFrom_drop, List.take_of_length_le (by simp at hn; omega),
    List.drop_of_length_le (by simp at hn; omega), List.nil_append, lastOr_cons, List.length_cons,
    Nat.sub_sub, Nat.add_comm]

/-- A list, split around what is left of a stretch. -/
structure Framed (α : Type*) where
  before : List α
  left : List α
  behind : List α
  deriving DecidableEq

namespace Framed

variable {f g : Framed α}

def whole (f : Framed α) : List α := f.before ++ (f.left ++ f.behind)

/-- What a match from the front takes of the stretch. -/
def taken (m : Matcher α) (f : Framed α) : Nat :=
  overrun m none 0 f.before (f.left ++ f.behind)

/-- How much is kept of the rest, up to where a match begins. -/
def kept (m : Matcher α) (f : Framed α) : Nat :=
  entry m (lastOr none (f.before ++ f.left.take (f.taken m))) (f.left.drop (f.taken m)) f.behind

def pass (m : Matcher α) (R : List α) (f : Framed α) : Framed α where
  before := front m R none 0 f.before (f.left ++ f.behind)
  left := (f.left.drop (f.taken m)).take (f.kept m)
  behind := scanFrom m R (lastOr none (f.before ++ f.left.take (f.taken m + f.kept m)))
    (f.taken m - f.left.length) (f.left.drop (f.taken m + f.kept m) ++ f.behind)

theorem whole_pass : (f.pass m R).whole = scan m R none f.whole := by
  have hstretch := scanFrom_stretch (m := m) (R := R) (p := lastOr none f.before) (e := f.left)
    (y := f.behind) (i := f.taken m) rfl
  rw [← lastOr_append, ← lastOr_append] at hstretch
  rw [whole, whole, scan, scanFrom_append, ← taken, hstretch]
  rfl

theorem kept_le : f.taken m + f.kept m ≤ f.left.length ∨ f.left.length < f.taken m := by
  have hle : f.kept m ≤ (f.left.drop (f.taken m)).length := entry_le
  rw [List.length_drop] at hle
  omega

/-- Behind what is kept a match begins. -/
theorem match_kept (hlt : f.taken m + f.kept m < f.left.length) : ∃ n,
    m.len (lastOr none (f.before ++ f.left.take (f.taken m + f.kept m)))
      (f.left.drop (f.taken m + f.kept m) ++ f.behind) = some n := by
  rw [List.take_add, ← List.append_assoc, lastOr_append, ← List.drop_drop]
  refine entry_some ?_
  rw [List.length_drop]
  exact Nat.lt_sub_of_add_lt (by rw [Nat.add_comm]; exact hlt)

theorem kept_pass_le {l : Matcher α} : (f.pass m R).kept l ≤ f.kept m := by
  have hle : (f.pass m R).kept l ≤ ((f.pass m R).left.drop ((f.pass m R).taken l)).length :=
    entry_le
  rw [List.length_drop, pass, List.length_take] at hle
  exact hle.trans ((Nat.sub_le ..).trans (Nat.min_le_left ..))

theorem taken_of_untouched (h : Untouched m f.before f.left f.behind) : f.taken m = 0 := by
  by_contra hne
  obtain ⟨u, v, hx, hv, hm⟩ := overrun_pos (Nat.pos_of_ne_zero hne)
  rw [← taken] at hm
  have hle := h.of_len (by rw [← List.append_assoc u, ← hx]) hm
  have hpos := List.length_pos_of_ne_nil hv
  rw [hx, List.length_append] at hle
  omega

theorem kept_of_untouched (h : Untouched m f.before f.left f.behind) :
    f.kept m = f.left.length := by
  by_contra hne
  have htaken := taken_of_untouched h
  have hkept := kept_le (m := m) (f := f)
  obtain ⟨n, hm⟩ := match_kept (m := m) (f := f) (by omega)
  have hpos := m.pos hm
  have hle := h.of_len (by
    rw [List.append_assoc, ← List.append_assoc (f.left.take _), List.take_append_drop]) hm
  rw [List.length_append, List.length_take] at hle
  omega

/-- A match that runs into the stretch from the front is taken, if no other one covers its
beginning. -/
theorem taken_pos_of_stands (hd : Disjoint m f.whole) {v : List α} (h : Stands m f.whole z v)
    (hlt : z.length < f.before.length) (hinto : f.before.length < z.length + v.length) :
    0 < f.taken m := by
  obtain ⟨a, ht, hm⟩ := h
  obtain ⟨x, hx, hrest⟩ : ∃ x, f.before = z ++ x ∧ v ++ a = x ++ (f.left ++ f.behind) := by
    rcases List.append_eq_append_iff.mp ht with ⟨x, rfl, -⟩ | hbehind
    · rw [List.length_append] at hlt
      omega
    · exact hbehind
  have hlen := congrArg List.length hx
  rw [List.length_append] at hlen
  rw [hrest] at hm
  have hne : x ≠ [] := List.ne_nil_of_length_pos (by omega)
  rcases overrun_of_match (p := none) (k := 0) hm (by omega) hne with hover | hskip | hmatch
  · rw [taken, hx, hover]
    omega
  · exact absurd hskip (Nat.not_lt_zero _)
  · obtain ⟨u, w, i, rfl, hw, hi, hlonger⟩ := hmatch
    have hwpos := List.length_pos_of_ne_nil hw
    have hle := hd.of_len (x := u) (by simp [whole, hx]) hi ⟨a, ht, by rwa [hrest]⟩ (by simp; omega)
    rw [List.length_append] at hle
    omega

/-- No match begins in what is kept. -/
theorem none_of_kept (htaken : f.taken m = 0) {e : List α} (he : e <+: f.left)
    (hlt : e.length < f.kept m) (ht : f.left ++ f.behind = e ++ y) :
    m.len (lastOr none (f.before ++ e)) y = none := by
  obtain ⟨e', hleft⟩ := he
  have hnone := entry_none (m := m) (p := lastOr none f.before) (e := f.left) (y := f.behind)
    (k := e.length) (by simpa [kept, htaken] using hlt)
  rw [← hleft, List.take_left, List.drop_left, ← lastOr_append] at hnone
  rw [← hleft, List.append_assoc] at ht
  rwa [List.append_cancel_left ht] at hnone

/-- No match shares an element with the stretch exactly when the scan takes nothing of it. -/
theorem untouched_iff (hd : Disjoint m f.whole) : Untouched m f.before f.left f.behind ↔
    f.taken m = 0 ∧ f.kept m = f.left.length := by
  constructor
  · intro h
    exact ⟨taken_of_untouched h, kept_of_untouched h⟩
  · rintro ⟨htaken, hkept⟩ z v hstands
    by_contra hover
    rw [not_or, Nat.not_le, Nat.not_le] at hover
    have hge : f.before.length ≤ z.length := by
      by_contra hlt
      have hpos := taken_pos_of_stands hd hstands (Nat.not_le.mp hlt) hover.1
      omega
    obtain ⟨a, ht, hm⟩ := hstands
    obtain ⟨e, rfl, hrest⟩ : ∃ e, z = f.before ++ e ∧ f.left ++ f.behind = e ++ (v ++ a) := by
      rcases List.append_eq_append_iff.mp ht with hbehind | ⟨x, hx, hrest⟩
      · exact hbehind
      · have hlen := congrArg List.length hx
        rw [List.length_append] at hlen
        obtain rfl : x = [] := List.length_eq_zero_iff.mp (by omega)
        exact ⟨[], by simp [hx], by simpa using hrest.symm⟩
    rw [List.length_append] at hover
    have hlt : e.length < f.left.length := by omega
    have he : e <+: f.left := by
      rcases List.append_eq_append_iff.mp hrest with ⟨e', rfl, -⟩ | ⟨e', hleft, -⟩
      · rw [List.length_append] at hlt
        omega
      · exact ⟨e', hleft.symm⟩
    rw [none_of_kept htaken he (hkept ▸ hlt) hrest] at hm
    simp at hm

theorem pass_left (htaken : f.taken m = 0) (hkept : f.kept m = f.left.length) :
    (f.pass m R).left = f.left := by
  rw [pass, htaken, hkept, List.drop_zero, List.take_length]

/-- Where nothing matches the pass changes nothing. -/
theorem pass_of_clean (h : Clean m none f.whole) : f.pass m R = f := by
  have hbefore : (f.pass m R).before = f.before := front_of_clean h
  have hleft : (f.pass m R).left = f.left :=
    pass_left (taken_of_untouched h.untouched) (kept_of_untouched h.untouched)
  have hwhole := whole_pass (m := m) (R := R) (f := f)
  rw [scan_of_clean h, whole, whole, hbefore, hleft, List.append_cancel_left_eq,
    List.append_cancel_left_eq] at hwhole
  obtain ⟨before, left, behind⟩ := f
  exact congr (congr (congrArg Framed.mk hbefore) hleft) hwhole
/-- Two stretches in the same surroundings that the scan sees alike. -/
structure Twins (m : Matcher α) (f g : Framed α) : Prop where
  before : g.before = f.before
  behind : g.behind = f.behind
  length : g.left.length = f.left.length
  front : ∀ u v, f.before = u ++ v → v ≠ [] →
    m.len (lastOr none u) (v ++ (f.left ++ f.behind)) =
      m.len (lastOr none u) (v ++ (g.left ++ f.behind))
  inside : ∀ j, f.taken m ≤ j → j ≤ f.taken m + f.kept m → j < f.left.length →
    m.len (lastOr none (f.before ++ g.left.take j)) (g.left.drop j ++ f.behind) =
      m.len (lastOr none (f.before ++ f.left.take j)) (f.left.drop j ++ f.behind)
  covers : ∀ j n, j < f.left.length →
    m.len (lastOr none (f.before ++ f.left.take j)) (f.left.drop j ++ f.behind) = some n →
      f.left.length ≤ j + n
  fresh : ∀ z, m.len (lastOr none (f.before ++ g.left)) z =
    m.len (lastOr none (f.before ++ f.left)) z

theorem Twins.taken (h : Twins m f g) : g.taken m = f.taken m := by
  rw [Framed.taken, Framed.taken, h.before, h.behind]
  exact (front_congr (R := []) h.front).2.symm

theorem Twins.kept (h : Twins m f g) : g.kept m = f.kept m := by
  rw [Framed.kept, Framed.kept, h.taken, h.before, h.behind]
  refine entry_congr (by simp [h.length]) fun j hj hlt => ?_
  rw [← lastOr_append, ← lastOr_append, List.append_assoc, List.append_assoc, ← List.take_add,
    ← List.take_add, List.drop_drop, List.drop_drop]
  rw [List.length_drop] at hlt
  exact h.inside _ (Nat.le_add_right ..) (Nat.add_le_add_left hj _) (by omega)

/-- The scan leaves the same surroundings and the same part of both stretches. -/
theorem Twins.pass (h : Twins m f g) : (g.pass m R).before = (f.pass m R).before ∧
    (g.pass m R).left = (g.left.drop (f.taken m)).take (f.kept m) ∧
      (g.pass m R).behind = (f.pass m R).behind := by
  refine ⟨?_, ?_, ?_⟩
  · simp only [Framed.pass]
    rw [h.before, h.behind]
    exact (front_congr h.front).1.symm
  · simp only [Framed.pass, h.taken, h.kept]
  · simp only [Framed.pass, h.taken, h.kept, h.before, h.behind, h.length]
    rcases Nat.lt_or_ge (f.taken m + f.kept m) f.left.length with hlt | hge
    · have hg : f.taken m + f.kept m < g.left.length := h.length ▸ hlt
      have hin := h.inside _ (Nat.le_add_right ..) le_rfl hlt
      obtain ⟨n, hn⟩ := match_kept hlt
      have hcov := h.covers _ n hlt hn
      rw [hn] at hin
      have hskip : f.taken m - f.left.length = 0 := by omega
      have hf := scan_over (R := R) hn (List.ne_nil_of_length_pos (by simp; omega)) (by simp; omega)
      have hg := scan_over (R := R) hin (List.ne_nil_of_length_pos (by simp [h.length]; omega))
        (by simp [h.length]; omega)
      rw [hskip, ← scan, ← scan, hf, hg, ← lastOr_append, ← lastOr_append, List.append_assoc,
        List.append_assoc, List.take_append_drop, List.take_append_drop, List.length_drop,
        List.length_drop, h.length]
      exact congrArg (R ++ ·) (scanFrom_congr h.fresh)
    · rw [List.drop_of_length_le hge, List.drop_of_length_le (h.length ▸ hge),
        List.take_of_length_le hge, List.take_of_length_le (h.length ▸ hge)]
      exact scanFrom_congr h.fresh

end Framed

end Scan
