import Mathlib.Data.List.DropRight
import Mathlib.Data.List.TakeWhile

/-! Runs of elements in a class, and lists at whose head such a run stops. -/
namespace Span

variable {α : Type*} {p q : α → Bool} {u v : List α} {c : α} {n : Nat}

/-- A list splits behind any number of its elements. -/
theorem exists_split (hn : n ≤ v.length) : ∃ w y, v = w ++ y ∧ n = w.length :=
  ⟨v.take n, v.drop n, (List.take_append_drop n v).symm, (List.length_take_of_le hn).symm⟩

/-- No element of the class stands at the head. -/
def Stops (p : α → Bool) (v : List α) : Prop := v.head?.any p = false

instance : Decidable (Stops p v) := inferInstanceAs (Decidable (_ = false))

theorem stops_nil : Stops p ([] : List α) := rfl

theorem stops_cons : Stops p (c :: v) ↔ p c = false := by simp [Stops]

theorem Stops.mono (h : Stops q v) (hpq : ∀ a, p a = true → q a = true) : Stops p v := by
  cases v with
  | nil => rfl
  | cons a v =>
    rw [stops_cons] at h ⊢
    by_contra hp
    simp [hpq a (by simpa using hp)] at h

theorem Stops.takeWhile (h : Stops p v) : v.takeWhile p = [] := by
  cases v with
  | nil => rfl
  | cons a v => simp [stops_cons.mp h]

theorem stops_dropWhile (p : α → Bool) (v : List α) : Stops p (v.dropWhile p) := by
  induction v with
  | nil => rfl
  | cons a v ih =>
    rw [List.dropWhile_cons]
    split
    · exact ih
    · rw [stops_cons]
      simpa using ‹¬ p a = true›

/-- No element of the class stands in front of the last run of the class. -/
theorem getLast?_rdropWhile (p : α → Bool) (v : List α) :
    (v.rdropWhile p).getLast?.any p = false := by
  rcases hv : (v.rdropWhile p).getLast? with _ | c
  · rfl
  · have hne : v.rdropWhile p ≠ [] := by
      rintro hnil
      simp [hnil] at hv
    have hlast := List.rdropWhile_last_not p v hne
    rw [List.getLast?_eq_some_getLast hne, Option.some.injEq] at hv
    simpa [hv] using hlast

theorem takeWhile_append (h : Stops p v) : (u ++ v).takeWhile p = u.takeWhile p := by
  rw [List.takeWhile_append]
  split
  · rename_i hall
    rw [h.takeWhile, List.append_nil]
    exact (List.takeWhile_prefix p).eq_of_length hall |>.symm
  · rfl

/-- The run stops in a list whose last element is not of the class. -/
theorem takeWhile_append_last (hu : u ≠ []) (h : u.getLast?.any p = false) :
    (u ++ v).takeWhile p = u.takeWhile p := by
  rw [List.takeWhile_append, if_neg]
  intro hall
  have hself := (List.takeWhile_prefix p).eq_of_length hall
  rw [List.getLast?_eq_some_getLast hu, Option.any_some] at h
  simp [List.takeWhile_eq_self_iff.mp hself _ (List.getLast_mem hu)] at h

/-- A list splits in one way behind the run at its head. -/
theorem run_unique {g g' : List α} (hg : ∀ c ∈ g, p c = true) (hg' : ∀ c ∈ g', p c = true)
    (hu : Stops p u) (hv : Stops p v) (h : g ++ u = g' ++ v) : g = g' ∧ u = v := by
  have hrun := congrArg (List.takeWhile p) h
  rw [takeWhile_append hu, takeWhile_append hv, List.takeWhile_eq_self_iff.mpr hg,
    List.takeWhile_eq_self_iff.mpr hg'] at hrun
  subst hrun
  exact ⟨rfl, List.append_cancel_left h⟩

theorem getElem?_append (h : Stops p v) (hn : n ≤ u.length) :
    (u ++ v)[n]? = u[n]? ∨ ((u ++ v)[n]?.any p = false ∧ u[n]? = none) := by
  rcases Nat.lt_or_eq_of_le hn with hlt | rfl
  · exact .inl (List.getElem?_append_left hlt)
  · right
    rw [List.getElem?_append_right le_rfl, Nat.sub_self, ← List.head?_eq_getElem?]
    exact ⟨h, by simp⟩

theorem any_getElem?_append (h : Stops p v) (hn : n ≤ u.length) :
    (u ++ v)[n]?.any p = u[n]?.any p := by
  rcases getElem?_append h hn with heq | ⟨hf, hnone⟩
  · rw [heq]
  · rw [hf, hnone, Option.any_none]

theorem getElem?_append_some (h : Stops p v) (hc : p c = true) (hn : n ≤ u.length) :
    (u ++ v)[n]? = some c ↔ u[n]? = some c := by
  rcases getElem?_append h hn with heq | ⟨hf, hnone⟩
  · rw [heq]
  · simp only [hnone, reduceCtorEq, iff_false]
    intro hs
    simp [hs, hc] at hf

end Span
