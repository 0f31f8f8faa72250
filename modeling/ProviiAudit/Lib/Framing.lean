import Mathlib.Data.List.Basic

/-! Two ways to put several fields in one message so that they can be told apart again. -/
namespace Framing

variable {α : Type*} {sep : α}

/-- The first separator splits a list in one way only. -/
theorem split_inj {a a' r r' : List α} (ha : sep ∉ a) (ha' : sep ∉ a')
    (h : a ++ sep :: r = a' ++ sep :: r') : a = a' ∧ r = r' := by
  induction a generalizing a' with
  | nil =>
    cases a' with
    | nil => exact ⟨rfl, List.tail_eq_of_cons_eq h⟩
    | cons y a' => exact (ha' (by simp [List.head_eq_of_cons_eq h])).elim
  | cons x a ih =>
    cases a' with
    | nil => exact (ha (by simp [← List.head_eq_of_cons_eq h])).elim
    | cons y a' =>
      obtain ⟨rfl, htail⟩ := List.cons_eq_cons.mp h
      obtain ⟨rfl, hr⟩ := ih (fun hm => ha (by simp [hm])) (fun hm => ha' (by simp [hm])) htail
      exact ⟨rfl, hr⟩

/-- Three fields joined by a separator that the second reading keeps out of its
own fields: the separators then line up, and so do the fields. -/
theorem join_three_inj {a b c a' b' c' : List α} [DecidableEq α]
    (ha : sep ∉ a) (hb : sep ∉ b) (hc : sep ∉ c)
    (h : a' ++ [sep] ++ b' ++ [sep] ++ c' = a ++ [sep] ++ b ++ [sep] ++ c) :
    a' = a ∧ b' = b ∧ c' = c := by
  -- Both sides hold two separators, so the arbitrary fields hold none.
  have hcount := congrArg (List.count sep) h
  simp only [List.count_append, List.count_singleton_self, List.count_eq_zero.mpr ha,
    List.count_eq_zero.mpr hb, List.count_eq_zero.mpr hc] at hcount
  have ha' : sep ∉ a' := List.count_eq_zero.mp (by omega)
  have hb' : sep ∉ b' := List.count_eq_zero.mp (by omega)
  simp only [List.append_assoc, List.singleton_append] at h
  obtain ⟨haa, htail⟩ := split_inj ha' ha h
  obtain ⟨hbb, hcc⟩ := split_inj hb' hb htail
  exact ⟨haa, hbb, hcc⟩

/-- A separator inside a field is where the fields can be cut in another place. -/
theorem join_three_unique_iff [DecidableEq α] {a b c : List α} :
    (∀ a' b' c', a' ++ [sep] ++ b' ++ [sep] ++ c' = a ++ [sep] ++ b ++ [sep] ++ c →
      a' = a ∧ b' = b ∧ c' = c) ↔ sep ∉ a ∧ sep ∉ b ∧ sep ∉ c := by
  constructor
  · intro h
    refine ⟨fun ha => ?_, fun hb => ?_, fun hc => ?_⟩
    · obtain ⟨u, v, rfl⟩ := List.append_of_mem ha
      have heq := (h u v (b ++ [sep] ++ c) (by simp)).1
      simp at heq
    · obtain ⟨u, v, rfl⟩ := List.append_of_mem hb
      have heq := (h a u (v ++ [sep] ++ c) (by simp)).2.1
      simp at heq
    · obtain ⟨u, v, rfl⟩ := List.append_of_mem hc
      have heq := (h (a ++ [sep] ++ b) u v (by simp)).1
      simp at heq
  · rintro ⟨ha, hb, hc⟩ a' b' c' h
    exact join_three_inj ha hb hc h

/-- A field behind a header that states its length and a separator. -/
def frame (header : ℕ → List α) (sep : α) (x : List α) : List α :=
  header x.length ++ sep :: x

def frames (header : ℕ → List α) (sep : α) (xs : List (List α)) : List α :=
  xs.flatMap (frame header sep)

variable {header : ℕ → List α}

theorem frame_append_inj (hinj : Function.Injective header) (hsep : ∀ n, sep ∉ header n)
    {x y r r' : List α} (h : frame header sep x ++ r = frame header sep y ++ r') :
    x = y ∧ r = r' := by
  simp only [frame, List.append_assoc, List.cons_append] at h
  obtain ⟨hhead, htail⟩ := split_inj (hsep _) (hsep _) h
  exact List.append_inj htail (hinj hhead)

theorem frame_ne_nil (x : List α) : frame header sep x ≠ [] := by simp [frame]

/-- Length-prefixed fields are uniquely decodable, whatever the fields hold. -/
theorem frames_injective (hinj : Function.Injective header) (hsep : ∀ n, sep ∉ header n) :
    Function.Injective (frames header sep) := by
  intro xs
  induction xs with
  | nil =>
    intro ys h
    cases ys with
    | nil => rfl
    | cons y ys =>
      have hne : frame header sep y ≠ [] := frame_ne_nil y
      simp [frames, hne] at h
  | cons x xs ih =>
    intro ys h
    cases ys with
    | nil =>
      have hne : frame header sep x ≠ [] := frame_ne_nil x
      simp [frames, hne] at h
    | cons y ys =>
      obtain ⟨hxy, hrest⟩ := frame_append_inj hinj hsep h
      rw [hxy, ih hrest]

end Framing
