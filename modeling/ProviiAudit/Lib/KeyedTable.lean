import Mathlib.Data.List.Count
import Mathlib.Data.List.Nodup
import Mathlib.Data.List.Perm.Basic

/-! Tables whose rows have keys: insertion that leaves out a row whose key is taken, and bounded
deletion in which the table chooses the rows. -/
namespace KeyedTable

variable {α κ : Type*} {x y : α} {t u v : List α}

section Insertion

variable [DecidableEq κ] {key : α → κ} {xs ys : List α}

def insertNew (key : α → κ) (t : List α) (x : α) : List α :=
  if key x ∈ t.map key then t else t ++ [x]

def insertAll (key : α → κ) (t xs : List α) : List α := xs.foldl (insertNew key) t

@[simp] theorem insertAll_cons : insertAll key t (x :: xs) = insertAll key (insertNew key t x) xs :=
  rfl

theorem mem_insertNew : y ∈ insertNew key t x ↔ y ∈ t ∨ (y = x ∧ key x ∉ t.map key) := by
  rw [insertNew]
  split_ifs with h
  · simp [h]
  · simp [h]

/-- Afterwards the key is taken. -/
theorem mem_keys_insertNew {k : κ} :
    k ∈ (insertNew key t x).map key ↔ k ∈ t.map key ∨ k = key x := by
  rw [insertNew]
  split_ifs with h
  · constructor
    · exact .inl
    · rintro (hk | rfl)
      · exact hk
      · exact h
  · simp

theorem nodup_insertNew (h : (t.map key).Nodup) : ((insertNew key t x).map key).Nodup := by
  rw [insertNew]
  split_ifs with hx
  · exact h
  · rw [List.map_append, List.nodup_append]
    refine ⟨h, by simp, ?_⟩
    intro k hk l hl
    obtain rfl : l = key x := by simpa using hl
    rintro rfl
    exact hx hk

theorem nodup_insertAll (h : (t.map key).Nodup) : ((insertAll key t xs).map key).Nodup := by
  induction xs generalizing t with
  | nil => exact h
  | cons x xs ih => exact ih (nodup_insertNew h)

/-- A filter does not see the insertion of a row that it drops. -/
theorem filter_insertNew_of_neg {p : α → Bool} (hx : p x = false) :
    (insertNew key t x).filter p = t.filter p := by
  rw [insertNew]
  split_ifs
  · rfl
  · simp [hx]

/-- A row that a filter keeps may as well be inserted afterwards, if its key is not taken by rows
that are dropped. -/
theorem filter_insertNew {p : α → Bool} (hx : p x = true)
    (htaken : ∀ y ∈ t, key y = key x → p y = true) :
    (insertNew key t x).filter p = insertNew key (t.filter p) x := by
  have hiff : key x ∈ t.map key ↔ key x ∈ (t.filter p).map key := by
    constructor
    · intro hmem
      obtain ⟨y, hy, hkey⟩ := List.mem_map.mp hmem
      exact List.mem_map.mpr ⟨y, List.mem_filter.mpr ⟨hy, htaken y hy hkey⟩, hkey⟩
    · intro hmem
      obtain ⟨y, hy, hkey⟩ := List.mem_map.mp hmem
      exact List.mem_map.mpr ⟨y, (List.mem_filter.mp hy).1, hkey⟩
  rw [insertNew, insertNew]
  by_cases hmem : key x ∈ t.map key
  · rw [if_pos hmem, if_pos (hiff.mp hmem)]
  · rw [if_neg hmem, if_neg (mt hiff.mpr hmem), List.filter_append]
    simp [hx]

/-- Of the rows that come with one key the first is kept. -/
theorem mem_insertAll : y ∈ insertAll key t xs ↔
    y ∈ t ∨ (key y ∉ t.map key ∧ xs.find? (fun x => key x = key y) = some y) := by
  induction xs generalizing t with
  | nil => simp [insertAll]
  | cons x xs ih =>
    rw [insertAll_cons, ih, mem_insertNew, mem_keys_insertNew, List.find?_cons]
    by_cases hkey : key x = key y
    · simp only [hkey, or_true, not_true, false_and, or_false, decide_true, Option.some.injEq]
      constructor
      · rintro (h | ⟨rfl, h⟩)
        · exact .inl h
        · exact .inr ⟨h, rfl⟩
      · rintro (h | ⟨h, rfl⟩)
        · exact .inl h
        · exact .inr ⟨rfl, h⟩
    · have hne : y ≠ x := by
        rintro rfl
        exact hkey rfl
      simp [hkey, hne, Ne.symm hkey]

/-- When rows with one key are equal, neither order nor repetition matters. -/
theorem insertAll_perm (hone : ∀ x ∈ xs, ∀ y ∈ xs, key x = key y → x = y)
    (hsame : ∀ x, x ∈ xs ↔ x ∈ ys) : (insertAll key [] xs).Perm (insertAll key [] ys) := by
  have hmem : ∀ {zs : List α}, (∀ x, x ∈ xs ↔ x ∈ zs) → ∀ y,
      y ∈ insertAll key [] zs ↔ y ∈ zs := by
    intro zs hzs y
    simp only [mem_insertAll, List.not_mem_nil, List.map_nil, not_false_eq_true, true_and, false_or]
    constructor
    · exact List.mem_of_find?_eq_some
    · intro hy
      obtain ⟨x, hx⟩ := Option.isSome_iff_exists.mp
        (List.find?_isSome (p := fun x => decide (key x = key y)).mpr ⟨y, hy, by simp⟩)
      have hkey : key x = key y := by simpa using List.find?_some hx
      rwa [hone x ((hzs x).mpr (List.mem_of_find?_eq_some hx)) y ((hzs y).mpr hy) hkey] at hx
  have hnodup : ∀ zs, (insertAll key [] zs).Nodup :=
    fun zs => List.Nodup.of_map key (nodup_insertAll (by simp))
  apply (List.perm_ext_iff_of_nodup (hnodup xs) (hnodup ys)).mpr
  intro y
  rw [hmem (fun _ => Iff.rfl), hmem hsame, hsame]

end Insertion

section Deletion

variable {p : α → Prop} {m n size : Nat} {limit : Int} {counts : List Nat}

/-- The second table is the first less so many of the rows that satisfy `p`. -/
inductive Removed (p : α → Prop) : Nat → List α → List α → Prop
  | nil : Removed p 0 [] []
  | keep (x : α) {n : Nat} {t u : List α} : Removed p n t u → Removed p n (x :: t) (x :: u)
  | drop {x : α} {n : Nat} {t u : List α} : p x → Removed p n t u → Removed p (n + 1) (x :: t) u

namespace Removed

theorem refl (t : List α) : Removed p 0 t t := by
  induction t with
  | nil => exact .nil
  | cons x t ih => exact .keep x ih

theorem trans (h : Removed p m t u) (h' : Removed p n u v) : Removed p (m + n) t v := by
  induction h generalizing n v with
  | nil => simpa using h'
  | keep x _ ih =>
    cases h' with
    | keep _ h' => exact .keep x (ih h')
    | drop hx h' => exact .drop hx (ih h')
  | drop hx _ ih =>
    rw [Nat.add_right_comm]
    exact .drop hx (ih h')

theorem sublist (h : Removed p n t u) : u.Sublist t := by
  induction h with
  | nil => exact .slnil
  | keep x _ ih => exact ih.cons_cons x
  | drop _ _ ih => exact ih.cons _

/-- The rows that a wider condition leaves stay, in their order. -/
theorem filter_of_imp {q : α → Prop} [DecidablePred q] (h : Removed p n t u)
    (hpq : ∀ x, p x → q x) : u.filter (¬ q ·) = t.filter (¬ q ·) := by
  induction h with
  | nil => rfl
  | keep x _ ih => simp only [List.filter_cons, ih]
  | @drop x _ _ _ hx _ ih =>
    have hq : q x := hpq x hx
    rw [List.filter_cons_of_neg (by simpa using hq), ih]

variable [DecidablePred p]

theorem filter_not (h : Removed p n t u) : u.filter (¬ p ·) = t.filter (¬ p ·) :=
  h.filter_of_imp fun _ hx => hx

theorem countP_add (h : Removed p n t u) : u.countP (p ·) + n = t.countP (p ·) := by
  induction h with
  | nil => rfl
  | keep x _ ih =>
    rw [List.countP_cons, List.countP_cons]
    omega
  | @drop x n t u hx h ih =>
    rw [List.countP_cons_of_pos (by simpa using hx)]
    omega

theorem mem_or (h : Removed p n t u) (hx : x ∈ t) : x ∈ u ∨ p x := by
  by_cases hp : p x
  · exact .inr hp
  · have hmem : x ∈ u.filter (¬ p ·) := by
      rw [h.filter_not]
      simpa [hp] using hx
    exact .inl (List.mem_filter.mp hmem).1

/-- Once none is left to remove, which ones went first does not show. -/
theorem eq_filter (h : Removed p n t u) (hnone : u.countP (p ·) = 0) : u = t.filter (¬ p ·) := by
  rw [← h.filter_not, eq_comm, List.filter_eq_self]
  intro x hx
  simpa using List.countP_eq_zero.mp hnone x hx

/-- Any number of such rows can be removed. -/
theorem exists_of_le (h : n ≤ t.countP (p ·)) : ∃ u, Removed p n t u := by
  induction t generalizing n with
  | nil =>
    obtain rfl : n = 0 := by simpa using h
    exact ⟨[], .nil⟩
  | cons x t ih =>
    cases n with
    | zero => exact ⟨x :: t, refl _⟩
    | succ n =>
      by_cases hx : p x
      · rw [List.countP_cons_of_pos (by simpa using hx)] at h
        obtain ⟨u, hu⟩ := ih (Nat.le_of_succ_le_succ h)
        exact ⟨u, .drop hx hu⟩
      · rw [List.countP_cons_of_neg (by simpa using hx)] at h
        obtain ⟨u, hu⟩ := ih h
        exact ⟨x :: u, .keep x hu⟩

end Removed

variable [DecidablePred p]

/-- How many of `n` rows a limit lets go. A negative limit is none. -/
def taken (limit : Int) (n : Nat) : Nat := if limit < 0 then n else min limit.toNat n

theorem taken_natCast : taken size n = min size n := by
  rw [taken, if_neg (by omega), Int.toNat_natCast]

/-- Deletion of the rows that satisfy `p`, up to a limit. -/
def Deletes (p : α → Prop) [DecidablePred p] (limit : Int) (n : Nat) (t u : List α) : Prop :=
  Removed p n t u ∧ n = taken limit (t.countP (p ·))

/-- A run of such deletions with the number of rows that each removes. -/
inductive Sweep (p : α → Prop) [DecidablePred p] (limit : Int) : List Nat → List α → List α → Prop
  | nil {t : List α} : Sweep p limit [] t t
  | cons {n : Nat} {counts : List Nat} {t u v : List α} :
      Deletes p limit n t u → Sweep p limit counts u v → Sweep p limit (n :: counts) t v

theorem Sweep.removed (h : Sweep p limit counts t u) : ∃ n, Removed p n t u := by
  induction h with
  | nil => exact ⟨0, .refl _⟩
  | cons hd _ ih =>
    obtain ⟨m, hm⟩ := ih
    exact ⟨_, hd.1.trans hm⟩

theorem Sweep.countP_eq (h : Sweep p size counts t u) :
    u.countP (p ·) = t.countP (p ·) - counts.length * size := by
  induction h with
  | nil => simp
  | @cons n counts t u v hd _ ih =>
    have hn := hd.2.trans taken_natCast
    have hu := hd.1.countP_add
    rw [ih, List.length_cons, Nat.succ_mul]
    omega

/-- What each deletion of a run removes depends on its position alone. -/
theorem Sweep.counts_eq (h : Sweep p size counts t u) :
    counts = (List.range counts.length).map fun i => min size (t.countP (p ·) - i * size) := by
  induction h with
  | nil => rfl
  | @cons n counts t u v hd _ ih =>
    have hn := hd.2.trans taken_natCast
    have hu := hd.1.countP_add
    rw [List.length_cons, List.range_succ_eq_map, List.map_cons, List.map_map]
    congr 1
    · simpa using hn
    · refine ih.trans (List.map_congr_left fun i _ => ?_)
      simp only [Function.comp_apply, Nat.succ_mul]
      omega

/-- A run that has come to a deletion that removes less than it may is long enough. -/
theorem Sweep.done_iff (h : Sweep p size counts t u) (hsize : 0 < size) :
    (∃ n ∈ counts, n < size) ↔ t.countP (p ·) / size < counts.length := by
  have hmem : ∀ n, n ∈ counts ↔ ∃ i < counts.length, min size (t.countP (p ·) - i * size) = n := by
    intro n
    conv_lhs => rw [h.counts_eq]
    simp
  rw [Nat.div_lt_iff_lt_mul hsize]
  constructor
  · rintro ⟨n, hn, hlt⟩
    obtain ⟨i, hi, rfl⟩ := (hmem n).mp hn
    have hmul : (i + 1) * size ≤ counts.length * size := Nat.mul_le_mul_right _ hi
    rw [Nat.succ_mul] at hmul
    omega
  · intro hlt
    cases hlen : counts.length with
    | zero => simp [hlen] at hlt
    | succ k =>
      rw [hlen, Nat.succ_mul] at hlt
      exact ⟨_, (hmem _).mpr ⟨k, by omega, rfl⟩, by omega⟩

/-- Then none is left. -/
theorem Sweep.none_left (h : Sweep p size counts t u) (hdone : ∃ n ∈ counts, n < size) :
    u.countP (p ·) = 0 := by
  have hsize : 0 < size := by
    obtain ⟨n, -, hlt⟩ := hdone
    omega
  have hlt := (h.done_iff hsize).mp hdone
  rw [Nat.div_lt_iff_lt_mul hsize] at hlt
  rw [h.countP_eq]
  omega

/-- Deletions can always go on. -/
theorem exists_sweep (p : α → Prop) [DecidablePred p] (limit : Int) (k : Nat) (t : List α) :
    ∃ counts u, counts.length = k ∧ Sweep p limit counts t u := by
  induction k generalizing t with
  | zero => exact ⟨[], t, rfl, .nil⟩
  | succ k ih =>
    have hle : taken limit (t.countP (p ·)) ≤ t.countP (p ·) := by
      rw [taken]
      split_ifs
      · exact Nat.le_refl _
      · exact Nat.min_le_right _ _
    obtain ⟨u, hu⟩ := Removed.exists_of_le hle
    obtain ⟨counts, v, rfl, hv⟩ := ih u
    exact ⟨_ :: counts, v, rfl, .cons ⟨hu, rfl⟩ hv⟩

end Deletion

end KeyedTable
