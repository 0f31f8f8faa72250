import Mathlib.Data.List.SplitBy
import ProviiAudit.Lib.Scan
import ProviiAudit.Lib.Span

/-! A scan that works token by token: on the maximal runs of a class of elements, and on nothing
else. -/
namespace Scan

open Span (Stops)

variable {α : Type*} {m : Matcher α} {R g s y : List α} {q : Option α} {p : α → Bool} {c : α}
  {gs : List (List α)}

/-- The maximal runs of elements in the class and of elements outside it. -/
def tokens (p : α → Bool) (s : List α) : List (List α) := s.splitBy fun a b => p a == p b

/-- What matches begins at the start of a run and is all of it. -/
structure Tokenwise (m : Matcher α) (p : α → Bool) : Prop where
  separates : ∀ {c}, p c = false → Separates m c
  behind : ∀ {c} y, p c = true → m.len (some c) y = none
  whole : ∀ {g n}, (∀ c ∈ g, p c = true) → m.len none g = some n → n = g.length

/-- A group of a split by class is of one class. -/
theorem class_eq (hg : (c :: g).IsChain fun a b => (p a == p b) = true) :
    ∀ a ∈ c :: g, p a = p c := by
  induction g generalizing c with
  | nil => simp
  | cons d g ih =>
    obtain ⟨hcd, hrest⟩ := List.isChain_cons_cons.mp hg
    intro a ha
    rcases List.mem_cons.mp ha with rfl | ha
    · rfl
    · rw [ih hrest a ha, beq_iff_eq.mp hcd]

theorem scan_outside (h : Tokenwise m p) (hg : ∀ c ∈ g, p c = false) (hne : g ≠ []) :
    scan m R q (g ++ y) = g ++ scan m R none y := by
  induction g generalizing q with
  | nil => simp at hne
  | cons c g ih =>
    obtain ⟨hc, hg⟩ := List.forall_mem_cons.mp hg
    have hsep := scan_sep (R := R) (p := q) (x := []) (y := g ++ y) (h.separates hc)
    rw [List.nil_append, scan_nil, List.nil_append] at hsep
    rw [List.cons_append, hsep]
    cases g with
    | nil => rfl
    | cons d g =>
      rw [ih hg (by simp)]
      rfl

/-- What stands before a run's end does not matter behind it. -/
theorem scan_fresh (h : Tokenwise m p) (hy : Stops p y) : scan m R q y = scan m R none y := by
  cases y with
  | nil => rfl
  | cons c y =>
    have hc : p c = false := Span.stops_cons.mp hy
    have hsplit := fun q =>
      scan_outside (q := q) (y := y) (R := R) h (g := [c]) (by simpa) (by simp)
    rw [← List.singleton_append, hsplit, hsplit]

/-- A match does not look behind the run. -/
theorem len_run (h : Tokenwise m p) (hy : Stops p y) : m.len none (g ++ y) = m.len none g := by
  cases y with
  | nil => rw [List.append_nil]
  | cons c y => exact (h.separates (Span.stops_cons.mp hy)).stop none g y

theorem scan_run (h : Tokenwise m p) (hg : ∀ c ∈ g, p c = true) (hy : Stops p y) :
    scan m R none (g ++ y) =
      (if m.len none g = some g.length then R else g) ++ scan m R none y := by
  split_ifs with hm
  · rw [scan_redact ((len_run h hy).trans hm), scan_fresh h hy]
  · have hkeep := scan_keep_run (m := m) (R := R) (p := none) (w := g) (y := y) fun u c v huv => by
      rcases List.eq_nil_or_concat u with rfl | ⟨u, d, rfl⟩
      · by_contra hsome
        obtain ⟨n, hn⟩ := Option.ne_none_iff_exists'.mp hsome
        rw [lastOr_nil, ← List.cons_append, ← List.nil_append (c :: v), ← huv, len_run h hy] at hn
        exact hm (h.whole hg hn ▸ hn)
      · rw [List.concat_eq_append] at huv ⊢
        rw [lastOr_append, lastOr_cons]
        exact h.behind _ (hg d (by simp [huv]))
    rw [hkeep, scan_fresh h hy]

/-- The scan replaces the runs that match and copies everything else. -/
theorem scan_eq_tokens (h : Tokenwise m p) : scan m R none s =
    (tokens p s).flatMap fun g => if m.len none g = some g.length then R else g := by
  obtain ⟨hs, hnil, hclass, hborder⟩ :=
    (List.splitBy_eq_iff (r := fun a b => p a == p b) (m := s)).mp rfl
  rw [tokens]
  generalize s.splitBy (fun a b => p a == p b) = gs at hs hnil hclass hborder
  subst hs
  induction gs with
  | nil => rfl
  | cons g gs ih =>
    rw [List.mem_cons, not_or] at hnil
    obtain ⟨hg, hgs⟩ := List.forall_mem_cons.mp hclass
    have hrest := ih hnil.2 hgs hborder.tail
    obtain ⟨c, g, rfl⟩ := List.exists_cons_of_ne_nil (Ne.symm hnil.1)
    rw [List.flatten_cons, List.flatMap_cons, ← hrest]
    cases hc : p c with
    | false =>
      have hall : ∀ d ∈ c :: g, p d = false :=
        fun d hd => (class_eq hg d hd).trans hc
      have hnone : m.len none (c :: g) = none := by
        simpa using (h.separates hc).stop none [] g
      rw [scan_outside h hall (by simp), hnone, if_neg (by simp)]
    | true =>
      have hall : ∀ d ∈ c :: g, p d = true :=
        fun d hd => (class_eq hg d hd).trans hc
      refine scan_run h hall ?_
      cases gs with
      | nil => rfl
      | cons k gs =>
        obtain ⟨hlast, hk, hdiffer⟩ := (List.isChain_cons_cons.mp hborder).1
        obtain ⟨d, k, rfl⟩ := List.exists_cons_of_ne_nil hk
        rw [hall _ (List.getLast_mem _)] at hdiffer
        exact Span.stops_cons.mpr (by simpa using hdiffer)

end Scan
