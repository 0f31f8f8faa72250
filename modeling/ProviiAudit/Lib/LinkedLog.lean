import Mathlib.Data.List.Basic
import Mathlib.Data.List.Infix
import Mathlib.Data.List.Nodup

/-! Logs whose entries name their predecessor, from a fixed origin. -/
namespace LinkedLog

variable {ι ε : Type*} {id prev : ε → ι} {origin : ι} {log done todo given : List ε}

/-- Every entry names the id before it; the first names the origin. -/
def Linked (id prev : ε → ι) : ι → List ε → Prop
  | _, [] => True
  | origin, e :: rest => prev e = origin ∧ Linked id prev (id e) rest

/-- The id the next entry has to name. -/
def tip (id : ε → ι) : ι → List ε → ι
  | origin, [] => origin
  | _, e :: rest => tip id (id e) rest

@[simp] theorem tip_append (id : ε → ι) (origin : ι) (xs ys : List ε) :
    tip id origin (xs ++ ys) = tip id (tip id origin xs) ys := by
  induction xs generalizing origin with
  | nil => rfl
  | cons e xs ih => exact ih _

theorem linked_append {xs ys : List ε} : Linked id prev origin (xs ++ ys) ↔
    Linked id prev origin xs ∧ Linked id prev (tip id origin xs) ys := by
  induction xs generalizing origin with
  | nil => simp [Linked, tip]
  | cons e xs ih => simp [Linked, tip, ih, and_assoc]

theorem linked_map {δ : Type*} {f : δ → ε} {xs : List δ} :
    Linked id prev origin (xs.map f) ↔ Linked (id ∘ f) (prev ∘ f) origin xs := by
  induction xs generalizing origin with
  | nil => rfl
  | cons e xs ih => simp [Linked, ih]

/-- The predecessors named are the origin and all ids but the last. -/
theorem Linked.map_prev (h : Linked id prev origin log) :
    log.map prev ++ [tip id origin log] = origin :: log.map id := by
  induction log generalizing origin with
  | nil => rfl
  | cons e rest ih =>
    obtain ⟨he, hrest⟩ := h
    simp [tip, he, ih hrest]

theorem Linked.tip_notMem (h : Linked id prev origin log)
    (hn : (origin :: log.map id).Nodup) : tip id origin log ∉ log.map prev := by
  rw [← h.map_prev, List.nodup_append] at hn
  intro hmem
  exact hn.2.2 _ hmem _ (by simp) rfl

/-- With distinct ids only one entry follows a given id. -/
theorem Linked.prev_inj (h : Linked id prev origin log) (hn : (origin :: log.map id).Nodup)
    {x y : ε} (hx : x ∈ log) (hy : y ∈ log) (hp : prev x = prev y) : x = y := by
  rw [← h.map_prev, List.nodup_append] at hn
  exact List.inj_on_of_nodup_map hn.1 hx hy hp

/-- A linked list made of entries of the log continues it wherever it starts. -/
theorem prefix_of_members (hl : Linked id prev origin (done ++ todo))
    (hn : (origin :: (done ++ todo).map id).Nodup)
    (hg : Linked id prev (tip id origin done) given)
    (hm : ∀ e ∈ given, e ∈ done ++ todo) : given <+: todo := by
  induction given generalizing done todo with
  | nil => exact List.nil_prefix
  | cons e given ih =>
    obtain ⟨he, hrest⟩ := hg
    cases todo with
    | nil =>
      simp only [List.append_nil] at hl hn hm
      exact (hl.tip_notMem hn (List.mem_map.mpr ⟨e, hm e (by simp), he⟩)).elim
    | cons t todo =>
      have ht : prev t = tip id origin done := (linked_append.mp hl).2.1
      have heq : e = t := hl.prev_inj hn (hm e (by simp)) (by simp) (he.trans ht.symm)
      subst heq
      rw [List.cons_prefix_cons]
      have hnext : Linked id prev (tip id origin (done ++ [e])) given := by
        simpa [tip] using hrest
      refine ⟨rfl, ih ?_ ?_ hnext ?_⟩
      · simpa using hl
      · simpa using hn
      · intro x hx
        simpa using hm x (by simp [hx])

end LinkedLog
