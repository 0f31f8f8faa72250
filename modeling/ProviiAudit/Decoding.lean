import ProviiAudit.Wire

/-! Which objects are read as an event. -/
namespace ProviiAudit

open Utf8 (Text)
open Json (Record Scalar)

variable {α : Type} {r r' : Record} {name s : Text} {n : UInt64} {v : Scalar} {x : α}
  {o : Option α} {e : AuditEvent}

theorem asString_eq_some_iff : asString v = some s ↔ v = .string s := by
  cases v <;> simp [asString]

theorem asU64_eq_some_iff : asU64 v = some n ↔ v = .number n := by
  cases v <;> simp [asU64]

theorem UnitEnum.fromName_eq_some_iff (E : UnitEnum α) : E.fromName s = some x ↔ s = E.name x := by
  constructor
  · intro h
    have hname := List.find?_some h
    exact (by simpa using hname : E.name x = s).symm
  · rintro rfl
    exact E.fromName_name x

theorem UnitEnum.deserialize_eq_some_iff (E : UnitEnum α) :
    E.deserialize v = some x ↔ v = E.serialize x := by
  cases v with
  | string s => simp [deserialize, serialize, E.fromName_eq_some_iff]
  | number n => simp [deserialize, serialize]
  | other => simp [deserialize, serialize]

theorem UnitEnum.deserializeOption_eq_some_iff (E : UnitEnum α) :
    E.deserializeOption v = some o ↔ v = E.serializeOption o := by
  constructor
  · intro h
    cases v with
    | string s =>
      rw [deserializeOption] at h
      split_ifs at h with hempty
      · obtain rfl : s = [] := by simpa using hempty
        obtain rfl : none = o := by simpa using h
        rfl
      · obtain ⟨x, hx, rfl⟩ := Option.map_eq_some_iff.mp h
        rw [E.fromName_eq_some_iff.mp hx]
        rfl
    | number n => simp [deserializeOption] at h
    | other => simp [deserializeOption] at h
  · rintro rfl
    exact E.deserializeOption_serializeOption o

/-- A decoder behind a field. -/
theorem field_bind_eq_some_iff {dec : Scalar → Option α} {enc : α → Scalar}
    (h : ∀ {v x}, dec v = some x ↔ v = enc x) :
    (field r name).bind dec = some x ↔ field r name = some (enc x) := by
  rw [Option.bind_eq_some_iff]
  constructor
  · rintro ⟨v, hv, hdec⟩
    rw [hv, h.mp hdec]
  · intro hfield
    exact ⟨_, hfield, h.mpr rfl⟩

theorem field_perm (h : r.Perm r') : field r name = field r' name := by
  have hfilter := h.filter (·.1 == name)
  rw [field, field]
  generalize r.filter (·.1 == name) = l at hfilter
  generalize r'.filter (·.1 == name) = l' at hfilter
  rcases l with _ | ⟨m, _ | ⟨m', l⟩⟩
  · rw [hfilter.nil_eq]
  · rw [← List.perm_singleton.mp hfilter.symm]
  · rcases l' with _ | ⟨k, _ | ⟨k', l'⟩⟩
    · simp at hfilter
    · simp at hfilter
    · rfl

theorem string_field_iff : (field r name).bind asString = some s ↔
    field r name = some (.string s) := field_bind_eq_some_iff asString_eq_some_iff

theorem number_field_iff : (field r name).bind asU64 = some n ↔
    field r name = some (.number n) := field_bind_eq_some_iff asU64_eq_some_iff

theorem enum_field_iff (E : UnitEnum α) : (field r name).bind E.deserialize = some x ↔
    field r name = some (E.serialize x) := field_bind_eq_some_iff E.deserialize_eq_some_iff

theorem option_field_iff (E : UnitEnum α) : (field r name).bind E.deserializeOption = some o ↔
    field r name = some (E.serializeOption o) :=
  field_bind_eq_some_iff E.deserializeOption_eq_some_iff

theorem bind_then {β : Type} {x : Option α} {f : α → Option β} {y : β}
    (h : (x >>= f) = some y) : ∃ a, x = some a ∧ f a = some y := Option.bind_eq_some_iff.mp h

/-- What was read is in the fields. -/
theorem fields_of_ofRecord (h : AuditEvent.ofRecord r = some e) :
    ∀ m ∈ e.toRecord, field r m.1 = some m.2 := by
  rw [AuditEvent.ofRecord] at h
  obtain ⟨_, h₀, h⟩ := bind_then h
  obtain ⟨_, h₁, h⟩ := bind_then h
  obtain ⟨_, h₂, h⟩ := bind_then h
  obtain ⟨_, h₃, h⟩ := bind_then h
  obtain ⟨_, h₄, h⟩ := bind_then h
  obtain ⟨_, h₅, h⟩ := bind_then h
  obtain ⟨_, h₆, h⟩ := bind_then h
  obtain ⟨_, h₇, h⟩ := bind_then h
  obtain ⟨_, h₈, h⟩ := bind_then h
  obtain ⟨_, h₉, h⟩ := bind_then h
  obtain ⟨_, h₁₀, h⟩ := bind_then h
  obtain ⟨_, h₁₁, h⟩ := bind_then h
  obtain ⟨_, h₁₂, h⟩ := bind_then h
  obtain ⟨_, h₁₃, h⟩ := bind_then h
  obtain ⟨_, h₁₄, h⟩ := bind_then h
  obtain ⟨_, h₁₅, h⟩ := bind_then h
  obtain ⟨_, h₁₆, h⟩ := bind_then h
  obtain ⟨_, h₁₇, h⟩ := bind_then h
  obtain ⟨_, h₁₈, h⟩ := bind_then h
  obtain ⟨_, h₁₉, h⟩ := bind_then h
  obtain ⟨_, h₂₀, h⟩ := bind_then h
  obtain ⟨_, h₂₁, h⟩ := bind_then h
  obtain ⟨_, h₂₂, h⟩ := bind_then h
  obtain rfl := Option.some.inj h
  simp only [AuditEvent.toRecord, List.forall_mem_cons, List.not_mem_nil, false_implies,
    implies_true, and_true]
  simp only [string_field_iff, number_field_iff, enum_field_iff, option_field_iff] at *
  simp only [*, and_self]

theorem ofRecord_of_fields (h : ∀ m ∈ e.toRecord, field r m.1 = some m.2) :
    AuditEvent.ofRecord r = some e := by
  simp only [AuditEvent.toRecord, List.forall_mem_cons, List.not_mem_nil, false_implies,
    implies_true, and_true] at h
  simp only [AuditEvent.ofRecord, h, Option.bind_some, asString, asU64,
    UnitEnum.deserialize_serialize, UnitEnum.deserializeOption_serializeOption]
  rfl

theorem ofRecord_eq_some_iff :
    AuditEvent.ofRecord r = some e ↔ ∀ m ∈ e.toRecord, field r m.1 = some m.2 :=
  ⟨fields_of_ofRecord, ofRecord_of_fields⟩

/-- The value of a member. -/
inductive Member
  | scalar (v : Scalar)
  | variant (name : Text)

/-- The fields whose own decoder is the one of a unit enum. -/
def enumFields : List Text := ["severity".toList, "environment".toList]

/-- What the decoder of a field sees. -/
def Member.seenBy (name : Text) : Member → Scalar
  | .scalar v => v
  | .variant s => if name ∈ enumFields then .string s else .other

def AuditEvent.ofObject (o : List (Text × Member)) : Option AuditEvent :=
  ofRecord (o.map fun m => (m.1, m.2.seenBy m.1))

/-- The members that a field with this value is read from. -/
def forms (name : Text) : Scalar → List Member
  | .string s =>
    if name ∈ enumFields then [.scalar (.string s), .variant s] else [.scalar (.string s)]
  | v => [.scalar v]

variable {o : List (Text × Member)} {w : Member}

theorem mem_forms_iff (hv : v ≠ .other) : w ∈ forms name v ↔ w.seenBy name = v := by
  cases w with
  | scalar u =>
    cases v with
    | string s => by_cases h : name ∈ enumFields <;> simp [forms, Member.seenBy, h]
    | number n => simp [forms, Member.seenBy]
    | other => exact absurd rfl hv
  | variant s =>
    cases v with
    | string t => by_cases h : name ∈ enumFields <;> simp [forms, Member.seenBy, h, eq_comm]
    | number n => by_cases h : name ∈ enumFields <;> simp [forms, Member.seenBy, h]
    | other => exact absurd rfl hv

theorem field_seen : field (o.map fun m => (m.1, m.2.seenBy m.1)) name = some v ↔
    ∃ w, o.filter (·.1 == name) = [(name, w)] ∧ w.seenBy name = v := by
  have hfilter : (o.map fun m => (m.1, m.2.seenBy m.1)).filter (·.1 == name) =
      (o.filter (·.1 == name)).map fun m => (m.1, m.2.seenBy m.1) := List.filter_map
  have hname : ∀ m ∈ o.filter (·.1 == name), m.1 = name := by
    intro m hm
    simpa using (List.mem_filter.mp hm).2
  rw [field, hfilter]
  generalize o.filter (·.1 == name) = l at hname
  rcases l with _ | ⟨m, _ | ⟨m', l⟩⟩
  · simp
  · obtain rfl := hname m (List.mem_singleton_self m)
    constructor
    · intro h
      exact ⟨m.2, rfl, Option.some.inj h⟩
    · rintro ⟨w, hw, hv⟩
      obtain rfl : m.2 = w := congrArg Prod.snd (List.singleton_inj.mp hw)
      exact congrArg some hv
  · simp

/-- An object is read as an event exactly when it has each field of the event once, under its name
and in a form of its value; neither the order of its members nor any other member matters. -/
theorem ofObject_iff (o : List (Text × Member)) :
    (∀ e, AuditEvent.ofObject o = some e ↔ ∀ m ∈ e.toRecord, ∃ w ∈ forms m.1 m.2,
      o.filter (·.1 == m.1) = [(m.1, w)]) ∧
    (∀ o', o.Perm o' → AuditEvent.ofObject o' = AuditEvent.ofObject o) ∧
    ∀ name w, name ∉ AuditEvent.fieldNames →
      AuditEvent.ofObject ((name, w) :: o) = AuditEvent.ofObject o := by
  refine ⟨fun e => ?_, fun o' hperm => ?_, fun name w hname => ?_⟩
  · rw [AuditEvent.ofObject, ofRecord_eq_some_iff]
    refine forall₂_congr fun m hm => ?_
    rw [field_seen]
    refine exists_congr fun w => ?_
    rw [mem_forms_iff (e.toRecord_scalars m hm), and_comm]
  · apply Option.ext
    intro e
    have hseen := hperm.map fun m : Text × Member => (m.1, m.2.seenBy m.1)
    rw [AuditEvent.ofObject, AuditEvent.ofObject, ofRecord_eq_some_iff, ofRecord_eq_some_iff]
    simp only [field_perm hseen]
  · apply Option.ext
    intro e
    rw [AuditEvent.ofObject, AuditEvent.ofObject, ofRecord_eq_some_iff, ofRecord_eq_some_iff]
    refine forall₂_congr fun m hm => ?_
    have hne : (name == m.1) = false := by
      apply beq_eq_false_iff_ne.mpr
      rintro rfl
      exact hname (List.mem_map_of_mem (f := Prod.fst) hm)
    rw [List.map_cons, field, field, List.filter_cons_of_neg (by simp [hne])]

end ProviiAudit
