import ProviiAudit.Lib.Framing
import ProviiAudit.Sanitize.Matchers

/-! The texts of IPv4 and IPv6 addresses, and what the parsers make of them. -/
namespace ProviiAudit

open Utf8 (byteOf)
open Span (Stops)

variable {b g o q u v w rest : Bytes} {gs hs : List Bytes} {n left : Nat} {saw : Bool}

/-- One to three digits of a value up to 255. -/
structure IsOctet (o : Bytes) : Prop where
  digits : ∀ c ∈ o, isAsciiDigit c = true
  pos : 1 ≤ o.length
  le : o.length ≤ 3
  value : parseDecimal o ≤ 255

instance : Decidable (IsOctet o) :=
  decidable_of_iff (o.all isAsciiDigit = true ∧ 1 ≤ o.length ∧ o.length ≤ 3 ∧
    parseDecimal o ≤ 255) ⟨fun ⟨h₁, h₂, h₃, h₄⟩ => ⟨List.all_eq_true.mp h₁, h₂, h₃, h₄⟩,
      fun ⟨h₁, h₂, h₃, h₄⟩ => ⟨List.all_eq_true.mpr h₁, h₂, h₃, h₄⟩⟩

/-- A dotted quad. -/
def IsQuad (q : Bytes) : Prop :=
  ∃ o₁ o₂ o₃ o₄, IsOctet o₁ ∧ IsOctet o₂ ∧ IsOctet o₃ ∧ IsOctet o₄ ∧
    q = o₁ ++ byteOf '.' :: (o₂ ++ byteOf '.' :: (o₃ ++ byteOf '.' :: o₄))

/-- One to four hex digits. -/
structure IsHexGroup (g : Bytes) : Prop where
  digits : ∀ c ∈ g, isAsciiHexdigit c = true
  pos : 1 ≤ g.length
  le : g.length ≤ 4

instance : Decidable (IsHexGroup g) :=
  decidable_of_iff (g.all isAsciiHexdigit = true ∧ 1 ≤ g.length ∧ g.length ≤ 4)
    ⟨fun ⟨h₁, h₂, h₃⟩ => ⟨List.all_eq_true.mp h₁, h₂, h₃⟩,
      fun ⟨h₁, h₂, h₃⟩ => ⟨List.all_eq_true.mpr h₁, h₂, h₃⟩⟩

def joinColon (gs : List Bytes) : Bytes := [byteOf ':'].intercalate gs

def doubleColon : Bytes := [byteOf ':', byteOf ':']

/-- The textual forms of an IPv6 address. -/
inductive IsIpv6 : Bytes → Prop
  | full (gs : List Bytes) : gs.length = 8 → (∀ g ∈ gs, IsHexGroup g) → IsIpv6 (joinColon gs)
  | compressed (gs hs : List Bytes) : gs.length + hs.length ≤ 7 →
      (∀ g ∈ gs ++ hs, IsHexGroup g) → IsIpv6 (joinColon gs ++ doubleColon ++ joinColon hs)
  | fullMixed (gs : List Bytes) (q : Bytes) : gs.length = 6 → (∀ g ∈ gs, IsHexGroup g) →
      IsQuad q → IsIpv6 (joinColon (gs ++ [q]))
  | compressedMixed (gs hs : List Bytes) (q : Bytes) : gs.length + hs.length ≤ 5 →
      (∀ g ∈ gs ++ hs, IsHexGroup g) → IsQuad q →
      IsIpv6 (joinColon gs ++ doubleColon ++ joinColon (hs ++ [q]))

theorem octetLen_some_iff : octetLen b = some n ↔
    ∃ o rest, b = o ++ rest ∧ IsOctet o ∧ Stops isAsciiDigit rest ∧ n = o.length := by
  constructor
  · intro h
    refine ⟨b.takeWhile isAsciiDigit, b.dropWhile isAsciiDigit,
      List.takeWhile_append_dropWhile.symm, ?_, Span.stops_dropWhile .., ?_⟩
    · have htake : b.take (b.takeWhile isAsciiDigit).length = b.takeWhile isAsciiDigit :=
        (List.prefix_iff_eq_take.mp (List.takeWhile_prefix _)).symm
      simp only [octetLen, htake] at h
      split_ifs at h with h0 hv
      exact ⟨fun c hc => List.mem_takeWhile_imp hc, by omega, by omega, by omega⟩
    · simp only [octetLen] at h
      split_ifs at h
      exact (Option.some.inj h).symm
  · rintro ⟨o, rest, rfl, ho, hrest, rfl⟩
    have hrun : (o ++ rest).takeWhile isAsciiDigit = o := by
      rw [List.takeWhile_append_of_pos ho.digits, hrest.takeWhile, List.append_nil]
    have hpos := ho.pos
    have hle := ho.le
    have hv := ho.value
    simp only [octetLen, hrun, List.take_left]
    rw [if_neg (by omega), if_neg (by omega)]

theorem dot_stops (v : Bytes) : Stops isAsciiDigit (byteOf '.' :: v) :=
  Span.stops_cons.mpr (by decide)

theorem quadLen_step (ho : IsOctet o) :
    quadLen (left + 2) (o ++ byteOf '.' :: v) =
      (quadLen (left + 1) v).map (o.length + 1 + ·) := by
  have hlen : octetLen (o ++ byteOf '.' :: v) = some o.length :=
    octetLen_some_iff.mpr ⟨o, _, rfl, ho, dot_stops v, rfl⟩
  simp [quadLen, hlen]

theorem quadLen_of_isQuad (hq : IsQuad q) (hrest : Stops isAsciiDigit rest) :
    quadLen 4 (q ++ rest) = some q.length := by
  obtain ⟨o₁, o₂, o₃, o₄, h₁, h₂, h₃, h₄, rfl⟩ := hq
  have hlast : quadLen 1 (o₄ ++ rest) = some o₄.length :=
    octetLen_some_iff.mpr ⟨o₄, rest, rfl, h₄, hrest, rfl⟩
  simp only [List.append_assoc, List.cons_append]
  rw [quadLen_step h₁, quadLen_step h₂, quadLen_step h₃, hlast]
  simp [Nat.add_assoc]
  omega

/-- What is parsed as four octets is a dotted quad. -/
theorem isQuad_of_quadLen (h : quadLen 4 b = some n) :
    ∃ q rest, b = q ++ rest ∧ IsQuad q ∧ Stops isAsciiDigit rest ∧ n = q.length := by
  have hstep : ∀ {left b n}, quadLen (left + 2) b = some n → ∃ o v k, IsOctet o ∧
      b = o ++ byteOf '.' :: v ∧ quadLen (left + 1) v = some k ∧ n = o.length + 1 + k := by
    intro left b n h
    simp only [quadLen] at h
    cases ho : octetLen b with
    | none => simp [ho] at h
    | some m =>
      obtain ⟨o, rest, rfl, hoct, -, rfl⟩ := octetLen_some_iff.mp ho
      simp only [ho] at h
      split_ifs at h with hdot
      obtain ⟨k, hk, rfl⟩ := Option.map_eq_some_iff.mp h
      cases rest with
      | nil => simp at hdot
      | cons c v =>
        simp only [List.getElem?_append_right le_rfl, Nat.sub_self, List.getElem?_cons_zero,
          Option.some.injEq] at hdot
        subst hdot
        exact ⟨o, v, k, hoct, rfl, by simpa using hk, rfl⟩
  obtain ⟨o₁, v₁, k₁, h₁, rfl, hk₁, rfl⟩ := hstep h
  obtain ⟨o₂, v₂, k₂, h₂, rfl, hk₂, rfl⟩ := hstep hk₁
  obtain ⟨o₃, v₃, k₃, h₃, rfl, hk₃, rfl⟩ := hstep hk₂
  obtain ⟨o₄, rest, rfl, h₄, hrest, rfl⟩ := octetLen_some_iff.mp hk₃
  refine ⟨_, rest, ?_, ⟨o₁, o₂, o₃, o₄, h₁, h₂, h₃, h₄, rfl⟩, hrest, ?_⟩
  · simp
  · simp
    omega

/-- What may follow an address: no hex digit or colon, and no dot before a digit. -/
def EndsAddress (rest : Bytes) : Prop :=
  Stops isIpv6Char rest ∨ ∃ r, rest = byteOf '.' :: r ∧ Stops isAsciiDigit r

theorem EndsAddress.adjacent (h : EndsAddress rest) : Stops isIpv6Adjacent rest := by
  rcases h with h | ⟨r, rfl, -⟩
  · exact h.mono fun c hc => by simp [isIpv6Char, hc]
  · exact Span.stops_cons.mpr (by decide)

theorem hex_stops (h : Stops isIpv6Adjacent rest) : Stops isAsciiHexdigit rest :=
  h.mono fun c hc => by simp [isIpv6Adjacent, hc]

theorem groupLen_of_isHexGroup (hg : IsHexGroup g) (hrest : Stops isAsciiHexdigit rest) :
    groupLen (g ++ rest) = g.length := by
  have hall : g.takeWhile isAsciiHexdigit = g := by
    rw [List.takeWhile_eq_self_iff]
    exact hg.digits
  rw [groupLen_append hrest, groupLen, List.take_of_length_le hg.le, hall]

theorem colon_stops (v : Bytes) : Stops isAsciiHexdigit (byteOf ':' :: v) :=
  Span.stops_cons.mpr (by decide)

theorem suffixLen_colon : suffixLen (g ++ byteOf ':' :: rest) g.length = none := by
  simp [suffixLen, show byteOf ':' ≠ byteOf '.' by decide]

theorem groupsLen_single (hg : IsHexGroup g) (hrest : ¬ Stops isAsciiHexdigit rest) :
    groupsLen (left + 1) saw (g ++ byteOf ':' :: rest) =
      g.length + 1 + groupsLen left saw rest := by
  have hpos := hg.pos
  cases rest with
  | nil => exact (hrest rfl).elim
  | cons c rest =>
    have hc : isAsciiHexdigit c = true := by simpa [Span.stops_cons] using hrest
    have hne : c ≠ byteOf ':' := by
      rintro rfl
      exact absurd hc (by decide)
    simp [groupsLen, groupLen_of_isHexGroup hg (colon_stops _), suffixLen_colon, hc, hne,
      show g ≠ [] from List.ne_nil_of_length_pos hpos]

theorem groupsLen_double (hg : IsHexGroup g) :
    groupsLen (left + 1) false (g ++ byteOf ':' :: byteOf ':' :: rest) =
      if rest.head?.any isAsciiHexdigit then g.length + 2 + groupsLen left true rest
      else g.length + 2 := by
  have hpos := hg.pos
  have hne : g ≠ [] := List.ne_nil_of_length_pos hpos
  cases rest with
  | nil => simp [groupsLen, groupLen_of_isHexGroup hg (colon_stops _), suffixLen_colon, hne]
  | cons c rest =>
    simp only [groupsLen, groupLen_of_isHexGroup hg (colon_stops _), suffixLen_colon]
    cases hc : isAsciiHexdigit c <;> simp [hc, hne]

theorem dot_notMem_of_hex (hg : ∀ c ∈ g, isAsciiHexdigit c = true) : byteOf '.' ∉ g := by
  intro h
  exact absurd (hg _ h) (by decide)

theorem isAsciiHexdigit_of_digit {c : UInt8} (h : isAsciiDigit c = true) :
    isAsciiHexdigit c = true := by
  simp [isAsciiHexdigit, h]

theorem IsOctet.isHexGroup (ho : IsOctet o) : IsHexGroup o :=
  ⟨fun c hc => isAsciiHexdigit_of_digit (ho.digits c hc), ho.pos, ho.le.trans (by decide)⟩

/-- What makes the group in front of it the last one. -/
structure EndsGroup (rest : Bytes) : Prop where
  stops : Stops isAsciiHexdigit rest
  last : ∀ {g : Bytes} {left : Nat} {saw : Bool}, IsHexGroup g →
    groupsLen (left + 1) saw (g ++ rest) = g.length

theorem endsGroup_of_suffix (hrest : Stops isIpv6Adjacent rest)
    (h : ∀ g, IsHexGroup g → suffixLen (g ++ rest) g.length = none) : EndsGroup rest := by
  refine ⟨hex_stops hrest, fun {g left saw} hg => ?_⟩
  have hlen := groupLen_of_isHexGroup hg (hex_stops hrest)
  have hcolon : (g ++ rest)[g.length]? ≠ some (byteOf ':') := by
    intro hc
    have := (Span.getElem?_append_some hrest (by decide) le_rfl).mp hc
    simp at this
  have hne : g ≠ [] := List.ne_nil_of_length_pos hg.pos
  simp [groupsLen, hlen, h g hg, hcolon, hne]

theorem EndsAddress.endsGroup (hrest : EndsAddress rest) : EndsGroup rest := by
  refine endsGroup_of_suffix hrest.adjacent fun g hg => ?_
  rw [suffixLen]
  split_ifs with hdot
  · rcases hrest with hstop | ⟨r, rfl, hr⟩
    · have := (Span.getElem?_append_some (c := byteOf '.') hstop (by decide) le_rfl).mp hdot.1
      simp at this
    · by_contra hsome
      obtain ⟨n, hn⟩ := Option.ne_none_iff_exists'.mp hsome
      obtain ⟨q, rest, hsplit, ⟨o₁, o₂, o₃, o₄, h₁, h₂, -, -, rfl⟩, -, -⟩ := isQuad_of_quadLen hn
      simp only [List.append_assoc, List.cons_append] at hsplit
      obtain ⟨-, rfl⟩ := Framing.split_inj (dot_notMem_of_hex hg.digits)
        (dot_notMem_of_hex h₁.isHexGroup.digits) hsplit
      obtain ⟨c, o₂, rfl⟩ := List.exists_cons_of_length_pos h₂.pos
      have hc := Span.stops_cons.mp hr
      simp [h₂.digits c (by simp)] at hc
  · rfl

/-- No dotted quad begins in the group: the dots do not suffice. -/
theorem endsGroup_of_dots (hrest : Stops isIpv6Adjacent rest)
    (hdots : rest.count (byteOf '.') < 3) : EndsGroup rest := by
  refine endsGroup_of_suffix hrest fun g hg => ?_
  rw [suffixLen]
  split_ifs
  · by_contra hsome
    obtain ⟨n, hn⟩ := Option.ne_none_iff_exists'.mp hsome
    obtain ⟨q, rest', hsplit, ⟨o₁, o₂, o₃, o₄, -, -, -, -, rfl⟩, -, -⟩ := isQuad_of_quadLen hn
    have hcount := congrArg (List.count (byteOf '.')) hsplit
    have hnone := List.count_eq_zero.mpr (dot_notMem_of_hex hg.digits)
    simp only [List.count_append, List.count_cons_self] at hcount
    omega
  · rfl

/-- A colon without a group behind it is given back. -/
theorem endsGroup_colon (hrest : Stops isIpv6Adjacent rest) : EndsGroup (byteOf ':' :: rest) := by
  refine ⟨colon_stops rest, fun {g left saw} hg => ?_⟩
  have hne : g ≠ [] := List.ne_nil_of_length_pos hg.pos
  have hlen := groupLen_of_isHexGroup hg (colon_stops rest)
  cases rest with
  | nil => simp [groupsLen, hlen, suffixLen_colon, hne]
  | cons c rest =>
    have hc := Span.stops_cons.mp hrest
    have hcolon : c ≠ byteOf ':' := by
      rintro rfl
      exact absurd hc (by decide)
    have hhex : isAsciiHexdigit c = false := by
      by_contra h
      simp [isIpv6Adjacent, h] at hc
    simp [groupsLen, hlen, suffixLen_colon, hne, hcolon, hhex]

theorem groupsLen_quad (hq : IsQuad q) (hrest : Stops isAsciiDigit rest) :
    groupsLen (left + 1) saw (q ++ rest) = q.length := by
  have hquad := quadLen_of_isQuad hq hrest
  obtain ⟨o₁, o₂, o₃, o₄, h₁, -, -, -, rfl⟩ := hq
  simp only [List.append_assoc, List.cons_append] at hquad ⊢
  have hdot : ∀ v, Stops isAsciiHexdigit (byteOf '.' :: v) :=
    fun v => Span.stops_cons.mpr (by decide)
  have hlen := groupLen_of_isHexGroup h₁.isHexGroup
    (hdot (o₂ ++ byteOf '.' :: (o₃ ++ byteOf '.' :: (o₄ ++ rest))))
  have hne : o₁ ≠ [] := List.ne_nil_of_length_pos h₁.pos
  simp [groupsLen, hlen, suffixLen, hquad, h₁.le, hne]

theorem joinColon_cons (g : Bytes) (h : gs ≠ []) :
    joinColon (g :: gs) = g ++ byteOf ':' :: joinColon gs := by
  rw [joinColon, List.intercalate_cons_of_ne_nil h]
  simp [joinColon]

@[simp] theorem joinColon_nil : joinColon [] = [] := rfl

@[simp] theorem joinColon_singleton : joinColon [g] = g := List.intercalate_singleton

theorem IsHexGroup.starts (hg : IsHexGroup g) : ¬ Stops isAsciiHexdigit g := by
  obtain ⟨c, g, rfl⟩ := List.exists_cons_of_length_pos hg.pos
  simp [Span.stops_cons, hg.digits c]

theorem IsQuad.starts (hq : IsQuad q) : ¬ Stops isAsciiHexdigit q := by
  obtain ⟨o₁, o₂, o₃, o₄, h₁, -, -, -, rfl⟩ := hq
  obtain ⟨c, o₁, rfl⟩ := List.exists_cons_of_length_pos h₁.pos
  simp [Span.stops_cons, h₁.isHexGroup.digits c]

theorem joinColon_starts (hg : ¬ Stops isAsciiHexdigit g) :
    ¬ Stops isAsciiHexdigit (joinColon (g :: gs) ++ rest) := by
  cases g with
  | nil => exact (hg rfl).elim
  | cons c g =>
    cases gs with
    | nil => simpa [Span.stops_cons] using hg
    | cons g' gs => simpa [joinColon_cons, Span.stops_cons] using hg

theorem groupsLen_join (hgs : ∀ g ∈ gs, IsHexGroup g) (hne : gs ≠ []) (hlen : gs.length ≤ left)
    (hrest : EndsGroup rest) :
    groupsLen left saw (joinColon gs ++ rest) = (joinColon gs).length := by
  induction gs generalizing left with
  | nil => exact (hne rfl).elim
  | cons g gs ih =>
    obtain ⟨left, rfl⟩ := Nat.exists_eq_add_of_le' (Nat.lt_of_lt_of_le (Nat.succ_pos _) hlen)
    have hg := hgs g (by simp)
    cases gs with
    | nil =>
      rw [joinColon_singleton]
      exact hrest.last hg
    | cons g' gs =>
      have hgs' : ∀ x ∈ g' :: gs, IsHexGroup x := fun x hx => hgs x (by simp_all)
      rw [joinColon_cons _ (by simp), List.append_assoc, List.cons_append,
        groupsLen_single hg (joinColon_starts (hgs' g' (by simp)).starts),
        ih hgs' (by simp) (by simpa using hlen)]
      simp
      omega

theorem groupsLen_join_quad (hgs : ∀ g ∈ gs, IsHexGroup g) (hlen : gs.length < left)
    (hq : IsQuad q) (hrest : Stops isAsciiDigit rest) :
    groupsLen left saw (joinColon (gs ++ [q]) ++ rest) = (joinColon (gs ++ [q])).length := by
  induction gs generalizing left with
  | nil =>
    obtain ⟨left, rfl⟩ := Nat.exists_eq_add_of_le' (Nat.lt_of_le_of_lt (Nat.zero_le _) hlen)
    rw [List.nil_append, joinColon_singleton]
    exact groupsLen_quad hq hrest
  | cons g gs ih =>
    obtain ⟨left, rfl⟩ := Nat.exists_eq_add_of_le' (Nat.lt_of_le_of_lt (Nat.zero_le _) hlen)
    have hgs' : ∀ x ∈ gs, IsHexGroup x := fun x hx => hgs x (by simp_all)
    have hstarts : ¬ Stops isAsciiHexdigit (joinColon (gs ++ [q]) ++ rest) := by
      cases gs with
      | nil => exact joinColon_starts hq.starts
      | cons g' gs => exact joinColon_starts (hgs' g' (by simp)).starts
    rw [List.cons_append, joinColon_cons _ (by simp), List.append_assoc, List.cons_append,
      groupsLen_single (hgs g (by simp)) hstarts, ih hgs' (by simpa using hlen)]
    simp
    omega

theorem groupsLen_join_double (hgs : ∀ g ∈ gs, IsHexGroup g) (hne : gs ≠ [])
    (hlen : gs.length ≤ left) :
    groupsLen left false (joinColon gs ++ doubleColon ++ rest) =
      (joinColon gs ++ doubleColon).length +
        if rest.head?.any isAsciiHexdigit then groupsLen (left - gs.length) true rest else 0 := by
  induction gs generalizing left with
  | nil => exact (hne rfl).elim
  | cons g gs ih =>
    obtain ⟨left, rfl⟩ := Nat.exists_eq_add_of_le' (Nat.lt_of_lt_of_le (Nat.succ_pos _) hlen)
    have hg := hgs g (by simp)
    cases gs with
    | nil =>
      simp only [joinColon_singleton, doubleColon, List.append_assoc, List.cons_append,
        List.nil_append, groupsLen_double hg]
      split_ifs <;> simp
    | cons g' gs =>
      have hgs' : ∀ x ∈ g' :: gs, IsHexGroup x := fun x hx => hgs x (by simp_all)
      have hstarts : ¬ Stops isAsciiHexdigit (joinColon (g' :: gs) ++ (doubleColon ++ rest)) :=
        joinColon_starts (hgs' g' (by simp)).starts
      rw [joinColon_cons _ (by simp)]
      simp only [List.append_assoc, List.cons_append]
      rw [groupsLen_single hg hstarts, ← List.append_assoc,
        ih hgs' (by simp) (by simpa using hlen)]
      simp [Nat.add_assoc]
      omega

theorem ipv6HeadLen_hex (h : ¬ Stops isAsciiHexdigit b) :
    ipv6HeadLen b = some (groupsLen 8 false b) := by
  cases b with
  | nil => exact (h rfl).elim
  | cons c b =>
    have hc : isAsciiHexdigit c = true := by simpa [Span.stops_cons] using h
    have hne : c ≠ byteOf ':' := by
      rintro rfl
      exact absurd hc (by decide)
    simp [ipv6HeadLen, hc, hne]

theorem ipv6HeadLen_double (rest : Bytes) : ipv6HeadLen (doubleColon ++ rest) =
    some (2 + if rest.head?.any isAsciiHexdigit then groupsLen 8 true rest else 0) := by
  cases rest with
  | nil => rfl
  | cons c rest => cases hc : isAsciiHexdigit c <;> simp [ipv6HeadLen, doubleColon, hc]

/-- A compressed form is parsed to its end when what follows the double colon is. -/
theorem ipv6HeadLen_compressed (hgs : ∀ g ∈ gs, IsHexGroup g) (hlen : gs.length ≤ 8)
    (htail : (if (u ++ rest).head?.any isAsciiHexdigit then
      groupsLen (8 - gs.length) true (u ++ rest) else 0) = u.length) :
    ipv6HeadLen (joinColon gs ++ doubleColon ++ u ++ rest) =
      some (joinColon gs ++ doubleColon ++ u).length := by
  simp only [List.append_assoc]
  cases gs with
  | nil =>
    rw [joinColon_nil, List.nil_append, ipv6HeadLen_double]
    simp only [List.length_nil, Nat.sub_zero] at htail
    rw [htail]
    simp [doubleColon]
    omega
  | cons g gs =>
    rw [ipv6HeadLen_hex (joinColon_starts (hgs g (by simp)).starts), ← List.append_assoc,
      groupsLen_join_double hgs (by simp) hlen, htail]
    simp [Nat.add_assoc]

theorem IsIpv6.headLen (ha : IsIpv6 w) (hrest : EndsGroup rest) :
    ipv6HeadLen (w ++ rest) = some w.length := by
  have hhex : Stops isAsciiHexdigit rest := hrest.stops
  have hdigit : Stops isAsciiDigit rest := hhex.mono fun _ => isAsciiHexdigit_of_digit
  cases ha with
  | full gs hlen hgs =>
    have hne : gs ≠ [] := List.ne_nil_of_length_pos (by omega)
    obtain ⟨g, gs, rfl⟩ := List.exists_cons_of_ne_nil hne
    rw [ipv6HeadLen_hex (joinColon_starts (hgs g (by simp)).starts),
      groupsLen_join hgs hne hlen.le hrest]
  | compressed gs hs hlen hgs =>
    refine ipv6HeadLen_compressed (fun g hg => hgs g (by simp [hg])) (by omega) ?_
    cases hs with
    | nil =>
      rw [joinColon_nil, List.nil_append, hhex]
      rfl
    | cons h hs =>
      have hstarts : ¬ Stops isAsciiHexdigit (joinColon (h :: hs) ++ rest) :=
        joinColon_starts (hgs h (by simp)).starts
      rw [if_pos (by simpa [Stops] using hstarts)]
      exact groupsLen_join (fun g hg => hgs g (by simp_all)) (by simp) (by omega) hrest
  | fullMixed gs q hlen hgs hq =>
    obtain ⟨g, gs, rfl⟩ := List.exists_cons_of_length_pos (show 0 < gs.length by omega)
    have hstarts : ¬ Stops isAsciiHexdigit (joinColon (g :: gs ++ [q]) ++ rest) :=
      joinColon_starts (hgs g (by simp)).starts
    rw [ipv6HeadLen_hex hstarts, groupsLen_join_quad hgs (by omega) hq hdigit]
  | compressedMixed gs hs q hlen hgs hq =>
    refine ipv6HeadLen_compressed (fun g hg => hgs g (by simp [hg])) (by omega) ?_
    have hstarts : ¬ Stops isAsciiHexdigit (joinColon (hs ++ [q]) ++ rest) := by
      cases hs with
      | nil => exact joinColon_starts hq.starts
      | cons h hs => exact joinColon_starts (hgs h (by simp)).starts
    rw [if_pos (by simpa [Stops] using hstarts)]
    exact groupsLen_join_quad (fun g hg => hgs g (by simp_all)) (by omega) hq hdigit

theorem count_joinColon (gs : List Bytes) : gs.length ≤ (joinColon gs).count (byteOf ':') + 1 := by
  induction gs with
  | nil => exact Nat.zero_le _
  | cons g gs ih =>
    cases gs with
    | nil => simp
    | cons g' gs =>
      rw [joinColon_cons _ (by simp), List.count_append, List.count_cons_self, List.length_cons]
      omega

theorem IsIpv6.count_colon (ha : IsIpv6 w) : 2 ≤ w.count (byteOf ':') := by
  have hdouble : doubleColon.count (byteOf ':') = 2 := by decide
  cases ha with
  | full gs hlen hgs =>
    have := count_joinColon gs
    omega
  | compressed gs hs hlen hgs =>
    simp only [List.count_append]
    omega
  | fullMixed gs q hlen hgs hq =>
    have := count_joinColon (gs ++ [q])
    rw [List.length_append, List.length_singleton] at this
    omega
  | compressedMixed gs hs q hlen hgs hq =>
    simp only [List.count_append]
    omega

/-- The parser takes every address text to its end. -/
theorem IsIpv6.addressLen (ha : IsIpv6 w) (hrest : EndsGroup rest) :
    ipv6AddressLen (w ++ rest) = some w.length := by
  rw [ipv6AddressLen, ha.headLen hrest, Option.filter_some, List.take_left, if_pos]
  simpa using ha.count_colon

/-- What the group loop consumes, with `left` groups to go. -/
inductive GroupsText : Nat → Bool → Bytes → Prop
  | stop {left : Nat} {saw : Bool} : GroupsText left saw []
  | group {left : Nat} {saw : Bool} {g : Bytes} : IsHexGroup g → GroupsText (left + 1) saw g
  | quad {left : Nat} {saw : Bool} {q : Bytes} : IsQuad q → GroupsText (left + 1) saw q
  | single {left : Nat} {saw : Bool} {g w : Bytes} : IsHexGroup g → GroupsText left saw w →
      GroupsText (left + 1) saw (g ++ byteOf ':' :: w)
  | double {left : Nat} {g w : Bytes} : IsHexGroup g → GroupsText left true w →
      GroupsText (left + 1) false (g ++ byteOf ':' :: byteOf ':' :: w)

theorem isHexGroup_take (h : groupLen b ≠ 0) : IsHexGroup (b.take (groupLen b)) := by
  have hpre : (b.take 4).takeWhile isAsciiHexdigit <+: b :=
    (List.takeWhile_prefix _).trans (b.take_prefix 4)
  have htake : b.take (groupLen b) = (b.take 4).takeWhile isAsciiHexdigit :=
    (List.prefix_iff_eq_take.mp hpre).symm
  have hlen : (b.take (groupLen b)).length = groupLen b := List.length_take_of_le groupLen_le
  refine ⟨?_, by omega, ?_⟩
  · rw [htake]
    exact fun c hc => List.mem_takeWhile_imp hc
  · rw [htake]
    exact (List.takeWhile_prefix _).length_le.trans (List.length_take_le 4 b)

theorem take_of_getElem? {c : UInt8} {k : Nat} (h : b[n]? = some c) :
    b.take (n + 1 + k) = b.take n ++ c :: (b.drop (n + 1)).take k := by
  obtain ⟨hlt, hc⟩ := List.getElem?_eq_some_iff.mp h
  rw [Nat.add_assoc, List.take_add, List.drop_eq_getElem_cons hlt, hc, Nat.add_comm 1 k,
    List.take_succ_cons]

theorem take_of_getElem?_two {c d : UInt8} {k : Nat} (hc : b[n]? = some c)
    (hd : b[n + 1]? = some d) :
    b.take (n + 2 + k) = b.take n ++ c :: d :: (b.drop (n + 2)).take k := by
  have hd' : (b.drop (n + 1))[0]? = some d := by rwa [List.getElem?_drop]
  have htail := take_of_getElem? (k := k) hd'
  rw [show n + 2 + k = n + 1 + (0 + 1 + k) by omega, take_of_getElem? hc, htail]
  simp

theorem groupsLen_text : GroupsText left saw (b.take (groupsLen left saw b)) := by
  induction left generalizing saw b with
  | zero => exact .stop
  | succ left ih =>
    simp only [groupsLen]
    by_cases h0 : groupLen b = 0
    · simp only [h0, if_true]
      exact .stop
    · have hg := isHexGroup_take h0
      simp only [h0, if_false]
      cases hs : suffixLen b (groupLen b) with
      | some n =>
        rw [suffixLen] at hs
        split_ifs at hs
        obtain ⟨q, rest, rfl, hq, -, rfl⟩ := isQuad_of_quadLen hs
        simpa using GroupsText.quad hq
      | none =>
        dsimp only
        split_ifs with hc hd hsaw hhex hhex
        · exact .group hg
        · exact .group hg
        · obtain rfl : saw = false := by simpa using hsaw
          rw [← Nat.add_zero (groupLen b + 2), take_of_getElem?_two (not_not.mp hc) hd]
          exact .double hg .stop
        · obtain rfl : saw = false := by simpa using hsaw
          rw [take_of_getElem?_two (not_not.mp hc) hd]
          exact .double hg ih
        · exact .group hg
        · rw [take_of_getElem? (not_not.mp hc)]
          exact .single hg ih

/-- What the parser consumes is hex digits and colons, then perhaps a dotted quad. -/
theorem GroupsText.shape (h : GroupsText left saw w) : ∃ u q, w = u ++ q ∧
    (∀ c ∈ u, isIpv6Adjacent c = true) ∧ (q = [] ∨ IsQuad q) := by
  have hgroup : ∀ {g}, IsHexGroup g → ∀ c ∈ g, isIpv6Adjacent c = true :=
    fun hg c hc => by simp [isIpv6Adjacent, hg.digits c hc]
  induction h with
  | stop => exact ⟨[], [], rfl, by simp, .inl rfl⟩
  | @group _ _ g hg => exact ⟨g, [], by simp, hgroup hg, .inl rfl⟩
  | quad hq => exact ⟨[], _, rfl, by simp, .inr hq⟩
  | @single _ _ g w hg _ ih =>
    obtain ⟨u, q, rfl, hu, hq⟩ := ih
    refine ⟨g ++ byteOf ':' :: u, q, by simp, ?_, hq⟩
    intro c hc
    rcases List.mem_append.mp hc with hc | hc
    · exact hgroup hg c hc
    · rcases List.mem_cons.mp hc with rfl | hc
      · decide
      · exact hu c hc
  | @double _ g w hg _ ih =>
    obtain ⟨u, q, rfl, hu, hq⟩ := ih
    refine ⟨g ++ byteOf ':' :: byteOf ':' :: u, q, by simp, ?_, hq⟩
    intro c hc
    rcases List.mem_append.mp hc with hc | hc
    · exact hgroup hg c hc
    · rcases List.mem_cons.mp hc with rfl | hc
      · decide
      · rcases List.mem_cons.mp hc with rfl | hc
        · decide
        · exact hu c hc

/-- What the whole parser consumes. -/
inductive AddressText : Bytes → Prop
  | groups {w : Bytes} : GroupsText 8 false w → AddressText w
  | double {w : Bytes} : GroupsText 8 true w → AddressText (byteOf ':' :: byteOf ':' :: w)

theorem ipv6HeadLen_text (h : ipv6HeadLen b = some n) : AddressText (b.take n) := by
  simp only [ipv6HeadLen] at h
  split_ifs at h with hc hhex hhex
  · obtain rfl := Option.some.inj h
    have htake := take_of_getElem?_two (k := 0) hc.1 hc.2
    rw [Nat.zero_add] at htake
    rw [show (2 : Nat) = 2 + 0 by rfl, htake]
    exact .double .stop
  · obtain rfl := Option.some.inj h
    have htake := take_of_getElem?_two (k := groupsLen 8 true (b.drop 2)) hc.1 hc.2
    rw [Nat.zero_add] at htake
    rw [htake]
    exact .double groupsLen_text
  · obtain rfl := Option.some.inj h
    exact .groups groupsLen_text

theorem AddressText.shape (h : AddressText w) : ∃ u q, w = u ++ q ∧
    (∀ c ∈ u, isIpv6Adjacent c = true) ∧ (q = [] ∨ IsQuad q) := by
  cases h with
  | groups h => exact h.shape
  | @double w h =>
    obtain ⟨u, q, rfl, hu, hq⟩ := h.shape
    refine ⟨byteOf ':' :: byteOf ':' :: u, q, rfl, ?_, hq⟩
    intro c hc
    simp only [List.mem_cons] at hc
    rcases hc with rfl | rfl | hc
    · decide
    · decide
    · exact hu c hc

theorem IsOctet.ipv4Adjacent (ho : IsOctet o) : ∀ c ∈ o, isIpv4Adjacent c = true :=
  fun c hc => isIpv4Adjacent_of_digit (ho.digits c hc)

theorem IsQuad.ipv4Adjacent (hq : IsQuad q) : ∀ c ∈ q, isIpv4Adjacent c = true := by
  obtain ⟨o₁, o₂, o₃, o₄, h₁, h₂, h₃, h₄, rfl⟩ := hq
  have hdot : isIpv4Adjacent (byteOf '.') = true := by decide
  simp only [List.mem_append, List.mem_cons]
  rintro c (hc | rfl | hc | rfl | hc | rfl | hc)
  · exact h₁.ipv4Adjacent c hc
  · exact hdot
  · exact h₂.ipv4Adjacent c hc
  · exact hdot
  · exact h₃.ipv4Adjacent c hc
  · exact hdot
  · exact h₄.ipv4Adjacent c hc

/-- An address starts with a group and a colon, or with a double colon. -/
theorem IsIpv6.head_colon (ha : IsIpv6 w) :
    ∃ g v, w = g ++ byteOf ':' :: v ∧ ∀ c ∈ g, isAsciiHexdigit c = true := by
  have hjoin : ∀ {gs : List Bytes} {g z : Bytes}, IsHexGroup g → ∃ g' v,
      joinColon (g :: gs) ++ byteOf ':' :: z = g' ++ byteOf ':' :: v ∧
        ∀ c ∈ g', isAsciiHexdigit c = true := by
    intro gs g z hg
    cases gs with
    | nil => exact ⟨g, z, by simp, hg.digits⟩
    | cons g' gs =>
      exact ⟨g, joinColon (g' :: gs) ++ byteOf ':' :: z, by simp [joinColon_cons], hg.digits⟩
  cases ha with
  | full gs hlen hgs =>
    match gs, hlen with
    | g :: g' :: gs, _ => exact ⟨g, _, joinColon_cons g (by simp), (hgs g (by simp)).digits⟩
  | compressed gs hs hlen hgs =>
    simp only [doubleColon, List.append_assoc, List.cons_append, List.nil_append]
    cases gs with
    | nil => exact ⟨[], _, rfl, by simp⟩
    | cons g gs => exact hjoin (hgs g (by simp))
  | fullMixed gs q hlen hgs hq =>
    match gs, hlen with
    | g :: gs, _ => exact ⟨g, _, joinColon_cons g (by simp), (hgs g (by simp)).digits⟩
  | compressedMixed gs hs q hlen hgs hq =>
    simp only [doubleColon, List.append_assoc, List.cons_append, List.nil_append]
    cases gs with
    | nil => exact ⟨[], _, rfl, by simp⟩
    | cons g gs => exact hjoin (hgs g (by simp))

theorem IsIpv6.colon_mem (ha : IsIpv6 w) :
    byteOf ':' ∈ (w ++ rest).takeWhile isIpv6Adjacent := by
  obtain ⟨g, v, rfl, hg⟩ := ha.head_colon
  have hadj : ∀ c ∈ g, isIpv6Adjacent c = true := fun c hc => by simp [isIpv6Adjacent, hg c hc]
  rw [List.append_assoc, List.takeWhile_append_of_pos hadj, List.cons_append,
    List.takeWhile_cons_of_pos (by decide)]
  simp

/-- No match runs into an address behind a byte that is neither a hex digit nor a colon. -/
theorem ipv6HeadLen_le_of_colon {c : UInt8} (hc : isIpv6Adjacent c = false)
    (hv : byteOf ':' ∈ v.takeWhile isIpv6Adjacent) (h : ipv6HeadLen (u ++ c :: v) = some n)
    (hafter : ((u ++ c :: v)[n]?).any isIpv6Adjacent = false) : n ≤ u.length + 1 := by
  by_contra hn
  obtain ⟨k, rfl⟩ := Nat.exists_eq_add_of_le (show u.length + 1 ≤ n by omega)
  obtain ⟨u', q, hsplit, hadj, hq⟩ := (ipv6HeadLen_text h).shape
  have htake : (u ++ c :: v).take (u.length + 1 + k) = (u ++ [c]) ++ v.take k := by
    have hlen : u.length + 1 = (u ++ [c]).length := by simp
    rw [List.append_cons, hlen, List.take_length_add_append]
  rw [htake] at hsplit
  -- `c` is neither digit nor colon, so the quad has begun before the end of `u`
  have hquad : ∀ d ∈ v.take k, isIpv4Adjacent d = true := by
    rcases List.append_eq_append_iff.mp hsplit with ⟨t, rfl, -⟩ | ⟨t, -, rfl⟩
    · exact absurd (hadj c (by simp)) (by simp [hc])
    · intro d hd
      rcases hq with hnil | hquad
      · rw [(List.append_eq_nil_iff.mp hnil).2] at hd
        simp at hd
      · exact hquad.ipv4Adjacent d (by simp [hd])
  have hstop : Stops isIpv6Adjacent (v.drop k) := by
    rw [List.append_cons, List.getElem?_append_right (by simp)] at hafter
    simpa [Stops, List.head?_drop] using hafter
  rw [← List.take_append_drop k v, Span.takeWhile_append hstop] at hv
  exact absurd (hquad _ ((List.takeWhile_prefix _).subset hv)) (by decide)

end ProviiAudit
