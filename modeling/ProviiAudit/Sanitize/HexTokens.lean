import ProviiAudit.Sanitize.Grammar
import ProviiAudit.Sanitize.Passes

/-! What the IPv6 pass takes out of a text: hex groups and colons, within bounds. -/
namespace ProviiAudit

open Utf8 (Text asBytes byteOf)
open Span (Stops)
open Scan (joined replaced)

variable {b g h q v w : Bytes} {left i k : Nat} {saw : Bool} {m y : Text} {p : Option Char}

/-- The hex groups between the colons. -/
def hexGroups (h : Bytes) : List Bytes := (h.splitOn (byteOf ':')).filter (· ≠ [])

/-- Hex digits and colons, and perhaps a dotted quad in place of the last group. -/
structure GroupsWithin (left : Nat) (h q : Bytes) : Prop where
  chars : ∀ c ∈ h, isIpv6Adjacent c = true
  short : ∀ g ∈ hexGroups h, g.length ≤ 4
  few : (hexGroups h).length + (if q = [] then 0 else 1) ≤ left
  quad : q = [] ∨ IsQuad q ∧ (h = [] ∨ h.getLast? = some (byteOf ':'))

/-- A double colon stands at `i`. -/
def DoubleAt (b : Bytes) (i : Nat) : Prop :=
  b[i]? = some (byteOf ':') ∧ b[i + 1]? = some (byteOf ':')

structure HexColonToken (b : Bytes) : Prop where
  groups : ∃ h q, b = h ++ q ∧ GroupsWithin 8 h q
  colons : 2 ≤ b.count (byteOf ':')
  double : ∀ i j, DoubleAt b i → DoubleAt b j → i = j

theorem IsHexGroup.no_colon (hg : IsHexGroup g) : byteOf ':' ∉ g :=
  fun hc => absurd (hg.digits _ hc) (by decide)

theorem hexGroups_group (hg : IsHexGroup g) : hexGroups g = [g] := by
  have hne : g ≠ [] := List.ne_nil_of_length_pos hg.pos
  simp [hexGroups, List.splitOn_eq_singleton hg.no_colon, hne]

theorem hexGroups_append (hg : IsHexGroup g) :
    hexGroups (g ++ byteOf ':' :: h) = g :: hexGroups h := by
  have hne : g ≠ [] := List.ne_nil_of_length_pos hg.pos
  simp [hexGroups, List.splitOn_append_cons_self_of_not_mem hg.no_colon, hne]

theorem hexGroups_colon : hexGroups (byteOf ':' :: h) = hexGroups h := by
  have hsplit : (byteOf ':' :: h).splitOn (byteOf ':') = [] :: h.splitOn (byteOf ':') :=
    List.splitOn_append_cons_self_of_not_mem List.not_mem_nil h
  simp [hexGroups, hsplit]

theorem GroupsWithin.colon (hw : GroupsWithin left h q) :
    GroupsWithin left (byteOf ':' :: h) q where
  chars := List.forall_mem_cons.mpr ⟨by decide, hw.chars⟩
  short := by
    rw [hexGroups_colon]
    exact hw.short
  few := by
    rw [hexGroups_colon]
    exact hw.few
  quad := by
    rcases hw.quad with hq | ⟨hq, rfl | hlast⟩
    · exact .inl hq
    · exact .inr ⟨hq, .inr rfl⟩
    · exact .inr ⟨hq, .inr (by simp [List.getLast?_cons, hlast])⟩

theorem GroupsWithin.group (hg : IsHexGroup g) (hw : GroupsWithin left h q) :
    GroupsWithin (left + 1) (g ++ byteOf ':' :: h) q where
  chars c hc := by
    rcases List.mem_append.mp hc with hc | hc
    · simp [isIpv6Adjacent, hg.digits c hc]
    · exact hw.colon.chars c hc
  short := by
    rw [hexGroups_append hg]
    exact List.forall_mem_cons.mpr ⟨hg.le, hw.short⟩
  few := by
    have hfew := hw.few
    rw [hexGroups_append hg, List.length_cons]
    omega
  quad := by
    rcases hw.colon.quad with hq | ⟨hq, hnil | hlast⟩
    · exact .inl hq
    · simp at hnil
    · exact .inr ⟨hq, .inr (by rw [List.getLast?_append_of_ne_nil _ (by simp), hlast])⟩

/-- Every exit of the group loop leaves text of this form. -/
theorem GroupsText.within (hw : GroupsText left saw w) :
    ∃ h q, w = h ++ q ∧ GroupsWithin left h q := by
  have hnil : ∀ left, GroupsWithin left [] [] := fun left =>
    ⟨by simp, by simp [hexGroups], by simp [hexGroups], .inl rfl⟩
  induction hw with
  | @stop left saw => exact ⟨[], [], rfl, hnil left⟩
  | @group left saw g hg =>
    refine ⟨g, [], by simp, ?_, ?_, ?_, .inl rfl⟩
    · exact fun c hc => by simp [isIpv6Adjacent, hg.digits c hc]
    · simpa [hexGroups_group hg] using hg.le
    · simp [hexGroups_group hg]
  | @quad left saw q hq =>
    have hne : q ≠ [] := by
      rintro rfl
      exact hq.starts Span.stops_nil
    exact ⟨[], q, rfl, by simp, by simp [hexGroups], by simp [hexGroups, hne], .inr ⟨hq, .inl rfl⟩⟩
  | @single left saw g w hg _ ih =>
    obtain ⟨h, q, rfl, hin⟩ := ih
    exact ⟨g ++ byteOf ':' :: h, q, by simp, hin.group hg⟩
  | @double left g w hg _ ih =>
    obtain ⟨h, q, rfl, hin⟩ := ih
    exact ⟨g ++ byteOf ':' :: byteOf ':' :: h, q, by simp, hin.colon.group hg⟩

theorem not_doubleAt (hb : byteOf ':' ∉ b) : ¬ DoubleAt b i :=
  fun h => hb (List.mem_of_getElem? h.1)

/-- Behind a group stand a colon and the double colons of the rest. -/
theorem doubleAt_append (hg : byteOf ':' ∉ g) : DoubleAt (g ++ byteOf ':' :: v) i ↔
    (i = g.length ∧ v[0]? = some (byteOf ':')) ∨ ∃ k, i = g.length + 1 + k ∧ DoubleAt v k := by
  rcases Nat.lt_trichotomy i g.length with hlt | rfl | hgt
  · have hnot : ¬ DoubleAt (g ++ byteOf ':' :: v) i := by
      rintro ⟨hc, -⟩
      rw [List.getElem?_append_left hlt] at hc
      exact hg (List.mem_of_getElem? hc)
    refine iff_of_false hnot ?_
    rintro (⟨rfl, -⟩ | ⟨k, rfl, -⟩) <;> omega
  · simp only [DoubleAt, List.getElem?_append_right, Nat.le_refl, Nat.le_add_right, Nat.sub_self,
      Nat.add_sub_cancel_left, List.getElem?_cons_zero, List.getElem?_cons_succ, true_and]
    refine (or_iff_left ?_).symm
    rintro ⟨k, hk, -⟩
    omega
  · obtain ⟨k, rfl⟩ := Nat.exists_eq_add_of_le hgt
    have hat : ∀ j, (g ++ byteOf ':' :: v)[g.length + 1 + j]? = v[j]? := fun j => by
      rw [List.getElem?_append_right (by omega), show g.length + 1 + j - g.length = j + 1 by omega,
        List.getElem?_cons_succ]
    simp only [DoubleAt, Nat.succ_eq_add_one, Nat.add_assoc _ _ 1, hat]
    constructor
    · intro h
      exact .inr ⟨k, by omega, h⟩
    · rintro (⟨h, -⟩ | ⟨j, hj, h⟩)
      · omega
      · obtain rfl : k = j := by omega
        exact h

theorem GroupsText.head (hw : GroupsText left saw w) : w[0]? ≠ some (byteOf ':') := by
  have hgroup : ∀ {g v : Bytes}, ¬ Stops isAsciiHexdigit g →
      (g ++ v)[0]? ≠ some (byteOf ':') := by
    intro g v hg
    cases g with
    | nil => exact (hg Span.stops_nil).elim
    | cons c g =>
      intro hc
      obtain rfl : c = byteOf ':' := by simpa using hc
      exact hg (Span.stops_cons.mpr (by decide))
  cases hw with
  | stop => simp
  | group hg => simpa using hgroup (v := []) hg.starts
  | quad hq => simpa using hgroup (v := []) hq.starts
  | single hg _ => exact hgroup hg.starts
  | double hg _ => exact hgroup hg.starts

/-- A double colon behind a group is the only one when the rest has none. -/
theorem doubleAt_double (hg : byteOf ':' ∉ g) (hhead : v[0]? ≠ some (byteOf ':'))
    (hnone : ∀ i, ¬ DoubleAt v i) :
    DoubleAt (g ++ byteOf ':' :: byteOf ':' :: v) i ↔ i = g.length := by
  have hrest : ∀ k, ¬ DoubleAt (byteOf ':' :: v) k := by
    intro k hk
    rcases (doubleAt_append List.not_mem_nil).mp hk with ⟨-, h⟩ | ⟨j, -, h⟩
    · exact hhead h
    · exact hnone j h
  rw [doubleAt_append hg]
  simp [hrest]

/-- A second double colon ends the loop, also when the first one leads. -/
theorem GroupsText.doubleAt (hw : GroupsText left saw w) :
    (∀ i j, DoubleAt w i → DoubleAt w j → i = j) ∧ (saw = true → ∀ i, ¬ DoubleAt w i) := by
  induction hw with
  | stop => simp [DoubleAt]
  | group hg =>
    exact ⟨fun i j hi => absurd hi (not_doubleAt hg.no_colon), fun _ i => not_doubleAt hg.no_colon⟩
  | @quad _ _ q hq =>
    have hcolon : byteOf ':' ∉ q := fun hc => absurd (hq.ipv4Adjacent _ hc) (by decide)
    exact ⟨fun i j hi => absurd hi (not_doubleAt hcolon), fun _ i => not_doubleAt hcolon⟩
  | single hg hw ih =>
    obtain ⟨hone, hnone⟩ := ih
    simp only [doubleAt_append hg.no_colon, hw.head, and_false, false_or]
    constructor
    · rintro _ _ ⟨i, rfl, hi⟩ ⟨j, rfl, hj⟩
      rw [hone i j hi hj]
    · rintro hsaw _ ⟨i, -, hi⟩
      exact hnone hsaw i hi
  | double hg hw ih =>
    simp only [doubleAt_double hg.no_colon hw.head (ih.2 rfl)]
    exact ⟨fun i j hi hj => hi.trans hj.symm, fun hsaw => absurd hsaw (by decide)⟩

theorem AddressText.token (hw : AddressText w) (hcount : 2 ≤ w.count (byteOf ':')) :
    HexColonToken w := by
  refine ⟨?_, hcount, ?_⟩
  · cases hw with
    | groups hw => exact hw.within
    | double hw =>
      obtain ⟨h, q, rfl, hin⟩ := hw.within
      exact ⟨byteOf ':' :: byteOf ':' :: h, q, rfl, hin.colon.colon⟩
  · cases hw with
    | groups hw => exact hw.doubleAt.1
    | double hw =>
      have hzero := fun i => doubleAt_double (i := i) List.not_mem_nil hw.head (hw.doubleAt.2 rfl)
      intro i j hi hj
      exact ((hzero i).mp hi).trans ((hzero j).mp hj).symm

/-- What is matched is such a token, by itself and among its neighbours. -/
theorem ipv6_matched_token (hm : ipv6Recogniser.matcher.len p (m ++ y) = some m.length) :
    HexColonToken (asBytes m) ∧ (p.any fun c => isIpv6Adjacent (byteOf c)) = false ∧
      Stops isIpv6Adjacent (asBytes y) := by
  obtain ⟨hbefore, hlen, hafter⟩ := Recogniser.matcher_len_iff.mp hm
  have hcodes : codes (m ++ y) = codes m ++ codes y := List.map_append
  have hbytes : asBytes m = codes m := ipv6Recogniser.matched_codes hm
  rw [hcodes] at hlen hafter
  obtain ⟨hhead, hcount⟩ := Option.filter_eq_some_iff.mp hlen
  have htext := ipv6HeadLen_text hhead
  rw [List.take_left' (by simp)] at htext hcount
  refine ⟨?_, hbefore, ?_⟩
  · rw [hbytes]
    exact htext.token (by simpa using hcount)
  · rw [← stops_codes]
    rw [List.getElem?_append_right (by simp), List.length_map, Nat.sub_self] at hafter
    rw [Stops, List.head?_eq_getElem?]
    exact hafter

/-- The pass takes bounded tokens of hex digits and colons out and copies everything else. -/
theorem stripIpv6_removes_tokens (s : Text) : ∃ (cuts : List (Text × Text)) (rest : Text),
    s = joined cuts ++ rest ∧ stripIpv6 s = replaced redactedIp cuts ++ rest ∧
      ∀ before u m after, cuts = before ++ (u, m) :: after → HexColonToken (asBytes m) ∧
        (asBytes (joined before ++ u)).getLast?.any isIpv6Adjacent = false ∧
          Stops isIpv6Adjacent (asBytes (joined after ++ rest)) := by
  obtain ⟨cuts, rest, hs, hscan, hmatch⟩ := Scan.exists_cuts (m := ipv6Recogniser.matcher)
    (R := redactedIp) (p := none) (s := s)
  refine ⟨cuts, rest, hs, (stripIpv6_eq_scan s).trans hscan, ?_⟩
  intro before u m after hcuts
  obtain ⟨htoken, hbefore, hafter⟩ := ipv6_matched_token (hmatch before u m after hcuts)
  refine ⟨htoken, ?_, hafter⟩
  have hadjacent : Utf8.AsciiOnly isIpv6Adjacent := ipv6Recogniser.adjacent_ascii
  rw [hadjacent.getLast?_any]
  simpa [Scan.lastOr] using hbefore

end ProviiAudit
