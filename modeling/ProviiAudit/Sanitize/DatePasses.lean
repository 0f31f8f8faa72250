import ProviiAudit.Lib.Framed
import ProviiAudit.Sanitize.Dates

/-! A date in a text, and what the address and email passes leave of it.

The parsers of these passes see the same in every date of a layout. So they leave the same
surroundings, and the same part of the date. -/
namespace ProviiAudit

open Utf8 (Text asBytes byteOf)
open Span (Stops)
open Scan (Framed Matcher lastOr lastOr_append lastOr_cons scan)

variable {L : DateLayout} {F : Text → Framed Char} {X Y d d' s s' u v w x y : Text}
  {p p' : Option Char} {r : Recogniser} {i j k n : Nat}

/-- A text that leaves a date in front of it bounded: the date pass looks no further. -/
structure Opens (Y : Text) : Prop where
  stops : Stops isAsciiAlphanumeric (codes Y)
  untimed : timeSeparatorAt (codes Y) 0 = false

theorem Opens.of_prefix (h : Opens Y) (hpre : ∀ a : Text, '[' ∉ a → a <+: y → a <+: Y) :
    Opens y := by
  have hmem : ∀ {c : Char}, isAsciiAlphanumeric (byteOf c) = true → c ≠ '[' := by
    rintro c hc rfl
    exact absurd hc (by decide)
  have hstops : Stops isAsciiAlphanumeric (codes y) := by
    cases y with
    | nil => rfl
    | cons c y =>
      rw [codes, List.map_cons, Span.stops_cons]
      by_contra hc
      have hne := hmem (by simpa using hc)
      obtain ⟨z, rfl⟩ := hpre [c] (by simpa using hne.symm) ⟨y, rfl⟩
      exact hc (Span.stops_cons.mp h.stops)
  refine ⟨hstops, ?_⟩
  by_contra htime
  simp only [timeSeparatorAt, Bool.not_eq_false, Bool.or_eq_true, Bool.and_eq_true, beq_iff_eq,
    Nat.zero_add] at htime
  rcases htime with hT | ⟨⟨⟨h0, h1⟩, h2⟩, h3⟩
  · rw [← List.head?_eq_getElem?] at hT
    rw [Stops, hT] at hstops
    exact absurd hstops (by decide)
  · obtain _ | ⟨c₀, _ | ⟨c₁, _ | ⟨c₂, _ | ⟨c₃, y⟩⟩⟩⟩ := y
    iterate 4 · simp at h3
    simp only [codes, List.map_cons, List.getElem?_cons_zero, List.getElem?_cons_succ,
      Option.any_some, Option.some.injEq] at h0 h1 h2 h3
    obtain rfl := Utf8.eq_of_byteOf (by decide) h0
    obtain rfl := Utf8.eq_of_byteOf (by decide) h3
    have hdigit : ∀ {c : Char}, isAsciiDigit (byteOf c) = true → '[' ≠ c :=
      fun hc => (hmem (by simp [isAsciiAlphanumeric, hc])).symm
    obtain ⟨z, rfl⟩ := hpre [' ', c₁, c₂, ':'] (by simp [hdigit h1, hdigit h2]) ⟨y, rfl⟩
    have huntimed := h.untimed
    simp [timeSeparatorAt, h1, h2] at huntimed

/-- What is left of the dates of a layout: the characters from `i` to before `i + k`, between
`X` and `Y`. -/
structure Shown (L : DateLayout) (F : Text → Framed Char) (X Y : Text) (i k : Nat) : Prop where
  frame : ∀ d, L.Accepts d → F d = ⟨X, (d.drop i).take k, Y⟩
  pos : 0 < k
  le : i + k ≤ 10
  cutFront : ∀ d, L.Accepts d → CutAt (codes d) i
  wholeFront : i = 0 → X.getLast?.any (fun c => isAsciiAlphanumeric (byteOf c)) = false
  brokenFront : 0 < i → X.getLast? = some ']'
  wholeBack : i + k = 10 → Opens Y
  brokenBack : i + k < 10 → Y.head? = some '['
  read : ∀ d, L.Accepts d → ∀ c ∈ d.take i, isIpv6Char (byteOf c) = true

/-- What is left ends where a group of digits ends. -/
structure Grouped (L : DateLayout) (F : Text → Framed Char) (X Y : Text) (i k : Nat) : Prop
    extends Shown L F X Y i k where
  cutBack : ∀ d, L.Accepts d → CutAt (codes d) (i + k)

/-- Nothing is left of the dates. -/
def Gone (L : DateLayout) (F : Text → Framed Char) : Prop :=
  ∃ X Y, ∀ d, L.Accepts d → F d = ⟨X, [], Y⟩

theorem isAsciiAlphanumeric_of_digit {c : UInt8} (h : isAsciiDigit c = true) :
    isAsciiAlphanumeric c = true := by simp [isAsciiAlphanumeric, h]

theorem DateLayout.Accepts.length (h : L.Accepts d) : d.length = 10 := by
  obtain ⟨g₁, g₂, g₃, hd, hg⟩ := accepts_iff.mp h
  rw [← hg.length, ← hd, List.length_map]

theorem DateLayout.Accepts.chars (h : L.Accepts d) : ∀ c ∈ d, isDateChar (byteOf c) = true := by
  obtain ⟨g₁, g₂, g₃, hd, hg⟩ := accepts_iff.mp h
  exact fun c hc => hg.chars _ (hd ▸ List.mem_map_of_mem hc)

namespace Shown

theorem lastDigit (h : Shown L F X Y i k) :
    X.getLast?.any (fun c => isAsciiDigit (byteOf c)) = false := by
  rcases Nat.eq_zero_or_pos i with rfl | hi
  · have hX := h.wholeFront rfl
    cases hlast : X.getLast? with
    | none => rfl
    | some c =>
      rw [hlast, Option.any_some] at hX
      by_contra hc
      rw [Option.any_some] at hc
      simp [isAsciiAlphanumeric_of_digit (by simpa using hc)] at hX
  · rw [h.brokenFront hi]
    decide

theorem stopsDigit (h : Shown L F X Y i k) : Stops isAsciiDigit (codes Y) := by
  rcases Nat.lt_or_eq_of_le h.le with hlt | heq
  · have hY := h.brokenBack hlt
    rw [Stops, codes, List.head?_map, hY]
    decide
  · exact (h.wholeBack heq).stops.mono fun _ => isAsciiAlphanumeric_of_digit

theorem length (h : Shown L F X Y i k) (hd : L.Accepts d) : ((d.drop i).take k).length = k := by
  have hten := hd.length
  have hle := h.le
  rw [List.length_take, List.length_drop]
  omega

end Shown

namespace Grouped

theorem alike (h : Grouped L F X Y i k) (hd : L.Accepts d) (hd' : L.Accepts d') :
    Alike (codes ((d.drop i).take k)) (codes ((d'.drop i).take k)) := by
  have hfront := (hd.alike hd').drop (h.cutFront d hd)
  have hcut : CutAt ((codes d).drop i) k := by
    have hback := h.cutBack d hd
    have hlen := hd.length
    rw [CutAt, ← List.drop_drop] at hback
    rw [CutAt, getLast?_take_drop]
    · exact hback
    · have hpos := h.pos
      have hle := h.le
      refine List.ne_nil_of_length_pos ?_
      simp
      omega
  simpa [codes, List.map_take, List.map_drop] using hfront.take hcut

/-- The text around the dates is alike too. -/
theorem alike_around (h : Grouped L F X Y i k) (hd : L.Accepts d) (hd' : L.Accepts d')
    (hX : X = u ++ v) :
    Alike (codes (v ++ ((d.drop i).take k ++ Y))) (codes (v ++ ((d'.drop i).take k ++ Y))) := by
  have hright := (h.alike hd hd').append_right h.stopsDigit
  have hleft : ∀ z, CutAt (codes v ++ z) (codes v).length := by
    intro z
    left
    rw [List.take_left]
    have hlast := h.lastDigit
    rcases List.eq_nil_or_concat v with rfl | ⟨v, c, rfl⟩
    · rfl
    · rw [List.concat_eq_append] at hX ⊢
      simpa [hX, ← List.append_assoc] using hlast
  simpa [codes] using hright.append_left (hleft _)

end Grouped

/-- What the two address passes have in common. -/
structure AddressPass (r : Recogniser) : Prop where
  headLen : ∀ {b b'}, Alike b b' → r.headLen b = r.headLen b'
  digit : ∀ c, isAsciiDigit c = true → r.adjacent c = true
  letters : ∀ c, r.alphabet c = true → isIpv6Char c = true
  marks : ∀ {p w y}, r.matcher.len p (w ++ y) = some w.length → 2 ≤ w.count ':' ∨ 3 ≤ w.count '.'

theorem addressPass_ipv6 : AddressPass ipv6Recogniser where
  headLen h := h.ipv6AddressLen
  digit _ h := isIpv6Adjacent_of_digit h
  letters _ h := h
  marks h := .inl (ipv6_colons h)

theorem addressPass_ipv4 : AddressPass ipv4Recogniser where
  headLen h := h.quadLen
  digit _ h := isIpv4Adjacent_of_digit h
  letters _ h := isIpv6Char_of_ipv4 h
  marks h := .inr (ipv4_dots h)

/-- What stands before the cursor, to the test of the recogniser. -/
abbrev Recogniser.touches (r : Recogniser) (p : Option Char) : Bool :=
  p.any fun c => r.adjacent (byteOf c)

theorem Recogniser.len_touches (h : r.touches p = true) (s : Text) : r.matcher.len p s = none :=
  if_pos h

theorem Recogniser.len_fresh (h : r.touches p = r.touches p') (s : Text) :
    r.matcher.len p s = r.matcher.len p' s := by
  simp only [Recogniser.matcher]
  rw [show (p.any fun c => r.adjacent (byteOf c)) = p'.any fun c => r.adjacent (byteOf c) from h]

theorem AddressPass.blind (hr : AddressPass r) : Blind r.adjacent := blind_true hr.digit

theorem AddressPass.len_alike (hr : AddressPass r) (hp : r.touches p = r.touches p')
    (h : r.touches p = false → Alike (codes s) (codes s')) :
    r.matcher.len p s = r.matcher.len p' s' := by
  cases hyes : r.touches p with
  | true => rw [r.len_touches hyes, r.len_touches (hp ▸ hyes)]
  | false =>
    have hs := h hyes
    have hnext := fun n => hs.shape.any hr.blind n
    rw [r.len_fresh hp]
    simp only [Recogniser.matcher, hr.headLen hs, hnext]

/-- What stands before the cursor has the same shape in both texts. -/
theorem Recogniser.touches_last (hr : Blind r.adjacent) (h : SameShape (codes s) (codes s')) :
    r.touches (lastOr none (x ++ s)) = r.touches (lastOr none (x ++ s')) := by
  have hshape := ((sameShape_refl (codes x)).append h).last hr
  simpa [Recogniser.touches, lastOr, codes, List.getLast?_map, Option.any_map, Function.comp_def,
    ← List.map_append] using hshape

/-- A cursor that is not touched has no digit in front of it. -/
theorem Recogniser.untouched (hr : ∀ c, isAsciiDigit c = true → r.adjacent c = true)
    (h : r.touches (lastOr none (x ++ s)) = false) :
    s.getLast?.any (isAsciiDigit ∘ byteOf) = false := by
  cases hs : s.getLast? with
  | none => rfl
  | some c =>
    by_contra hc
    rw [Recogniser.touches, lastOr_append] at h
    simp [lastOr, hs, hr _ (by simpa using hc)] at h

/-- An address does not fit into a date. -/
theorem AddressPass.not_in_date (hr : AddressPass r) (hd : L.Accepts d) (hw : w.Sublist d) :
    r.matcher.len p (w ++ y) ≠ some w.length := by
  intro hm
  obtain ⟨g₁, g₂, g₃, hcodes, hg⟩ := DateLayout.accepts_iff.mp hd
  have hcolon : w.count ':' = 0 := by
    refine List.count_eq_zero.mpr fun hmem => ?_
    exact absurd (hd.chars _ (hw.subset hmem)) (by decide)
  have hdots : w.count '.' ≤ 2 := by
    have hdots := hg.dots
    rw [← hcodes, count_codes (by decide)] at hdots
    exact (hw.count_le '.').trans hdots
  rcases hr.marks hm with h | h
  · omega
  · omega

namespace Grouped

/-- A match that begins in the date ends behind it. -/
theorem covers (hr : AddressPass r) (hd : L.Accepts d)
    (hm : r.matcher.len p (((d.drop i).take k).drop j ++ Y) = some n) :
    ((d.drop i).take k).length ≤ j + n := by
  by_contra hlt
  have hle : n ≤ (((d.drop i).take k).drop j).length := by
    rw [List.length_drop]
    omega
  obtain ⟨w, z, hw, rfl⟩ := Span.exists_split hle
  rw [hw, List.append_assoc] at hm
  refine hr.not_in_date hd ?_ hm
  have hleft : ((d.drop i).take k).drop j |>.Sublist d :=
    ((List.drop_sublist ..).trans (List.take_sublist ..)).trans (List.drop_sublist ..)
  exact (hw ▸ List.sublist_append_left w z).trans hleft

/-- The address passes cannot tell the dates apart. -/
theorem twins (h : Grouped L F X Y i k) (hr : AddressPass r) (hd : L.Accepts d)
    (hd' : L.Accepts d') : Framed.Twins r.matcher (F d) (F d') := by
  have halike := h.alike hd hd'
  rw [h.frame d hd, h.frame d' hd']
  refine ⟨rfl, rfl, ?_, ?_, ?_, fun _ _ _ hm => covers hr hd hm, ?_⟩
  · simpa using halike.shape.length.symm
  · intro u v hX _
    exact hr.len_alike rfl fun _ => h.alike_around hd hd' hX
  · intro j _ _ hj
    have hshape : SameShape (codes (((d.drop i).take k).take j))
        (codes (((d'.drop i).take k).take j)) := by
      simpa [codes, List.map_take] using halike.shape.take j
    refine (hr.len_alike (Recogniser.touches_last hr.blind hshape) fun hp => ?_).symm
    have hcut : CutAt (codes ((d.drop i).take k ++ Y)) j := by
      left
      rw [codes, ← List.map_take, List.take_append_of_le_length hj.le, List.getLast?_map,
        Option.any_map]
      exact Recogniser.untouched hr.digit hp
    have hboth := (h.alike_around (u := X) (v := []) hd hd' (by simp)).drop hcut
    rw [List.nil_append, List.nil_append, codes, codes, ← List.map_drop, ← List.map_drop] at hboth
    rwa [List.drop_append_of_le_length hj.le, List.drop_append_of_le_length] at hboth
    have hlen := halike.shape.length
    simp only [List.length_map] at hlen
    exact hlen ▸ hj.le
  · exact fun z => r.len_fresh (Recogniser.touches_last hr.blind halike.shape).symm z

/-- What a match from the front takes. -/
theorem taken_front (hpos : 0 < (Framed.mk X y Y).taken r.matcher)
    (hle : (Framed.mk X y Y).taken r.matcher ≤ y.length) :
    Stops r.adjacent (codes (y.drop ((Framed.mk X y Y).taken r.matcher) ++ Y)) ∧
      ∀ c ∈ y.take ((Framed.mk X y Y).taken r.matcher), r.alphabet (byteOf c) = true := by
  obtain ⟨u, v, rfl, -, hm⟩ := Scan.overrun_pos hpos
  rw [← Framed.taken] at hm
  generalize (Framed.mk (u ++ v) y Y).taken r.matcher = t at hpos hle hm
  have hsplit : v ++ (y ++ Y) = (v ++ y.take t) ++ (y.drop t ++ Y) := by
    rw [List.append_assoc, ← List.append_assoc (y.take t), List.take_append_drop]
  have hlen : v.length + t = (v ++ y.take t).length := by
    rw [List.length_append, List.length_take_of_le hle]
  rw [hsplit, hlen] at hm
  constructor
  · have hafter := (Recogniser.matcher_len_iff.mp hm).2.2
    rw [codes, List.map_append, List.getElem?_append_right (by simp), List.length_map, Nat.sub_self,
      ← List.head?_eq_getElem?] at hafter
    exact hafter
  · exact fun c hc => r.matched_alphabet hm c (List.mem_append_right v hc)

end Grouped

variable {e : Text}

theorem pass_before (hX : X.getLast?.any (fun c => isAsciiAlphanumeric (byteOf c)) = false) :
    ((Framed.mk X e Y).pass r.matcher redactedIp).before.getLast?.any
      (fun c => isAsciiAlphanumeric (byteOf c)) = false := by
  have hlast := Scan.front_last (m := r.matcher) (R := redactedIp) (p := none) (q := none) (u := [])
    (k := 0) (x := X) (y := e ++ Y) (by decide) (.inl rfl) fun h => absurd h (Nat.lt_irrefl 0)
  rw [List.nil_append] at hlast
  rcases hlast with hlast | hlast
  · rw [Framed.pass, hlast, lastOr, Option.or_none, hX]
  · rw [Framed.pass, hlast]
    decide

theorem pass_before_broken (h : X.getLast? = some ']' ∨ 0 < (Framed.mk X e Y).taken r.matcher) :
    ((Framed.mk X e Y).pass r.matcher redactedIp).before.getLast? = some ']' := by
  have hR : redactedIp.getLast? = some ']' := rfl
  rcases h with hX | hpos
  · have hlast := Scan.front_last (m := r.matcher) (R := redactedIp) (p := none) (q := none)
      (u := []) (k := 0) (x := X) (y := e ++ Y) (by decide) (.inl rfl)
      fun h => absurd h (Nat.lt_irrefl 0)
    rw [List.nil_append, lastOr, Option.or_none, hX, hR, or_self] at hlast
    exact hlast
  · have hlast := Scan.front_taken (m := r.matcher) (R := redactedIp) (p := none) (u := []) (k := 0)
      (x := X) (y := e ++ Y) (by decide) (fun h => absurd h (Nat.lt_irrefl 0)) hpos
    rw [List.nil_append, hR] at hlast
    exact hlast

/-- What a scan makes of the text behind a kept date. -/
theorem scan_opens (hY : Opens Y) : Opens (scan r.matcher redactedIp p Y) := by
  have hR : redactedIp = '[' :: "REDACTED_IP]".toList := rfl
  exact hY.of_prefix fun a ha hpre => Scan.prefix_of_prefix_scan ha (hR ▸ hpre)

theorem scan_bracket (hY : Y.head? = some '[') :
    (scan r.matcher redactedIp p Y).head? = some '[' := by
  obtain ⟨Y, rfl⟩ := List.head?_eq_some_iff.mp hY
  cases hm : r.matcher.len p ('[' :: Y) with
  | none =>
    rw [Scan.scan_keep hm]
    rfl
  | some n => exact Scan.scan_head (by decide) hm

theorem pass_behind (ht : (Framed.mk X e Y).taken r.matcher < e.length)
    (hn : e.length ≤ (Framed.mk X e Y).taken r.matcher + (Framed.mk X e Y).kept r.matcher) : ∃ p,
    ((Framed.mk X e Y).pass r.matcher redactedIp).behind = scan r.matcher redactedIp p Y := by
  simp only [Framed.pass, Nat.sub_eq_zero_of_le ht.le, List.drop_of_length_le hn, List.nil_append]
  exact ⟨_, rfl⟩

theorem pass_behind_broken
    (hn : (Framed.mk X e Y).taken r.matcher + (Framed.mk X e Y).kept r.matcher < e.length) :
    ((Framed.mk X e Y).pass r.matcher redactedIp).behind.head? = some '[' := by
  obtain ⟨n, hm⟩ := Framed.match_kept hn
  have hskip : (Framed.mk X e Y).taken r.matcher - e.length = 0 := by omega
  simp only [Framed.pass, hskip]
  exact Scan.scan_head (by decide) hm

namespace Grouped

/-- The pass takes the same part of every date, and writes the same around it. -/
theorem frame_pass (h : Grouped L F X Y i k) (hr : AddressPass r) (hd : L.Accepts d)
    (hd' : L.Accepts d') : (F d').pass r.matcher redactedIp =
      ⟨((F d).pass r.matcher redactedIp).before,
        (((d'.drop i).take k).drop ((F d).taken r.matcher)).take ((F d).kept r.matcher),
        ((F d).pass r.matcher redactedIp).behind⟩ := by
  obtain ⟨hbefore, hleft, hbehind⟩ := (h.twins hr hd hd').pass (R := redactedIp)
  have hd'left : (F d').left = (d'.drop i).take k := by rw [h.frame d' hd']
  rw [hd'left] at hleft
  rw [← hbefore, ← hbehind, ← hleft]

theorem cut_taken (h : Grouped L F X Y i k) (hr : AddressPass r) (hd : L.Accepts d)
    (ht : (F d).taken r.matcher < k) : CutAt (codes d) (i + (F d).taken r.matcher) := by
  have hF := h.frame d hd
  have hlen := h.length hd
  rw [hF] at ht ⊢
  rcases Nat.eq_zero_or_pos ((Framed.mk X ((d.drop i).take k) Y).taken r.matcher) with hzero | hpos
  · rw [hzero]
    exact h.cutFront d hd
  · right
    obtain ⟨hstop, -⟩ := taken_front hpos (by rw [hlen]; exact ht.le)
    have hdigit := hstop.mono hr.digit
    generalize (Framed.mk X ((d.drop i).take k) Y).taken r.matcher = t at ht hdigit
    have hne : ((d.drop i).drop t).take (k - t) ≠ [] := by
      refine List.ne_nil_of_length_pos ?_
      rw [← List.drop_take, List.length_drop, hlen]
      omega
    rw [← List.drop_drop, codes, ← List.map_drop, ← List.map_drop]
    rw [List.drop_take] at hdigit
    cases hrest : (d.drop i).drop t with
    | nil => rfl
    | cons c z =>
      rw [hrest] at hdigit hne
      obtain ⟨j, hj⟩ := Nat.exists_eq_add_of_lt ht
      have hsub : k - t = j + 1 := by omega
      rw [hsub] at hdigit
      exact Span.stops_cons.mpr (Span.stops_cons.mp hdigit)

theorem cut_kept (h : Grouped L F X Y i k) (hr : AddressPass r) (hd : L.Accepts d)
    (hn : (F d).taken r.matcher + (F d).kept r.matcher < k) (hpos : 0 < (F d).kept r.matcher) :
    CutAt (codes d) (i + ((F d).taken r.matcher + (F d).kept r.matcher)) := by
  have hF := h.frame d hd
  have hlen := h.length hd
  rw [hF] at hn hpos ⊢
  left
  obtain ⟨j, hm⟩ := Framed.match_kept (f := Framed.mk X ((d.drop i).take k) Y)
    (by rw [hlen]; exact hn)
  generalize (Framed.mk X ((d.drop i).take k) Y).taken r.matcher = t at hn hpos hm ⊢
  generalize (Framed.mk X ((d.drop i).take k) Y).kept r.matcher = l at hn hpos hm ⊢
  have huntouched := Recogniser.untouched hr.digit (Recogniser.matcher_len_iff.mp hm).1
  have hten := hd.length
  have hle := h.le
  rw [List.take_take, Nat.min_eq_left hn.le] at huntouched
  rw [← getLast?_take_drop (List.ne_nil_of_length_pos (by simp; omega)), codes, ← List.map_drop,
    ← List.map_take, List.getLast?_map, Option.any_map]
  exact huntouched

/-- What stands in front of what is left. -/
theorem front_pass (h : Grouped L F X Y i k) (hd : L.Accepts d) :
    (i + (F d).taken r.matcher = 0 → ((F d).pass r.matcher redactedIp).before.getLast?.any
      (fun c => isAsciiAlphanumeric (byteOf c)) = false) ∧
    (0 < i + (F d).taken r.matcher →
      ((F d).pass r.matcher redactedIp).before.getLast? = some ']') := by
  have hF := h.frame d hd
  constructor
  · intro hi
    rw [hF]
    exact pass_before (h.wholeFront (by omega))
  · intro hi
    rw [hF] at hi ⊢
    apply pass_before_broken
    rcases Nat.eq_zero_or_pos i with hzero | hpos
    · right
      omega
    · exact .inl (h.brokenFront hpos)

/-- What stands behind it. -/
theorem back_pass (h : Grouped L F X Y i k) (hd : L.Accepts d) (ht : (F d).taken r.matcher < k)
    (hsum : (F d).taken r.matcher + (F d).kept r.matcher ≤ k) :
    (i + ((F d).taken r.matcher + (F d).kept r.matcher) = 10 →
      Opens ((F d).pass r.matcher redactedIp).behind) ∧
    (i + ((F d).taken r.matcher + (F d).kept r.matcher) < 10 →
      ((F d).pass r.matcher redactedIp).behind.head? = some '[') := by
  have hF := h.frame d hd
  have hlen := h.length hd
  have hle := h.le
  rw [hF] at ht hsum ⊢
  rcases Nat.lt_or_eq_of_le hsum with hin | heq
  · refine ⟨fun hten => by omega, fun _ => pass_behind_broken ?_⟩
    rw [hlen]
    exact hin
  · obtain ⟨p, hp⟩ := pass_behind (r := r) (X := X) (e := (d.drop i).take k) (Y := Y)
      (by rw [hlen]; exact ht) (by rw [hlen]; exact heq.ge)
    rw [hp]
    exact ⟨fun hten => scan_opens (h.wholeBack (by omega)),
      fun hten => scan_bracket (h.brokenBack (by omega))⟩

/-- What a pass takes from the front of a date are letters of addresses. -/
theorem read_pass (h : Grouped L F X Y i k) (hr : AddressPass r) (hd : L.Accepts d)
    (hd' : L.Accepts d') (ht : (F d).taken r.matcher < k) :
    ∀ c ∈ d'.take (i + (F d).taken r.matcher), isIpv6Char (byteOf c) = true := by
  intro c hc
  rw [List.take_add, List.mem_append] at hc
  rcases hc with hc | hc
  · exact h.read d' hd' c hc
  · have htaken : (Framed.mk X ((d'.drop i).take k) Y).taken r.matcher = (F d).taken r.matcher := by
      rw [← h.frame d' hd', (h.twins hr hd hd').taken]
    have hpos : 0 < (F d).taken r.matcher := by
      by_contra hnot
      simp [Nat.eq_zero_of_not_pos hnot] at hc
    apply hr.letters
    refine (taken_front (X := X) (y := (d'.drop i).take k) (Y := Y) (by rwa [htaken]) ?_).2 c ?_
    · rw [htaken, h.length hd']
      exact ht.le
    · rwa [htaken, List.take_take, Nat.min_eq_left ht.le]

/-- An address pass leaves the same of every date. -/
theorem pass (h : Grouped L F X Y i k) (hr : AddressPass r) (hd : L.Accepts d) :
    Gone L (fun d => (F d).pass r.matcher redactedIp) ∨ ∃ X' Y',
      Grouped L (fun d => (F d).pass r.matcher redactedIp) X' Y'
        (i + (F d).taken r.matcher) ((F d).kept r.matcher) := by
  have hkept := Framed.kept_le (m := r.matcher) (f := F d)
  rw [congrArg Framed.left (h.frame d hd), h.length hd] at hkept
  by_cases hnil : (F d).kept r.matcher = 0 ∨ k ≤ (F d).taken r.matcher
  · refine .inl ⟨((F d).pass r.matcher redactedIp).before,
      ((F d).pass r.matcher redactedIp).behind, fun d' hd' => ?_⟩
    have hframe := h.frame_pass hr hd hd'
    rcases hnil with hzero | hge
    · rwa [hzero, List.take_zero] at hframe
    · rwa [List.drop_of_length_le (by rw [h.length hd']; exact hge), List.take_nil] at hframe
  · rw [not_or, Nat.not_le] at hnil
    obtain ⟨hzero, hlt⟩ := hnil
    have hpos := Nat.pos_of_ne_zero hzero
    have hsum : (F d).taken r.matcher + (F d).kept r.matcher ≤ k := by omega
    have hle := h.le
    obtain ⟨hwholeFront, hbrokenFront⟩ := h.front_pass (r := r) hd
    obtain ⟨hwholeBack, hbrokenBack⟩ := h.back_pass hd hlt hsum
    rw [← Nat.add_assoc] at hwholeBack hbrokenBack
    refine .inr ⟨_, _,
      ⟨fun d' hd' => ?_, hpos, by omega, fun d' hd' => ?_, hwholeFront, hbrokenFront, hwholeBack,
        hbrokenBack, fun d' hd' => h.read_pass hr hd hd' hlt⟩, fun d' hd' => ?_⟩
    · rw [h.frame_pass hr hd hd', List.drop_take, List.take_take, List.drop_drop,
        Nat.min_eq_left (by omega)]
    · exact (h.cut_taken hr hd hlt).shape (hd.alike hd').shape
    · rw [Nat.add_assoc]
      rcases Nat.lt_or_eq_of_le hsum with hin | heq
      · exact (h.cut_kept hr hd hin hpos).shape (hd.alike hd').shape
      · rw [heq]
        exact h.cutBack d' hd'

end Grouped

end ProviiAudit
