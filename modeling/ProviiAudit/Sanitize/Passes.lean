import ProviiAudit.Sanitize.Matchers

/-! The loops of the passes as scans over characters.

A character stands for its leading byte: continuation bytes pass no test of the parsers. -/
namespace ProviiAudit

open Utf8 (Text asBytes byteOf)
open Span (Stops)
open Scan (scan)

variable {r : Recogniser} {R s x y w : Text} {c : Char} {n fuel : Nat}

/-- The leading bytes of the characters. -/
abbrev codes (s : Text) : Bytes := s.map byteOf

theorem byteOf_high (hc : ¬ c.toNat < 128) : 128 ≤ (byteOf c).toNat := by
  have h := mt Utf8.byteOf_lt_iff.mp hc
  rwa [UInt8.not_lt, UInt8.le_iff_toNat_le] at h

theorem isAsciiAlphabetic_byteOf (c : Char) : isAsciiAlphabetic (byteOf c) = c.isAlpha := by
  rw [Bool.eq_iff_iff]
  have halpha : c.isAlpha = (decide (c.val ≥ 65 ∧ c.val ≤ 90) ||
      (decide (c.val ≥ 97) && decide (c.val ≤ 122))) := rfl
  rw [halpha]
  by_cases hc : c.toNat < 128
  · simp [isAsciiAlphabetic, UInt8.le_iff_toNat_le, Utf8.byteOf_toNat hc, UInt32.le_iff_toNat_le]
  · have hb := byteOf_high hc
    simp [isAsciiAlphabetic, UInt8.le_iff_toNat_le, UInt32.le_iff_toNat_le]
    omega

theorem isAsciiDigit_byteOf (c : Char) : isAsciiDigit (byteOf c) = c.isDigit := by
  rw [Bool.eq_iff_iff]
  by_cases hc : c.toNat < 128
  · simp [isAsciiDigit, Char.isDigit, UInt8.le_iff_toNat_le, Utf8.byteOf_toNat hc,
      UInt32.le_iff_toNat_le]
  · have hb := byteOf_high hc
    simp [isAsciiDigit, Char.isDigit, UInt8.le_iff_toNat_le, UInt32.le_iff_toNat_le]
    omega

theorem isAsciiAlphanumeric_byteOf (c : Char) :
    isAsciiAlphanumeric (byteOf c) = c.isAlphanum := by
  rw [isAsciiAlphanumeric, isAsciiAlphabetic_byteOf, isAsciiDigit_byteOf]
  rfl

theorem byteOf_eq_iff {d : Char} (hd : d.toNat < 128) : byteOf c = byteOf d ↔ c = d :=
  ⟨Utf8.eq_of_byteOf hd, fun h => h ▸ rfl⟩

theorem count_codes {d : Char} (hd : d.toNat < 128) (w : Text) :
    (codes w).count (byteOf d) = w.count d := by
  induction w with
  | nil => rfl
  | cons c w ih =>
    have hbeq : (byteOf c == byteOf d) = (c == d) := by
      rw [Bool.eq_iff_iff, beq_iff_eq, beq_iff_eq]
      exact byteOf_eq_iff hd
    rw [codes, List.map_cons, List.count_cons, List.count_cons, hbeq, ← codes, ih]

theorem stops_codes {p : UInt8 → Bool} : Stops p (codes y) ↔ Stops p (asBytes y) := by
  rw [Stops, Stops, Utf8.head?_asBytes, codes, List.head?_map]

theorem Recogniser.adjacent_ascii (r : Recogniser) : Utf8.AsciiOnly r.adjacent :=
  fun b h => r.alphabet_ascii b (r.adjacent_alphabet b h)

/-- The text up to the first character outside an ASCII class is read alike in both encodings. -/
theorem exists_ascii_prefix {p : UInt8 → Bool} (hp : Utf8.AsciiOnly p) (y : Text) :
    ∃ u v v', asBytes y = u ++ v ∧ codes y = u ++ v' ∧ Stops p v ∧ Stops p v' := by
  refine ⟨codes (y.takeWhile fun c => p (byteOf c)), asBytes (y.dropWhile fun c => p (byteOf c)),
    codes (y.dropWhile fun c => p (byteOf c)), ?_, ?_, ?_, ?_⟩
  · have hascii : asBytes (y.takeWhile fun c => p (byteOf c)) =
        codes (y.takeWhile fun c => p (byteOf c)) := by
      refine hp.asBytes_eq fun c hc => ?_
      simpa using List.mem_takeWhile_imp hc
    rw [← hascii, ← Utf8.asBytes_append, List.takeWhile_append_dropWhile]
  · rw [← List.map_append, List.takeWhile_append_dropWhile]
  · have hstop := Span.stops_dropWhile (fun c => p (byteOf c)) y
    rw [Stops, Utf8.head?_asBytes]
    simpa [Stops, Option.any_map, Function.comp_def] using hstop
  · have hstop := Span.stops_dropWhile (fun c => p (byteOf c)) y
    simpa [Stops, codes, Option.any_map, Function.comp_def] using hstop

/-- The recogniser on characters. -/
def Recogniser.matcher (r : Recogniser) : Scan.Matcher Char where
  len p s :=
    if p.any fun c => r.adjacent (byteOf c) then none
    else (r.headLen (codes s)).filter fun n => !((codes s)[n]?).any r.adjacent
  pos h := by
    split_ifs at h
    exact r.headLen_pos (Option.eq_some_of_filter_eq_some h)
  le h := by
    split_ifs at h
    simpa using r.headLen_le (Option.eq_some_of_filter_eq_some h)

theorem Recogniser.matcher_len_iff {p : Option Char} : r.matcher.len p s = some n ↔
    (p.any fun c => r.adjacent (byteOf c)) = false ∧ r.headLen (codes s) = some n ∧
      ((codes s)[n]?).any r.adjacent = false := by
  simp only [matcher]
  split_ifs with hp
  · simp [hp]
  · simp [hp]

theorem Recogniser.headLen_asBytes (r : Recogniser) (y : Text) :
    r.headLen (asBytes y) = r.headLen (codes y) ∧ ∀ n, r.headLen (codes y) = some n →
      ((asBytes y)[n]?).any r.adjacent = ((codes y)[n]?).any r.adjacent := by
  obtain ⟨u, v, v', hy, hc, hv, hv'⟩ := exists_ascii_prefix r.alphabet_ascii y
  have hadj := hv.mono r.adjacent_alphabet
  have hadj' := hv'.mono r.adjacent_alphabet
  rw [hy, hc, r.headLen_append hv, r.headLen_append hv']
  refine ⟨rfl, fun n hn => ?_⟩
  have hle := r.headLen_le hn
  rw [Span.any_getElem?_append hadj hle, Span.any_getElem?_append hadj' hle]

/-- At a character boundary the recogniser is the matcher. -/
theorem Recogniser.find_boundary (r : Recogniser) (x y : Text) :
    r.find (asBytes (x ++ y)) (asBytes x).length =
      (r.matcher.len x.getLast? y).map ((asBytes x).length + ·) := by
  obtain ⟨hlen, hafter⟩ := r.headLen_asBytes y
  rw [Recogniser.find, Utf8.asBytes_append, List.drop_left, hlen]
  cases hn : r.headLen (codes y) with
  | none =>
    simp only [matcher, hn, Option.filter_none, Option.map_none, ite_self]
  | some n =>
    simp only [matcher, hn, Option.map_some, Option.filter_some, boundedBy_append,
      r.adjacent_ascii.getLast?_any, boundedBy_zero, hafter n hn]
    split_ifs <;> simp_all

/-- A match consists of characters of the alphabet. -/
theorem Recogniser.matched_alphabet {p : Option Char}
    (h : r.matcher.len p (w ++ y) = some w.length) : ∀ c ∈ w, r.alphabet (byteOf c) = true := by
  have hlen := (Recogniser.matcher_len_iff.mp h).2.1
  intro c hc
  apply r.headLen_alphabet hlen
  rw [codes, List.map_append, List.take_left' (by simp)]
  exact List.mem_map_of_mem hc

theorem Recogniser.matched_codes {p : Option Char}
    (h : r.matcher.len p (w ++ y) = some w.length) : asBytes w = codes w :=
  r.alphabet_ascii.asBytes_eq (r.matched_alphabet h)

theorem Recogniser.matched_length {p : Option Char}
    (h : r.matcher.len p (w ++ y) = some w.length) : (asBytes w).length = w.length := by
  rw [r.matched_codes h, List.length_map]

/-- What the recogniser finds begins and ends between characters. -/
theorem Recogniser.find_some_iff {i e : Nat} : r.find (asBytes s) i = some e ↔
    ∃ u w y, s = u ++ (w ++ y) ∧ i = (asBytes u).length ∧ e = (asBytes (u ++ w)).length ∧
      r.matcher.len u.getLast? (w ++ y) = some w.length := by
  constructor
  · intro h
    obtain ⟨n, hn, -⟩ := Option.map_eq_some_iff.mp (Option.eq_some_of_filter_eq_some h)
    have hpos := r.headLen_pos hn
    have hle := r.headLen_le hn
    rw [List.length_drop] at hle
    have hmem : (asBytes s)[i] ∈ ((asBytes s).drop i).take n := by
      rw [List.drop_eq_getElem_cons (by omega), List.take_cons hpos]
      exact List.mem_cons_self
    have hascii := r.alphabet_ascii _ (r.headLen_alphabet hn _ hmem)
    obtain ⟨u, v, rfl, rfl⟩ := Utf8.exists_boundary (List.getElem?_eq_getElem (by omega)) hascii
    rw [r.find_boundary] at h
    obtain ⟨k, hk, rfl⟩ := Option.map_eq_some_iff.mp h
    obtain ⟨w, y, rfl, rfl⟩ := Span.exists_split (r.matcher.le hk)
    refine ⟨u, w, y, rfl, rfl, ?_, hk⟩
    rw [Utf8.asBytes_append, List.length_append, r.matched_length hk]
  · rintro ⟨u, w, y, rfl, rfl, rfl, hm⟩
    rw [r.find_boundary, hm, Utf8.asBytes_append, List.length_append, r.matched_length hm]
    rfl

/-- A character outside the alphabet separates. -/
theorem Recogniser.separates (r : Recogniser) (hc : r.alphabet (byteOf c) = false) :
    Scan.Separates r.matcher c := by
  have hadj : r.adjacent (byteOf c) = false := by
    by_contra h
    simp [r.adjacent_alphabet _ (by simpa using h)] at hc
  constructor
  · intro p u v
    have hstop : Stops r.alphabet (codes (c :: v)) := Span.stops_cons.mpr hc
    have hsplit : codes (u ++ c :: v) = codes u ++ codes (c :: v) := List.map_append
    simp only [matcher, hsplit, r.headLen_append hstop]
    split_ifs
    · rfl
    · cases hn : r.headLen (codes u) with
      | none => rfl
      | some n =>
        simp only [Option.filter_some, Span.any_getElem?_append (hstop.mono r.adjacent_alphabet)
          (r.headLen_le hn)]
  · intro y
    simp [matcher, hadj]

/-- Behind an adjacent character nothing begins. -/
theorem Recogniser.len_behind (hc : r.adjacent (byteOf c) = true) (y : Text) :
    r.matcher.len (some c) y = none := by
  simp [matcher, hc]

theorem copyChar_boundary {out : Text} :
    copyChar (x ++ c :: y) ⟨(asBytes x).length, out⟩ =
      ⟨(asBytes (x ++ [c])).length, out ++ [c]⟩ := by
  simp [copyChar, Utf8.charAt_append]

theorem copyChar_advances (input : Text) (st : Cursor) : st.i < (copyChar input st).i := by
  rw [copyChar]
  cases Utf8.charAt input st.i with
  | none => exact Nat.lt_succ_self _
  | some ch => exact Nat.lt_add_of_pos_right (Char.utf8Size_pos ch)

theorem redactStep_advances (recognise : Bytes → Nat → Option Nat) (R input : Text)
    (st : Cursor) : st.i < (redactStep recognise R input st).i := by
  rw [redactStep]
  cases recognise (asBytes input) st.i with
  | none => exact copyChar_advances input st
  | some stop => exact Nat.lt_of_lt_of_le (Nat.lt_succ_self _) (Nat.le_max_right ..)

/-- A loop whose step advances has read all of the input when its fuel is spent. -/
theorem loop_exits {step : Text → Cursor → Cursor} {input : Text}
    (hstep : ∀ st, st.i < (step input st).i) :
    inside input (Loop.whileLoop (inside input) (step input) (asBytes input).length ⟨0, []⟩) =
      false := by
  let size : Cursor → Nat := fun st => (asBytes input).length - st.i
  refine Loop.whileLoop_exits (P := fun _ => True) size (fun st _ hin => ⟨trivial, ?_⟩) trivial
    (Nat.sub_le ..)
  have hlt : st.i < (asBytes input).length := by simpa [inside] using hin
  exact Nat.sub_lt_sub_left hlt (hstep st)

theorem redactStep_extends (recognise : Bytes → Nat → Option Nat) (R input : Text) (st : Cursor) :
    st.result <+: (redactStep recognise R input st).result := by
  rw [redactStep]
  cases recognise (asBytes input) st.i with
  | some stop => exact List.prefix_append ..
  | none =>
    rw [copyChar]
    cases Utf8.charAt input st.i with
    | some ch => exact List.prefix_append ..
    | none => exact List.prefix_refl _

/-- The result of the pass begins with what stands written in any state of its loop. -/
theorem prefix_of_reaches {recognise : Bytes → Nat → Option Nat} {input : Text} {st : Cursor}
    (h : Loop.Reaches (inside input) (redactStep recognise R input) ⟨0, []⟩ st) :
    st.result <+: runPass (redactStep recognise R) input := by
  obtain ⟨left, heq⟩ :=
    Loop.whileLoop_of_reaches h (loop_exits (redactStep_advances recognise R input))
  rw [runPass, ← heq]
  exact Loop.whileLoop_induct (P := fun st' => st.result <+: st'.result)
    (fun s hs => hs.trans (redactStep_extends recognise R input s)) (List.prefix_refl _)

theorem redactStep_keep {out : Text} (h : r.matcher.len x.getLast? (c :: y) = none) :
    redactStep r.find R (x ++ c :: y) ⟨(asBytes x).length, out⟩ =
      ⟨(asBytes (x ++ [c])).length, out ++ [c]⟩ := by
  rw [redactStep, r.find_boundary, h]
  exact copyChar_boundary

theorem redactStep_redact {out : Text}
    (h : r.matcher.len x.getLast? (w ++ y) = some w.length) :
    redactStep r.find R (x ++ (w ++ y)) ⟨(asBytes x).length, out⟩ =
      ⟨(asBytes (x ++ w)).length, out ++ R⟩ := by
  have hpos := r.matcher.pos h
  rw [redactStep, r.find_boundary, h, Utf8.asBytes_append, List.length_append,
    r.matched_length h]
  simp only [Option.map_some, Cursor.mk.injEq, and_true]
  omega

theorem inside_boundary {out : Text} :
    inside (x ++ y) ⟨(asBytes x).length, out⟩ = true ↔ y ≠ [] := by
  cases y with
  | nil => simp [inside]
  | cons c y =>
    have hsize := Char.utf8Size_pos c
    simp [inside]
    omega

/-- The cursor reaches the end of `x` when no match in `x` runs over it. -/
theorem reaches_boundary (r : Recogniser) (R x y : Text)
    (hlocal : ∀ u v, x = u ++ v → v ≠ [] → ∀ n,
      r.matcher.len u.getLast? (v ++ y) = some n → n ≤ v.length) :
    ∃ out, Loop.Reaches (inside (x ++ y)) (redactStep r.find R (x ++ y)) ⟨0, []⟩
      ⟨(asBytes x).length, out⟩ := by
  have run : ∀ k u v out, v.length = k → x = u ++ v →
      Loop.Reaches (inside (x ++ y)) (redactStep r.find R (x ++ y)) ⟨0, []⟩
        ⟨(asBytes u).length, out⟩ →
      ∃ out, Loop.Reaches (inside (x ++ y)) (redactStep r.find R (x ++ y)) ⟨0, []⟩
        ⟨(asBytes x).length, out⟩ := by
    intro k
    induction k using Nat.strong_induction_on with
    | _ k ih =>
      intro u v out hk hx hreach
      cases v with
      | nil => exact ⟨out, by simpa [hx] using hreach⟩
      | cons c v =>
        have hnext := hreach.step (by rw [hx, List.append_assoc]; exact inside_boundary.mpr (by simp))
        cases hm : r.matcher.len u.getLast? (c :: v ++ y) with
        | none =>
          have hstep : redactStep r.find R (x ++ y) ⟨(asBytes u).length, out⟩ =
              ⟨(asBytes (u ++ [c])).length, out ++ [c]⟩ := by
            rw [hx, List.append_assoc]
            exact redactStep_keep hm
          rw [hstep] at hnext
          exact ih v.length (by simp at hk; omega) (u ++ [c]) v _ rfl (by simp [hx]) hnext
        | some n =>
          have hle := hlocal u (c :: v) hx (by simp) n hm
          have hpos := r.matcher.pos hm
          obtain ⟨w, v', hv, rfl⟩ : ∃ w v', c :: v = w ++ v' ∧ n = w.length :=
            ⟨(c :: v).take n, (c :: v).drop n, by simp, by simp at hle ⊢; omega⟩
          rw [hv, List.append_assoc] at hm
          have hstep : redactStep r.find R (x ++ y) ⟨(asBytes u).length, out⟩ =
              ⟨(asBytes (u ++ w)).length, out ++ R⟩ := by
            rw [hx, hv, List.append_assoc, List.append_assoc]
            exact redactStep_redact hm
          rw [hstep] at hnext
          have hlen := congrArg List.length hv
          simp only [List.length_append] at hlen
          exact ih v'.length (by omega) (u ++ w) v' _ rfl (by simp [hx, hv]) hnext
  exact run x.length [] x [] rfl rfl .start

theorem whileLoop_scan (x y out : Text) (hfuel : y.length ≤ fuel) :
    (Loop.whileLoop (inside (x ++ y)) (redactStep r.find R (x ++ y)) fuel
      ⟨(asBytes x).length, out⟩).result = out ++ scan r.matcher R x.getLast? y := by
  induction hp : x.getLast?, y using r.matcher.induction generalizing x out fuel with
  | nil p =>
    rw [Loop.whileLoop_done (by simp [inside])]
    simp
  | keep p c y h ih =>
    subst hp
    obtain ⟨fuel, rfl⟩ := Nat.exists_eq_add_of_le' (Nat.lt_of_lt_of_le (Nat.succ_pos _) hfuel)
    rw [Loop.whileLoop, if_pos (inside_boundary.mpr (by simp)), redactStep_keep h,
      List.append_cons, ih _ _ (by simpa using hfuel) (by simp), Scan.scan_keep h]
    simp
  | redact p w y h ih =>
    subst hp
    have hpos := r.matcher.pos h
    rw [List.length_append] at hfuel
    obtain ⟨fuel, rfl⟩ := Nat.exists_eq_add_of_le' (show 1 ≤ fuel by omega)
    have hlast : (x ++ w).getLast? = Scan.lastOr x.getLast? w := by
      simp [Scan.lastOr, List.getLast?_append]
    rw [Loop.whileLoop, if_pos (inside_boundary.mpr (by simp [Scan.ne_nil_of_len h])),
      redactStep_redact h, ← List.append_assoc, ih _ _ (by omega) hlast, Scan.scan_redact h]
    simp

/-- A pass is a scan with its matcher. -/
theorem runPass_eq_scan (r : Recogniser) (R input : Text) :
    runPass (redactStep r.find R) input = scan r.matcher R none input := by
  have hfuel : input.length ≤ (asBytes input).length := Utf8.length_le_asBytes
  exact whileLoop_scan [] input [] hfuel

theorem stripIpv4_eq_scan (input : Text) :
    stripIpv4 input = scan ipv4Recogniser.matcher redactedIp none input := by
  rw [← runPass_eq_scan, ← ipv4At_eq, stripIpv4]

theorem stripIpv6_eq_scan (input : Text) :
    stripIpv6 input = scan ipv6Recogniser.matcher redactedIp none input := by
  rw [← runPass_eq_scan, ← ipv6At_eq, stripIpv6]

theorem stripDobPatterns_eq_scan (input : Text) :
    stripDobPatterns input = scan dobRecogniser.matcher redactedDob none input := by
  rw [← runPass_eq_scan, ← dobAt_eq, stripDobPatterns]

end ProviiAudit
