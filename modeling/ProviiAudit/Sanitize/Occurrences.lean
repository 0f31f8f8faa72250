import ProviiAudit.Sanitize.DateWindows
import ProviiAudit.Sanitize.Idempotent

/-! The date pass against the dates it documents. -/
namespace ProviiAudit

open Utf8 (Text asBytes byteOf)
open Scan (scan Clean lastOr lastOr_append)

variable {s x y o : Text} {b bytes : Bytes} {p : Option Char} {c : Char} {n i stop : Nat}

/-- A space, two digits and a colon. -/
structure ClockAt (bytes : Bytes) (stop : Nat) : Prop where
  space : bytes[stop]? = some (byteOf ' ')
  tens : (bytes[stop + 1]?).any isAsciiDigit = true
  ones : (bytes[stop + 2]?).any isAsciiDigit = true
  colon : bytes[stop + 3]? = some (byteOf ':')

/-- The ten bytes from `i` on are a date of birth, by themselves and among their neighbours. -/
structure DobOccurrence (bytes : Bytes) (i : Nat) : Prop where
  date : ∃ (L : DateLayout) (g₁ g₂ g₃ : Bytes), slice bytes i (i + 10) = L.join g₁ g₂ g₃ ∧
    L.IsDate g₁ g₂ g₃ ∧ (L ≠ .slash → ¬ ClockAt bytes (i + 10))
  before : i = 0 ∨ (bytes[i - 1]?).any isAsciiAlphanumeric = false
  after : (bytes[i + 10]?).any isAsciiAlphanumeric = false

/-- Behind `x`, `o` is `y` with the leftmost occurrences replaced: an occurrence that the cursor
meets is replaced as a whole, and where it meets none a character is copied. -/
inductive Leftmost (occurs : Nat → Prop) (R : Text) : Text → Text → Text → Prop
  | done (x : Text) : Leftmost occurs R x [] []
  | copy {x y o : Text} {c : Char} :
      (∀ i, (asBytes x).length ≤ i → i < (asBytes (x ++ [c])).length → ¬ occurs i) →
      Leftmost occurs R (x ++ [c]) y o → Leftmost occurs R x (c :: y) (c :: o)
  | replace {x w y o : Text} : occurs (asBytes x).length → (asBytes w).length = 10 →
      Leftmost occurs R (x ++ w) y o → Leftmost occurs R x (w ++ y) (R ++ o)

theorem timeSeparatorAt_iff (hafter : (bytes[stop]?).any isAsciiAlphanumeric = false) :
    timeSeparatorAt bytes stop = true ↔ ClockAt bytes stop := by
  have hT : bytes[stop]? ≠ some (byteOf 'T') := by
    intro h
    rw [h] at hafter
    exact absurd hafter (by decide)
  simp only [timeSeparatorAt, Bool.or_eq_true, Bool.and_eq_true, beq_iff_eq, hT, false_or]
  constructor
  · rintro ⟨⟨⟨h₁, h₂⟩, h₃⟩, h₄⟩
    exact ⟨h₁, h₂, h₃, h₄⟩
  · rintro ⟨h₁, h₂, h₃, h₄⟩
    exact ⟨⟨⟨h₁, h₂⟩, h₃⟩, h₄⟩

theorem untimed_iff {L : DateLayout} : L.untimed = false ↔ L ≠ .slash := by
  cases L <;> decide

theorem boundedBy_iff {q : UInt8 → Bool} : boundedBy q bytes i stop = true ↔
    (i = 0 ∨ (bytes[i - 1]?).any q = false) ∧ (bytes[stop]?).any q = false := by
  simp only [boundedBy, Bool.and_eq_true, Bool.or_eq_true, beq_iff_eq, decide_eq_true_eq,
    Bool.not_eq_true']
  refine and_congr_right fun _ => or_iff_right_of_imp fun hle => ?_
  rw [List.getElem?_eq_none hle]
  rfl

theorem dobOccurrence_iff : DobOccurrence bytes i ↔ dobAt bytes i = some (i + 10) := by
  have hfind : dobAt bytes i = some (i + 10) ↔ dateHeadLen (bytes.drop i) = some 10 ∧
      boundedBy isAsciiAlphanumeric bytes i (i + 10) = true := by
    rw [dobAt_eq, Recogniser.find, Option.filter_eq_some_iff, Option.map_eq_some_iff]
    simp [dobRecogniser]
  have htime : ∀ {L : DateLayout} {rest : Bytes}, rest = bytes.drop (i + 10) →
      (bytes[i + 10]?).any isAsciiAlphanumeric = false →
      ((L.untimed = false → timeSeparatorAt rest 0 = false) ↔
        (L ≠ .slash → ¬ ClockAt bytes (i + 10))) := by
    rintro L rest rfl hafter
    rw [untimed_iff, ← timeSeparatorAt_drop, ← timeSeparatorAt_iff hafter, Bool.not_eq_true]
  rw [hfind, dateHeadLen_iff, boundedBy_iff]
  constructor
  · rintro ⟨⟨L, g₁, g₂, g₃, hslice, hd, hclock⟩, hbefore, hafter⟩
    have hsplit : bytes.drop i = L.join g₁ g₂ g₃ ++ bytes.drop (i + 10) := by
      rw [← hslice, slice, Nat.add_sub_cancel_left, ← List.drop_drop, List.take_append_drop]
    refine ⟨⟨L, DateLayout.parse_iff.mpr ⟨rfl, _, _, _, _, hsplit, hd, ?_⟩⟩, hbefore, hafter⟩
    exact (htime rfl hafter).mpr hclock
  · rintro ⟨⟨L, hparse⟩, hbefore, hafter⟩
    obtain ⟨-, g₁, g₂, g₃, rest, hsplit, hd, huntimed⟩ := DateLayout.parse_iff.mp hparse
    have hrest : rest = bytes.drop (i + 10) := by
      rw [← List.drop_drop, hsplit, List.drop_left' hd.length]
    refine ⟨⟨L, g₁, g₂, g₃, ?_, hd, (htime hrest hafter).mp huntimed⟩, hbefore, hafter⟩
    rw [slice, Nat.add_sub_cancel_left, hsplit, List.take_left' hd.length]

theorem dobOccurrence_iff_ne_none : DobOccurrence bytes i ↔ dobAt bytes i ≠ none := by
  rw [dobOccurrence_iff, dobAt_eq]
  constructor
  · intro h
    simp [h]
  · intro h
    obtain ⟨e, he⟩ := Option.ne_none_iff_exists'.mp h
    obtain ⟨n, hn, rfl⟩ := Option.map_eq_some_iff.mp (Option.eq_some_of_filter_eq_some he)
    obtain rfl : n = 10 := (dateHeadLen_some hn).1
    exact he

/-- An occurrence that begins in a character begins the text from there on. -/
theorem match_of_occurrence (h : DobOccurrence (asBytes (x ++ c :: y)) i)
    (hle : (asBytes x).length ≤ i) (hlt : i < (asBytes (x ++ [c])).length) :
    dobMatcher.len x.getLast? (c :: y) ≠ none := by
  rw [dobOccurrence_iff, dobAt_eq] at h
  obtain ⟨u, w, z, hsplit, rfl, -, hm⟩ := Recogniser.find_some_iff.mp h
  have hx : x <+: u ++ (w ++ z) := ⟨c :: y, hsplit⟩
  have hxc : x ++ [c] <+: u ++ (w ++ z) := ⟨y, by rw [← hsplit]; simp⟩
  have hu : u <+: u ++ (w ++ z) := List.prefix_append ..
  have hlow := (Utf8.length_asBytes_le_iff hx hu).mp hle
  have hhigh := (Utf8.length_asBytes_le_iff hxc hu).not.mp (Nat.not_le.mpr hlt)
  rw [List.length_append, List.length_singleton] at hhigh
  obtain ⟨rfl, hrest⟩ := List.append_inj hsplit (by omega)
  rw [hrest, hm]
  simp

theorem leftmost_scan (hs : s = x ++ y) : Leftmost (DobOccurrence (asBytes s)) redactedDob x y
    (scan dobMatcher redactedDob x.getLast? y) := by
  induction hp : x.getLast?, y using dobMatcher.induction generalizing x with
  | nil p => exact .done x
  | keep p c y h ih =>
    subst hp hs
    rw [Scan.scan_keep h]
    refine .copy (fun i hle hlt hocc => match_of_occurrence hocc hle hlt h) ?_
    exact ih (by simp) (by simp)
  | redact p w y h ih =>
    subst hp hs
    have hten : w.length = 10 := (dateHeadLen_some (Recogniser.matcher_len_iff.mp h).2.1).1
    have hbytes := dobRecogniser.matched_length h
    have hfind : dobAt (asBytes (x ++ (w ++ y))) (asBytes x).length =
        some ((asBytes x).length + 10) := by
      rw [dobAt_eq, dobRecogniser.find_boundary, h, hten]
      rfl
    rw [Scan.scan_redact h]
    refine .replace (dobOccurrence_iff.mpr hfind) (hbytes.trans hten) ?_
    exact ih (by simp) (by simp [lastOr, List.getLast?_append])

/-- The date pass replaces the leftmost dates of birth, copies the rest, and leaves none. -/
theorem stripDobPatterns_exact (s : Text) :
    Leftmost (DobOccurrence (asBytes s)) redactedDob [] s (stripDobPatterns s) ∧
      ∀ i, ¬ DobOccurrence (asBytes (stripDobPatterns s)) i := by
  constructor
  · rw [stripDobPatterns_eq_scan]
    exact leftmost_scan rfl
  · have hclean : Clean dobMatcher none (stripDobPatterns s) := by
      have hid : Stretchwise fun k => k := fun R _ ks => by simp
      rw [stripDobPatterns_eq_scan, clean_scan_iff dob_overlooks hid (by decide)]
      intro k hk
      obtain ⟨before, after, -, hgap⟩ := Scan.gap_of_mem_pieces hk
      exact clean_dob hgap
    intro i h
    rw [dobOccurrence_iff_ne_none, dobAt_eq] at h
    exact h (Recogniser.clean_iff.mp hclean i)

end ProviiAudit
