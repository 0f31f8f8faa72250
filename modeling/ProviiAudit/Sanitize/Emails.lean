import ProviiAudit.Sanitize.Domain

/-! The email pass as a function of the text still to be read.

A match removes characters that were already written, and its local part may run back into an
earlier address. What the pass makes of the remaining text is therefore a number of written
characters that it takes back, and the text it adds. -/
namespace ProviiAudit

open Utf8 (Text asBytes byteOf)

variable {t x y w out : Text} {c : Char} {n fuel : Nat}

theorem popChars_eq (n : Nat) (out : Text) : popChars n out = out.rdrop n := by
  induction n generalizing out with
  | zero => simp [popChars]
  | succ n ih =>
    rw [popChars, Function.iterate_succ_apply, ← popChars, ih]
    cases out using List.reverseRecOn with
    | nil => simp
    | append_singleton out c => simp [List.rdrop_concat_succ]

theorem popChars_append (n : Nat) (x y : Text) :
    popChars n (x ++ y) = popChars (n - y.length) x ++ popChars n y := by
  simp only [popChars_eq, List.rdrop, List.length_append, List.take_append]
  congr 1 <;> rw [List.take_eq_take_iff] <;> omega

@[simp] theorem popChars_zero : popChars 0 out = out := rfl

@[simp] theorem popChars_nil : popChars n [] = [] := by simp [popChars_eq]

theorem popChars_add (m n : Nat) : popChars m (popChars n out) = popChars (m + n) out := by
  rw [popChars, popChars, popChars, Function.iterate_add_apply]

theorem popChars_length : (popChars n out).length = out.length - n := by
  simp [popChars_eq, List.rdrop]

theorem popChars_of_length_le (h : out.length ≤ n) : popChars n out = [] := by
  rw [← List.length_eq_zero_iff, popChars_length]
  omega

/-- What is still to come: `owed` characters are taken back, then `text` is added. -/
@[ext]
structure Remainder where
  owed : Nat
  text : Text

namespace Remainder

variable {r : Remainder}

def finish (r : Remainder) (out : Text) : Text := popChars r.owed out ++ r.text

def keep (c : Char) (r : Remainder) : Remainder :=
  ⟨r.owed - 1, if r.owed = 0 then c :: r.text else r.text⟩

def redact (n : Nat) (r : Remainder) : Remainder :=
  ⟨n + (r.owed - redactedEmail.length), popChars r.owed redactedEmail ++ r.text⟩

theorem finish_keep : (r.keep c).finish out = r.finish (out ++ [c]) := by
  rw [finish, finish, popChars_append]
  rcases Nat.eq_zero_or_pos r.owed with h | h
  · simp [keep, h]
  · have hc : popChars r.owed [c] = [] := popChars_of_length_le h
    simp [keep, hc, h.ne']

theorem finish_redact :
    (r.redact n).finish out = r.finish (popChars n out ++ redactedEmail) := by
  rw [finish, finish, popChars_append, popChars_add]
  simp [redact, Nat.add_comm]

/-- What comes first, and behind it `r'`. -/
def andThen (r r' : Remainder) : Remainder :=
  ⟨r.owed + (r'.owed - r.text.length), popChars r'.owed r.text ++ r'.text⟩

theorem nothing_andThen : (⟨0, []⟩ : Remainder).andThen r = r := by simp [andThen]

theorem keep_andThen (r' : Remainder) : (r.keep c).andThen r' = (r.andThen r').keep c := by
  rcases Nat.eq_zero_or_pos r.owed with h | h
  · have hpop := popChars_append r'.owed [c] r.text
    rw [List.singleton_append] at hpop
    rcases Nat.eq_zero_or_pos (r'.owed - r.text.length) with h' | h'
    · simp [andThen, keep, h, hpop, h', Nat.sub_add_eq]
    · have hc : popChars (r'.owed - r.text.length) [c] = [] := popChars_of_length_le h'
      simp [andThen, keep, h, hpop, h'.ne', hc, Nat.sub_add_eq]
  · simp [andThen, keep, h.ne']
    omega

theorem redact_andThen (r' : Remainder) : (r.redact n).andThen r' = (r.andThen r').redact n := by
  have hsize : (popChars r.owed redactedEmail ++ r.text).length =
      redactedEmail.length - r.owed + r.text.length := by
    rw [List.length_append, popChars_length]
  ext1
  · simp only [andThen, redact, hsize]
    omega
  · simp only [andThen, redact, popChars_append, popChars_add, List.append_assoc]
    rw [Nat.add_comm]

end Remainder

/-- What the pass makes of the remaining text. `skip` counts the characters of a matched domain
that are still to pass. -/
def emailRest : Text → Nat → Text → Remainder
  | _, _, [] => ⟨0, []⟩
  | x, skip + 1, c :: y => emailRest (x ++ [c]) skip y
  | x, 0, c :: y =>
    match if c = '@' then addressLen x y else none with
    | some n => (emailRest (x ++ [c]) n y).redact (localRun x)
    | none => (emailRest (x ++ [c]) 0 y).keep c

theorem emailRest_skip (hw : w.length = n) :
    emailRest x n (w ++ y) = emailRest (x ++ w) 0 y := by
  subst hw
  induction w generalizing x with
  | nil => simp
  | cons c w ih => simp [emailRest, ih]

theorem emailRest_keep (h : c = '@' → addressLen x y = none) :
    emailRest x 0 (c :: y) = (emailRest (x ++ [c]) 0 y).keep c := by
  have hnone : (if c = '@' then addressLen x y else none) = none := by
    split_ifs with hc
    · exact h hc
    · rfl
  rw [emailRest, hnone]

theorem emailRest_redact (h : addressLen x (w ++ y) = some w.length) :
    emailRest x 0 ('@' :: (w ++ y)) =
      (emailRest (x ++ '@' :: w) 0 y).redact (localRun x) := by
  rw [emailRest, if_pos rfl, h]
  simp [emailRest_skip rfl]

/-- The pass looks back as far as a local part reaches. -/
theorem emailRest_of_run {x' : Text} (h : ∀ u, localRun (x ++ u) = localRun (x' ++ u)) :
    emailRest x n y = emailRest x' n y := by
  induction y generalizing x x' n with
  | nil => cases n <;> rfl
  | cons c y ih =>
    have hnext : ∀ u, localRun (x ++ [c] ++ u) = localRun (x' ++ [c] ++ u) :=
      fun u => by simpa using h (c :: u)
    have hrun : localRun x = localRun x' := by simpa using h []
    cases n with
    | succ n => exact ih hnext
    | zero =>
      have hlen : addressLen x y = addressLen x' y := by rw [addressLen, addressLen, hrun]
      rw [emailRest, emailRest, hlen, hrun]
      cases if c = '@' then addressLen x' y else none with
      | none => exact congrArg (Remainder.keep c) (ih hnext)
      | some n => exact congrArg (Remainder.redact (localRun x')) (ih hnext)

theorem emailRest_behind (hc : isLocal c = false) : emailRest (x ++ [c]) n y = emailRest [] n y :=
  emailRest_of_run fun u => by simp [localRun_behind hc]

theorem addressLen_le (h : addressLen x y = some n) : n ≤ y.length := by
  simpa using domainLen_le (addressLen_some_iff.mp h).2

/-- Induction along the pass: each step keeps one character or redacts one address. -/
theorem email_induction {motive : Text → Text → Prop} (nil : ∀ x, motive x [])
    (keep : ∀ x c y, (c = '@' → addressLen x y = none) → motive (x ++ [c]) y → motive x (c :: y))
    (redact : ∀ x w y, addressLen x (w ++ y) = some w.length → motive (x ++ '@' :: w) y →
      motive x ('@' :: (w ++ y))) (x y : Text) : motive x y := by
  induction hy : y.length using Nat.strong_induction_on generalizing x y with
  | _ N ih =>
    cases y with
    | nil => exact nil x
    | cons c y =>
      rw [List.length_cons] at hy
      by_cases hmatch : c = '@' ∧ addressLen x y ≠ none
      · obtain ⟨rfl, hsome⟩ := hmatch
        obtain ⟨n, hn⟩ := Option.ne_none_iff_exists'.mp hsome
        obtain ⟨w, z, rfl, rfl⟩ := Span.exists_split (addressLen_le hn)
        refine redact x w z hn (ih _ ?_ _ _ rfl)
        rw [List.length_append] at hy
        omega
      · refine keep _ _ _ ?_ (ih y.length (by omega) _ _ rfl)
        intro hc
        by_contra hne
        exact hmatch ⟨hc, hne⟩

/-- At a character of no address the pass starts anew. -/
theorem emailRest_append (hc : isLocal c = false) (hat : c ≠ '@') (x y z : Text) :
    emailRest x 0 (y ++ c :: z) = (emailRest x 0 y).andThen (emailRest [] 0 (c :: z)) := by
  have hstop : ∀ w, domainLen (codes (w ++ c :: z)) = domainLen (codes w) := fun w => by
    rw [codes, List.map_append]
    apply domainLen_append
    refine Span.stops_cons.mpr ?_
    by_contra hd
    exact absurd (hc.symm.trans (isEmailLocalChar_of_domain (by simpa using hd))) (by decide)
  induction x, y using email_induction with
  | nil x =>
    rw [List.nil_append, emailRest_keep fun h => absurd h hat,
      emailRest_keep fun h => absurd h hat, emailRest, Remainder.nothing_andThen,
      emailRest_behind hc, emailRest_behind hc]
  | keep x d y h ih =>
    have h' : d = '@' → addressLen x (y ++ c :: z) = none := by
      rw [addressLen, hstop]
      exact h
    rw [List.cons_append, emailRest_keep h, emailRest_keep h', ih, Remainder.keep_andThen]
  | redact x w y h ih =>
    have h' : addressLen x (w ++ (y ++ c :: z)) = some w.length := by
      rw [← h, ← List.append_assoc, addressLen, addressLen, hstop]
    rw [List.cons_append, List.append_assoc, emailRest_redact h, emailRest_redact h', ih,
      Remainder.redact_andThen]

theorem whileLoop_emailRest (x y out : Text) (hfuel : y.length ≤ fuel) :
    (Loop.whileLoop (inside (x ++ y)) (emailStep (x ++ y)) fuel ⟨(asBytes x).length, out⟩).result =
      (emailRest x 0 y).finish out := by
  induction x, y using email_induction generalizing out fuel with
  | nil x =>
    rw [Loop.whileLoop_done (by simp [inside])]
    simp [emailRest, Remainder.finish]
  | keep x c y h ih =>
    obtain ⟨fuel, rfl⟩ := Nat.exists_eq_add_of_le' (Nat.lt_of_lt_of_le (Nat.succ_pos _) hfuel)
    rw [Loop.whileLoop, if_pos (inside_boundary.mpr (by simp)), emailStep_keep h,
      List.append_cons, ih _ (by simpa using hfuel), emailRest_keep h, Remainder.finish_keep]
  | redact x w y h ih =>
    have hsplit : x ++ '@' :: (w ++ y) = (x ++ '@' :: w) ++ y := by simp
    obtain ⟨fuel, rfl⟩ := Nat.exists_eq_add_of_le' (Nat.lt_of_lt_of_le (Nat.succ_pos _) hfuel)
    rw [Loop.whileLoop, if_pos (inside_boundary.mpr (by simp)), emailStep_redact h, hsplit,
      ih _ (by simp at hfuel; omega), emailRest_redact h, Remainder.finish_redact]

/-- The pass makes of its input what the remainder from the start on adds. -/
theorem stripEmails_eq (t : Text) : stripEmails t = (emailRest [] 0 t).text := by
  have hfuel : t.length ≤ (asBytes t).length := Utf8.length_le_asBytes
  have h := whileLoop_emailRest [] t [] hfuel
  simpa [stripEmails, runPass, Remainder.finish] using h

/-- In front of a character of no address only what is taken back changes. -/
theorem stripEmails_append (hc : isLocal c = false) (hat : c ≠ '@') (hy : y.head? = some c) :
    stripEmails (x ++ y) = popChars (emailRest [] 0 y).owed (stripEmails x) ++ stripEmails y := by
  obtain ⟨y, rfl⟩ := List.head?_eq_some_iff.mp hy
  simp only [stripEmails_eq, emailRest_append hc hat, Remainder.andThen]

/-- `Written t x out`: the cursor stands behind `x` and `out` is written. -/
inductive Written (t : Text) : Text → Text → Prop
  | start : Written t [] []
  | keep {x out y : Text} {c : Char} (hrun : Written t x out) (ht : t = x ++ c :: y)
      (h : c = '@' → addressLen x y = none) : Written t (x ++ [c]) (out ++ [c])
  | redact {x out w y : Text} (hrun : Written t x out) (ht : t = x ++ '@' :: (w ++ y))
      (h : addressLen x (w ++ y) = some w.length) :
      Written t (x ++ '@' :: w) (popChars (localRun x) out ++ redactedEmail)

theorem Written.finish (h : Written t x out) (ht : t = x ++ y) :
    stripEmails t = (emailRest x 0 y).finish out := by
  rw [stripEmails_eq]
  induction h generalizing y with
  | start =>
    rw [ht, List.nil_append]
    simp [Remainder.finish]
  | @keep x out z c hrun hz h ih =>
    obtain rfl : z = y := by simpa [hz] using ht
    rw [ih hz, emailRest_keep h, Remainder.finish_keep]
  | @redact x out w z hrun hz h ih =>
    obtain rfl : z = y := by simpa [hz] using ht
    rw [ih hz, emailRest_redact h, Remainder.finish_redact]

theorem no_at_in_domain (h : addressLen x (w ++ y) = some w.length) : '@' ∉ w := by
  intro hmem
  exact absurd (matched_domain (addressLen_some_iff.mp h).2 _ hmem) (by decide)

/-- The text behind a matched domain starts at or before the next `@`. -/
theorem append_at_split {u v : Text} (h : w ++ y = u ++ '@' :: v) (hw : '@' ∉ w) :
    ∃ u', u = w ++ u' ∧ y = u' ++ '@' :: v := by
  rcases List.append_eq_append_iff.mp h with ⟨u', hu, hy⟩ | ⟨w', rfl, hv⟩
  · exact ⟨u', hu, hy⟩
  · cases w' with
    | nil => exact ⟨[], by simp, hv.symm⟩
    | cons c w' =>
      obtain ⟨rfl, -⟩ := List.cons_eq_cons.mp hv
      simp at hw

/-- The cursor comes to every `@`. -/
theorem exists_written_at (h : Written t x out) (ht : t = x ++ y) (u v : Text)
    (hy : y = u ++ '@' :: v) : ∃ out', Written t (x ++ u) out' := by
  induction x, y using email_induction generalizing out u with
  | nil x => simp at hy
  | keep x c y hc ih =>
    cases u with
    | nil => exact ⟨out, by simpa using h⟩
    | cons d u =>
      obtain ⟨rfl, rfl⟩ := List.cons_eq_cons.mp hy
      simpa using ih (h.keep ht hc) (by simp [ht]) u rfl
  | redact x w y hm ih =>
    cases u with
    | nil => exact ⟨out, by simpa using h⟩
    | cons d u =>
      obtain ⟨rfl, hu⟩ := List.cons_eq_cons.mp hy
      obtain ⟨u', rfl, rfl⟩ := append_at_split hu (no_at_in_domain hm)
      simpa using ih (h.redact ht hm) (by simp [ht]) u' rfl

/-- What ends in anything but a placeholder ends in the character just read. -/
theorem Written.copied (h : Written t x (out ++ [c])) (hc : c ≠ ']') :
    ∃ x', x = x' ++ [c] ∧ Written t x' out := by
  generalize hout : out ++ [c] = out' at h
  cases h with
  | start => simp at hout
  | @keep x' out' y d hrun ht h =>
    obtain ⟨rfl, rfl⟩ : out = out' ∧ c = d := by simpa using hout
    exact ⟨x', rfl, hrun⟩
  | @redact x' out' w y hrun ht h =>
    have hlast := congrArg List.getLast? hout
    have hbracket : redactedEmail.getLast? = some ']' := rfl
    rw [List.getLast?_append, List.getLast?_append, hbracket] at hlast
    simp only [List.getLast?_singleton, Option.some_or, Option.some.injEq] at hlast
    exact absurd hlast hc

theorem Written.keep_run {u : Text} (h : Written t x out) (ht : t = x ++ (u ++ y))
    (hu : '@' ∉ u) : Written t (x ++ u) (out ++ u) := by
  induction u generalizing x out with
  | nil => simpa using h
  | cons c u ih =>
    rw [List.mem_cons, not_or] at hu
    have hstep := h.keep (by simpa using ht) fun hc => absurd hc.symm hu.1
    simpa using ih hstep (by simp [ht]) hu.2

/-- Where characters are to be taken back a placeholder follows. -/
theorem head_of_owed (x y : Text) (h : 0 < (emailRest x 0 y).owed) :
    (emailRest x 0 y).text.head? = some '[' := by
  induction x, y using email_induction with
  | nil x => simp [emailRest] at h
  | keep x c y hc ih =>
    rw [emailRest_keep hc, Remainder.keep] at h ⊢
    have hpos : 0 < (emailRest (x ++ [c]) 0 y).owed := by
      simp only at h
      omega
    simpa [hpos.ne'] using ih hpos
  | redact x w y hm ih =>
    rw [emailRest_redact hm, Remainder.redact]
    simp only
    by_cases hlong : redactedEmail.length ≤ (emailRest (x ++ '@' :: w) 0 y).owed
    · have hnil := popChars_of_length_le hlong
      rw [hnil, List.nil_append]
      apply ih
      have hlen : redactedEmail.length = 16 := rfl
      omega
    · obtain ⟨rest, hrest⟩ : ∃ rest,
          popChars (emailRest (x ++ '@' :: w) 0 y).owed redactedEmail = '[' :: rest := by
        generalize (emailRest (x ++ '@' :: w) 0 y).owed = k at hlong
        obtain ⟨m, hm⟩ := Nat.exists_eq_add_of_lt (Nat.lt_of_not_le hlong)
        exact ⟨_, by rw [popChars_eq, List.rdrop, hm, Nat.add_assoc, Nat.add_sub_cancel_left]; rfl⟩
      simp [hrest]

/-- Text without placeholders is added as it was read. -/
theorem emailRest_text {u v : Text} (h : emailRest x 0 y = ⟨0, u ++ v⟩) (hu : '[' ∉ u) :
    ∃ y', y = u ++ y' ∧ emailRest (x ++ u) 0 y' = ⟨0, v⟩ := by
  induction u generalizing x y with
  | nil => exact ⟨y, by simp, by simpa using h⟩
  | cons d u ih =>
    rw [List.mem_cons, not_or] at hu
    induction x, y using email_induction with
    | nil x => simp [emailRest] at h
    | keep x c y hc _ =>
      have howed := head_of_owed (x ++ [c]) y
      rw [emailRest_keep hc] at h
      generalize hr : emailRest (x ++ [c]) 0 y = r at h howed
      have hpred : r.owed - 1 = 0 := congrArg Remainder.owed h
      have htext := congrArg Remainder.text h
      simp only [Remainder.keep, List.cons_append] at htext
      by_cases hzero : r.owed = 0
      · rw [if_pos hzero] at htext
        obtain ⟨rfl, htail⟩ := List.cons_eq_cons.mp htext
        obtain ⟨y', rfl, hrest⟩ := ih (hr.trans (Remainder.ext hzero htail)) hu.2
        exact ⟨y', rfl, by simpa using hrest⟩
      · rw [if_neg hzero] at htext
        have hhead := howed (by omega)
        simp [htext] at hhead
        exact absurd hhead.symm hu.1
    | redact x w y hm _ =>
      have hrun := (addressLen_some_iff.mp hm).1
      rw [emailRest_redact hm] at h
      have howed := congrArg Remainder.owed h
      simp only [Remainder.redact] at howed
      omega

/-- A stretch of the output without the ends of the placeholder is one of the input. -/
theorem infix_of_infix_stripEmails {a : Text} (ho : '[' ∉ a) (he : ']' ∉ a)
    (hR : ¬ a <:+: redactedEmail) (h : a <:+: stripEmails t) : a <:+: t := by
  rw [stripEmails_eq] at h
  generalize [] = x at h
  induction x, t using email_induction with
  | nil x => exact h
  | keep x c y hc ih =>
    by_cases howed : (emailRest (x ++ [c]) 0 y).owed = 0
    · have hrest : emailRest x 0 (c :: y) = ⟨0, c :: (emailRest (x ++ [c]) 0 y).text⟩ := by
        simp [emailRest_keep hc, Remainder.keep, howed]
      rw [hrest] at h
      rcases List.infix_cons_iff.mp h with ⟨v, hv⟩ | h
      · obtain ⟨y', hy', -⟩ := emailRest_text (hrest.trans (by rw [hv])) ho
        exact ⟨[], y', by simpa using hy'.symm⟩
      · exact List.infix_cons (ih h)
    · rw [emailRest_keep hc, Remainder.keep, if_neg howed] at h
      exact List.infix_cons (ih h)
  | redact x w y hm ih =>
    rw [emailRest_redact hm, Remainder.redact] at h
    -- the cut placeholder ends before the bracket of the next one
    have hrest : a <:+: (emailRest (x ++ '@' :: w) 0 y).text := by
      rcases Nat.eq_zero_or_pos (emailRest (x ++ '@' :: w) 0 y).owed with howed | howed
      · have hwhole : popChars 0 redactedEmail = "[REDACTED_EMAIL".toList ++ [']'] := rfl
        rw [howed, hwhole, List.append_assoc, List.singleton_append] at h
        refine (Scan.infix_of_infix_separated he h).resolve_left fun hbody => hR ?_
        exact List.infix_append_of_infix_left hbody
      · obtain ⟨rest, hrest⟩ := List.head?_eq_some_iff.mp (head_of_owed _ _ howed)
        simp only [hrest, popChars_eq, List.rdrop] at h ⊢
        refine List.infix_cons ((Scan.infix_of_infix_separated ho h).resolve_left fun hcut => hR ?_)
        exact hcut.trans (List.take_prefix ..).isInfix
    exact List.infix_cons (List.infix_append_of_infix_right (ih hrest))

/-- Every `@` that is left was read and kept. -/
theorem exists_written_of_at {A B : Text} (hE : stripEmails t = A ++ '@' :: B) :
    ∃ x y, t = x ++ '@' :: y ∧ addressLen x y = none ∧ Written t x A ∧
      emailRest (x ++ ['@']) 0 y = ⟨0, B⟩ := by
  have run : ∀ x y out, Written t x out → t = x ++ y →
      (emailRest x 0 y).finish out = A ++ '@' :: B →
      out.length - (emailRest x 0 y).owed ≤ A.length →
      ∃ x y, t = x ++ '@' :: y ∧ addressLen x y = none ∧ Written t x A ∧
        emailRest (x ++ ['@']) 0 y = ⟨0, B⟩ := by
    intro x y
    induction x, y using email_induction with
    | nil x =>
      intro out _ _ hfinish hlen
      obtain rfl : out = A ++ '@' :: B := by simpa [emailRest, Remainder.finish] using hfinish
      simp only [emailRest, Nat.sub_zero, List.length_append, List.length_cons] at hlen
      omega
    | keep x c y hc ih =>
      intro out hrun ht hfinish hlen
      rw [emailRest_keep hc, Remainder.finish_keep] at hfinish
      rw [emailRest_keep hc] at hlen
      by_cases hlater : (out ++ [c]).length - (emailRest (x ++ [c]) 0 y).owed ≤ A.length
      · exact ih _ (hrun.keep ht hc) (by simp [ht]) hfinish hlater
      · generalize hr : emailRest (x ++ [c]) 0 y = r at hfinish hlen hlater
        simp only [List.length_append, List.length_singleton] at hlater
        simp only [Remainder.keep] at hlen
        have howed : r.owed = 0 := by omega
        have hsplit : out ++ c :: r.text = A ++ '@' :: B := by
          simpa [Remainder.finish, howed] using hfinish
        obtain ⟨rfl, htail⟩ := List.append_inj hsplit (by omega)
        obtain ⟨rfl, rfl⟩ := List.cons_eq_cons.mp htail
        exact ⟨x, y, ht, hc rfl, hrun, hr.trans (Remainder.ext howed rfl)⟩
    | redact x w y hm ih =>
      intro out hrun ht hfinish hlen
      rw [emailRest_redact hm, Remainder.finish_redact] at hfinish
      rw [emailRest_redact hm] at hlen
      refine ih _ (hrun.redact ht hm) (by simp [ht]) hfinish ?_
      -- the placeholder holds no `@`
      generalize emailRest (x ++ '@' :: w) 0 y = r at hfinish hlen
      have hkept : (popChars (localRun x) out).length = out.length - localRun x := popChars_length
      generalize popChars (localRun x) out = kept at hfinish hkept ⊢
      have hR : redactedEmail.length = 16 := rfl
      simp only [Remainder.redact, hR] at hlen
      rw [List.length_append, hR]
      by_contra hshort
      have hzero : r.owed - redactedEmail.length = 0 := by omega
      rw [Remainder.finish, popChars_append, hzero, popChars_zero, List.append_assoc] at hfinish
      obtain ⟨a, rfl⟩ : kept <+: A :=
        List.prefix_of_prefix_length_le (hfinish ▸ List.prefix_append ..) (List.prefix_append ..)
          (by omega)
      rw [List.append_assoc, List.append_cancel_left_eq] at hfinish
      have hat : '@' ∉ popChars r.owed redactedEmail := by
        rw [popChars_eq, List.rdrop]
        intro hmem
        exact absurd (List.mem_of_mem_take hmem) (by decide)
      obtain ⟨u, rfl, -⟩ := append_at_split hfinish hat
      simp only [List.length_append, popChars_length, hR] at hshort
      omega
  refine run [] t [] .start rfl ?_ (by simp)
  rw [← hE, stripEmails_eq]
  simp [Remainder.finish]

end ProviiAudit
