import ProviiAudit.Sanitize.Emails

/-! Which placeholders of the email pass stay whole.

The characters that a match takes back are counted on the input. Behind an earlier address they
stand for its placeholder, of which a short domain takes back only a part. -/
namespace ProviiAudit

open Utf8 (Text)

variable {m t u w x y z o : Text} {c : Char} {k : Nat}

/-- How far the addresses in the rest of the text reach back in front of it, an address itself
being as long as its placeholder. -/
def reach : Text → Nat → Text → Nat
  | _, _, [] => 0
  | x, skip + 1, c :: y => reach (x ++ [c]) skip y
  | x, 0, c :: y =>
    match if c = '@' then addressLen x y else none with
    | some n => localRun x + (reach (x ++ [c]) n y - redactedEmail.length)
    | none => reach (x ++ [c]) 0 y - 1

/-- What the pass takes back is what the addresses reach back. -/
theorem owed_eq_reach (x : Text) (k : Nat) (y : Text) : (emailRest x k y).owed = reach x k y := by
  induction y generalizing x k with
  | nil => cases k <;> rfl
  | cons c y ih =>
    cases k with
    | succ k => exact ih _ _
    | zero =>
      rw [emailRest, reach]
      cases if c = '@' then addressLen x y else none with
      | none => simp [Remainder.keep, ih]
      | some n => simp [Remainder.redact, ih]

/-- Addresses that reach back into an earlier one take all of its placeholder. -/
def Uncut (t : Text) : Prop :=
  ∀ x w y, t = x ++ '@' :: (w ++ y) → addressLen x (w ++ y) = some w.length →
    reach (x ++ '@' :: w) 0 y = 0 ∨ redactedEmail.length ≤ reach (x ++ '@' :: w) 0 y

/-- The output is the input with a placeholder for each of some stretches with an `@`. -/
inductive Spans : Text → Text → Prop
  | nil : Spans [] []
  | keep {y o : Text} (c : Char) : Spans y o → Spans (c :: y) (c :: o)
  | redact {m y o : Text} : '@' ∈ m → Spans y o → Spans (m ++ y) (redactedEmail ++ o)

/-- Each of `ps` is a stretch that is replaced with the text that follows it. -/
theorem spans_iff : Spans t o ↔ ∃ (u : Text) (ps : List (Text × Text)),
    t = u ++ ps.flatMap (fun p => p.1 ++ p.2) ∧ (∀ p ∈ ps, p.1 ≠ [] ∧ '@' ∈ p.1) ∧
      o = u ++ ps.flatMap fun p => redactedEmail ++ p.2 := by
  constructor
  · intro h
    induction h with
    | nil => exact ⟨[], [], rfl, by simp, rfl⟩
    | keep c _ ih =>
      obtain ⟨u, ps, rfl, hps, rfl⟩ := ih
      exact ⟨c :: u, ps, rfl, hps, rfl⟩
    | @redact m _ _ hm _ ih =>
      obtain ⟨u, ps, rfl, hps, rfl⟩ := ih
      refine ⟨[], (m, u) :: ps, by simp, ?_, by simp⟩
      rw [List.forall_mem_cons]
      exact ⟨⟨List.ne_nil_of_mem hm, hm⟩, hps⟩
  · rintro ⟨u, ps, rfl, hps, rfl⟩
    have hrun : ∀ {y o} (u : Text), Spans y o → Spans (u ++ y) (u ++ o) := by
      intro y o u h
      induction u with
      | nil => exact h
      | cons c u ih => exact ih.keep c
    apply hrun
    induction ps with
    | nil => exact .nil
    | cons p ps ih =>
      rw [List.forall_mem_cons] at hps
      rw [List.flatMap_cons, List.flatMap_cons, List.append_assoc, List.append_assoc]
      exact .redact hps.1.2 (hrun p.2 (ih hps.2))

/-- What the pass makes of the rest: stretches are replaced, and where characters are taken back
the first of them begins with the rest. -/
structure Replaces (y : Text) (r : Remainder) : Prop where
  spans : Spans y r.text
  owed : 0 < r.owed → ∃ e z o, y = e ++ z ∧ '@' ∈ e ∧ r.text = redactedEmail ++ o ∧ Spans z o

theorem replaces_rest (ht : Uncut t) (h : t = x ++ y) : Replaces y (emailRest x 0 y) := by
  induction x, y using email_induction with
  | nil x => exact ⟨.nil, fun hpos => absurd hpos (by simp [emailRest])⟩
  | keep x c y hc ih =>
    have hr := ih (by simp [h])
    rw [emailRest_keep hc]
    generalize emailRest (x ++ [c]) 0 y = r at hr
    rcases Nat.eq_zero_or_pos r.owed with hzero | hpos
    · have hkeep : r.keep c = ⟨0, c :: r.text⟩ := by simp [Remainder.keep, hzero]
      rw [hkeep]
      exact ⟨hr.spans.keep c, fun hpos => absurd hpos (Nat.lt_irrefl 0)⟩
    · obtain ⟨e, z, o, rfl, he, htext, hz⟩ := hr.owed hpos
      have hkeep : (r.keep c).text = redactedEmail ++ o := by simp [Remainder.keep, hpos.ne', htext]
      have hce : '@' ∈ c :: e := List.mem_cons_of_mem c he
      refine ⟨?_, fun _ => ⟨c :: e, z, o, rfl, hce, hkeep, hz⟩⟩
      rw [hkeep, ← List.cons_append]
      exact .redact hce hz
  | redact x w y hm ih =>
    have hr := ih (by simp [h])
    have huncut := ht x w y h hm
    rw [← owed_eq_reach] at huncut
    rw [emailRest_redact hm]
    generalize emailRest (x ++ '@' :: w) 0 y = r at hr huncut
    obtain ⟨e, z, o, hy, he, htext, hz⟩ : ∃ e z o, '@' :: (w ++ y) = e ++ z ∧ '@' ∈ e ∧
        (r.redact (localRun x)).text = redactedEmail ++ o ∧ Spans z o := by
      rcases huncut with hzero | hlong
      · exact ⟨'@' :: w, y, r.text, rfl, List.mem_cons_self, by simp [Remainder.redact, hzero],
          hr.spans⟩
      · have hlen : redactedEmail.length = 16 := rfl
        obtain ⟨e, z, o, rfl, he, htext, hz⟩ := hr.owed (by omega)
        refine ⟨'@' :: (w ++ e), z, o, by simp, List.mem_cons_self, ?_, hz⟩
        simp [Remainder.redact, popChars_of_length_le hlong, htext]
    refine ⟨?_, fun _ => ⟨e, z, o, hy, he, htext, hz⟩⟩
    rw [hy, htext]
    exact .redact he hz

theorem spans_of_uncut (ht : Uncut t) : Spans t (stripEmails t) := by
  rw [stripEmails_eq]
  exact (replaces_rest ht rfl).spans

/-- The output ends in what a match makes of the text from its `@` on. -/
theorem suffix_of_match (h : y = u ++ '@' :: (w ++ z))
    (hm : addressLen (x ++ u) (w ++ z) = some w.length) :
    ((emailRest (x ++ u ++ '@' :: w) 0 z).redact (localRun (x ++ u))).text <:+
      (emailRest x 0 y).text := by
  induction x, y using email_induction generalizing u with
  | nil x => simp at h
  | keep x c y hc ih =>
    cases u with
    | nil =>
      obtain ⟨rfl, rfl⟩ := List.cons_eq_cons.mp h
      rw [List.append_nil, hc rfl] at hm
      simp at hm
    | cons d u =>
      obtain ⟨rfl, rfl⟩ := List.cons_eq_cons.mp h
      have hrest := ih rfl (by simpa using hm)
      rw [emailRest_keep hc, Remainder.keep]
      rw [List.append_assoc, List.singleton_append] at hrest
      split_ifs
      · exact hrest.trans (List.suffix_cons ..)
      · exact hrest
  | redact x v y hv ih =>
    cases u with
    | nil =>
      obtain ⟨-, hy⟩ := List.cons_eq_cons.mp h
      rw [List.append_nil] at hm ⊢
      rw [hy, hm, Option.some.injEq] at hv
      obtain ⟨rfl, rfl⟩ := List.append_inj hy hv.symm
      rw [emailRest_redact hm]
    | cons d u =>
      obtain ⟨rfl, hy⟩ := List.cons_eq_cons.mp h
      obtain ⟨u, rfl, rfl⟩ := append_at_split hy (no_at_in_domain hv)
      have hrest := ih rfl (by simpa using hm)
      rw [emailRest_redact hv, Remainder.redact]
      rw [List.append_assoc, List.cons_append] at hrest
      exact hrest.trans (List.suffix_append ..)

/-- A bracket in the output is that of a whole placeholder. -/
theorem Spans.bracket {a b : Text} (h : Spans t (a ++ '[' :: b)) (ht : '[' ∉ t) :
    redactedEmail <+: '[' :: b := by
  generalize ho : a ++ '[' :: b = o at h
  induction h generalizing a with
  | nil => simp at ho
  | keep c _ ih =>
    rw [List.mem_cons, not_or] at ht
    cases a with
    | nil => exact absurd (List.cons_eq_cons.mp ho).1 ht.1
    | cons d a => exact ih ht.2 (List.cons_eq_cons.mp ho).2
  | @redact m y o _ _ ih =>
    rw [List.mem_append, not_or] at ht
    rcases List.append_eq_append_iff.mp ho with ⟨v, hv, hb⟩ | ⟨v, hv, hb⟩
    · cases a with
      | nil =>
        rw [List.nil_append] at ho
        rw [ho]
        exact List.prefix_append ..
      | cons d a =>
        cases v with
        | nil => exact ih (a := []) ht.2 hb
        | cons e v =>
          obtain ⟨rfl, -⟩ := List.cons_eq_cons.mp hb
          have hinside : '[' ∈ redactedEmail.tail := by simp [hv]
          exact absurd hinside (by decide)
    · exact ih ht.2 (by rw [hb])

/-- A part of the placeholder with another one behind it is not a placeholder. -/
theorem cut_not_whole (hk : 0 < k) (hlt : k < redactedEmail.length)
    (hy : y.head? = some '[') : ¬ redactedEmail <+: redactedEmail.take k ++ y := by
  rintro ⟨v, hv⟩
  obtain ⟨y, rfl⟩ := List.head?_eq_some_iff.mp hy
  have hat := congrArg (·[k]?) hv
  have hlen : (redactedEmail.take k).length = k := List.length_take_of_le hlt.le
  simp only [List.getElem?_append_left hlt, List.getElem?_append_right hlen.le, hlen, Nat.sub_self,
    List.getElem?_cons_zero] at hat
  obtain ⟨j, rfl⟩ := Nat.exists_eq_add_of_lt hk
  have hinside : '[' ∈ redactedEmail.tail := by
    apply List.mem_of_getElem? (i := j)
    rw [List.getElem?_tail]
    simpa using hat
  exact absurd hinside (by decide)

theorem uncut_of_spans (ht : '[' ∉ t) (h : Spans t (stripEmails t)) : Uncut t := by
  intro x w y hsplit hm
  by_contra hcut
  rw [not_or, Nat.not_le, ← owed_eq_reach] at hcut
  have hpos := Nat.pos_of_ne_zero hcut.1
  have hhead := head_of_owed _ _ hpos
  obtain ⟨a, ha⟩ := suffix_of_match (x := []) (u := x) (by simpa using hsplit) (by simpa using hm)
  rw [← stripEmails_eq] at ha
  rw [← ha] at h
  simp only [List.nil_append, Remainder.redact, popChars_eq, List.rdrop] at h
  generalize emailRest (x ++ '@' :: w) 0 y = r at h hcut hpos hhead
  have hk : 0 < redactedEmail.length - r.owed := by omega
  obtain ⟨b, hb⟩ : ∃ b, redactedEmail.take (redactedEmail.length - r.owed) = '[' :: b := by
    obtain ⟨j, hj⟩ := Nat.exists_eq_add_of_lt hk
    rw [hj, Nat.zero_add]
    exact ⟨_, rfl⟩
  rw [hb, List.cons_append] at h
  have hwhole := h.bracket ht
  rw [← List.cons_append, ← hb] at hwhole
  exact cut_not_whole hk (by omega) hhead hwhole

/-- The email pass replaces stretches that contain an `@` and keeps everything else, where
addresses that reach into an earlier one take all of its placeholder. For an input without a
bracket the converse holds too. -/
theorem stripEmails_keeps_rest (s : Text) :
    (Uncut s → ∃ (u : Text) (ps : List (Text × Text)),
      s = u ++ ps.flatMap (fun p => p.1 ++ p.2) ∧ (∀ p ∈ ps, p.1 ≠ [] ∧ '@' ∈ p.1) ∧
        stripEmails s = u ++ ps.flatMap fun p => redactedEmail ++ p.2) ∧
    ('[' ∉ s → (∃ (u : Text) (ps : List (Text × Text)),
      s = u ++ ps.flatMap (fun p => p.1 ++ p.2) ∧ (∀ p ∈ ps, p.1 ≠ [] ∧ '@' ∈ p.1) ∧
        stripEmails s = u ++ ps.flatMap fun p => redactedEmail ++ p.2) → Uncut s) := by
  rw [← spans_iff]
  exact ⟨spans_of_uncut, uncut_of_spans⟩

theorem stripEmails_keeps_rest_sample : Uncut "to a@b.cc, c@d.ee".toList :=
  (stripEmails_keeps_rest "to a@b.cc, c@d.ee".toList).2 (by decide)
    ⟨"to ".toList, [("a@b.cc".toList, ", ".toList), ("c@d.ee".toList, [])], by decide, by decide,
      by decide +kernel⟩

/-- The second address takes back `b.cc`, which is no longer there, and with it the end of the
first placeholder. -/
theorem placeholder_cut : ¬ ∃ (u : Text) (ps : List (Text × Text)),
    "a@b.cc@d.ee".toList = u ++ ps.flatMap (fun p => p.1 ++ p.2) ∧
      (∀ p ∈ ps, p.1 ≠ [] ∧ '@' ∈ p.1) ∧
        stripEmails "a@b.cc@d.ee".toList = u ++ ps.flatMap fun p => redactedEmail ++ p.2 := by
  rw [← spans_iff]
  intro h
  have huncut := uncut_of_spans (by decide) h "a".toList "b.cc".toList "@d.ee".toList
    (by decide) (by decide)
  exact absurd huncut (by decide +kernel)

end ProviiAudit
