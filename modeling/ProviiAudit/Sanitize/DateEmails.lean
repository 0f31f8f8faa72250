import ProviiAudit.Sanitize.DatePasses

/-! What the email pass leaves of a date.

A domain in front of the date takes all of it or nothing. The addresses behind it take back
characters from its end. -/
namespace ProviiAudit

open Utf8 (Text asBytes byteOf)
open Span (Stops)
open Scan (Framed lastOr lastOr_append lastOr_cons)

variable {L : DateLayout} {F : Text → Framed Char} {X Y a a' b d d' e out x y y' : Text}
  {i k n : Nat} {q : Option Char}

/-- The output when the cursor has passed `x`, in front of `y`, and how many characters of `y` a
domain that begins in `x` takes. -/
def emailTo : Text → Text → Nat → Text → Text → Text × Nat
  | _, out, skip, [], _ => (out, skip)
  | a, out, skip + 1, c :: x, y => emailTo (a ++ [c]) out skip x y
  | a, out, 0, c :: x, y =>
    match if c = '@' then addressLen a (x ++ y) else none with
    | some n => emailTo (a ++ [c]) (popChars (localRun a) out ++ redactedEmail) n x y
    | none => emailTo (a ++ [c]) (out ++ [c]) 0 x y

theorem finish_emailTo : (emailRest a k (x ++ y)).finish out =
    (emailRest (a ++ x) (emailTo a out k x y).2 y).finish (emailTo a out k x y).1 := by
  induction x generalizing a out k with
  | nil => simp [emailTo]
  | cons c x ih =>
    cases k with
    | succ k => simpa [emailRest, emailTo] using ih (a := a ++ [c])
    | zero =>
      rw [List.cons_append, emailRest, emailTo]
      cases if c = '@' then addressLen a (x ++ y) else none with
      | none =>
        simp only [Remainder.finish_keep, ih]
        simp
      | some n =>
        simp only [Remainder.finish_redact, ih]
        simp

/-- The pass over a stretch without `@` of which `k` characters are taken. -/
theorem finish_stretch (he : '@' ∉ e) : (emailRest a k (e ++ y)).finish out =
    (emailRest (a ++ e) (k - e.length) y).finish (out ++ e.drop k) := by
  induction e generalizing a out k with
  | nil => simp
  | cons c e ih =>
    rw [List.mem_cons, not_or] at he
    cases k with
    | succ k => simpa [emailRest] using ih (a := a ++ [c]) he.2
    | zero =>
      rw [List.cons_append, emailRest_keep fun hc => absurd hc.symm he.1, Remainder.finish_keep,
        ih he.2]
      simp

/-- The email pass on what surrounds a stretch without `@`. -/
def emailPass (f : Framed Char) : Framed Char :=
  let w := emailTo [] [] 0 f.before (f.left ++ f.behind)
  let r := emailRest (f.before ++ f.left) (w.2 - f.left.length) f.behind
  let left := f.left.drop w.2
  ⟨popChars (r.owed - left.length) w.1, popChars r.owed left, r.text⟩

theorem whole_emailPass {f : Framed Char} (h : '@' ∉ f.left) :
    (emailPass f).whole = stripEmails f.whole := by
  have hfinish : (emailRest [] 0 f.whole).finish [] = stripEmails f.whole := by
    simp [stripEmails_eq, Remainder.finish]
  rw [← hfinish, Framed.whole, Framed.whole, finish_emailTo, finish_stretch h, Remainder.finish,
    popChars_append]
  simp [emailPass]

theorem addressLen_congr (h : SameShape (codes y) (codes y')) :
    addressLen a y = addressLen a y' := by
  rw [addressLen, addressLen, h.domainLen]

/-- Only the addresses whose `@` is passed see what is behind. -/
theorem emailTo_congr_at (h : ∀ u v, x = u ++ '@' :: v →
      addressLen (a ++ u) (v ++ y) = addressLen (a ++ u) (v ++ y')) :
    emailTo a out k x y = emailTo a out k x y' := by
  induction x generalizing a out k with
  | nil => rfl
  | cons c x ih =>
    have hnext : ∀ u v, x = u ++ '@' :: v →
        addressLen (a ++ [c] ++ u) (v ++ y) = addressLen (a ++ [c] ++ u) (v ++ y') := by
      intro u v hx
      simpa using h (c :: u) v (by rw [hx, List.cons_append])
    cases k with
    | succ k => exact ih hnext
    | zero =>
      have hlen : (if c = '@' then addressLen a (x ++ y) else none) =
          if c = '@' then addressLen a (x ++ y') else none := by
        split_ifs with hc
        · simpa using h [] x (by rw [hc, List.nil_append])
        · rfl
      rw [emailTo, emailTo, hlen]
      cases if c = '@' then addressLen a (x ++ y') else none with
      | none => exact ih hnext
      | some n => exact ih hnext

theorem emailTo_congr (h : SameShape (codes y) (codes y')) :
    emailTo a out k x y = emailTo a out k x y' := by
  refine emailTo_congr_at fun u v _ => addressLen_congr ?_
  simpa [codes] using (sameShape_refl (codes v)).append h

theorem localRun_congr (h : SameShape (codes a) (codes a')) : localRun a = localRun a' := by
  have hrun : ∀ a : Text, localRun a =
      ((codes a).reverse.takeWhile isEmailLocalChar).length := by
    intro a
    have hlocal : isEmailLocalChar ∘ byteOf = isLocal := rfl
    rw [localRun, List.rtakeWhile, List.length_reverse, codes, ← List.map_reverse,
      List.takeWhile_map, List.length_map, hlocal]
  have hrev : SameShape (codes a).reverse (codes a').reverse := by
    rw [SameShape, List.map_reverse, List.map_reverse, h]
  rw [hrun, hrun a', hrev.takeWhile blind_local]

theorem emailRest_congr (h : SameShape (codes a) (codes a')) :
    emailRest a k y = emailRest a' k y := by
  refine emailRest_of_run fun u => localRun_congr ?_
  simpa [codes] using h.append (sameShape_refl (codes u))

theorem emailTo_last (hlast : out.getLast? = q ∨ out.getLast? = some ']')
    (hskip : 0 < k → out.getLast? = some ']') :
    (emailTo a out k x y).1.getLast? = lastOr q x ∨
      (emailTo a out k x y).1.getLast? = some ']' := by
  induction x generalizing a out k q with
  | nil => exact hlast
  | cons c x ih =>
    rw [lastOr_cons]
    cases k with
    | succ k => exact ih (.inr (hskip k.succ_pos)) fun _ => hskip k.succ_pos
    | zero =>
      rw [emailTo]
      cases if c = '@' then addressLen a (x ++ y) else none with
      | none => exact ih (.inl (by simp)) fun h => absurd h (Nat.lt_irrefl 0)
      | some n =>
        have hR : (popChars (localRun a) out ++ redactedEmail).getLast? = some ']' := by
          have hbracket : redactedEmail.getLast? = some ']' := rfl
          simp [List.getLast?_append, hbracket]
        exact ih (.inr hR) fun _ => hR

/-- What is taken behind `x` belongs to the characters to skip, or to a domain that begins in
`x`. -/
theorem emailTo_over (h : 0 < (emailTo a out k x y).2) : k = x.length + (emailTo a out k x y).2 ∨
    ∃ u v, x = u ++ '@' :: v ∧
      addressLen (a ++ u) (v ++ y) = some (v.length + (emailTo a out k x y).2) := by
  induction x generalizing a out k with
  | nil => exact .inl (Nat.zero_add _).symm
  | cons c x ih =>
    have behind : ∀ {out j}, 0 < (emailTo (a ++ [c]) out j x y).2 →
        j = x.length + (emailTo (a ++ [c]) out j x y).2 ∨ ∃ u v, c :: x = u ++ '@' :: v ∧
          addressLen (a ++ u) (v ++ y) = some (v.length + (emailTo (a ++ [c]) out j x y).2) := by
      intro out j hpos
      refine (ih hpos).imp_right ?_
      rintro ⟨u, v, rfl, hlen⟩
      exact ⟨c :: u, v, rfl, by simpa using hlen⟩
    cases k with
    | succ k => exact (behind h).imp_left fun hk => by rw [emailTo, List.length_cons]; omega
    | zero =>
      rw [emailTo] at h ⊢
      cases hm : if c = '@' then addressLen a (x ++ y) else none with
      | none =>
        rw [hm] at h
        refine (behind h).imp_left fun hk => ?_
        dsimp only at h
        omega
      | some n =>
        rw [hm] at h
        have hat : c = '@' := by
          by_contra hne
          simp [hne] at hm
        rw [if_pos hat] at hm
        rcases behind h with hk | hmatch
        · refine .inr ⟨[], x, by rw [hat]; rfl, ?_⟩
          rw [List.append_nil, hm]
          exact congrArg some hk
        · exact .inr hmatch

/-- A domain ends in a letter. -/
theorem domainLen_letter {b : Bytes} (h : domainLen b = some n) :
    (b[n - 1]?).any isAsciiAlphabetic = true := by
  obtain ⟨l, t, rest, hs, rfl⟩ := domainLen_some_iff.mp h
  obtain ⟨t', c, ht⟩ : ∃ t' c, t = t' ++ [c] := by
    rcases List.eq_nil_or_concat t with rfl | ⟨t', c, rfl⟩
    · exact absurd hs.two_le (by simp)
    · exact ⟨t', c, List.concat_eq_append⟩
  have hsplit : b = (l ++ byteOf '.' :: t') ++ c :: rest := by simp [hs.split, ht]
  have hindex : l.length + 1 + t.length - 1 = (l ++ byteOf '.' :: t').length := by
    rw [ht]
    simp
    omega
  rw [hindex, hsplit, List.getElem?_append_right le_rfl, Nat.sub_self, List.getElem?_cons_zero]
  exact hs.tld c (by simp [ht])

theorem not_letter_of_date {c : UInt8} (h : isDateChar c = true) :
    isAsciiAlphabetic c = false := by
  simp only [isDateChar, Bool.or_eq_true, beq_iff_eq] at h
  rcases h with ((h | rfl) | rfl) | rfl
  · have hblank : blank c = blank (byteOf '0') := by
      rw [blank, if_pos h]
      rfl
    rw [blind_alphabetic.congr hblank]
    decide
  all_goals decide

/-- A domain takes all of a date or nothing. -/
theorem emailTo_date (he : ∀ c ∈ e, isDateChar (byteOf c) = true) :
    (emailTo [] [] 0 x (e ++ y)).2 = 0 ∨ e.length < (emailTo [] [] 0 x (e ++ y)).2 := by
  rcases Nat.eq_zero_or_pos (emailTo [] [] 0 x (e ++ y)).2 with hzero | hpos
  · exact .inl hzero
  · right
    by_contra hle
    obtain ⟨u, v, -, hm⟩ := (emailTo_over hpos).resolve_left (by omega)
    have hletter := domainLen_letter (addressLen_some_iff.mp hm).2
    generalize (emailTo [] [] 0 x (e ++ y)).2 = n at hpos hle hletter
    have hlt : n - 1 < e.length := by omega
    have hindex : v.length + n - 1 = v.length + (n - 1) := by omega
    rw [hindex, codes, List.map_append, List.getElem?_append_right (by simp), List.length_map,
      Nat.add_sub_cancel_left, List.map_append, List.getElem?_append_left (by simpa using hlt),
      List.getElem?_map, List.getElem?_eq_getElem hlt, Option.map_some, Option.any_some,
      not_letter_of_date (he _ (List.getElem_mem hlt))] at hletter
    exact absurd hletter (by decide)

theorem emailRest_opens (hY : Opens Y) (howed : (emailRest a 0 Y).owed = 0) :
    Opens (emailRest a 0 Y).text := by
  refine hY.of_prefix fun u hu hpre => ?_
  obtain ⟨v, hv⟩ := hpre
  obtain ⟨y, rfl, -⟩ := emailRest_text (x := a) (y := Y) (Remainder.ext howed hv.symm) hu
  exact List.prefix_append u y

theorem emailRest_bracket (hY : Y.head? = some '[') :
    (emailRest a 0 Y).text.head? = some '[' := by
  obtain ⟨Y, rfl⟩ := List.head?_eq_some_iff.mp hY
  rw [emailRest_keep fun hc => absurd hc (by decide), Remainder.keep]
  split_ifs with howed
  · rfl
  · exact head_of_owed _ _ (Nat.pos_of_ne_zero howed)

theorem DateLayout.Accepts.no_at (h : L.Accepts d) : '@' ∉ d :=
  fun hmem => absurd (h.chars _ hmem) (by decide)

/-- The pass takes the same part of every date, and writes the same around it. -/
theorem Grouped.frame_emails (h : Grouped L F X Y i k) (hd : L.Accepts d) (hd' : L.Accepts d') :
    let w := emailTo [] [] 0 X ((d.drop i).take k ++ Y)
    let r := emailRest (X ++ (d.drop i).take k) (w.2 - k) Y
    emailPass (F d') = ⟨popChars (r.owed - (k - w.2)) w.1,
      popChars r.owed (((d'.drop i).take k).drop w.2), r.text⟩ := by
  have hw : emailTo [] [] 0 X ((d'.drop i).take k ++ Y) =
      emailTo [] [] 0 X ((d.drop i).take k ++ Y) :=
    emailTo_congr (h.alike_around (u := X) (v := []) hd' hd (by simp)).shape
  have hr : ∀ n, emailRest (X ++ (d'.drop i).take k) n Y =
      emailRest (X ++ (d.drop i).take k) n Y := by
    refine fun n => emailRest_congr ?_
    simpa [codes] using (sameShape_refl (codes X)).append (h.alike hd' hd).shape
  simp only [emailPass, h.frame d' hd', hw, h.length hd', hr, List.length_drop]

/-- The email pass leaves the same of every date. -/
theorem Grouped.emails (h : Grouped L F X Y i k) (hd : L.Accepts d) :
    Gone L (fun d => emailPass (F d)) ∨
      ∃ X' Y' k', Shown L (fun d => emailPass (F d)) X' Y' i k' := by
  have hpass := fun d' (hd' : L.Accepts d') => h.frame_emails hd hd'
  have hlast : (emailTo [] [] 0 X ((d.drop i).take k ++ Y)).1.getLast? = lastOr none X ∨
      (emailTo [] [] 0 X ((d.drop i).take k ++ Y)).1.getLast? = some ']' :=
    emailTo_last (.inl rfl) fun h => absurd h (Nat.lt_irrefl 0)
  have hchars : ∀ c ∈ (d.drop i).take k, isDateChar (byteOf c) = true :=
    fun c hc => hd.chars c (List.mem_of_mem_drop (List.mem_of_mem_take hc))
  have hover := emailTo_date (x := X) (y := Y) hchars
  rw [h.length hd] at hover
  rw [lastOr, Option.or_none] at hlast
  generalize emailTo [] [] 0 X ((d.drop i).take k ++ Y) = w at hpass hlast hover
  dsimp only at hpass
  obtain ⟨r, hr⟩ : ∃ r, emailRest (X ++ (d.drop i).take k) (w.2 - k) Y = r := ⟨_, rfl⟩
  rw [hr] at hpass
  by_cases hgone : k < w.2 ∨ k ≤ r.owed
  · refine .inl ⟨popChars (r.owed - (k - w.2)) w.1, r.text, fun d' hd' => ?_⟩
    have hnil : popChars r.owed (((d'.drop i).take k).drop w.2) = [] := by
      apply popChars_of_length_le
      rw [List.length_drop, h.length hd']
      omega
    exact (hpass d' hd').trans (by rw [hnil])
  · rw [not_or, Nat.not_lt, Nat.not_le] at hgone
    have hzero : w.2 = 0 := by omega
    rw [hzero, Nat.zero_sub] at hr
    have hle := h.le
    refine .inr ⟨w.1, r.text, k - r.owed,
      ?_, by omega, by omega, h.cutFront, ?_, ?_, ?_, ?_, h.read⟩
    · intro d' hd'
      rw [hpass d' hd', hzero, List.drop_zero, Nat.sub_zero, Nat.sub_eq_zero_of_le hgone.2.le,
        popChars_zero, popChars_eq, List.rdrop, h.length hd', List.take_take,
        Nat.min_eq_left (Nat.sub_le ..)]
    · intro hi
      rcases hlast with hlast | hlast
      · rw [hlast]
        exact h.wholeFront hi
      · rw [hlast]
        decide
    · intro hi
      rwa [h.brokenFront hi, or_self] at hlast
    · intro hten
      have howed : r.owed = 0 := by omega
      rw [← hr] at howed ⊢
      exact emailRest_opens (h.wholeBack (by omega)) howed
    · intro hten
      rcases Nat.eq_zero_or_pos r.owed with howed | howed
      · rw [← hr]
        exact emailRest_bracket (h.brokenBack (by omega))
      · rw [← hr] at howed ⊢
        exact head_of_owed _ _ howed

end ProviiAudit
