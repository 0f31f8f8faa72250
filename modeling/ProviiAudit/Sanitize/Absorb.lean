import ProviiAudit.Sanitize.Cuts
import ProviiAudit.Sanitize.DateEmails

/-! What the email pass makes of digits and dots that a dot ends.

They may lie in the domain of an address whose `@` stands before them, and in the local part of
one whose `@` stands behind. -/
namespace ProviiAudit

open Utf8 (Text byteOf)
open Span (Stops)

variable {A B l u v w x y y' z : Text} {c : Char} {b : Bytes}

/-- An address whose `@` stands in `A` has what follows `A` in its domain. -/
def InDomain (A B : Text) : Prop :=
  ∃ u v, A = u ++ '@' :: v ∧ (∀ c ∈ v, isDomainChar (byteOf c) = true) ∧ localRun u ≠ 0 ∧
    domainLen (codes ('.' :: B)) ≠ none

/-- An address whose `@` stands in `B` has what precedes `B` in its local part. -/
def InLocal (B : Text) : Prop :=
  ∃ y z, B = y ++ '@' :: z ∧ (∀ c ∈ y, isLocal c = true) ∧ domainLen (codes z) ≠ none

theorem isDomainChar_of_ipv4 {c : UInt8} (h : isIpv4Adjacent c = true) :
    isDomainChar c = true := by
  simp only [isIpv4Adjacent, Bool.or_eq_true] at h
  rcases h with h | h
  · simp [isDomainChar, isAsciiAlphanumeric, h]
  · simp [isDomainChar, h]

/-- In front of a dot any domain characters may stand. -/
theorem domainLen_before_dot {w : Bytes} (hw : ∀ c ∈ w, isDomainChar c = true) :
    domainLen (w ++ byteOf '.' :: b) = (domainLen (byteOf '.' :: b)).map (w.length + ·) := by
  ext n
  simp only [Option.map_eq_some_iff, domainLen_some_iff]
  constructor
  · rintro ⟨d, t, rest, h, rfl⟩
    have hdot : byteOf '.' ∉ t := fun hmem => absurd (h.tld _ hmem) (by decide)
    have hrun := h.run
    rw [List.takeWhile_append_of_pos hw, List.takeWhile_cons_of_pos (by decide)] at hrun
    obtain ⟨d', rfl⟩ : ∃ d', d = w ++ d' := by
      rcases List.append_eq_append_iff.mp hrun with ⟨d', hd, -⟩ | ⟨w', rfl, ht⟩
      · exact ⟨d', hd⟩
      · cases w' with
        | nil => exact ⟨[], by simp⟩
        | cons c w' =>
          obtain ⟨-, rfl⟩ := List.cons_eq_cons.mp ht
          simp at hdot
    have hsplit := h.split
    rw [List.append_assoc, List.append_cancel_left_eq] at hsplit
    refine ⟨d'.length + 1 + t.length, ⟨d', t, rest, ⟨hsplit, ?_, h.tld, h.two_le, h.ends⟩, rfl⟩, ?_⟩
    · exact fun c hc => h.labels c (List.mem_append_right w hc)
    · rw [List.length_append]
      omega
  · rintro ⟨k, ⟨d, t, rest, h, rfl⟩, rfl⟩
    refine ⟨w ++ d, t, rest, ⟨?_, ?_, h.tld, h.two_le, h.ends⟩, ?_⟩
    · rw [h.split, List.append_assoc]
    · exact List.forall_mem_append.mpr ⟨hw, h.labels⟩
    · rw [List.length_append]
      omega

/-- How far a domain in front of a dot reaches. -/
theorem addressLen_before_dot (hu : localRun u ≠ 0) (hw : ∀ c ∈ w, isDomainChar (byteOf c) = true) :
    addressLen u (w ++ '.' :: B) = (domainLen (codes ('.' :: B))).map (w.length + ·) := by
  have hcodes : ∀ c ∈ codes w, isDomainChar c = true := by simpa using hw
  have hlen := domainLen_before_dot (b := codes B) hcodes
  rw [List.length_map] at hlen
  rw [addressLen, if_neg hu, codes, List.map_append]
  exact hlen

/-- A domain that ends in the text in front does not see what is behind. -/
theorem addressLen_stops (hv : ¬ ∀ c ∈ v, isDomainChar (byteOf c) = true) :
    addressLen u (v ++ y) = addressLen u (v ++ y') := by
  have hrest := Span.stops_dropWhile isDomainChar (codes v)
  have hne : (codes v).dropWhile isDomainChar ≠ [] := by
    intro hnil
    rw [List.dropWhile_eq_nil_iff] at hnil
    exact hv (by simpa using hnil)
  have hsplit : ∀ z, domainLen (codes (v ++ z)) =
      domainLen ((codes v).takeWhile isDomainChar) := by
    intro z
    rw [codes, List.map_append, ← codes,
      ← List.takeWhile_append_dropWhile (p := isDomainChar) (l := codes v), List.append_assoc,
      domainLen_append, List.takeWhile_append_dropWhile]
    obtain ⟨c, r, hr⟩ := List.exists_cons_of_ne_nil hne
    rw [hr, Span.stops_cons] at hrest
    rw [hr, List.cons_append]
    exact Span.stops_cons.mpr hrest
  rw [addressLen, addressLen, hsplit, hsplit]

/-- Where no domain reaches them, the pass comes to all of the texts alike. -/
theorem emailTo_short {P : Text → Prop} (h : ∀ u v, x = u ++ '@' :: v →
      ∃ r, (∀ n, r = some n → n ≤ v.length) ∧ ∀ y, P y → addressLen u (v ++ y) = r) :
    ∃ o, ∀ y, P y → emailTo [] [] 0 x y = (o, 0) := by
  by_cases hsome : ∃ y, P y
  · obtain ⟨y₀, hy₀⟩ := hsome
    refine ⟨(emailTo [] [] 0 x y₀).1, fun y hy => Prod.ext ?_ ?_⟩
    · have hsame : emailTo [] [] 0 x y = emailTo [] [] 0 x y₀ := by
        refine emailTo_congr_at fun u v hx => ?_
        obtain ⟨r, -, hr⟩ := h u v hx
        rw [List.nil_append, hr y hy, hr y₀ hy₀]
      rw [hsame]
    · by_contra hne
      rcases emailTo_over (Nat.pos_of_ne_zero hne) with hzero | ⟨u, v, hx, hlen⟩
      · omega
      · obtain ⟨r, hle, hr⟩ := h u v hx
        rw [List.nil_append, hr y hy] at hlen
        have hle' := hle _ hlen
        omega
  · exact ⟨[], fun y hy => absurd ⟨y, hy⟩ hsome⟩

theorem emailTo_outside (h : ¬ InDomain A B) :
    ∃ o, ∀ l, (∀ c ∈ l, isIpv4Adjacent (byteOf c) = true) →
      emailTo [] [] 0 A (l ++ '.' :: B) = (o, 0) := by
  refine (emailTo_short (P := fun y => ∃ l, (∀ c ∈ l, isIpv4Adjacent (byteOf c) = true) ∧
    y = l ++ '.' :: B) fun u v hA => ?_).imp fun o ho l hl => ho _ ⟨l, hl, rfl⟩
  by_cases hv : ∀ c ∈ v, isDomainChar (byteOf c) = true
  · refine ⟨none, by simp, ?_⟩
    rintro y ⟨l, hl, rfl⟩
    by_cases hu : localRun u = 0
    · rw [addressLen, if_pos hu]
    · have hnone : domainLen (codes ('.' :: B)) = none := by
        by_contra hne
        exact h ⟨u, v, hA, hv, hu, hne⟩
      have hchars : ∀ c ∈ v ++ l, isDomainChar (byteOf c) = true :=
        List.forall_mem_append.mpr ⟨hv, fun c hc => isDomainChar_of_ipv4 (hl c hc)⟩
      rw [← List.append_assoc, addressLen_before_dot hu hchars, hnone, Option.map_none]
  · refine ⟨addressLen u v, fun n hn => addressLen_le hn, fun y _ => ?_⟩
    have hstop : addressLen u (v ++ y) = addressLen u (v ++ []) := addressLen_stops hv
    rwa [List.append_nil] at hstop

theorem emailTo_at (u : Text) : ∃ o, ∀ z, emailTo [] [] 0 u ('@' :: z) = (o, 0) := by
  refine (emailTo_short (P := fun y => ∃ z, y = '@' :: z) fun v w _ => ?_).imp
    fun o ho z => ho _ ⟨z, rfl⟩
  refine ⟨addressLen v w, fun n hn => addressLen_le hn, ?_⟩
  rintro y ⟨z, rfl⟩
  have hstop : Stops isDomainChar (codes ('@' :: z)) := Span.stops_cons.mpr (by decide)
  rw [addressLen, addressLen, codes, List.map_append, domainLen_append hstop]

/-- An address takes back all of its local part, and then what it takes is fixed. -/
theorem emailRest_local (hz : domainLen (codes z) ≠ none) : ∃ e t, ∀ x y,
    (∀ c ∈ y, isLocal c = true) → localRun (x ++ y) ≠ 0 →
      emailRest x 0 (y ++ '@' :: z) = ⟨localRun x + e, t⟩ := by
  obtain ⟨n, hn⟩ := Option.ne_none_iff_exists'.mp hz
  have hle := domainLen_le hn
  rw [List.length_map] at hle
  obtain ⟨w, r, rfl, rfl⟩ := Span.exists_split hle
  refine ⟨(emailRest ('@' :: w) 0 r).owed - redactedEmail.length,
    popChars (emailRest ('@' :: w) 0 r).owed redactedEmail ++ (emailRest ('@' :: w) 0 r).text,
    fun x y hy hrun => ?_⟩
  have hat : '@' ∉ y := fun hmem => by simpa [isLocal_at] using hy _ hmem
  have hbehind : emailRest (x ++ y ++ '@' :: w) 0 r = emailRest ('@' :: w) 0 r := by
    refine emailRest_of_run fun u => ?_
    have hwhole := localRun_behind isLocal_at (x ++ y) (w ++ u)
    have hend : localRun ('@' :: (w ++ u)) = localRun (w ++ u) := localRun_behind isLocal_at [] _
    rw [List.append_assoc, List.cons_append, hwhole]
    exact hend.symm
  rw [emailRest_keep_run hat, emailRest_redact (addressLen_some_iff.mpr ⟨hrun, hn⟩), hbehind,
    localRun_append hy]
  generalize emailRest ('@' :: w) 0 r = r'
  have hgone : popChars (localRun x + y.length + (r'.owed - redactedEmail.length)) y = [] :=
    popChars_of_length_le (by omega)
  simp only [Remainder.redact, hgone, List.nil_append]
  ext1
  · dsimp only
    omega
  · rfl

/-- Where no local part reaches back, the pass goes on whatever was read. -/
theorem emailRest_no_local (h : ¬ InLocal B) (x : Text) : emailRest x 0 B = emailRest [] 0 B := by
  have hsplit := List.takeWhile_append_dropWhile (p := isLocal) (l := B)
  have hlocal : ∀ c ∈ B.takeWhile isLocal, isLocal c = true := fun c hc => List.mem_takeWhile_imp hc
  have hstop := Span.stops_dropWhile isLocal B
  generalize B.takeWhile isLocal = y at hsplit hlocal
  generalize B.dropWhile isLocal = r at hsplit hstop
  subst hsplit
  have hat : '@' ∉ y := fun hmem => by simpa [isLocal_at] using hlocal _ hmem
  cases r with
  | nil => rw [List.append_nil, emailRest_no_at hat, emailRest_no_at hat]
  | cons c r =>
    have hc := Span.stops_cons.mp hstop
    have hkeep : ∀ x, c = '@' → addressLen x r = none := by
      rintro x rfl
      by_contra hne
      obtain ⟨n, hn⟩ := Option.ne_none_iff_exists'.mp hne
      exact h ⟨y, r, rfl, hlocal, by simp [(addressLen_some_iff.mp hn).2]⟩
    have hrest : ∀ x, emailRest x 0 (c :: r) = (emailRest [] 0 r).keep c := by
      intro x
      rw [emailRest_keep (hkeep x), emailRest_behind hc]
    rw [emailRest_keep_run hat, emailRest_keep_run hat, hrest, hrest]

theorem stripEmails_from (x y : Text) :
    stripEmails (x ++ y) =
      (emailRest x (emailTo [] [] 0 x y).2 y).finish (emailTo [] [] 0 x y).1 := by
  have hfinish : (emailRest [] 0 (x ++ y)).finish [] =
      (emailRest ([] ++ x) (emailTo [] [] 0 x y).2 y).finish (emailTo [] [] 0 x y).1 :=
    finish_emailTo
  rw [List.nil_append] at hfinish
  rw [stripEmails_eq, ← hfinish]
  simp [Remainder.finish]

/-- The local part of a later address takes the digits with it. -/
theorem stripEmails_in_local (hd : ¬ InDomain A B) (hl : InLocal B) :
    ∃ E, ∀ l, (∀ c ∈ l, isIpv4Adjacent (byteOf c) = true) →
      stripEmails (A ++ (l ++ '.' :: B)) = E := by
  obtain ⟨y, z, rfl, hy, hz⟩ := hl
  obtain ⟨o, ho⟩ := emailTo_outside hd
  obtain ⟨e, t, hrest⟩ := emailRest_local hz
  refine ⟨(Remainder.mk (localRun A + e) t).finish o, fun l hadj => ?_⟩
  have hlocal : ∀ c ∈ l ++ '.' :: y, isLocal c = true := by
    rw [List.forall_mem_append, List.forall_mem_cons]
    exact ⟨fun c hc => isEmailLocalChar_of_domain (isDomainChar_of_ipv4 (hadj c hc)), by decide, hy⟩
  have hrun : localRun (A ++ (l ++ '.' :: y)) ≠ 0 := by
    rw [localRun_append hlocal, List.length_append, List.length_cons]
    omega
  have hsplit : l ++ '.' :: (y ++ '@' :: z) = (l ++ '.' :: y) ++ '@' :: z := by simp
  rw [stripEmails_from, ho l hadj, hsplit, hrest A _ hlocal hrun]

/-- The domain of an earlier address covers the digits. -/
theorem stripEmails_in_domain (hd : InDomain A B) (hl : ¬ InLocal B) :
    ∃ E, ∀ l, (∀ c ∈ l, isIpv4Adjacent (byteOf c) = true) →
      stripEmails (A ++ (l ++ '.' :: B)) = E := by
  obtain ⟨u, v, rfl, hv, hu, hne⟩ := hd
  obtain ⟨n, hn⟩ := Option.ne_none_iff_exists'.mp hne
  have hpos := domainLen_pos hn
  have hle := domainLen_le hn
  rw [List.length_map, List.length_cons] at hle
  obtain ⟨d, z, rfl, rfl⟩ : ∃ d z, B = d ++ z ∧ n = ('.' :: d).length :=
    ⟨_, _, (List.take_append_drop (n - 1) B).symm, by
      rw [List.length_cons, List.length_take_of_le (by omega)]
      omega⟩
  have hchars := matched_domain (w := '.' :: d) (y := z) hn
  have hz : ¬ InLocal z := by
    rintro ⟨y, z, rfl, hy, hz⟩
    refine hl ⟨d ++ y, z, by simp, List.forall_mem_append.mpr ⟨fun c hc => ?_, hy⟩, hz⟩
    exact isEmailLocalChar_of_domain (hchars c (List.mem_cons_of_mem _ hc))
  obtain ⟨o, ho⟩ := emailTo_at u
  refine ⟨((emailRest [] 0 z).redact (localRun u)).finish o, fun l hadj => ?_⟩
  have hw : ∀ c ∈ v ++ l, isDomainChar (byteOf c) = true :=
    List.forall_mem_append.mpr ⟨hv, fun c hc => isDomainChar_of_ipv4 (hadj c hc)⟩
  have hm : addressLen u ((v ++ l ++ '.' :: d) ++ z) = some (v ++ l ++ '.' :: d).length := by
    have hlen : (v ++ l ++ '.' :: d).length = (v ++ l).length + ('.' :: d).length :=
      List.length_append
    rw [List.append_assoc, List.cons_append, addressLen_before_dot hu hw, hn, Option.map_some, hlen]
  have hsplit : u ++ '@' :: v ++ (l ++ '.' :: (d ++ z)) =
      u ++ '@' :: ((v ++ l ++ '.' :: d) ++ z) := by simp
  rw [hsplit, stripEmails_from, ho, emailRest_redact hm, emailRest_no_local hz]

/-- Where no address takes them the digits stay. -/
theorem stripEmails_shown (hd : ¬ InDomain A B) (hl : ¬ InLocal B) (ht : ChainFree B) :
    ∃ o t, ∀ l, (∀ c ∈ l, isIpv4Adjacent (byteOf c) = true) →
      stripEmails (A ++ (l ++ '.' :: B)) = o ++ (l ++ '.' :: t) := by
  obtain ⟨o, ho⟩ := emailTo_outside hd
  obtain ⟨t, howed⟩ : ∃ t, emailRest [] 0 B = ⟨0, t⟩ :=
    ⟨_, emailRest_eq_scan ht (x := []) (y := B) rfl (.inl rfl)⟩
  refine ⟨o, t, fun l hadj => ?_⟩
  have hat : '@' ∉ l ++ ['.'] := by
    rw [List.mem_append, not_or]
    exact ⟨fun hmem => absurd (hadj _ hmem) (by decide), by decide⟩
  have hsplit : l ++ '.' :: B = (l ++ ['.']) ++ B := by simp
  rw [stripEmails_from, ho l hadj, hsplit, emailRest_keep_run hat, emailRest_no_local hl, howed]
  simp [Remainder.finish]

/-- Two addresses that both take the digits share them. -/
theorem not_chainFree (hd : InDomain A B) (hl : InLocal B)
    (hadj : ∀ c ∈ l, isIpv4Adjacent (byteOf c) = true) : ¬ ChainFree (A ++ (l ++ '.' :: B)) := by
  obtain ⟨u, v, rfl, hv, hu, hne⟩ := hd
  obtain ⟨y, z, rfl, hy, hz⟩ := hl
  have hw : ∀ c ∈ v ++ l, isDomainChar (byteOf c) = true :=
    List.forall_mem_append.mpr ⟨hv, fun c hc => isDomainChar_of_ipv4 (hadj c hc)⟩
  have hrun : ∀ c ∈ (v ++ l) ++ '.' :: y, isLocal c = true := by
    rw [List.forall_mem_append, List.forall_mem_cons]
    exact ⟨fun c hc => isEmailLocalChar_of_domain (hw c hc), by decide, hy⟩
  intro ht
  rcases ht u ((v ++ l) ++ '.' :: y) z (by simp) hrun with hnone | hnone
  · rw [List.append_assoc, List.cons_append, addressLen_before_dot hu hw,
      Option.map_eq_none_iff] at hnone
    exact hne hnone
  · have hlen := localRun_append (x := []) hrun
    rw [addressLen, localRun_behind isLocal_at] at hnone
    rw [List.nil_append, localRun_nil, Nat.zero_add] at hlen
    rw [hlen, if_neg (by simp)] at hnone
    exact hz hnone

end ProviiAudit
