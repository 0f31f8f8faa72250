import ProviiAudit.Sanitize.Emails

/-! The email pass as a scan.

Unless two matched addresses share characters, the pass replaces whole addresses, which a matcher
can recognise from their first character on. -/
namespace ProviiAudit

open Utf8 (Text asBytes byteOf)
open Span (Stops)
open Scan (scan lastOr lastOr_cons lastOr_append)

variable {t x y z w l : Text} {p : Option Char} {c : Char} {n : Nat}

/-- The text behind the local part is that of an address. -/
def addressTail : Text → Option Nat
  | '@' :: y => (domainLen (codes y)).map (1 + ·)
  | _ => none

theorem domain_of_addressTail (h : addressTail (c :: y) ≠ none) :
    c = '@' ∧ domainLen (codes y) ≠ none := by
  unfold addressTail at h
  split at h
  · rename_i z hz
    obtain ⟨rfl, rfl⟩ := List.cons_eq_cons.mp hz
    exact ⟨rfl, by simpa using h⟩
  · simp at h

/-- An address from its first character on. -/
def addressMatcher : Scan.Matcher Char where
  len p s :=
    if p.any isLocal || (s.takeWhile isLocal).isEmpty then none
    else (addressTail (s.dropWhile isLocal)).map ((s.takeWhile isLocal).length + ·)
  pos {p s n} h := by
    split_ifs at h
    obtain ⟨k, hk, rfl⟩ := Option.map_eq_some_iff.mp h
    have hpos : 0 < k := by
      unfold addressTail at hk
      split at hk
      · obtain ⟨j, -, rfl⟩ := Option.map_eq_some_iff.mp hk
        omega
      · simp at hk
    omega
  le {p s n} h := by
    split_ifs at h
    obtain ⟨k, hk, rfl⟩ := Option.map_eq_some_iff.mp h
    have hle : k ≤ (s.dropWhile isLocal).length := by
      unfold addressTail at hk
      split at hk
      · obtain ⟨j, hj, rfl⟩ := Option.map_eq_some_iff.mp hk
        have := domainLen_le hj
        simp_all
        omega
      · simp at hk
    have := congrArg List.length (List.takeWhile_append_dropWhile (p := isLocal) (l := s))
    rw [List.length_append] at this
    omega

theorem isLocal_at : isLocal '@' = false := by decide

/-- What follows the run of local-part characters decides. -/
theorem addressMatcher_len (hp : p.any isLocal = false) (hl : ∀ c ∈ l, isLocal c = true)
    (hne : l ≠ []) (hy : Stops isLocal y) :
    addressMatcher.len p (l ++ y) = (addressTail y).map (l.length + ·) := by
  have htake : (l ++ y).takeWhile isLocal = l := by
    rw [List.takeWhile_append_of_pos hl, hy.takeWhile, List.append_nil]
  have hdrop : (l ++ y).dropWhile isLocal = y := by
    have hsplit := List.takeWhile_append_dropWhile (p := isLocal) (l := l ++ y)
    rw [htake] at hsplit
    exact List.append_cancel_left hsplit
  simp only [addressMatcher, hp, htake, hdrop]
  simp [hne]

theorem addressMatcher_behind (hp : p.any isLocal = true) : addressMatcher.len p y = none := by
  simp [addressMatcher, hp]

theorem addressMatcher_stops (hy : Stops isLocal y) : addressMatcher.len p y = none := by
  simp only [addressMatcher, hy.takeWhile]
  simp

/-- A matched address: local part, `@` and domain. -/
theorem addressMatcher_some (h : addressMatcher.len p z = some n) :
    ∃ l w y, z = l ++ '@' :: (w ++ y) ∧ n = (l ++ '@' :: w).length ∧ p.any isLocal = false ∧
      l ≠ [] ∧ (∀ c ∈ l, isLocal c = true) ∧ domainLen (codes (w ++ y)) = some w.length := by
  have hp : p.any isLocal = false := by
    by_contra hp
    rw [addressMatcher_behind (by simpa using hp)] at h
    simp at h
  have hsplit := List.takeWhile_append_dropWhile (p := isLocal) (l := z)
  have hl : ∀ c ∈ z.takeWhile isLocal, isLocal c = true := fun c hc => List.mem_takeWhile_imp hc
  have hstop := Span.stops_dropWhile isLocal z
  generalize z.takeWhile isLocal = l at hsplit hl
  generalize z.dropWhile isLocal = y at hsplit hstop
  subst hsplit
  have hne : l ≠ [] := by
    rintro rfl
    rw [List.nil_append, addressMatcher_stops hstop] at h
    simp at h
  rw [addressMatcher_len hp hl hne hstop] at h
  obtain ⟨k, hk, rfl⟩ := Option.map_eq_some_iff.mp h
  unfold addressTail at hk
  split at hk
  · rename_i y
    obtain ⟨j, hj, rfl⟩ := Option.map_eq_some_iff.mp hk
    have hle := domainLen_le hj
    rw [List.length_map] at hle
    refine ⟨l, y.take j, y.drop j, by simp, ?_, hp, hne, hl, ?_⟩
    · simp [List.length_take_of_le hle]
      omega
    · rw [List.take_append_drop, hj, List.length_take_of_le hle]
  · simp at hk

theorem addressTail_append (hc : c ≠ '@') (hdomain : isDomainChar (byteOf c) = false) :
    addressTail (x ++ c :: y) = addressTail x := by
  cases x with
  | nil =>
    by_contra hne
    exact hc (domain_of_addressTail hne).1
  | cons d x =>
    by_cases hd : d = '@'
    · subst hd
      have hstop : Stops isDomainChar (codes (c :: y)) := Span.stops_cons.mpr hdomain
      have hsplit : codes (x ++ c :: y) = codes x ++ codes (c :: y) := List.map_append
      rw [List.cons_append, addressTail, addressTail, hsplit, domainLen_append hstop]
    · have hnone : ∀ z, addressTail (d :: z) = none := by
        intro z
        by_contra hne
        exact hd (domain_of_addressTail hne).1
      rw [List.cons_append, hnone, hnone]

/-- A character that is neither local nor an `@` separates. -/
theorem addressMatcher_separates (hlocal : isLocal c = false) (hc : c ≠ '@') :
    Scan.Separates addressMatcher c := by
  have hdomain : isDomainChar (byteOf c) = false := by
    by_contra h
    simp [isLocal, isEmailLocalChar_of_domain (by simpa using h)] at hlocal
  constructor
  · intro p x z
    have hsplit := List.takeWhile_append_dropWhile (p := isLocal) (l := x)
    have hl : ∀ c ∈ x.takeWhile isLocal, isLocal c = true := fun c hc => List.mem_takeWhile_imp hc
    have hstop := Span.stops_dropWhile isLocal x
    generalize x.takeWhile isLocal = l at hsplit hl
    generalize x.dropWhile isLocal = r at hsplit hstop
    subst hsplit
    have hstop' : Stops isLocal (r ++ c :: z) := by
      cases r with
      | nil => exact Span.stops_cons.mpr hlocal
      | cons d r => exact hstop
    cases hp : p.any isLocal with
    | true => rw [addressMatcher_behind hp, addressMatcher_behind hp]
    | false =>
      rcases eq_or_ne l [] with rfl | hne
      · rw [List.nil_append, addressMatcher_stops hstop, addressMatcher_stops hstop']
      · rw [List.append_assoc, addressMatcher_len hp hl hne hstop,
          addressMatcher_len hp hl hne hstop', addressTail_append hc hdomain]
  · intro y
    simp [addressMatcher, hlocal]

/-- No two matched addresses share characters. -/
def ChainFree (t : Text) : Prop :=
  ∀ x l y, t = x ++ '@' :: (l ++ '@' :: y) → (∀ c ∈ l, isLocal c = true) →
    addressLen x (l ++ '@' :: y) = none ∨ addressLen (x ++ '@' :: l) y = none

theorem chainFree_of_count (h : t.count '@' ≤ 1) : ChainFree t := by
  rintro x l y rfl -
  simp only [List.count_append, List.count_cons_self] at h
  omega

theorem emailRest_keep_run (hl : '@' ∉ l) : emailRest x 0 (l ++ y) =
    ⟨(emailRest (x ++ l) 0 y).owed - l.length,
      popChars (emailRest (x ++ l) 0 y).owed l ++ (emailRest (x ++ l) 0 y).text⟩ := by
  induction l generalizing x with
  | nil => simp
  | cons c l ih =>
    rw [List.mem_cons, not_or] at hl
    have hsplit : x ++ c :: l = x ++ [c] ++ l := by simp
    rw [List.cons_append, emailRest_keep fun hc => absurd hc.symm hl.1, ih hl.2, hsplit]
    generalize emailRest (x ++ [c] ++ l) 0 y = r
    have hpop := popChars_append r.owed [c] l
    rw [List.singleton_append] at hpop
    rw [Remainder.keep, hpop]
    rcases Nat.eq_zero_or_pos (r.owed - l.length) with h | h
    · simp [h, Nat.sub_add_eq]
    · have hc : popChars (r.owed - l.length) [c] = [] := popChars_of_length_le h
      simp [h.ne', hc, Nat.sub_add_eq]

theorem emailRest_no_at (hy : '@' ∉ y) : emailRest x 0 y = ⟨0, y⟩ := by
  have hrun := emailRest_keep_run (x := x) (y := []) hy
  simpa [emailRest] using hrun

/-- The cursor is not inside a local part: behind another character or behind an address. -/
def Fresh (x y : Text) : Prop :=
  x.getLast?.any isLocal = false ∨
    ∃ x' w, x = x' ++ '@' :: w ∧ addressLen x' (w ++ y) = some w.length

theorem localRun_of_last (hx : x.getLast?.any isLocal = false) : localRun x = 0 := by
  rcases List.eq_nil_or_concat x with rfl | ⟨x, c, rfl⟩
  · rfl
  · rw [List.concat_eq_append] at hx ⊢
    rw [localRun_concat, if_neg (by simpa using hx)]

theorem matched_local (h : addressLen x (w ++ y) = some w.length) :
    ∀ c ∈ w, isLocal c = true :=
  fun c hc => isEmailLocalChar_of_domain (matched_domain (addressLen_some_iff.mp h).2 c hc)

/-- Where no chain is, the address at an `@` begins where the run of local characters does. -/
theorem Fresh.start (ht : ChainFree t) (h : t = x ++ (l ++ '@' :: y))
    (hl : ∀ c ∈ l, isLocal c = true) (hx : Fresh x (l ++ '@' :: y))
    (hm : addressLen (x ++ l) y ≠ none) : x.getLast?.any isLocal = false := by
  rcases hx with hx | ⟨x', w, rfl, hw⟩
  · exact hx
  · have hlocal : ∀ c ∈ w ++ l, isLocal c = true :=
      List.forall_mem_append.mpr ⟨matched_local hw, hl⟩
    rcases ht x' (w ++ l) y (by simp [h]) hlocal with hnone | hnone
    · rw [List.append_assoc, hw] at hnone
      simp at hnone
    · exact absurd (by simpa using hnone) hm

/-- A run of local characters that no domain follows is kept. -/
theorem scan_local_run (hl : ∀ c ∈ l, isLocal c = true) (hy : Stops isLocal y)
    (h : addressTail y = none) : scan addressMatcher redactedEmail p (l ++ y) =
      l ++ scan addressMatcher redactedEmail (lastOr p l) y := by
  refine Scan.scan_keep_run fun u c v hlv => ?_
  rcases List.eq_nil_or_concat u with rfl | ⟨u, d, rfl⟩
  · obtain rfl : l = c :: v := hlv
    cases hp : p.any isLocal with
    | true => exact addressMatcher_behind hp
    | false =>
      rw [Scan.lastOr_nil, ← List.cons_append, addressMatcher_len hp hl (by simp) hy, h]
      rfl
  · rw [List.concat_eq_append] at hlv ⊢
    apply addressMatcher_behind
    simpa using hl d (by simp [hlv])

/-- The address at an `@` is found at the start of its local part. -/
theorem addressMatcher_at (hstart : x.getLast?.any isLocal = false)
    (hl : ∀ c ∈ l, isLocal c = true) (hm : addressLen (x ++ l) (w ++ y) = some w.length) :
    localRun (x ++ l) = l.length ∧
      addressMatcher.len x.getLast? ((l ++ '@' :: w) ++ y) = some (l ++ '@' :: w).length := by
  have hrun : localRun (x ++ l) = l.length := by
    rw [localRun_append hl, localRun_of_last hstart, Nat.zero_add]
  obtain ⟨hlocal, hdomain⟩ := addressLen_some_iff.mp hm
  have hne : l ≠ [] := by
    rintro rfl
    exact hlocal hrun
  have hmatched := addressMatcher_len (y := '@' :: (w ++ y)) hstart hl hne
    (Span.stops_cons.mpr isLocal_at)
  rw [addressTail, hdomain] at hmatched
  refine ⟨hrun, ?_⟩
  rw [List.append_assoc, List.cons_append, hmatched]
  simp [Nat.add_comm]

/-- Local characters in front of what is kept are kept. -/
theorem scan_local_keep {c : Char} (hl : ∀ c ∈ l, isLocal c = true) (hstop : Stops isLocal (c :: y))
    (hkeep : c = '@' → addressLen (x ++ l) y = none) :
    scan addressMatcher redactedEmail p (l ++ c :: y) =
      l ++ scan addressMatcher redactedEmail (lastOr p l) (c :: y) := by
  by_cases htail : addressTail (c :: y) = none
  · exact scan_local_run hl hstop htail
  · -- an `@` with a domain behind it and nothing in front of it
    obtain ⟨rfl, hdomain⟩ := domain_of_addressTail htail
    have hrun := hkeep rfl
    rw [addressLen, localRun_append hl] at hrun
    have hnil : l = [] := by
      by_contra hne
      have hpos := List.length_pos_of_ne_nil hne
      rw [if_neg (by omega)] at hrun
      exact hdomain hrun
    subst hnil
    rfl

theorem emailRest_eq_scan (ht : ChainFree t) (h : t = x ++ y) (hx : Fresh x y) :
    emailRest x 0 y = ⟨0, scan addressMatcher redactedEmail x.getLast? y⟩ := by
  induction hn : y.length using Nat.strong_induction_on generalizing x y with
  | _ N ih =>
    have hsplit := List.takeWhile_append_dropWhile (p := isLocal) (l := y)
    have hl : ∀ c ∈ y.takeWhile isLocal, isLocal c = true := fun c hc => List.mem_takeWhile_imp hc
    have hstop := Span.stops_dropWhile isLocal y
    generalize y.takeWhile isLocal = l at hsplit hl
    generalize y.dropWhile isLocal = r at hsplit hstop
    subst hsplit
    have hat : '@' ∉ l := fun hmem => by simpa [isLocal_at] using hl _ hmem
    rw [emailRest_keep_run hat]
    cases r with
    | nil =>
      rw [scan_local_run hl hstop rfl]
      simp [emailRest]
    | cons c r =>
      by_cases hmatch : c = '@' ∧ addressLen (x ++ l) r ≠ none
      · obtain ⟨rfl, hsome⟩ := hmatch
        obtain ⟨n, hm⟩ := Option.ne_none_iff_exists'.mp hsome
        obtain ⟨w, y, rfl, rfl⟩ := Span.exists_split (addressLen_le hm)
        obtain ⟨hrun, hlen⟩ := addressMatcher_at (hx.start ht h hl hsome) hl hm
        have hrest := ih y.length (by simp at hn; omega) (x := x ++ l ++ '@' :: w)
          (by simp [h]) (.inr ⟨x ++ l, w, rfl, hm⟩) rfl
        have hbehind : (x ++ l ++ '@' :: w).getLast? = lastOr x.getLast? (l ++ '@' :: w) := by
          simp [Scan.lastOr, List.getLast?_append]
        have hscan := Scan.scan_redact (R := redactedEmail) hlen
        rw [List.append_assoc, List.cons_append] at hscan
        rw [emailRest_redact hm, hrest, hrun, hscan, hbehind]
        simp [Remainder.redact, popChars_of_length_le]
      · have hkeep : c = '@' → addressLen (x ++ l) r = none := by
          intro hc
          by_contra hne
          exact hmatch ⟨hc, hne⟩
        have hrest := ih r.length (by simp at hn; omega) (x := x ++ l ++ [c]) (by simp [h])
          (.inl (by simpa [Span.stops_cons] using hstop)) rfl
        rw [emailRest_keep hkeep, hrest, scan_local_keep hl hstop hkeep,
          Scan.scan_keep (addressMatcher_stops hstop)]
        simp [Remainder.keep]

theorem stripEmails_eq_scan (ht : ChainFree t) :
    stripEmails t = scan addressMatcher redactedEmail none t := by
  rw [stripEmails_eq, emailRest_eq_scan ht rfl (.inl rfl)]
  rfl

end ProviiAudit
