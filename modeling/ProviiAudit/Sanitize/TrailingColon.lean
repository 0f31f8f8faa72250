import ProviiAudit.Sanitize.Ipv6

/-! A colon behind an address. The parser gives it back, and the neighbour test then sees it. -/
namespace ProviiAudit

open Utf8 (Text asBytes byteOf)
open Span (Stops)
open Scan (scan lastOr)

variable {a pre rest y z : Text} {b r : Bytes} {p : Option Char} {n : Nat}

/-- Of the colons in front of something else the parser takes one at most. -/
theorem count_colon_le_one (hb : byteOf ':' ∉ b) (hr : Stops isIpv6Adjacent r)
    (h : ipv6HeadLen (b ++ byteOf ':' :: r) = some n) :
    ((b ++ byteOf ':' :: r).take n).count (byteOf ':') ≤ 1 := by
  obtain ⟨u, q, hsplit, hadj, hq⟩ := (ipv6HeadLen_text h).shape
  have hquad : q.count (byteOf ':') = 0 := by
    apply List.count_eq_zero.mpr
    intro hc
    rcases hq with rfl | hq
    · simp at hc
    · exact absurd (hq.ipv4Adjacent _ hc) (by decide)
  have hone : (b ++ [byteOf ':']).count (byteOf ':') = 1 := by
    simp [List.count_eq_zero.mpr hb]
  rw [hsplit, List.count_append, hquad, Nat.add_zero]
  have hall : u ++ (q ++ (b ++ byteOf ':' :: r).drop n) = b ++ [byteOf ':'] ++ r := by
    rw [← List.append_assoc, ← hsplit, List.take_append_drop, List.append_assoc]
    rfl
  rcases List.append_eq_append_iff.mp hall with ⟨t, ht, -⟩ | ⟨t, ht, hrest⟩
  · rw [ht, List.count_append] at hone
    omega
  · cases t with
    | nil =>
      rw [ht, List.append_nil]
      exact hone.le
    | cons c t =>
      rw [hrest, List.cons_append] at hr
      have hc := hadj c (by simp [ht])
      simp [Span.stops_cons.mp hr] at hc

/-- No match ends at or behind a lone colon. -/
theorem ipv6_matcher_colon (hz : ':' ∉ z) (hrest : Stops isIpv6Adjacent (asBytes rest)) :
    ipv6Recogniser.matcher.len p (z ++ ':' :: rest) = none := by
  cases h : ipv6Recogniser.matcher.len p (z ++ ':' :: rest) with
  | none => rfl
  | some n =>
    obtain ⟨-, hlen, -⟩ := Recogniser.matcher_len_iff.mp h
    have hcolon : byteOf ':' ∉ codes z := by
      intro hc
      obtain ⟨c, hmem, heq⟩ := List.mem_map.mp hc
      exact hz (Utf8.eq_of_byteOf (by decide) heq ▸ hmem)
    have htext : codes (z ++ ':' :: rest) = codes z ++ byteOf ':' :: codes rest := by simp [codes]
    rw [htext] at hlen
    change ipv6AddressLen _ = _ at hlen
    have hcount := count_colon_le_one hcolon (stops_codes.mpr hrest)
      (Option.eq_some_of_filter_eq_some hlen)
    have := (Option.filter_eq_some_iff.mp hlen).2
    simp at this
    omega

/-- A dot in an address belongs to the quad at its end. -/
theorem no_colon_behind_dot {y z : Bytes} (ha : IsIpv6 (y ++ byteOf '.' :: z)) :
    byteOf ':' ∉ z := by
  have hlen := ha.headLen (EndsAddress.endsGroup (.inl Span.stops_nil))
  rw [List.append_nil] at hlen
  have htext := ipv6HeadLen_text hlen
  rw [List.take_length] at htext
  obtain ⟨u, q, hsplit, hadj, hq⟩ := htext.shape
  have hquad : ∀ c ∈ z, isIpv4Adjacent c = true := by
    rcases List.append_eq_append_iff.mp hsplit with ⟨t, rfl, ht⟩ | ⟨t, -, rfl⟩
    · cases t with
      | nil =>
        intro c hc
        rcases hq with rfl | hq
        · simp at ht
        · exact hq.ipv4Adjacent c (by simp [← show _ = q from ht, hc])
      | cons d t =>
        rw [List.cons_append, List.cons.injEq] at ht
        exact absurd (hadj d (by simp)) (by simp [← ht.1]; decide)
    · intro c hc
      rcases hq with hnil | hq
      · simp at hnil
      · exact hq.ipv4Adjacent c (by simp [hc])
  intro hc
  exact absurd (hquad _ hc) (by decide)

theorem IsIpv6.alphabet (ha : IsIpv6 (asBytes a)) {c : Char} (hc : c ∈ a) :
    isIpv6Adjacent (byteOf c) = true ∨ c = '.' := by
  have hchar : isIpv6Char (byteOf c) = true := ha.chars _ (Utf8.byteOf_mem_asBytes hc)
  rcases Bool.or_eq_true_iff.mp hchar with h | h
  · exact .inl h
  · exact .inr (Utf8.eq_of_byteOf (by decide) (by simpa using h))

/-- At the start of an address the parser stops in front of the colon, which is adjacent. -/
theorem ipv6_matcher_before_colon (ha : IsIpv6 (asBytes a))
    (hrest : Stops isIpv6Adjacent (asBytes rest)) :
    ipv6Recogniser.matcher.len p (a ++ ':' :: rest) = none := by
  cases h : ipv6Recogniser.matcher.len p (a ++ ':' :: rest) with
  | none => rfl
  | some n =>
    obtain ⟨-, hlen, hafter⟩ := Recogniser.matcher_len_iff.mp h
    have htext : codes (a ++ ':' :: rest) = asBytes a ++ byteOf ':' :: codes rest := by
      rw [ha.ascii]
      simp [codes]
    have hend := ha.addressLen (endsGroup_colon (stops_codes.mpr hrest))
    rw [htext] at hlen hafter
    obtain rfl : (asBytes a).length = n := Option.some.inj (hend.symm.trans hlen)
    have hcolon : ipv6Recogniser.adjacent (byteOf ':') = true := rfl
    simp [hcolon] at hafter

/-- From the start of an address to the colon behind it nothing is matched. -/
theorem no_match_in_address (ha : IsIpv6 (asBytes a)) (hrest : Stops isIpv6Adjacent (asBytes rest))
    {u v : Text} {c : Char} (hsplit : a ++ [':'] = u ++ c :: v) :
    ipv6Recogniser.matcher.len (lastOr p u) (c :: (v ++ rest)) = none := by
  obtain rfl | ⟨u, d, rfl⟩ := List.eq_nil_or_concat u
  · have htext : c :: (v ++ rest) = a ++ ':' :: rest := by
      rw [← List.cons_append, ← List.nil_append (c :: v), ← hsplit, List.append_assoc]
      rfl
    rw [htext]
    exact ipv6_matcher_before_colon ha hrest
  · rw [List.concat_eq_append] at hsplit ⊢
    obtain ⟨z, e, hz⟩ := (List.eq_nil_or_concat (c :: v)).resolve_left (by simp)
    rw [hz, List.concat_eq_append, ← List.append_assoc] at hsplit
    obtain ⟨rfl, he⟩ := List.append_inj' hsplit rfl
    obtain rfl : ':' = e := by simpa using he
    rw [← List.cons_append, hz, List.concat_eq_append, List.append_assoc, Scan.lastOr_append]
    rcases ha.alphabet (c := d) (by simp) with hd | rfl
    · exact ipv6Recogniser.len_behind hd _
    · apply ipv6_matcher_colon _ hrest
      have hbytes := ha.ascii
      rw [hbytes] at ha
      have hcodes : codes (u ++ ['.'] ++ z) = codes u ++ byteOf '.' :: codes z := by simp [codes]
      rw [hcodes] at ha
      intro hmem
      exact no_colon_behind_dot ha (List.mem_map_of_mem hmem)

theorem ipv6_matcher_not_adjacent {c : Char} (hc : isIpv6Adjacent (byteOf c) = false) :
    ipv6Recogniser.matcher.len p (c :: rest) = none := by
  cases h : ipv6Recogniser.matcher.len p (c :: rest) with
  | none => rfl
  | some n =>
    have hlen := Option.eq_some_of_filter_eq_some (Recogniser.matcher_len_iff.mp h).2.1
    have hcolon : byteOf c ≠ byteOf ':' := by
      intro heq
      rw [heq] at hc
      exact absurd hc (by decide)
    have hhex : isAsciiHexdigit (byteOf c) = false := (Bool.or_eq_false_iff.mp hc).1
    simp [codes, ipv6HeadLen, hcolon, hhex] at hlen

/-- The colon leaves no trace in what follows it. -/
theorem scan_behind_colon (hrest : Stops isIpv6Adjacent (asBytes rest)) :
    scan ipv6Recogniser.matcher redactedIp (some ':') rest = stripIpv6 rest := by
  rw [stripIpv6_eq_scan]
  cases rest with
  | nil => rfl
  | cons c rest =>
    have hc : isIpv6Adjacent (byteOf c) = false := Span.stops_cons.mp (stops_codes.mpr hrest)
    rw [Scan.scan_keep (ipv6_matcher_not_adjacent hc), Scan.scan_keep (ipv6_matcher_not_adjacent hc)]

theorem getLast_ne_bracket (ha : IsIpv6 (asBytes a)) : a.getLast? ≠ some ']' := by
  intro h
  rcases ha.alphabet (List.mem_of_getLast? h) with h | h
  · exact absurd h (by decide)
  · exact absurd h (by decide)

/-- An address in front of a colon is copied, whatever surrounds it, and not replaced. -/
theorem address_before_colon_kept (pre a rest : Text) (ha : IsIpv6 (asBytes a))
    (hpre : (asBytes pre).getLast?.any isIpv6Adjacent = false)
    (hrest : Stops isIpv6Adjacent (asBytes rest)) :
    (∃ o, stripIpv6 (pre ++ (a ++ ':' :: rest)) = o ++ (a ++ ':' :: stripIpv6 rest)) ∧
      ¬ ∃ o, stripIpv6 (pre ++ (a ++ ':' :: rest)) = o ++ (redactedIp ++ ':' :: stripIpv6 rest) := by
  have hwithin : Scan.Within ipv6Recogniser.matcher none pre (a ++ ':' :: rest) :=
    ipv6_stays_before ha hpre
  obtain ⟨o, ho⟩ := Scan.scan_append (R := redactedIp) hwithin
  have hkeep : scan ipv6Recogniser.matcher redactedIp (lastOr none pre) (a ++ ':' :: rest) =
      a ++ ':' :: stripIpv6 rest := by
    have hrun := Scan.scan_keep_run (R := redactedIp) (p := lastOr none pre) (y := rest)
      (w := a ++ [':']) (fun u c v hsplit => no_match_in_address ha hrest hsplit)
    rw [Scan.lastOr_append, List.append_assoc, List.append_assoc] at hrun
    exact hrun.trans (by rw [← scan_behind_colon hrest]; rfl)
  rw [stripIpv6_eq_scan, ho, hkeep]
  refine ⟨⟨o, rfl⟩, ?_⟩
  rintro ⟨o', heq⟩
  rw [← List.append_assoc, ← List.append_assoc] at heq
  have hlast := congrArg List.getLast? (List.append_cancel_right heq)
  have hne : a ≠ [] := by
    rintro rfl
    have := ha.count_colon
    simp at this
  rw [List.getLast?_append_of_ne_nil _ hne, List.getLast?_append_of_ne_nil _ (by decide)] at hlast
  exact getLast_ne_bracket ha hlast

theorem loggedIpv6 : IsIpv6 (asBytes "2001:db8::1".toList) :=
  .compressed [codes "2001".toList, codes "db8".toList] [codes "1".toList] (by decide) (by decide)

theorem address_before_colon_kept_sample :
    (∃ o, stripIpv6 ("peer ".toList ++ ("2001:db8::1".toList ++ ':' :: " timed out".toList)) =
        o ++ ("2001:db8::1".toList ++ ':' :: stripIpv6 " timed out".toList)) ∧
      ¬ ∃ o, stripIpv6 ("peer ".toList ++ ("2001:db8::1".toList ++ ':' :: " timed out".toList)) =
        o ++ (redactedIp ++ ':' :: stripIpv6 " timed out".toList) :=
  address_before_colon_kept "peer ".toList "2001:db8::1".toList " timed out".toList loggedIpv6
    (by decide) (by decide)

/-- The line `2001:db8::1: timed out` comes through as it is. -/
theorem logged_address_kept : ¬ ∀ pre a rest : Text, IsIpv6 (asBytes a) →
    a.getLast?.any (fun c => isAsciiHexdigit (byteOf c)) = true →
    (asBytes pre).getLast?.any isIpv6Adjacent = false → Stops isIpv6Adjacent (asBytes rest) →
    ∃ o, stripIpv6 (pre ++ (a ++ ':' :: rest)) = o ++ (redactedIp ++ ':' :: stripIpv6 rest) := by
  intro h
  obtain ⟨o, ho⟩ := h [] "2001:db8::1".toList " timed out".toList loggedIpv6 (by decide)
    (by decide) (by decide)
  have hkept : stripIpv6 ([] ++ ("2001:db8::1".toList ++ ':' :: " timed out".toList)) =
      "2001:db8::1: timed out".toList := by decide +kernel
  rw [hkept] at ho
  have hbracket : '[' ∈ "2001:db8::1: timed out".toList := by
    rw [ho]
    exact List.mem_append_right o List.mem_cons_self
  exact absurd hbracket (by decide)

end ProviiAudit
