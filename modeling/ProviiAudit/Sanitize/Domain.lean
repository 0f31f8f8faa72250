import ProviiAudit.Sanitize.Passes

/-! What the email parsers read on the two sides of an `@`. -/
namespace ProviiAudit

open Utf8 (Text asBytes byteOf)
open Span (Stops)

variable {bytes b d t u v w rest : Bytes} {x y r : Text} {start n : Nat}

def isDomainChar (b : UInt8) : Bool :=
  isAsciiAlphanumeric b || b == byteOf '-' || b == byteOf '.'

theorem isDomainChar_of_alphabetic {c : UInt8} (h : isAsciiAlphabetic c = true) :
    isDomainChar c = true := by
  simp [isDomainChar, isAsciiAlphanumeric, h]

theorem isEmailLocalChar_of_domain {c : UInt8} (h : isDomainChar c = true) :
    isEmailLocalChar c = true := by
  simp only [isDomainChar, Bool.or_eq_true] at h
  rcases h with (h | h) | h <;> simp [isEmailLocalChar, h]

theorem isEmailLocalChar_ascii : Utf8.AsciiOnly isEmailLocalChar := by
  intro c h
  by_cases hal : isAsciiAlphanumeric c = true
  · exact isAsciiAlphanumeric_ascii c hal
  · simp only [isEmailLocalChar, hal, Bool.or_eq_true, beq_iff_eq, Bool.false_or] at h
    rcases h with (((h | h) | h) | h) | h <;> subst h <;> decide

theorem isDomainChar_ascii : Utf8.AsciiOnly isDomainChar :=
  fun c h => isEmailLocalChar_ascii c (isEmailLocalChar_of_domain h)

theorem domainLoop_stops (h : Stops isDomainChar b) (st : DomainScan) : domainLoop b st = st := by
  cases b with
  | nil => rfl
  | cons c b =>
    have hc := Span.stops_cons.mp h
    simp only [isDomainChar, Bool.or_eq_false_iff] at hc
    simp [domainLoop, hc]

/-- Up to the next dot only the position moves. -/
theorem domainLoop_label (ht : ∀ c ∈ t, isAsciiAlphanumeric c || c == byteOf '-')
    (st : DomainScan) :
    domainLoop (t ++ b) st = domainLoop b { st with pos := st.pos + t.length } := by
  induction t generalizing st with
  | nil => rfl
  | cons c t ih =>
    obtain ⟨hc, ht⟩ := List.forall_mem_cons.mp ht
    rw [List.cons_append, domainLoop, if_pos hc, ih ht]
    simp only [List.length_cons]
    congr 2
    omega

theorem domainLoop_dot (hd : ∀ c ∈ d, isDomainChar c = true) (st : DomainScan) :
    domainLoop (d ++ byteOf '.' :: b) st =
      domainLoop b ⟨st.pos + d.length + 1, true, st.pos + d.length⟩ := by
  induction d generalizing st with
  | nil => rfl
  | cons c d ih =>
    obtain ⟨hc, hd⟩ := List.forall_mem_cons.mp hd
    rw [List.cons_append, domainLoop]
    simp only [isDomainChar, Bool.or_eq_true (_ || _) (c == byteOf '.')] at hc
    split_ifs with halnum hdot
    · rw [ih hd]
      simp only [List.length_cons]
      congr 2 <;> omega
    · rw [ih hd]
      simp only [List.length_cons]
      congr 2 <;> omega
    · simp_all

/-- A run of domain characters splits at its last dot. -/
theorem exists_last_dot (hmem : byteOf '.' ∈ u) :
    ∃ d t, u = d ++ byteOf '.' :: t ∧ byteOf '.' ∉ t := by
  obtain ⟨t, d, hu, ht⟩ := List.eq_append_cons_of_mem (List.mem_reverse.mpr hmem)
  refine ⟨d.reverse, t.reverse, ?_, by simpa using ht⟩
  rw [← List.reverse_reverse u, hu]
  simp

/-- The text splits into a domain and what follows it: the label behind the last dot is
alphabetic, of two letters or more. -/
structure DomainSplit (b d t rest : Bytes) : Prop where
  split : b = d ++ byteOf '.' :: (t ++ rest)
  labels : ∀ c ∈ d, isDomainChar c = true
  tld : ∀ c ∈ t, isAsciiAlphabetic c = true
  two_le : 2 ≤ t.length
  ends : Stops isDomainChar rest

theorem slice_of_drop (h : bytes.drop start = u ++ (t ++ rest)) :
    slice bytes (start + u.length) (start + u.length + t.length) = t := by
  rw [slice, ← List.drop_drop, h, Nat.add_sub_cancel_left]
  simp

/-- The scan once the last dot is known. -/
theorem scanEmailDomainForward_dot (hb : bytes.drop start = d ++ byteOf '.' :: (t ++ rest))
    (hd : ∀ c ∈ d, isDomainChar c = true) (ht : ∀ c ∈ t, isAsciiAlphanumeric c || c == byteOf '-')
    (hrest : Stops isDomainChar rest) : scanEmailDomainForward bytes start =
      if t.length < 2 then none
      else if t.all isAsciiAlphabetic then some (start + d.length + 1 + t.length) else none := by
  have hslice : slice bytes (start + d.length + 1) (start + d.length + 1 + t.length) = t := by
    have hb' : bytes.drop start = (d ++ [byteOf '.']) ++ (t ++ rest) := by simp [hb]
    simpa [Nat.add_assoc] using slice_of_drop hb'
  simp [scanEmailDomainForward, hb, domainLoop_dot hd, domainLoop_label ht,
    domainLoop_stops hrest, hslice]

theorem scanEmailDomainForward_some_iff : scanEmailDomainForward bytes start = some n ↔
    ∃ d t rest, DomainSplit (bytes.drop start) d t rest ∧ n = start + d.length + 1 + t.length := by
  constructor
  · intro h
    obtain ⟨u, v, hb, hu, hv⟩ : ∃ u v, bytes.drop start = u ++ v ∧
        (∀ c ∈ u, isDomainChar c = true) ∧ Stops isDomainChar v :=
      ⟨_, _, List.takeWhile_append_dropWhile.symm, fun c hc => List.mem_takeWhile_imp hc,
        Span.stops_dropWhile ..⟩
    by_cases hdot : byteOf '.' ∈ u
    · obtain ⟨d, t, rfl, hlast⟩ := exists_last_dot hdot
      rw [List.forall_mem_append, List.forall_mem_cons] at hu
      obtain ⟨hd, -, ht⟩ := hu
      rw [List.append_assoc, List.cons_append] at hb
      have hlabel : ∀ c ∈ t, isAsciiAlphanumeric c || c == byteOf '-' := by
        intro c hc
        have hne : c ≠ byteOf '.' := fun he => hlast (he ▸ hc)
        simpa [isDomainChar, hne] using ht c hc
      rw [scanEmailDomainForward_dot hb hd hlabel hv] at h
      split_ifs at h with htwo htld
      refine ⟨d, t, v, ⟨hb, hd, by simpa using htld, by omega, hv⟩, ?_⟩
      simpa using h.symm
    · have hlabel : ∀ c ∈ u, isAsciiAlphanumeric c || c == byteOf '-' := by
        intro c hc
        have hne : c ≠ byteOf '.' := fun he => hdot (he ▸ hc)
        simpa [isDomainChar, hne] using hu c hc
      simp [scanEmailDomainForward, hb, domainLoop_label hlabel, domainLoop_stops hv] at h
  · rintro ⟨d, t, rest, ⟨hb, hd, ht, htwo, hrest⟩, rfl⟩
    have hlabel : ∀ c ∈ t, isAsciiAlphanumeric c || c == byteOf '-' := by
      intro c hc
      simp [isAsciiAlphanumeric, ht c hc]
    rw [scanEmailDomainForward_dot hb hd hlabel hrest, if_neg (by omega),
      if_pos (List.all_eq_true.mpr ht)]

/-- The length of the domain at the head of the text. -/
def domainLen (b : Bytes) : Option Nat := scanEmailDomainForward b 0

theorem domainLen_some_iff : domainLen b = some n ↔
    ∃ d t rest, DomainSplit b d t rest ∧ n = d.length + 1 + t.length := by
  simp [domainLen, scanEmailDomainForward_some_iff]

theorem scanEmailDomainForward_eq :
    scanEmailDomainForward bytes start = (domainLen (bytes.drop start)).map (start + ·) := by
  ext n
  simp only [scanEmailDomainForward_some_iff, Option.map_eq_some_iff,
    domainLen_some_iff]
  constructor
  · rintro ⟨d, t, rest, h, rfl⟩
    exact ⟨_, ⟨d, t, rest, h, rfl⟩, by omega⟩
  · rintro ⟨k, ⟨d, t, rest, h, rfl⟩, rfl⟩
    exact ⟨d, t, rest, h, by omega⟩

theorem DomainSplit.run (h : DomainSplit b d t rest) :
    b.takeWhile isDomainChar = d ++ byteOf '.' :: t := by
  have hrun : ∀ c ∈ d ++ byteOf '.' :: t, isDomainChar c = true := by
    rw [List.forall_mem_append, List.forall_mem_cons]
    exact ⟨h.labels, by decide, fun c hc => isDomainChar_of_alphabetic (h.tld c hc)⟩
  have hsplit : b = (d ++ byteOf '.' :: t) ++ rest := by simp [h.split]
  rw [hsplit, Span.takeWhile_append h.ends, List.takeWhile_eq_self_iff.mpr hrun]

/-- Only the run of domain characters matters. -/
theorem domainLen_takeWhile : domainLen (b.takeWhile isDomainChar) = domainLen b := by
  ext n
  rw [domainLen_some_iff, domainLen_some_iff]
  constructor
  · rintro ⟨d, t, rest, h, rfl⟩
    have hrun := h.run
    rw [List.takeWhile_idem] at hrun
    refine ⟨d, t, b.dropWhile isDomainChar, ⟨?_, h.labels, h.tld, h.two_le, ?_⟩, rfl⟩
    · have hsplit := List.takeWhile_append_dropWhile (p := isDomainChar) (l := b)
      rw [hrun] at hsplit
      simpa using hsplit.symm
    · exact Span.stops_dropWhile ..
  · rintro ⟨d, t, rest, h, rfl⟩
    refine ⟨d, t, [], ⟨?_, h.labels, h.tld, h.two_le, Span.stops_nil⟩, rfl⟩
    rw [h.run, List.append_nil]

theorem domainLen_append (hv : Stops isDomainChar v) : domainLen (u ++ v) = domainLen u := by
  rw [← domainLen_takeWhile, Span.takeWhile_append hv, domainLen_takeWhile]

theorem domainLen_asBytes (y : Text) : domainLen (asBytes y) = domainLen (codes y) := by
  rw [← domainLen_takeWhile, isDomainChar_ascii.takeWhile]
  rw [← domainLen_takeWhile (b := codes y), codes, List.takeWhile_map]
  rfl

theorem domainLen_pos (h : domainLen b = some n) : 0 < n := by
  obtain ⟨d, t, rest, -, rfl⟩ := domainLen_some_iff.mp h
  omega

theorem domainLen_le (h : domainLen b = some n) : n ≤ b.length := by
  obtain ⟨d, t, rest, hs, rfl⟩ := domainLen_some_iff.mp h
  simp [hs.split]
  omega

/-- The domain is the whole run of domain characters. -/
theorem domainLen_run (h : domainLen b = some n) : b.take n = b.takeWhile isDomainChar := by
  obtain ⟨d, t, rest, hs, rfl⟩ := domainLen_some_iff.mp h
  have hsplit : b = (d ++ byteOf '.' :: t) ++ rest := by simp [hs.split]
  rw [hs.run, hsplit]
  exact List.take_left' (by simp; omega)

/-- A matched domain consists of domain characters. -/
theorem matched_domain {w y : Text} (h : domainLen (codes (w ++ y)) = some w.length) :
    ∀ c ∈ w, isDomainChar (byteOf c) = true := by
  intro c hc
  have hmem : byteOf c ∈ (codes (w ++ y)).takeWhile isDomainChar := by
    rw [← domainLen_run h, codes, List.map_append, List.take_left' (by simp)]
    exact List.mem_map_of_mem hc
  exact List.mem_takeWhile_imp hmem

theorem scanEmailLocalBack_run (hr : ∀ c ∈ w, isEmailLocalChar c = true)
    (hu : u.getLast?.any isEmailLocalChar = false) :
    scanEmailLocalBack (u ++ (w ++ v)) (u.length + w.length) = u.length := by
  induction w using List.reverseRecOn generalizing v with
  | nil =>
    cases u using List.reverseRecOn with
    | nil => rfl
    | append_singleton u c => simp_all [scanEmailLocalBack]
  | append_singleton w c ih =>
    rw [List.forall_mem_append, List.forall_mem_singleton] at hr
    rw [List.length_append, List.length_singleton, ← Nat.add_assoc, scanEmailLocalBack, if_pos]
    · simpa using ih (v := c :: v) hr.1
    · simp [hr.2]

def isLocal (c : Char) : Bool := isEmailLocalChar (byteOf c)

/-- The number of local-part characters at the end of the text. -/
def localRun (x : Text) : Nat := (x.rtakeWhile isLocal).length

@[simp] theorem localRun_nil : localRun [] = 0 := rfl

theorem localRun_concat (x : Text) (c : Char) :
    localRun (x ++ [c]) = if isLocal c then localRun x + 1 else 0 := by
  rw [localRun, List.rtakeWhile_concat]
  split_ifs
  · simp [localRun]
  · rfl

theorem localRun_append (hr : ∀ c ∈ r, isLocal c = true) :
    localRun (x ++ r) = localRun x + r.length := by
  induction r using List.reverseRecOn with
  | nil => simp
  | append_singleton r c ih =>
    rw [List.forall_mem_append, List.forall_mem_singleton] at hr
    rw [← List.append_assoc, localRun_concat, if_pos hr.2, ih hr.1, List.length_append]
    simp [Nat.add_assoc]

theorem localRun_behind {c : Char} (hc : isLocal c = false) (x r : Text) :
    localRun (x ++ c :: r) = localRun r := by
  induction r using List.reverseRecOn with
  | nil => simp [localRun_concat, hc]
  | append_singleton r d ih =>
    have hsplit : x ++ c :: (r ++ [d]) = (x ++ c :: r) ++ [d] := by simp
    rw [hsplit, localRun_concat, localRun_concat, ih]

/-- The text splits in front of its last run of local-part characters. -/
theorem exists_localRun (x : Text) : ∃ u r, x = u ++ r ∧ (∀ c ∈ r, isLocal c = true) ∧
    u.getLast?.any isLocal = false ∧ localRun x = r.length := by
  exact ⟨x.rdropWhile isLocal, x.rtakeWhile isLocal, List.rdropWhile_append_rtakeWhile.symm,
    fun c hc => List.mem_rtakeWhile_imp hc, Span.getLast?_rdropWhile .., rfl⟩

theorem scanEmailLocalBack_eq (x y : Text) :
    scanEmailLocalBack (asBytes (x ++ y)) (asBytes x).length =
      (asBytes x).length - localRun x := by
  obtain ⟨u, r, rfl, hr, hu, hrun⟩ := exists_localRun x
  have hascii : asBytes r = codes r := isEmailLocalChar_ascii.asBytes_eq hr
  have hlocal : ∀ b ∈ asBytes r, isEmailLocalChar b = true := by
    rw [hascii]
    simpa [isLocal] using hr
  have hstart : (asBytes u).getLast?.any isEmailLocalChar = false := by
    rw [isEmailLocalChar_ascii.getLast?_any]
    exact hu
  rw [hrun, Utf8.asBytes_append, Utf8.asBytes_append, List.append_assoc, List.length_append,
    scanEmailLocalBack_run hlocal hstart, hascii, List.length_map, Nat.add_sub_cancel]

/-- The length of the domain when the `@` between the two texts is that of an address. -/
def addressLen (x y : Text) : Option Nat :=
  if localRun x = 0 then none else domainLen (codes y)

theorem addressLen_some_iff : addressLen x y = some n ↔
    localRun x ≠ 0 ∧ domainLen (codes y) = some n := by
  simp [addressLen]

theorem byte_at (x y : Text) {c : Char} :
    (asBytes (x ++ c :: y))[(asBytes x).length]? = some (byteOf c) := by
  rw [Utf8.asBytes_append, List.getElem?_append_right le_rfl, Nat.sub_self,
    ← List.head?_eq_getElem?, Utf8.head?_asBytes]
  rfl

theorem domain_behind (x y : Text) :
    scanEmailDomainForward (asBytes (x ++ '@' :: y)) ((asBytes x).length + 1) =
      (domainLen (codes y)).map ((asBytes x).length + 1 + ·) := by
  have hdrop : (asBytes (x ++ '@' :: y)).drop ((asBytes x).length + 1) = asBytes y := by
    rw [Utf8.asBytes_append, ← List.drop_drop, List.drop_left, Utf8.asBytes_cons]
    rfl
  rw [scanEmailDomainForward_eq, hdrop, domainLen_asBytes]

theorem localRun_le (x : Text) : localRun x ≤ (asBytes x).length :=
  (List.rtakeWhile_suffix isLocal x).length_le.trans Utf8.length_le_asBytes

theorem emailStep_advances (input : Text) (st : Cursor) : st.i < (emailStep input st).i := by
  have hcopy := copyChar_advances input st
  rw [emailStep]
  dsimp only
  by_cases hat : (asBytes input)[st.i]? = some (byteOf '@')
  · rw [if_pos hat]
    cases scanEmailDomainForward (asBytes input) (st.i + 1) with
    | none => exact hcopy
    | some domainEnd =>
      dsimp only
      split
      · exact Nat.lt_of_lt_of_le (Nat.lt_succ_self _) (Nat.le_max_right ..)
      · exact hcopy
  · rw [if_neg hat]
    exact hcopy

/-- The loops of the four passes read all of the input. -/
theorem passes_exit (input : Text) : ∀ step ∈ [redactStep ipv6At redactedIp,
      redactStep ipv4At redactedIp, emailStep, redactStep dobAt redactedDob],
    inside input (Loop.whileLoop (inside input) (step input) (asBytes input).length ⟨0, []⟩) =
      false := by
  intro step hstep
  simp only [List.mem_cons, List.not_mem_nil, or_false] at hstep
  rcases hstep with rfl | rfl | rfl | rfl
  · exact loop_exits (redactStep_advances ipv6At redactedIp input)
  · exact loop_exits (redactStep_advances ipv4At redactedIp input)
  · exact loop_exits (emailStep_advances input)
  · exact loop_exits (redactStep_advances dobAt redactedDob input)

theorem emailStep_keep {c : Char} {out : Text} (h : c = '@' → addressLen x y = none) :
    emailStep (x ++ c :: y) ⟨(asBytes x).length, out⟩ =
      ⟨(asBytes (x ++ [c])).length, out ++ [c]⟩ := by
  rw [← copyChar_boundary (y := y)]
  simp only [emailStep, byte_at, Option.some.injEq]
  by_cases hc : byteOf c = byteOf '@'
  · obtain rfl : c = '@' := Utf8.eq_of_byteOf (by decide) hc
    have hnone := h rfl
    rw [addressLen] at hnone
    rw [if_pos rfl, domain_behind, scanEmailLocalBack_eq]
    split_ifs at hnone with hrun
    · cases domainLen (codes y) <;> simp [hrun]
    · rw [hnone, Option.map_none]
  · rw [if_neg hc]

theorem emailStep_redact {w y out : Text} (h : addressLen x (w ++ y) = some w.length) :
    emailStep (x ++ '@' :: (w ++ y)) ⟨(asBytes x).length, out⟩ =
      ⟨(asBytes (x ++ '@' :: w)).length, popChars (localRun x) out ++ redactedEmail⟩ := by
  obtain ⟨hrun, hlen⟩ := addressLen_some_iff.mp h
  have hle := localRun_le x
  have hascii : asBytes w = codes w := isDomainChar_ascii.asBytes_eq (matched_domain hlen)
  simp only [emailStep, byte_at, if_true, domain_behind, scanEmailLocalBack_eq, hlen,
    Option.map_some]
  rw [if_pos (by omega), Nat.sub_sub_self hle, Utf8.asBytes_append, Utf8.asBytes_cons, hascii,
    List.length_append, List.length_append, Cursor.mk.injEq]
  refine ⟨?_, rfl⟩
  have hat : (String.utf8EncodeChar '@').length = 1 := rfl
  simp [hat]
  omega

end ProviiAudit
