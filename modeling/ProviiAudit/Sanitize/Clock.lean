import ProviiAudit.Sanitize.Idempotent
import ProviiAudit.Timestamp

/-! Timestamps in free text.

The time of day has two colons, and that is all the IPv6 pass asks for. -/
namespace ProviiAudit

open Utf8 (Text asBytes byteOf)
open Calendar (Date)
open Span (Stops)
open Scan (scan lastOr)

variable {g h m s t x y z a ts pre post tail front R : Text} {c sep : Char} {p : Option Char}
  {k : Nat}

def clockText (hours minutes seconds : Nat) : Text :=
  padded 2 hours ++ ':' :: (padded 2 minutes ++ ':' :: padded 2 seconds)

def dateText (d : Date) : Text :=
  padded 4 d.year ++ '-' :: (padded 2 d.month ++ '-' :: padded 2 d.day)

/-- A timestamp: what `format_iso8601` produces, or the form of log lines. -/
inductive IsTimestamp : Text → Prop
  | iso (t : UInt64) : IsTimestamp (isoTimestamp t)
  | log (d : Date) (hours minutes seconds : Nat) : d.year < 10000 → hours < 24 → minutes < 60 →
      seconds < 60 → IsTimestamp (dateText d ++ ' ' :: clockText hours minutes seconds)

/-- Two digits. -/
structure TwoDigits (g : Text) : Prop where
  digits : ∀ c ∈ g, c.isDigit = true
  two : g.length = 2

theorem twoDigits_padded {n : Nat} (hn : n < 100) : TwoDigits (padded 2 n) :=
  ⟨padded_digits, padded_length (by decide) hn⟩

theorem TwoDigits.hexGroup (hg : TwoDigits g) : IsHexGroup (codes g) := by
  refine ⟨fun c hc => ?_, by simp [hg.two], by simp [hg.two]⟩
  obtain ⟨d, hd, rfl⟩ := List.mem_map.mp hc
  apply isAsciiHexdigit_of_digit
  rw [isAsciiDigit_byteOf]
  exact hg.digits d hd

theorem not_mem_digits (hg : ∀ c ∈ g, c.isDigit = true) (hc : c.isDigit = false) : c ∉ g := by
  intro hmem
  simp [hg c hmem] at hc

/-- The part of a timestamp that the parser takes for an address, with what is around it. -/
structure Clocked (ts front : Text) (sep : Char) (h m s tail : Text) : Prop where
  eq : ts = front ++ sep :: (h ++ ':' :: (m ++ ':' :: (s ++ tail)))
  hours : TwoDigits h
  minutes : TwoDigits m
  seconds : TwoDigits s
  separator : isIpv6Char (byteOf sep) = false
  plain : ':' ∉ front ++ sep :: tail
  stops : Stops isIpv6Adjacent (codes tail)
  dots : tail.count '.' < 3

theorem IsTimestamp.clocked (hts : IsTimestamp ts) :
    ∃ front sep h m s tail, Clocked ts front sep h m s tail := by
  have hcolon : ∀ w n, ':' ∉ padded w n := fun w n => not_mem_digits padded_digits (by decide)
  cases hts with
  | iso t =>
    obtain ⟨d, -, hours, minutes, seconds, millis, htext, -, -, -, hh, hm, hs, -⟩ :=
      formatIso8601_calendar t
    refine ⟨dateText d, 'T', padded 2 hours, padded 2 minutes, padded 2 seconds,
      '.' :: (padded 3 millis ++ ['Z']), ⟨?_, twoDigits_padded (by omega),
        twoDigits_padded (by omega), twoDigits_padded (by omega), by decide, ?_, ?_, ?_⟩⟩
    · rw [isoTimestamp, Option.get_of_eq_some _ htext]
      simp [isoText, dateText]
    · simp [dateText, hcolon]
    · exact Span.stops_cons.mpr (by decide)
    · have hdot : '.' ∉ padded 3 millis := not_mem_digits padded_digits (by decide)
      simp [List.count_eq_zero.mpr hdot]
  | log d hours minutes seconds hy hh hm hs =>
    refine ⟨dateText d, ' ', padded 2 hours, padded 2 minutes, padded 2 seconds, [],
      ⟨by simp [clockText], twoDigits_padded (by omega), twoDigits_padded (by omega),
        twoDigits_padded (by omega), by decide, ?_, Span.stops_nil, by simp⟩⟩
    simp [dateText, hcolon]

theorem Clocked.len (hc : Clocked ts front sep h m s tail) :
    ipv6Matcher.len none (h ++ ':' :: (m ++ ':' :: (s ++ tail))) = some 8 := by
  have hgs : ∀ g ∈ [codes h, codes m, codes s], IsHexGroup g := by
    simp [hc.hours.hexGroup, hc.minutes.hexGroup, hc.seconds.hexGroup]
  have hcodes : codes (h ++ ':' :: (m ++ ':' :: (s ++ tail))) =
      joinColon [codes h, codes m, codes s] ++ codes tail := by
    simp [joinColon_cons]
  have hlen : (joinColon [codes h, codes m, codes s]).length = 8 := by
    simp [joinColon_cons, hc.hours.two, hc.minutes.two, hc.seconds.two]
  have hends : EndsGroup (codes tail) :=
    endsGroup_of_dots hc.stops (by rw [count_codes (by decide)]; exact hc.dots)
  have hhead : ipv6HeadLen (joinColon [codes h, codes m, codes s] ++ codes tail) = some 8 := by
    rw [ipv6HeadLen_hex (joinColon_starts hc.hours.hexGroup.starts),
      groupsLen_join hgs (by simp) (by simp) hends, hlen]
  have htake : (joinColon [codes h, codes m, codes s] ++ codes tail).take 8 =
      joinColon [codes h, codes m, codes s] := List.take_left' hlen
  have hcolons : 2 ≤ (joinColon [codes h, codes m, codes s]).count (byteOf ':') := by
    simp only [joinColon_cons _ (List.cons_ne_nil _ _), joinColon_singleton, List.count_append,
      List.count_cons_self]
    omega
  refine Recogniser.matcher_len_iff.mpr ⟨rfl, ?_, ?_⟩
  · rw [hcodes]
    exact Option.filter_eq_some_iff.mpr ⟨hhead, by simpa [htake] using hcolons⟩
  · rw [hcodes, List.getElem?_append_right hlen.le, hlen, Nat.sub_self, ← List.head?_eq_getElem?]
    exact hc.stops

theorem Clocked.count (hc : Clocked ts front sep h m s tail) : ts.count ':' = 2 := by
  have hcolon : ∀ {g}, TwoDigits g → g.count ':' = 0 :=
    fun hg => List.count_eq_zero.mpr (not_mem_digits hg.digits (by decide))
  have hplain := List.count_eq_zero.mpr hc.plain
  rw [List.count_append, List.count_cons] at hplain
  rw [hc.eq]
  simp only [List.count_append, List.count_cons, hcolon hc.hours, hcolon hc.minutes,
    hcolon hc.seconds, beq_self_eq_true, if_true]
  omega

/-- The IPv6 pass leaves no colon of a timestamp. -/
theorem Clocked.redacted (hc : Clocked ts front sep h m s tail) :
    (scan ipv6Matcher redactedIp none ts).count ':' = 0 := by
  have hsep : Scan.Separates ipv6Matcher sep := ipv6Recogniser.separates hc.separator
  have hle : ∀ p w, (scan ipv6Matcher redactedIp p w).count ':' ≤ w.count ':' :=
    fun p w => Scan.count_scan_le (by decide)
  have hlen : (h ++ ':' :: (m ++ ':' :: s)).length = 8 := by
    simp [hc.hours.two, hc.minutes.two, hc.seconds.two]
  have hmatch : ipv6Matcher.len none ((h ++ ':' :: (m ++ ':' :: s)) ++ tail) =
      some (h ++ ':' :: (m ++ ':' :: s)).length := by
    rw [hlen]
    simpa using hc.len
  have hts : ts = front ++ sep :: ((h ++ ':' :: (m ++ ':' :: s)) ++ tail) := by
    rw [hc.eq]
    simp
  have hplain := List.count_eq_zero.mpr hc.plain
  rw [List.count_append, List.count_cons] at hplain
  have hfront := hle none front
  have htail := hle (lastOr none (h ++ ':' :: (m ++ ':' :: s))) tail
  have hR : redactedIp.count ':' = 0 := by decide
  rw [hts, Scan.scan_sep hsep, Scan.scan_redact hmatch]
  simp only [List.count_append, List.count_cons, hR]
  omega

theorem count_popChars_le (n : Nat) (out : Text) : (popChars n out).count c ≤ out.count c := by
  rw [popChars_eq]
  exact (List.take_prefix ..).sublist.count_le c

theorem count_stripEmails_le (hc : c ∉ redactedEmail) (t : Text) :
    (stripEmails t).count c ≤ t.count c := by
  rw [stripEmails_eq]
  exact count_emailRest_le hc [] t

theorem count_stripEmails_between (hc : c ∉ redactedEmail) (hx : x = [] ∨ x.getLast? = some ' ')
    (hy : y = [] ∨ y.head? = some ' ') : (stripEmails (x ++ (a ++ y))).count c ≤
      (stripEmails x).count c + a.count c + (stripEmails y).count c := by
  have hfront : (stripEmails (x ++ a)).count c ≤ (stripEmails x).count c + a.count c := by
    rcases hx with rfl | hx
    · simpa [stripEmails_eq, emailRest] using count_stripEmails_le hc a
    · obtain ⟨x, rfl⟩ := List.getLast?_eq_some_iff.mp hx
      have hspace : emailRest [] 0 [' '] = ⟨0, [' ']⟩ := rfl
      have hx' : stripEmails (x ++ [' ']) = stripEmails x ++ [' '] := by
        rw [stripEmails_append (by decide) (by decide) rfl, stripEmails_eq [' '], hspace]
        rfl
      have hle := count_stripEmails_le hc (' ' :: a)
      have hpop := count_popChars_le (c := c) (emailRest [] 0 (' ' :: a)).owed (stripEmails x)
      rw [hx', List.append_assoc, stripEmails_append (by decide) (by decide) rfl]
      simp only [List.count_append, List.singleton_append, List.count_cons, List.count_nil] at hle ⊢
      omega
  rcases hy with rfl | hy
  · rw [List.append_nil]
    exact hfront.trans (Nat.le_add_right ..)
  · have hpop := count_popChars_le (c := c) (emailRest [] 0 y).owed (stripEmails (x ++ a))
    rw [← List.append_assoc, stripEmails_append (by decide) (by decide) hy, List.count_append]
    omega

theorem count_stripDobPatterns (t : Text) : (stripDobPatterns t).count ':' = t.count ':' := by
  rw [stripDobPatterns_eq_scan]
  refine Scan.count_scan_eq (by decide) fun p w y hm hmem => ?_
  exact absurd (dob_chars hm _ hmem) (by decide)

/-- The address passes on what stands between spaces. -/
theorem stripIpv4_between (hx : x = [] ∨ x.getLast? = some ' ') (hy : y = [] ∨ y.head? = some ' ') :
    stripIpv4 (stripIpv6 (x ++ (a ++ y))) =
      stripIpv4 (stripIpv6 x) ++ (stripIpv4 (stripIpv6 a) ++ stripIpv4 (stripIpv6 y)) ∧
    (stripIpv4 (stripIpv6 x) = [] ∨ (stripIpv4 (stripIpv6 x)).getLast? = some ' ') ∧
    (stripIpv4 (stripIpv6 y) = [] ∨ (stripIpv4 (stripIpv6 y)).head? = some ' ') := by
  have h6 : Scan.Separates ipv6Matcher ' ' := ipv6Recogniser.separates (by decide)
  have h4 : Scan.Separates ipv4Matcher ' ' := ipv4Recogniser.separates (by decide)
  have hx6 := Scan.scan_ends (R := redactedIp) (p := none) h6 hx
  have hy6 := Scan.scan_begins (R := redactedIp) (p := none) h6 hy
  simp only [stripIpv6_eq_scan, stripIpv4_eq_scan]
  refine ⟨?_, Scan.scan_ends h4 hx6, Scan.scan_begins h4 hy6⟩
  rw [Scan.scan_between h6 hx hy, Scan.scan_between h4 hx6 hy6]

/-- Wherever a timestamp stands between spaces, its time of day is lost. -/
theorem stripPii_loses_timestamp (hts : IsTimestamp ts) (hpre : pre = [] ∨ pre.getLast? = some ' ')
    (hpost : post = [] ∨ post.head? = some ' ') :
    stripPii (pre ++ (ts ++ post)) ≠ stripPii pre ++ (ts ++ stripPii post) := by
  obtain ⟨front, sep, h, m, s, tail, hclock⟩ := hts.clocked
  obtain ⟨hsplit, hbefore, hbehind⟩ := stripIpv4_between (a := ts) hpre hpost
  have hlost : (stripIpv4 (stripIpv6 ts)).count ':' ≤ (stripIpv6 ts).count ':' := by
    rw [stripIpv4_eq_scan]
    exact Scan.count_scan_le (by decide)
  have hnone : (stripIpv6 ts).count ':' = 0 := by
    rw [stripIpv6_eq_scan]
    exact hclock.redacted
  have htwo := hclock.count
  have hemails := count_stripEmails_between (c := ':') (a := stripIpv4 (stripIpv6 ts)) (by decide)
    hbefore hbehind
  intro heq
  have hcount := congrArg (List.count ':') heq
  simp only [stripPii, List.count_append, count_stripDobPatterns, hsplit] at hcount
  omega

def sampleLogTime : Text := "2024-01-15 12:34:56".toList

theorem isTimestamp_sample : IsTimestamp sampleLogTime := by
  have htext : dateText ⟨2024, 1, 15, by decide, by decide, by decide, by decide⟩ ++
      ' ' :: clockText 12 34 56 = sampleLogTime := by decide
  rw [← htext]
  apply IsTimestamp.log
  all_goals decide

theorem stripPii_loses_timestamp_sample :
    stripPii ("at ".toList ++ (sampleLogTime ++ " end".toList)) ≠
      stripPii "at ".toList ++ (sampleLogTime ++ stripPii " end".toList) :=
  stripPii_loses_timestamp isTimestamp_sample (.inr (by decide)) (.inr (by decide))

theorem timestamp_mistaken : ¬ ∀ ts pre post : Text, IsTimestamp ts →
    (pre = [] ∨ pre.getLast? = some ' ') → (post = [] ∨ post.head? = some ' ') →
    stripPii (pre ++ (ts ++ post)) = stripPii pre ++ (ts ++ stripPii post) := by
  intro h
  have heq := h sampleLogTime [] [] isTimestamp_sample (.inl rfl) (.inl rfl)
  exact absurd heq (by decide)

end ProviiAudit
