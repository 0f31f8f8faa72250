import ProviiAudit.Sanitize.Grammar
import ProviiAudit.Sanitize.Passes

/-! The IPv6 pass finds every textual form of an address. -/
namespace ProviiAudit

open Utf8 (Text asBytes byteOf)
open Span (Stops)

variable {pre a post v : Text} {c : Char} {n : Nat}

theorem IsIpv6.chars {b : Bytes} (hb : IsIpv6 b) : ∀ c ∈ b, isIpv6Char c = true := by
  have hlen : ipv6Recogniser.headLen b = some b.length := by
    have h : ipv6AddressLen (b ++ []) = some b.length :=
      hb.addressLen (EndsAddress.endsGroup (.inl Span.stops_nil))
    rwa [List.append_nil] at h
  have halpha := ipv6Recogniser.headLen_alphabet hlen
  rwa [List.take_length] at halpha

theorem IsIpv6.ascii (ha : IsIpv6 (asBytes a)) : asBytes a = codes a :=
  Utf8.asBytes_eq_map fun b hb => isIpv6Char_ascii b (ha.chars b hb)

/-- At the start of an address the matcher takes all of it. -/
theorem ipv6_matcher_address (ha : IsIpv6 (asBytes a))
    (hpre : (asBytes pre).getLast?.any isIpv6Adjacent = false)
    (hpost : EndsAddress (asBytes post)) :
    ipv6Recogniser.matcher.len pre.getLast? (a ++ post) = some a.length := by
  have hhead : ipv6Recogniser.headLen (asBytes (a ++ post)) = some a.length := by
    have hlen : (asBytes a).length = a.length := by rw [ha.ascii, List.length_map]
    rw [Utf8.asBytes_append, ← hlen]
    exact ha.addressLen hpost.endsGroup
  obtain ⟨hcodes, hafter⟩ := ipv6Recogniser.headLen_asBytes (a ++ post)
  rw [hcodes] at hhead
  refine Recogniser.matcher_len_iff.mpr ⟨?_, hhead, ?_⟩
  · rwa [← ipv6Recogniser.adjacent_ascii.getLast?_any]
  · rw [← hafter _ hhead, Utf8.asBytes_append, ha.ascii, codes,
      List.getElem?_append_right (by simp), List.length_map, Nat.sub_self,
      ← List.head?_eq_getElem?]
    exact hpost.adjacent

/-- No match before an address runs into it. -/
theorem ipv6_matcher_le (ha : IsIpv6 (asBytes a)) (hc : isIpv6Adjacent (byteOf c) = false)
    {p : Option Char} (h : ipv6Recogniser.matcher.len p ((v ++ [c]) ++ (a ++ post)) = some n) :
    n ≤ (v ++ [c]).length := by
  obtain ⟨-, hlen, hafter⟩ := Recogniser.matcher_len_iff.mp h
  have hcolon : byteOf ':' ∈ (codes (a ++ post)).takeWhile isIpv6Adjacent := by
    rw [codes, List.map_append, ← codes, ← ha.ascii]
    exact ha.colon_mem
  rw [List.append_assoc, codes, List.map_append] at hlen hafter
  simpa using ipv6HeadLen_le_of_colon hc hcolon (Option.eq_some_of_filter_eq_some hlen) hafter

theorem ipv6_stays_before (ha : IsIpv6 (asBytes a))
    (hpre : (asBytes pre).getLast?.any isIpv6Adjacent = false) :
    Scan.Within ipv6Recogniser.matcher none pre (a ++ post) := by
  intro u v hsplit hne n hn
  obtain ⟨v, c, rfl⟩ := (List.eq_nil_or_concat v).resolve_left hne
  rw [List.concat_eq_append] at hsplit hn ⊢
  refine ipv6_matcher_le ha ?_ hn
  have hadjacent : Utf8.AsciiOnly isIpv6Adjacent := ipv6Recogniser.adjacent_ascii
  rw [hadjacent.getLast?_any, hsplit] at hpre
  simpa using hpre

/-- Whatever the surrounding text, the cursor of the IPv6 pass reaches an address, replaces
exactly it and resumes behind it; the placeholder stays in the result of the pass. -/
theorem stripIpv6_redacts_address (pre a post : Text) (ha : IsIpv6 (asBytes a))
    (hpre : (asBytes pre).getLast?.any isIpv6Adjacent = false)
    (hpost : EndsAddress (asBytes post)) :
    ∃ st, Loop.Reaches (inside (pre ++ (a ++ post)))
        (redactStep ipv6At redactedIp (pre ++ (a ++ post))) ⟨0, []⟩ st ∧
      st.i = (asBytes pre).length ∧
      redactStep ipv6At redactedIp (pre ++ (a ++ post)) st =
        ⟨(asBytes (pre ++ a)).length, st.result ++ redactedIp⟩ ∧
      ∃ rest, stripIpv6 (pre ++ (a ++ post)) = st.result ++ redactedIp ++ rest := by
  rw [stripIpv6, ipv6At_eq]
  have hlocal : ∀ u v, pre = u ++ v → v ≠ [] → ∀ n,
      ipv6Recogniser.matcher.len u.getLast? (v ++ (a ++ post)) = some n → n ≤ v.length := by
    intro u v hsplit hne n hn
    exact ipv6_stays_before ha hpre u v hsplit hne n (by simpa [Scan.lastOr] using hn)
  obtain ⟨out, hreach⟩ := reaches_boundary ipv6Recogniser redactedIp pre (a ++ post) hlocal
  have hstep : redactStep ipv6Recogniser.find redactedIp (pre ++ (a ++ post))
      ⟨(asBytes pre).length, out⟩ = ⟨(asBytes (pre ++ a)).length, out ++ redactedIp⟩ :=
    redactStep_redact (ipv6_matcher_address ha hpre hpost)
  have hne : a ≠ [] := by
    rintro rfl
    exact absurd (@IsIpv6.colon_mem _ [] ha) (by simp)
  have hin : inside (pre ++ (a ++ post)) ⟨(asBytes pre).length, out⟩ = true :=
    inside_boundary.mpr (by simp [hne])
  have hnext := prefix_of_reaches (hreach.step hin)
  rw [hstep] at hnext
  obtain ⟨rest, hrest⟩ := hnext
  exact ⟨_, hreach, rfl, hstep, rest, hrest.symm⟩

theorem sampleIpv6 : IsIpv6 (asBytes "::ffff:192.168.1.1".toList) := by
  have hquad : IsQuad (codes "192.168.1.1".toList) :=
    ⟨codes "192".toList, codes "168".toList, codes "1".toList, codes "1".toList, by decide,
      by decide, by decide, by decide, by decide⟩
  exact .compressedMixed [] [codes "ffff".toList] _ (by decide) (by decide) hquad

theorem stripIpv6_redacts_address_sample :
    ∃ st, Loop.Reaches (inside ("from ".toList ++ ("::ffff:192.168.1.1".toList ++ ".".toList)))
        (redactStep ipv6At redactedIp
          ("from ".toList ++ ("::ffff:192.168.1.1".toList ++ ".".toList))) ⟨0, []⟩ st ∧
      st.i = (asBytes "from ".toList).length ∧
      redactStep ipv6At redactedIp
          ("from ".toList ++ ("::ffff:192.168.1.1".toList ++ ".".toList)) st =
        ⟨(asBytes ("from ".toList ++ "::ffff:192.168.1.1".toList)).length,
          st.result ++ redactedIp⟩ ∧
      ∃ rest, stripIpv6 ("from ".toList ++ ("::ffff:192.168.1.1".toList ++ ".".toList)) =
        st.result ++ redactedIp ++ rest :=
  stripIpv6_redacts_address "from ".toList "::ffff:192.168.1.1".toList ".".toList sampleIpv6
    (by decide) (.inr ⟨[], by decide, by decide⟩)

end ProviiAudit
