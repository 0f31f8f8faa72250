import ProviiAudit.Sanitize.Passes
import ProviiAudit.Sanitize.Quads

/-! The IPv6 pass on a text with a dotted quad in it.

Whether and where it touches the quad depends on the surrounding text only. -/
namespace ProviiAudit

open Utf8 (Text asBytes byteOf)
open Span (Stops)
open Scan (scan lastOr lastOr_cons lastOr_append)

variable {pre a post r s x y : Text} {p : Option Char} {c : Char} {n j : Nat}

/-- The IPv6 pass, as a matcher. -/
abbrev ipv6Matcher : Scan.Matcher Char := ipv6Recogniser.matcher

abbrev ipv4Matcher : Scan.Matcher Char := ipv4Recogniser.matcher

theorem ipv6_colons (h : ipv6Matcher.len p (w ++ y) = some w.length) : 2 ≤ w.count ':' := by
  have hlen : ipv6AddressLen (codes (w ++ y)) = some w.length :=
    (Recogniser.matcher_len_iff.mp h).2.1
  obtain ⟨-, hcount⟩ := Option.filter_eq_some_iff.mp hlen
  rw [codes, List.map_append, List.take_left' (by simp), ← codes, count_codes (by decide)] at hcount
  simpa using hcount

/-- The tests on what the parser has read: two colons, and no hex digit or colon behind it. -/
def ipv6Accepts (b : Bytes) (n : Nat) : Bool :=
  2 ≤ (b.take n).count (byteOf ':') && !(b[n]?).any isIpv6Adjacent

theorem ipv6Matcher_len : ipv6Matcher.len p s =
    if p.any fun c => isIpv6Adjacent (byteOf c) then none
    else (ipv6HeadLen (codes s)).filter (ipv6Accepts (codes s)) := by
  have hfilter : ∀ o : Option Nat,
      (o.filter fun n => (List.take n (codes s)).count (byteOf ':') ≥ 2).filter
      (fun n => !((codes s)[n]?).any isIpv6Adjacent) = o.filter (ipv6Accepts (codes s)) := by
    intro o
    rw [Option.filter_filter]
    rfl
  simp only [Recogniser.matcher, ipv6Recogniser, ipv6AddressLen, hfilter]

theorem ipv6Accepts_before {b u : Bytes} (hn : n < b.length) :
    ipv6Accepts (b ++ u) n = ipv6Accepts b n := by
  rw [ipv6Accepts, ipv6Accepts, List.take_append_of_le_length hn.le, List.getElem?_append_left hn]

theorem IsQuad.no_colon {q : Bytes} (hq : IsQuad q) (n : Nat) :
    (q.take n).count (byteOf ':') = 0 := by
  rw [List.count_eq_zero]
  intro hmem
  exact absurd (hq.ipv4Adjacent _ (List.mem_of_mem_take hmem)) (by decide)

theorem ipv6Accepts_quad {b q v : Bytes} (hq : IsQuad q) (hn : n ≤ q.length) :
    ipv6Accepts (b ++ (q ++ v)) (b.length + n) =
      (2 ≤ b.count (byteOf ':') && !((q ++ v)[n]?).any isIpv6Adjacent) := by
  rw [ipv6Accepts, List.take_length_add_append, List.take_append_of_le_length hn,
    List.count_append, hq.no_colon, Nat.add_zero, List.getElem?_append_right (Nat.le_add_right ..),
    Nat.add_sub_cancel_left]

/-- In the first octet the parser stops at its end or not at all. -/
theorem ipv6Accepts_first {b q v : Bytes} (hq : IsQuad q) (hn : n ≤ firstLen q) :
    ipv6Accepts (b ++ (q ++ v)) (b.length + n) =
      (2 ≤ b.count (byteOf ':') && n == firstLen q) := by
  obtain ⟨o, z, rfl, ho, hfirst⟩ := hq.first
  rw [hfirst] at hn ⊢
  rw [ipv6Accepts_quad hq (by simp; omega), List.append_assoc]
  congr 1
  rcases Nat.lt_or_eq_of_le hn with hlt | rfl
  · have hdigit := ho.isHexGroup.digits _ (List.getElem_mem hlt)
    rw [List.getElem?_append_left hlt, List.getElem?_eq_getElem hlt]
    simp [isIpv6Adjacent, hdigit, hlt.ne]
  · rw [List.getElem?_append_right le_rfl, Nat.sub_self]
    simp [show isIpv6Adjacent (byteOf '.') = false by decide]

/-- What the IPv6 pass makes of `r` with a dotted quad and `post` behind it. -/
inductive Meets (p : Option Char) (r post : Text) : Prop
  | apart (res : Option Nat) : (∀ n, res = some n → n < r.length) →
      (∀ a, IsQuad (codes a) → ipv6Matcher.len p (r ++ (a ++ post)) = res) → Meets p r post
  | whole : (∀ c ∈ r, isIpv6Adjacent (byteOf c) = true) →
      (∀ a, IsQuad (codes a) → ipv6Matcher.len p (r ++ (a ++ post)) = some (r.length + a.length)) →
      Meets p r post
  | part (j : Nat) : (∀ c ∈ r, isIpv6Adjacent (byteOf c) = true) → j ≤ 3 →
      (∀ a, IsQuad (codes a) → ipv6Matcher.len p (r ++ (a ++ post)) =
        if j + firstLen (codes a) ≤ 4 then some (r.length + firstLen (codes a)) else none) →
      Meets p r post

theorem meets (hr : r ≠ []) (hlast : (codes r).getLast?.any isIpv4Adjacent = false)
    (hv : Stops isAsciiDigit (codes post)) : Meets p r post := by
  have hcodes : ∀ a, codes (r ++ (a ++ post)) = codes r ++ (codes a ++ codes post) := by simp
  have hlen : (codes r).length = r.length := List.length_map ..
  by_cases hp : p.any (fun c => isIpv6Adjacent (byteOf c)) = true
  · exact .apart none (by simp) fun a _ => by rw [ipv6Matcher_len, if_pos hp]
  rcases ipv6HeadLen_reads (r := codes r) hv (by simpa using hr) hlast with hnone | ⟨f, hreads, hf⟩
  · refine .apart none (by simp) fun a ha => ?_
    rw [ipv6Matcher_len, if_neg hp, hcodes, hnone _ ha, Option.filter_none]
  have hmatch : ∀ a, IsQuad (codes a) → ipv6Matcher.len p (r ++ (a ++ post)) =
      if ipv6Accepts (codes r ++ (codes a ++ codes post)) (f (codes a)) then some (f (codes a))
      else none := by
    intro a ha
    rw [ipv6Matcher_len, if_neg hp, hcodes, hf _ ha, Option.filter_some]
  cases hreads with
  | before n hn h =>
    rcases Nat.lt_or_eq_of_le hn with hlt | rfl
    · refine .apart (if ipv6Accepts (codes r) n then some n else none) ?_ fun a ha => ?_
      · intro k hk
        split_ifs at hk
        rw [← hlen]
        exact Option.some.inj hk ▸ hlt
      · rw [hmatch a ha, h _ ha, ipv6Accepts_before hlt]
    · refine .apart none (by simp) fun a ha => ?_
      obtain ⟨o, z, hsplit, ho, hfirst⟩ := ha.first
      have hno := ipv6Accepts_first (b := codes r) (v := codes post) ha (Nat.zero_le _)
      have hpos := ho.pos
      rw [hmatch a ha, h _ ha, ← Nat.add_zero (codes r).length, hno, hfirst]
      simp
      omega
  | whole hadj h =>
    have haccept : ∀ a, IsQuad (codes a) → ipv6Matcher.len p (r ++ (a ++ post)) =
        if 2 ≤ (codes r).count (byteOf ':') && !(codes post).head?.any isIpv6Adjacent then
          some (r.length + a.length) else none := by
      intro a ha
      have hnext : (codes a ++ codes post)[(codes a).length]? = (codes post).head? := by
        rw [List.getElem?_append_right le_rfl, Nat.sub_self, List.head?_eq_getElem?]
      rw [hmatch a ha, h _ ha, ipv6Accepts_quad ha le_rfl, hnext, hlen, List.length_map]
    cases hyes : decide (2 ≤ (codes r).count (byteOf ':')) &&
        !(codes post).head?.any isIpv6Adjacent with
    | true =>
      refine .whole (by simpa using hadj) fun a ha => ?_
      rw [haccept a ha, hyes, if_pos rfl]
    | false =>
      refine .apart none (by simp) fun a ha => ?_
      rw [haccept a ha, hyes, if_neg (by simp)]
  | part j hadj hpos hle hj h =>
    have haccept : ∀ a, IsQuad (codes a) → ipv6Matcher.len p (r ++ (a ++ post)) =
        if 2 ≤ (codes r).count (byteOf ':') ∧ j + firstLen (codes a) ≤ 4 then
          some (r.length + firstLen (codes a)) else none := by
      intro a ha
      have hf := h _ ha
      obtain ⟨n, hn⟩ : ∃ n, f (codes a) = (codes r).length + n :=
        Nat.exists_eq_add_of_le (by omega)
      have hfirst := ipv6Accepts_first (b := codes r) (v := codes post) (n := n) ha (by omega)
      rw [hmatch a ha, hn, hfirst]
      by_cases hfour : j + firstLen (codes a) ≤ 4
      · obtain rfl : n = firstLen (codes a) := by omega
        simp [hfour]
      · have hne : n ≠ firstLen (codes a) := by omega
        simp [hfour, hne]
    by_cases hcount : 2 ≤ (codes r).count (byteOf ':')
    · refine .part j (by simpa using hadj) hle fun a ha => ?_
      simp [haccept a ha, hcount]
    · refine .apart none (by simp) fun a ha => ?_
      simp [haccept a ha, hcount]

def oneQuad : Text := "1.1.1.1".toList

theorem isQuad_oneQuad : IsQuad (codes oneQuad) :=
  ⟨codes ['1'], codes ['1'], codes ['1'], codes ['1'], by decide, by decide, by decide, by decide,
    rfl⟩

/-- No match stops inside a run of hex digits and colons. -/
theorem len_run {k : Text} (hk : ∀ c ∈ k, isIpv6Adjacent (byteOf c) = true)
    (h : ipv6Matcher.len p (x ++ (k ++ y)) = some n) (hn : n < (x ++ k).length) : n ≤ x.length := by
  by_contra hlong
  have hafter := (Recogniser.matcher_len_iff.mp h).2.2
  rw [← List.append_assoc, codes, List.getElem?_map, List.getElem?_append_left hn,
    List.getElem?_append_right (by omega)] at hafter
  rw [List.length_append] at hn
  have hget : n - x.length < k.length := by omega
  rw [List.getElem?_eq_getElem hget] at hafter
  have hadj := hk _ (List.getElem_mem hget)
  exact absurd (hafter.symm.trans hadj) (by simp)

/-- The run of hex digits and colons in front of the quad is reached whatever the quad. -/
theorem scan_to_run {k : Text} (hx : x.getLast?.any (fun c => isIpv6Adjacent (byteOf c)) = false)
    (hk : ∀ c ∈ k, isIpv6Adjacent (byteOf c) = true)
    (hlast : (codes (x ++ k)).getLast?.any isIpv4Adjacent = false)
    (hv : Stops isAsciiDigit (codes post)) :
    ∃ X, (X.getLast? = x.getLast? ∨ X.getLast? = some ']') ∧ ∀ a, IsQuad (codes a) →
      scan ipv6Matcher redactedIp p (x ++ (k ++ (a ++ post))) =
        X ++ scan ipv6Matcher redactedIp (lastOr p x) (k ++ (a ++ post)) := by
  induction hn : x.length using Nat.strong_induction_on generalizing x p with
  | _ N ih =>
    cases x with
    | nil => exact ⟨[], .inl rfl, fun a _ => rfl⟩
    | cons c x =>
      have hmeets : Meets p (c :: x ++ k) post := meets (by simp) hlast hv
      have hnot : ¬ ∀ d ∈ c :: x ++ k, isIpv6Adjacent (byteOf d) = true := by
        intro hall
        obtain ⟨d, hd⟩ := Option.ne_none_iff_exists'.mp
          (List.getLast?_eq_none_iff.not.mpr (List.cons_ne_nil c x))
        rw [hd, Option.any_some] at hx
        simp [hall d (List.mem_append_left k (List.mem_of_getLast? hd))] at hx
      cases hmeets with
      | whole hall _ => exact absurd hall hnot
      | part j hall _ _ => exact absurd hall hnot
      | apart res hres hlen =>
        cases res with
        | none =>
          obtain ⟨X, hX, hscan⟩ := ih x.length (by simp at hn; omega) (p := some c)
            (last_tail (u := [c]) hx) (last_tail (u := [byteOf c]) hlast) rfl
          refine ⟨c :: X, ?_, fun a ha => ?_⟩
          · rcases hX with hX | hX <;> simp [List.getLast?_cons, hX]
          · rw [List.cons_append, Scan.scan_keep (by simpa using hlen a ha), hscan a ha, lastOr_cons,
              List.cons_append]
        | some n =>
          have hle : n ≤ (c :: x).length :=
            len_run hk (by simpa using hlen oneQuad isQuad_oneQuad) (hres n rfl)
          obtain ⟨w, y, hw, rfl⟩ : ∃ w y, c :: x = w ++ y ∧ n = w.length :=
            ⟨(c :: x).take n, (c :: x).drop n, by simp, by simp at hle ⊢; omega⟩
          rw [hw] at hx hlast hn hlen ⊢
          rw [List.append_assoc, codes, List.map_append] at hlast
          have hlt : y.length < N := by
            have hpos := List.length_pos_of_ne_nil (Scan.ne_nil_of_len
              (by simpa using hlen oneQuad isQuad_oneQuad))
            rw [List.length_append] at hn
            omega
          obtain ⟨X, hX, hscan⟩ := ih y.length hlt (p := lastOr p w) (last_tail hx)
            (last_tail hlast) rfl
          refine ⟨redactedIp ++ X, ?_, fun a ha => ?_⟩
          · have hbracket : redactedIp.getLast? = some ']' := rfl
            rw [List.getLast?_append, List.getLast?_append, hbracket]
            rcases hX with hX | hX
            · cases hy : y.getLast? <;> simp [hX, hy]
            · simp [hX]
          · have hm : ipv6Matcher.len p (w ++ (y ++ (k ++ (a ++ post)))) = some w.length := by
              simpa using hlen a ha
            rw [List.append_assoc, Scan.scan_redact hm, hscan a ha, lastOr_append, List.append_assoc]

/-- The colons of a match stand before its first dot. -/
theorem ipv6Matcher_colon (h : ipv6Matcher.len p s = some n) : ∃ u v, codes s = u ++ v ∧
    (∀ c ∈ u, isIpv6Adjacent c = true) ∧ byteOf ':' ∈ u := by
  obtain ⟨hhead, hcount⟩ := Option.filter_eq_some_iff.mp (Recogniser.matcher_len_iff.mp h).2.1
  obtain ⟨u, q, hsplit, hadj, hq⟩ := (ipv6HeadLen_text hhead).shape
  refine ⟨u, q ++ (codes s).drop n, ?_, hadj, ?_⟩
  · rw [← List.append_assoc, ← hsplit, List.take_append_drop]
  · rw [hsplit] at hcount
    by_contra hnot
    have hu : u.count (byteOf ':') = 0 := List.count_eq_zero.mpr hnot
    have hq0 : q.count (byteOf ':') = 0 := by
      rcases hq with rfl | hq
      · rfl
      · simpa using hq.no_colon q.length
    simp [List.count_append, hu, hq0] at hcount

/-- Nothing begins in digits and dots when no colon follows at once. -/
theorem ipv6Matcher_none {w z : Text} (hw : ∀ c ∈ w, isIpv4Adjacent (byteOf c) = true)
    (hz : Stops isIpv6Adjacent (codes z)) : ipv6Matcher.len p (w ++ z) = none := by
  by_contra hsome
  obtain ⟨n, hn⟩ := Option.ne_none_iff_exists'.mp hsome
  obtain ⟨u, v, hsplit, hadj, hcolon⟩ := ipv6Matcher_colon hn
  have hnot : byteOf ':' ∉ codes w := by
    intro hmem
    obtain ⟨c, hc, he⟩ := List.mem_map.mp hmem
    have h := hw c hc
    rw [he] at h
    exact absurd h (by decide)
  rw [codes, List.map_append] at hsplit
  rcases List.append_eq_append_iff.mp hsplit with ⟨t, rfl, hv⟩ | ⟨t, hu, -⟩
  · cases t with
    | nil => exact hnot (by simpa using hcolon)
    | cons d t =>
      rw [codes, hv, List.cons_append, Span.stops_cons] at hz
      simp [hadj d (by simp)] at hz
  · apply hnot
    rw [codes, hu]
    exact List.mem_append_left t hcolon

theorem ipv6Matcher_before_dot {w z : Text} (hw : ∀ c ∈ w, isIpv4Adjacent (byteOf c) = true) :
    ipv6Matcher.len p (w ++ '.' :: z) = none :=
  ipv6Matcher_none hw (Span.stops_cons.mpr (by decide))

theorem scan_before_dot {w z : Text} (hw : ∀ c ∈ w, isIpv4Adjacent (byteOf c) = true) :
    scan ipv6Matcher redactedIp p (w ++ '.' :: z) =
      w ++ '.' :: scan ipv6Matcher redactedIp (some '.') z := by
  induction w generalizing p with
  | nil =>
    have hnone := ipv6Matcher_before_dot (p := p) (w := []) (z := z) (by simp)
    rw [List.nil_append, Scan.scan_keep hnone, List.nil_append]
  | cons c w ih =>
    have hnone := ipv6Matcher_before_dot (p := p) (z := z) hw
    rw [List.cons_append] at hnone ⊢
    rw [Scan.scan_keep hnone, ih fun d hd => hw d (List.mem_cons_of_mem c hd),
      List.cons_append]

theorem isIpv6Adjacent_of_digit {b : UInt8} (h : isAsciiDigit b = true) :
    isIpv6Adjacent b = true := by
  simp [isIpv6Adjacent, isAsciiHexdigit_of_digit h]

/-- Behind a digit the digits are kept, and it does not matter which they were. -/
theorem scan_digits {d : Char} (hd : isAsciiDigit (byteOf d) = true)
    (hx : ∀ c ∈ x, isAsciiDigit (byteOf c) = true) :
    scan ipv6Matcher redactedIp (some d) (x ++ y) =
      x ++ scan ipv6Matcher redactedIp (some '0') y := by
  have hbehind : ∀ {e}, isAsciiDigit (byteOf e) = true → ∀ z, ipv6Matcher.len (some e) z = none :=
    fun he z => ipv6Recogniser.len_behind (isIpv6Adjacent_of_digit he) z
  induction x generalizing d with
  | nil => exact Scan.scan_congr fun z => by rw [hbehind hd, hbehind (by decide)]
  | cons c x ih =>
    obtain ⟨hc, hx⟩ := List.forall_mem_cons.mp hx
    rw [List.cons_append, Scan.scan_keep (hbehind hd _), ih hc hx, List.cons_append]

/-- The last octet is kept unless a match begins with it. -/
theorem scan_octet {o : Text} (ho : IsOctet (codes o))
    (hnone : ipv6Matcher.len (some '.') (o ++ post) = none) :
    scan ipv6Matcher redactedIp (some '.') (o ++ post) =
      o ++ scan ipv6Matcher redactedIp (some '0') post := by
  have hdigits : ∀ c ∈ o, isAsciiDigit (byteOf c) = true :=
    fun c hc => ho.digits _ (List.mem_map_of_mem hc)
  cases o with
  | nil => exact absurd ho.pos (by simp)
  | cons c o =>
    obtain ⟨hc, ho⟩ := List.forall_mem_cons.mp hdigits
    rw [List.cons_append] at hnone ⊢
    rw [Scan.scan_keep hnone, scan_digits hc ho, List.cons_append]

/-- A dotted quad, in characters. -/
theorem IsQuad.text (ha : IsQuad (codes a)) : ∃ o₁ o₂ o₃ o₄ : Text, IsOctet (codes o₁) ∧
    IsOctet (codes o₂) ∧ IsOctet (codes o₃) ∧ IsOctet (codes o₄) ∧
      a = o₁ ++ '.' :: (o₂ ++ '.' :: (o₃ ++ '.' :: o₄)) := by
  obtain ⟨b₁, b₂, b₃, b₄, h₁, h₂, h₃, h₄, hsplit⟩ := ha
  obtain ⟨o₁, r₁, rfl, rfl, hr₁⟩ := List.map_eq_append_iff.mp hsplit
  obtain ⟨c₁, r₁, rfl, hc₁, hr₁⟩ := List.map_eq_cons_iff.mp hr₁
  obtain ⟨o₂, r₂, rfl, rfl, hr₂⟩ := List.map_eq_append_iff.mp hr₁
  obtain ⟨c₂, r₂, rfl, hc₂, hr₂⟩ := List.map_eq_cons_iff.mp hr₂
  obtain ⟨o₃, r₃, rfl, rfl, hr₃⟩ := List.map_eq_append_iff.mp hr₂
  obtain ⟨c₃, o₄, rfl, hc₃, rfl⟩ := List.map_eq_cons_iff.mp hr₃
  obtain rfl := Utf8.eq_of_byteOf (by decide) hc₁
  obtain rfl := Utf8.eq_of_byteOf (by decide) hc₂
  obtain rfl := Utf8.eq_of_byteOf (by decide) hc₃
  exact ⟨o₁, o₂, o₃, o₄, h₁, h₂, h₃, h₄, rfl⟩

def quadText (o₁ o₂ o₃ o₄ : Text) : Text := o₁ ++ '.' :: (o₂ ++ '.' :: (o₃ ++ '.' :: o₄))

theorem octet_chars {o : Text} (ho : IsOctet (codes o)) :
    ∀ c ∈ o, isIpv4Adjacent (byteOf c) = true :=
  fun _ hc => ho.ipv4Adjacent _ (List.mem_map_of_mem hc)

theorem firstLen_quadText {o₁ o₂ o₃ o₄ : Text} (h₁ : IsOctet (codes o₁)) :
    firstLen (codes (quadText o₁ o₂ o₃ o₄)) = o₁.length := by
  have hsplit : codes (quadText o₁ o₂ o₃ o₄) =
      codes o₁ ++ byteOf '.' :: codes (o₂ ++ '.' :: (o₃ ++ '.' :: o₄)) := by simp [quadText]
  rw [firstLen, hsplit, List.takeWhile_append_of_pos h₁.digits, (dot_stops _).takeWhile,
    List.append_nil, List.length_map]

/-- A quad ends in a digit. -/
theorem quad_last (ha : IsQuad (codes a)) :
    ∃ d, a.getLast? = some d ∧ isAsciiDigit (byteOf d) = true := by
  obtain ⟨o₁, o₂, o₃, o₄, -, -, -, h₄, rfl⟩ := ha.text
  rcases List.eq_nil_or_concat o₄ with rfl | ⟨o, d, rfl⟩
  · exact absurd h₄.pos (by simp)
  · rw [List.concat_eq_append] at h₄
    exact ⟨d, by simp [List.getLast?_cons], h₄.digits _ (by simp)⟩

/-- The pass over the first three octets. -/
theorem scan_quad {o₁ o₂ o₃ o₄ : Text} (h₁ : IsOctet (codes o₁)) (h₂ : IsOctet (codes o₂))
    (h₃ : IsOctet (codes o₃)) :
    scan ipv6Matcher redactedIp p (quadText o₁ o₂ o₃ o₄ ++ post) = o₁ ++ '.' :: (o₂ ++ '.' ::
      (o₃ ++ '.' :: scan ipv6Matcher redactedIp (some '.') (o₄ ++ post))) := by
  simp only [quadText, List.append_assoc, List.cons_append]
  rw [scan_before_dot (octet_chars h₁), scan_before_dot (octet_chars h₂),
    scan_before_dot (octet_chars h₃)]

/-- A run of hex digits and colons is kept unless a match begins with it. -/
theorem scan_hex_run {k : Text} (hk : ∀ c ∈ k, isIpv6Adjacent (byteOf c) = true)
    (hnone : ipv6Matcher.len p (k ++ y) = none) :
    scan ipv6Matcher redactedIp p (k ++ y) =
      k ++ scan ipv6Matcher redactedIp (lastOr p k) y := by
  refine Scan.scan_keep_run fun u c v huv => ?_
  rcases List.eq_nil_or_concat u with rfl | ⟨u, d, rfl⟩
  · simpa [huv] using hnone
  · rw [List.concat_eq_append] at huv ⊢
    rw [lastOr_append, lastOr_cons]
    exact ipv6Recogniser.len_behind (hk d (by simp [huv])) _

/-- What the pass makes of a quad behind `x` and the run `k` of hex digits and colons. -/
inductive QuadOutcome (x k post : Text) : Prop
  | covered (Z : Text) : Stops isIpv6Adjacent (codes post) →
      (∀ a, IsQuad (codes a) → ipv6Matcher.len x.getLast? (k ++ (a ++ post)) =
        some (k.length + a.length)) →
      (∀ a, IsQuad (codes a) → stripIpv6 (x ++ (k ++ (a ++ post))) = Z) → QuadOutcome x k post
  | kept (X : Text) : X.getLast?.any (fun c => isIpv4Adjacent (byteOf c)) = false →
      (∀ a, IsQuad (codes a) → ipv6Matcher.len x.getLast? (k ++ (a ++ post)) = none) →
      (∀ o₁ o₂ o₃ o₄, IsOctet (codes o₁) → IsOctet (codes o₂) → IsOctet (codes o₃) →
        IsOctet (codes o₄) → stripIpv6 (x ++ (k ++ (quadText o₁ o₂ o₃ o₄ ++ post))) =
          X ++ (o₁ ++ '.' :: (o₂ ++ '.' :: (o₃ ++ '.' ::
            scan ipv6Matcher redactedIp (some '.') (o₄ ++ post))))) → QuadOutcome x k post
  | part (X : Text) (j : Nat) : X.getLast? = some ']' → j ≤ 3 →
      (∀ a, IsQuad (codes a) → ipv6Matcher.len x.getLast? (k ++ (a ++ post)) =
        if j + firstLen (codes a) ≤ 4 then some (k.length + firstLen (codes a)) else none) →
      (∀ o₁ o₂ o₃ o₄, IsOctet (codes o₁) → IsOctet (codes o₂) → IsOctet (codes o₃) →
        IsOctet (codes o₄) → j + o₁.length ≤ 4 →
          stripIpv6 (x ++ (k ++ (quadText o₁ o₂ o₃ o₄ ++ post))) =
            X ++ '.' :: (o₂ ++ '.' :: (o₃ ++ '.' ::
              scan ipv6Matcher redactedIp (some '.') (o₄ ++ post)))) → QuadOutcome x k post

theorem isQuad_quadText {o₁ o₂ o₃ o₄ : Text} (h₁ : IsOctet (codes o₁)) (h₂ : IsOctet (codes o₂))
    (h₃ : IsOctet (codes o₃)) (h₄ : IsOctet (codes o₄)) :
    IsQuad (codes (quadText o₁ o₂ o₃ o₄)) :=
  ⟨_, _, _, _, h₁, h₂, h₃, h₄, by simp [quadText]⟩

theorem quadOutcome {k : Text} (hx : x.getLast?.any (fun c => isIpv6Adjacent (byteOf c)) = false)
    (hk : ∀ c ∈ k, isIpv6Adjacent (byteOf c) = true)
    (hlast : (codes (x ++ k)).getLast?.any isIpv4Adjacent = false)
    (hv : Stops isAsciiDigit (codes post)) : QuadOutcome x k post := by
  obtain ⟨X, hX, hscan⟩ := scan_to_run (p := none) hx hk hlast hv
  have hlastOr : lastOr none x = x.getLast? := by simp [lastOr]
  rw [hlastOr] at hscan
  have hkept : (∀ a, IsQuad (codes a) → ipv6Matcher.len x.getLast? (k ++ (a ++ post)) = none) →
      QuadOutcome x k post := by
    intro hnone
    refine .kept (X ++ k) ?_ hnone fun o₁ o₂ o₃ o₄ h₁ h₂ h₃ h₄ => ?_
    · rw [codes, List.map_append, List.getLast?_append] at hlast
      rw [List.getLast?_append]
      cases hlastk : k.getLast? with
      | none =>
        simp only [List.getLast?_map, hlastk, Option.map_none, Option.none_or] at hlast ⊢
        rcases hX with hX | hX
        · simpa [hX, Option.any_map, Function.comp_def] using hlast
        · rw [hX]
          decide
      | some d => simpa [List.getLast?_map, hlastk] using hlast
    · have hq := isQuad_quadText h₁ h₂ h₃ h₄
      rw [stripIpv6_eq_scan, hscan _ hq, scan_hex_run hk (hnone _ hq), scan_quad h₁ h₂ h₃,
        List.append_assoc]
  by_cases hnil : k = []
  · subst hnil
    refine hkept fun a ha => ?_
    obtain ⟨o₁, o₂, o₃, o₄, h₁, -, -, -, rfl⟩ := ha.text
    simpa using ipv6Matcher_before_dot (p := x.getLast?) (octet_chars h₁)
  · have hmeets := meets (p := x.getLast?) hnil (last_tail (u := codes x) (by simpa using hlast)) hv
    cases hmeets with
    | apart res hres hlen =>
      cases res with
      | none => exact hkept hlen
      | some n =>
        have hone := hlen oneQuad isQuad_oneQuad
        have hle := len_run (x := []) hk hone (by simpa using hres n rfl)
        have hpos := ipv6Matcher.pos hone
        simp only [List.length_nil] at hle
        omega
    | whole hall hlen =>
      refine .covered (X ++ (redactedIp ++ scan ipv6Matcher redactedIp (some '0') post)) ?_ hlen
        fun a ha => ?_
      · have hafter := (Recogniser.matcher_len_iff.mp (hlen oneQuad isQuad_oneQuad)).2.2
        rw [← List.append_assoc, codes, List.map_append,
          List.getElem?_append_right (by simp), List.length_map, List.length_append,
          Nat.sub_self, ← List.head?_eq_getElem?] at hafter
        exact hafter
      · have hm : ipv6Matcher.len x.getLast? ((k ++ a) ++ post) = some (k ++ a).length := by
          simpa using hlen a ha
        obtain ⟨d, hlastd, hd⟩ := quad_last ha
        have hbehind : lastOr x.getLast? (k ++ a) = some d := by simp [lastOr, hlastd]
        have hpost := scan_digits (x := []) (y := post) hd (by simp)
        rw [List.nil_append, List.nil_append] at hpost
        rw [stripIpv6_eq_scan, hscan a ha, ← List.append_assoc, Scan.scan_redact hm, hbehind, hpost]
    | part j hall hj hlen =>
      refine .part (X ++ redactedIp) j ?_ hj hlen fun o₁ o₂ o₃ o₄ h₁ h₂ h₃ h₄ hfour => ?_
      · have hbracket : redactedIp.getLast? = some ']' := rfl
        simp [hbracket]
      · have hq := isQuad_quadText h₁ h₂ h₃ h₄
        have hsplit : k ++ (quadText o₁ o₂ o₃ o₄ ++ post) =
            (k ++ o₁) ++ '.' :: (o₂ ++ '.' :: (o₃ ++ '.' :: (o₄ ++ post))) := by simp [quadText]
        have hm := hlen _ hq
        rw [firstLen_quadText h₁, if_pos hfour, hsplit, ← List.length_append] at hm
        have hdot := scan_before_dot (p := lastOr x.getLast? (k ++ o₁)) (w := [])
          (z := o₂ ++ '.' :: (o₃ ++ '.' :: (o₄ ++ post))) (by simp)
        rw [List.nil_append, List.nil_append] at hdot
        rw [stripIpv6_eq_scan, hscan _ hq, hsplit, Scan.scan_redact hm, hdot,
          scan_before_dot (octet_chars h₂), scan_before_dot (octet_chars h₃), List.append_assoc]

end ProviiAudit
