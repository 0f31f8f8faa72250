import ProviiAudit.Sanitize.Grammar

/-! How the IPv6 parser reads a dotted quad that stands in its way.

The group loop stops before the quad, takes it whole, or joins its first octet to a group of
hex digits. Which of these happens does not depend on the quad. -/
namespace ProviiAudit

open Utf8 (byteOf)
open Span (Stops)

variable {b g q r u v w rest : Bytes} {n left j : Nat} {saw : Bool} {f : Bytes → Nat}

/-- The number of digits of the first octet. -/
def firstLen (q : Bytes) : Nat := (q.takeWhile isAsciiDigit).length

/-- How far the parser gets in `r` and the quad behind it. -/
inductive Reads (r : Bytes) (f : Bytes → Nat) : Prop
  | before (n : Nat) : n ≤ r.length → (∀ q, IsQuad q → f q = n) → Reads r f
  | whole : (∀ c ∈ r, isIpv6Adjacent c = true) → (∀ q, IsQuad q → f q = r.length + q.length) →
      Reads r f
  | part (j : Nat) : (∀ c ∈ r, isIpv6Adjacent c = true) → 0 < j → j ≤ 3 → j ≤ r.length →
      (∀ q, IsQuad q → f q + j = r.length + min 4 (j + firstLen q)) → Reads r f

theorem Reads.shift (hw : ∀ c ∈ w, isIpv6Adjacent c = true) (h : Reads r f) :
    Reads (w ++ r) fun q => w.length + f q := by
  have hall : (∀ c ∈ r, isIpv6Adjacent c = true) → ∀ c ∈ w ++ r, isIpv6Adjacent c = true :=
    fun hr => List.forall_mem_append.mpr ⟨hw, hr⟩
  cases h with
  | before n hn hf => exact .before (w.length + n) (by simp [hn]) fun q hq => by rw [hf q hq]
  | whole hr hf =>
    exact .whole (hall hr) fun q hq => by rw [hf q hq, List.length_append, Nat.add_assoc]
  | part j hr hpos hle hj hf =>
    refine .part j (hall hr) hpos hle (by simp; omega) fun q hq => ?_
    have := hf q hq
    rw [List.length_append]
    omega

theorem Reads.congr {f' : Bytes → Nat} (h : Reads r f) (hf : ∀ q, IsQuad q → f' q = f q) :
    Reads r f' := by
  cases h with
  | before n hn h => exact .before n hn fun q hq => (hf q hq).trans (h q hq)
  | whole hr h => exact .whole hr fun q hq => (hf q hq).trans (h q hq)
  | part j hr hpos hle hj h => exact .part j hr hpos hle hj fun q hq => by rw [hf q hq, h q hq]

theorem IsQuad.first (hq : IsQuad q) : ∃ o z, q = o ++ byteOf '.' :: z ∧ IsOctet o ∧
    firstLen q = o.length := by
  obtain ⟨o₁, o₂, o₃, o₄, h₁, -, -, -, rfl⟩ := hq
  refine ⟨o₁, _, rfl, h₁, ?_⟩
  rw [firstLen, List.takeWhile_append_of_pos h₁.digits, (dot_stops _).takeWhile, List.append_nil]

theorem IsQuad.ne_nil (hq : IsQuad q) : q ≠ [] := by
  rintro rfl
  exact hq.starts rfl

theorem groupLen_hex (hw : ∀ c ∈ w, isAsciiHexdigit c = true)
    (hrest : Stops isAsciiHexdigit rest) : groupLen (w ++ rest) = min 4 w.length := by
  have htake : (w.take 4).takeWhile isAsciiHexdigit = w.take 4 := by
    rw [List.takeWhile_eq_self_iff]
    exact fun c hc => hw c (List.mem_of_mem_take hc)
  rw [groupLen_append hrest, groupLen, htake, List.length_take]

/-- A group with a colon behind it. -/
theorem groupsLen_colon (left : Nat) (saw : Bool) (rest : Bytes) (hg : IsHexGroup g) :
    groupsLen (left + 1) saw (g ++ byteOf ':' :: rest) =
      match rest with
      | [] => g.length
      | c :: rest' =>
        if c = byteOf ':' then
          if saw then g.length
          else if rest'.head?.any isAsciiHexdigit then g.length + 2 + groupsLen left true rest'
          else g.length + 2
        else if isAsciiHexdigit c then g.length + 1 + groupsLen left saw rest
        else g.length := by
  have hlen := groupLen_of_isHexGroup hg (colon_stops rest)
  have hpos := hg.pos
  have hne : g ≠ [] := List.ne_nil_of_length_pos hpos
  cases rest with
  | nil => simp [groupsLen, hlen, suffixLen_colon, hne]
  | cons c rest =>
    simp only [groupsLen, hlen, suffixLen_colon]
    by_cases hc : c = byteOf ':'
    · cases rest with
      | nil => simp [hc, hne]
      | cons d rest => cases hd : isAsciiHexdigit d <;> simp [hc, hne, hd]
    · cases hd : isAsciiHexdigit c <;> simp [hc, hne, hd]

/-- No dotted quad begins with digits that a hex letter ends. -/
theorem quadLen_letter (hg : g ≠ []) (hlast : g.getLast?.any isIpv4Adjacent = false)
    (hhex : ∀ c ∈ g, isAsciiHexdigit c = true) (hq : IsQuad q) :
    quadLen 4 (g ++ (q ++ v)) = none := by
  by_contra hsome
  obtain ⟨n, hn⟩ := Option.ne_none_iff_exists'.mp hsome
  obtain ⟨q', rest, hsplit, hq', -, -⟩ := isQuad_of_quadLen hn
  obtain ⟨o, z, rfl, ho, -⟩ := hq.first
  obtain ⟨o', z', rfl, ho', -⟩ := hq'.first
  have hdot : ∀ {o}, IsOctet o → byteOf '.' ∉ o :=
    fun ho => dot_notMem_of_hex ho.isHexGroup.digits
  have hjoin : (g ++ o) ++ byteOf '.' :: (z ++ v) = o' ++ byteOf '.' :: (z' ++ rest) := by
    simpa using hsplit
  have hnot : byteOf '.' ∉ g ++ o := by
    rw [List.mem_append, not_or]
    exact ⟨dot_notMem_of_hex hhex, hdot ho⟩
  obtain ⟨rfl, -⟩ := Framing.split_inj hnot (hdot ho') hjoin
  have hdigit : isAsciiDigit (g.getLast hg) = true :=
    ho'.digits _ (List.mem_append_left _ (List.getLast_mem hg))
  rw [List.getLast?_eq_some_getLast hg, Option.any_some] at hlast
  rw [isIpv4Adjacent_of_digit hdigit] at hlast
  simp at hlast

/-- A run of hex digits in front of the quad. -/
theorem groupsLen_hex_quad (hg : g ≠ []) (hlast : g.getLast?.any isIpv4Adjacent = false)
    (hhex : ∀ c ∈ g, isAsciiHexdigit c = true) (hq : IsQuad q) :
    groupsLen (left + 1) saw (g ++ (q ++ v)) = min 4 (g.length + firstLen q) := by
  have hnone := quadLen_letter (v := v) hg hlast hhex hq
  obtain ⟨o, z, rfl, ho, hfirst⟩ := hq.first
  have hw : ∀ c ∈ g ++ o, isAsciiHexdigit c = true :=
    List.forall_mem_append.mpr ⟨hhex, ho.isHexGroup.digits⟩
  have hdot : Stops isAsciiHexdigit (byteOf '.' :: (z ++ v)) := Span.stops_cons.mpr (by decide)
  have hsplit : g ++ (o ++ byteOf '.' :: z ++ v) = (g ++ o) ++ byteOf '.' :: (z ++ v) := by simp
  have hlen := groupLen_hex hw hdot
  rw [hsplit] at hnone ⊢
  rw [hfirst, ← List.length_append]
  have hpos : 0 < (g ++ o).length := by
    rw [List.length_append]
    have := ho.pos
    omega
  have hcolon : ((g ++ o) ++ byteOf '.' :: (z ++ v))[min 4 (g ++ o).length]? ≠
      some (byteOf ':') := by
    intro hc
    rcases Nat.lt_or_ge 4 (g ++ o).length with hlt | hge
    · rw [Nat.min_eq_left hlt.le, List.getElem?_append_left hlt] at hc
      exact absurd (hw _ (List.mem_of_getElem? hc)) (by decide)
    · rw [Nat.min_eq_right hge, List.getElem?_append_right le_rfl, Nat.sub_self] at hc
      exact absurd (Option.some.inj hc) (by decide)
  simp only [groupsLen, hlen, suffixLen, hnone, ite_self]
  rw [if_neg (by omega), if_pos hcolon]

theorem quadLen_before (hr : r ≠ []) (hlast : r.getLast?.any isIpv4Adjacent = false) :
    quadLen 4 (r ++ u) = quadLen 4 r := by
  obtain ⟨r, c, rfl⟩ := (List.eq_nil_or_concat r).resolve_left hr
  rw [List.concat_eq_append] at hlast ⊢
  have hc : isIpv4Adjacent c = false := by simpa using hlast
  rw [List.append_assoc, List.singleton_append, quadLen_append (Span.stops_cons.mpr hc),
    quadLen_append (Span.stops_cons.mpr hc)]

/-- Whether a hex digit stands at a place does not depend on the quad. -/
theorem head_quad (hq : IsQuad q) : (r.head?.or (q.head?.or v.head?)).any isAsciiHexdigit =
    (r.isEmpty || r.head?.any isAsciiHexdigit) := by
  cases r with
  | nil =>
    have hstart := hq.starts
    cases q with
    | nil => exact (hstart rfl).elim
    | cons c q => simpa [Stops] using hstart
  | cons c r => rfl

theorem groupsLen_long (hg : ∀ c ∈ g, isAsciiHexdigit c = true) (hlong : 4 < g.length) :
    groupsLen (left + 1) saw (g ++ rest) = 4 := by
  have htake : (g ++ rest).take 4 = g.take 4 := List.take_append_of_le_length hlong.le
  have hrun : (g.take 4).takeWhile isAsciiHexdigit = g.take 4 := by
    rw [List.takeWhile_eq_self_iff]
    exact fun c hc => hg c (List.mem_of_mem_take hc)
  have hlen : groupLen (g ++ rest) = 4 := by
    rw [groupLen, htake, hrun, List.length_take_of_le hlong.le]
  have hnext : ∀ c, isAsciiHexdigit c = false → (g ++ rest)[4]? ≠ some c := by
    intro c hc hsome
    rw [List.getElem?_append_left hlong] at hsome
    simp [hg c (List.mem_of_getElem? hsome)] at hc
  simp [groupsLen, hlen, suffixLen, hnext (byteOf '.') (by decide), hnext (byteOf ':') (by decide)]

theorem groupsLen_other {c : UInt8} (hg : IsHexGroup g) (hhex : isAsciiHexdigit c = false)
    (hc : c ≠ byteOf ':') : groupsLen (left + 1) saw (g ++ c :: rest) =
      (suffixLen (g ++ c :: rest) g.length).getD g.length := by
  have hstop : Stops isAsciiHexdigit (c :: rest) := Span.stops_cons.mpr hhex
  have hlen := groupLen_of_isHexGroup hg hstop
  have hne : g ≠ [] := List.ne_nil_of_length_pos hg.pos
  simp only [groupsLen, hlen]
  cases suffixLen (g ++ c :: rest) g.length <;> simp [hne, hc]

theorem suffixLen_before (hr : r ≠ []) (hlast : r.getLast?.any isIpv4Adjacent = false)
    (hn : n < r.length) : suffixLen (r ++ u) n = suffixLen r n := by
  rw [suffixLen, suffixLen, List.getElem?_append_left hn, quadLen_before hr hlast]

theorem suffixLen_le (h : suffixLen b n = some j) : j ≤ b.length := by
  rw [suffixLen] at h
  split_ifs at h
  exact quadLen_le h

theorem last_tail {α : Type*} {p : α → Bool} {u w : List α}
    (h : (u ++ w).getLast?.any p = false) : w.getLast?.any p = false := by
  rw [List.getLast?_append] at h
  cases hw : w.getLast? with
  | none => rfl
  | some c => simpa [hw] using h

/-- Behind a group and its colon the reading goes on with what follows. -/
theorem groupsLen_reads_colon (ih : ∀ {saw r}, r.getLast?.any isIpv4Adjacent = false →
      Reads r fun q => groupsLen left saw (r ++ (q ++ v)))
    (hg : IsHexGroup g)
    (hlast : (g ++ byteOf ':' :: rest).getLast?.any isIpv4Adjacent = false) :
    Reads (g ++ byteOf ':' :: rest) fun q =>
      groupsLen (left + 1) saw (g ++ byteOf ':' :: rest ++ (q ++ v)) := by
  have hadj : ∀ c ∈ g, isIpv6Adjacent c = true :=
    fun c hc => by simp [isIpv6Adjacent, hg.digits c hc]
  have hshift : ∀ (w r' : Bytes) (s : Bool), (∀ c ∈ w, isIpv6Adjacent c = true) →
      w ++ r' = g ++ byteOf ':' :: rest → (∀ q, IsQuad q →
        groupsLen (left + 1) saw (g ++ byteOf ':' :: rest ++ (q ++ v)) =
          w.length + groupsLen left s (r' ++ (q ++ v))) →
      Reads (g ++ byteOf ':' :: rest) fun q =>
        groupsLen (left + 1) saw (g ++ byteOf ':' :: rest ++ (q ++ v)) := by
    intro w r' s hw hr' hf
    rw [← hr'] at hlast ⊢
    exact ((ih (last_tail hlast)).shift hw).congr (by rwa [hr'])
  have hone : ∀ c ∈ g ++ [byteOf ':'], isIpv6Adjacent c = true :=
    List.forall_mem_append.mpr ⟨hadj, List.all_eq_true.mp (by decide)⟩
  have htwo : ∀ c ∈ g ++ [byteOf ':', byteOf ':'], isIpv6Adjacent c = true :=
    List.forall_mem_append.mpr ⟨hadj, List.all_eq_true.mp (by decide)⟩
  have hle : g.length ≤ (g ++ byteOf ':' :: rest).length := by simp
  have hstep := fun q => groupsLen_colon left saw (rest ++ (q ++ v)) hg
  cases rest with
  | nil =>
    refine hshift (g ++ [byteOf ':']) [] saw hone (by simp) fun q hq => ?_
    obtain ⟨d, q, rfl⟩ := List.exists_cons_of_ne_nil hq.ne_nil
    have hd : isAsciiHexdigit d = true := by simpa [Span.stops_cons] using hq.starts
    have hne : d ≠ byteOf ':' := by
      rintro rfl
      exact absurd hd (by decide)
    simpa [hd, hne] using hstep (d :: q)
  | cons d rest =>
    by_cases hd : d = byteOf ':'
    · subst hd
      cases saw with
      | true => exact .before g.length hle fun q hq => by simpa using hstep q
      | false =>
        cases hopen : rest.isEmpty || rest.head?.any isAsciiHexdigit with
        | true =>
          refine hshift (g ++ [byteOf ':', byteOf ':']) rest true htwo (by simp) fun q hq => ?_
          simpa [head_quad hq, hopen] using hstep q
        | false =>
          refine .before (g.length + 2) (by simp) fun q hq => ?_
          simpa [head_quad hq, hopen] using hstep q
    · cases hhd : isAsciiHexdigit d with
      | true =>
        refine hshift (g ++ [byteOf ':']) (d :: rest) saw hone (by simp) fun q hq => ?_
        simpa [hd, hhd] using hstep q
      | false => exact .before g.length hle fun q hq => by simpa [hd, hhd] using hstep q

theorem groupsLen_reads (left : Nat) (saw : Bool) (hv : Stops isAsciiDigit v)
    (hlast : r.getLast?.any isIpv4Adjacent = false) :
    Reads r fun q => groupsLen left saw (r ++ (q ++ v)) := by
  induction left generalizing saw r with
  | zero => exact .before 0 (Nat.zero_le _) fun q _ => rfl
  | succ left ih =>
    by_cases hnil : r = []
    · subst hnil
      refine .whole (by simp) fun q hq => ?_
      simpa using groupsLen_quad hq hv
    have hhex : ∀ c ∈ r.takeWhile isAsciiHexdigit, isAsciiHexdigit c = true :=
      fun c hc => List.mem_takeWhile_imp hc
    have hrest := Span.stops_dropWhile isAsciiHexdigit r
    have hsplit := List.takeWhile_append_dropWhile (p := isAsciiHexdigit) (l := r)
    generalize r.takeWhile isAsciiHexdigit = g at hhex hsplit
    generalize r.dropWhile isAsciiHexdigit = rest at hrest hsplit
    subst hsplit
    have hadj : ∀ c ∈ g, isIpv6Adjacent c = true := fun c hc => by simp [isIpv6Adjacent, hhex c hc]
    by_cases hlong : 4 < g.length
    · refine .before 4 (by simp; omega) fun q _ => ?_
      rw [List.append_assoc, groupsLen_long hhex hlong]
    cases rest with
    | nil =>
      rw [List.append_nil] at hlast hnil ⊢
      have hlen : ∀ q, IsQuad q → groupsLen (left + 1) saw (g ++ (q ++ v)) =
          min 4 (g.length + firstLen q) := fun q => groupsLen_hex_quad hnil hlast hhex
      by_cases hfour : g.length = 4
      · exact .before 4 hfour.ge fun q hq => by rw [hlen q hq]; omega
      · have hpos := List.length_pos_of_ne_nil hnil
        exact .part g.length hadj hpos (by omega) le_rfl fun q hq => by rw [hlen q hq]; omega
    | cons c rest =>
      have hc := Span.stops_cons.mp hrest
      by_cases hg0 : g = []
      · subst hg0
        refine .before 0 (Nat.zero_le _) fun q _ => ?_
        simp [groupsLen, groupLen, hc]
      have hg : IsHexGroup g := ⟨hhex, List.length_pos_of_ne_nil hg0, by omega⟩
      by_cases hcolon : c = byteOf ':'
      · subst hcolon
        exact groupsLen_reads_colon (fun h => ih _ h) hg hlast
      · have hlen : g.length < (g ++ c :: rest).length := by simp
        refine .before ((suffixLen (g ++ c :: rest) g.length).getD g.length) ?_ fun q hq => ?_
        · cases hs : suffixLen (g ++ c :: rest) g.length with
          | none => exact hlen.le
          | some n => exact suffixLen_le hs
        · rw [List.append_assoc, List.cons_append, groupsLen_other hg hc hcolon,
            ← List.cons_append, ← List.append_assoc, suffixLen_before hnil hlast hlen]

theorem ipv6HeadLen_reads (hv : Stops isAsciiDigit v) (hr : r ≠ [])
    (hlast : r.getLast?.any isIpv4Adjacent = false) :
    (∀ q, IsQuad q → ipv6HeadLen (r ++ (q ++ v)) = none) ∨
      ∃ f, Reads r f ∧ ∀ q, IsQuad q → ipv6HeadLen (r ++ (q ++ v)) = some (f q) := by
  obtain ⟨c, r, rfl⟩ := List.exists_cons_of_ne_nil hr
  by_cases hc : c = byteOf ':'
  · subst hc
    have hhex : isAsciiHexdigit (byteOf ':') = false := by decide
    cases r with
    | nil =>
      left
      intro q hq
      obtain ⟨d, q, rfl⟩ := List.exists_cons_of_ne_nil hq.ne_nil
      have hd : d ≠ byteOf ':' := by
        rintro rfl
        exact hq.starts (colon_stops q)
      simp [ipv6HeadLen, hd, hhex]
    | cons d r =>
      by_cases hd : d = byteOf ':'
      · subst hd
        right
        have hdouble := fun q => ipv6HeadLen_double (r ++ (q ++ v))
        cases hopen : r.isEmpty || r.head?.any isAsciiHexdigit with
        | true =>
          refine ⟨_, (groupsLen_reads 8 true hv
            (last_tail (u := doubleColon) hlast)).shift (w := doubleColon)
              (List.all_eq_true.mp (by decide)), fun q hq => ?_⟩
          simpa [head_quad hq, hopen, doubleColon] using hdouble q
        | false =>
          refine ⟨fun _ => 2, .before 2 (by simp) fun _ _ => rfl, fun q hq => ?_⟩
          simpa [head_quad hq, hopen, doubleColon] using hdouble q
      · exact .inl fun q _ => by simp [ipv6HeadLen, hd, hhex]
  · cases hhex : isAsciiHexdigit c with
    | true =>
      exact .inr ⟨_, groupsLen_reads 8 false hv hlast,
        fun q _ => ipv6HeadLen_hex (by simp [Span.stops_cons, hhex])⟩
    | false => exact .inl fun q _ => by simp [ipv6HeadLen, hc, hhex]

end ProviiAudit
