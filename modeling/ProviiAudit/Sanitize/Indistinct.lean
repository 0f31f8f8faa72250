import ProviiAudit.Sanitize.QuadPasses

/-! What the sanitised text reveals of a dotted quad.

The IPv6 pass runs first. Where one of its matches holds only a part of the quad, the octets
outside the match are no longer recognised. -/
namespace ProviiAudit

open Utf8 (Text asBytes byteOf)
open Span (Stops)
open Scan (scan lastOr lastOr_cons lastOr_append)

variable {pre a b post r s u w x y X Y : Text} {p : Option Char} {c : Char} {n : Nat}

/-- No match of the IPv6 parser holds a part of a quad between the two texts, but not all of it. -/
def NoPartial (pre post : Text) : Prop :=
  ∀ a, IsQuad (asBytes a) → ∀ i e, ipv6At (asBytes (pre ++ (a ++ post))) i = some e →
    e ≤ (asBytes pre).length ∨ (asBytes (pre ++ a)).length ≤ i ∨
      (i ≤ (asBytes pre).length ∧ (asBytes (pre ++ a)).length ≤ e)

theorem isQuad_asBytes (a : Text) : IsQuad (asBytes a) ↔ IsQuad (codes a) := by
  have hascii : ∀ {q : Bytes}, IsQuad q → ∀ b ∈ q, b < 128 :=
    fun hq b hb => isIpv4Adjacent_ascii b (hq.ipv4Adjacent b hb)
  constructor
  · intro h
    rwa [Utf8.asBytes_eq_map (hascii h)] at h
  · intro h
    rwa [Utf8.asBytes_ascii fun c hc =>
      Utf8.byteOf_lt_iff.mp (hascii h _ (List.mem_map_of_mem hc))]

theorem noPartial_iff : NoPartial pre post ↔
    ∀ a u w y, IsQuad (codes a) → pre ++ (a ++ post) = u ++ (w ++ y) →
      ipv6Matcher.len u.getLast? (w ++ y) = some w.length →
        (u ++ w).length ≤ pre.length ∨ (pre ++ a).length ≤ u.length ∨
          (u.length ≤ pre.length ∧ (pre ++ a).length ≤ (u ++ w).length) := by
  have hlengths : ∀ {a u w y : Text}, pre ++ (a ++ post) = u ++ (w ++ y) →
      (((asBytes (u ++ w)).length ≤ (asBytes pre).length ∨
        (asBytes (pre ++ a)).length ≤ (asBytes u).length ∨
          ((asBytes u).length ≤ (asBytes pre).length ∧
            (asBytes (pre ++ a)).length ≤ (asBytes (u ++ w)).length)) ↔
      ((u ++ w).length ≤ pre.length ∨ (pre ++ a).length ≤ u.length ∨
        (u.length ≤ pre.length ∧ (pre ++ a).length ≤ (u ++ w).length))) := by
    intro a u w y hs
    have hpre : pre <+: u ++ (w ++ y) := hs ▸ List.prefix_append ..
    have hprea : pre ++ a <+: u ++ (w ++ y) := ⟨post, by rw [← hs, List.append_assoc]⟩
    have hu : u <+: u ++ (w ++ y) := List.prefix_append ..
    have huw : u ++ w <+: u ++ (w ++ y) := ⟨y, List.append_assoc ..⟩
    rw [Utf8.length_asBytes_le_iff huw hpre, Utf8.length_asBytes_le_iff hprea hu,
      Utf8.length_asBytes_le_iff hu hpre, Utf8.length_asBytes_le_iff hprea huw]
  rw [NoPartial, ipv6At_eq]
  constructor
  · intro h a u w y ha hs hm
    exact (hlengths hs).mp (h a ((isQuad_asBytes a).mpr ha) _ _
      (Recogniser.find_some_iff.mpr ⟨u, w, y, hs, rfl, rfl, hm⟩))
  · intro h a ha i e hfind
    obtain ⟨u, w, y, hs, rfl, rfl, hm⟩ := Recogniser.find_some_iff.mp hfind
    exact (hlengths hs).mpr (h a u w y ((isQuad_asBytes a).mp ha) hs hm)

/-- Without colons in the context nothing can be a match. -/
theorem noPartial_of_colons (hpre : ':' ∉ pre) (hpost : ':' ∉ post) : NoPartial pre post := by
  rw [noPartial_iff]
  intro a u w y ha hs hm
  have hcolons := ipv6_colons hm
  have hmem : ':' ∈ pre ++ (a ++ post) := by
    rw [hs]
    exact List.mem_append_right _ (List.mem_append_left _ (List.count_pos_iff.mp (by omega)))
  have hquad : ':' ∉ a := by
    intro hc
    exact absurd (ha.ipv4Adjacent _ (List.mem_map_of_mem hc)) (by decide)
  simp [hpre, hpost, hquad] at hmem

theorem last_codes (h : (asBytes pre).getLast?.any isIpv4Adjacent = false) :
    (codes pre).getLast?.any isIpv4Adjacent = false := by
  rw [isIpv4Adjacent_ascii.getLast?_any] at h
  rw [codes, List.getLast?_map, Option.any_map]
  exact h

theorem ipv4_separates (hc : isIpv4Adjacent (byteOf c) = false) : Scan.Separates ipv4Matcher c :=
  ipv4Recogniser.separates hc

/-- The text in front of a quad is scanned apart. -/
theorem scan_ipv4_sep (hX : X.getLast?.any (fun c => isIpv4Adjacent (byteOf c)) = false) :
    scan ipv4Matcher redactedIp none (X ++ y) =
      scan ipv4Matcher redactedIp none X ++ scan ipv4Matcher redactedIp none y := by
  rcases List.eq_nil_or_concat X with rfl | ⟨X, c, rfl⟩
  · rfl
  · rw [List.concat_eq_append] at hX ⊢
    have hc := ipv4_separates (c := c) (by simpa using hX)
    rw [List.append_assoc, List.singleton_append, Scan.scan_sep hc, Scan.scan_sep hc]
    simp

theorem scan_ipv4_quad (ha : IsQuad (codes a)) (hY : Stops isIpv4Adjacent (codes Y)) :
    scan ipv4Matcher redactedIp none (a ++ Y) =
      redactedIp ++ scan ipv4Matcher redactedIp (some '0') Y := by
  have hdigit : Stops isAsciiDigit (codes Y) := hY.mono fun _ => isIpv4Adjacent_of_digit
  have hm : ipv4Matcher.len none (a ++ Y) = some a.length := by
    refine Recogniser.matcher_len_iff.mpr ⟨rfl, ?_, ?_⟩
    · have hlen := quadLen_of_isQuad ha hdigit
      rw [List.length_map] at hlen
      rw [codes, List.map_append]
      exact hlen
    · rw [codes, List.map_append, List.getElem?_append_right (by simp), List.length_map,
        Nat.sub_self, ← List.head?_eq_getElem?]
      exact hY
  obtain ⟨d, hlast, hd⟩ := quad_last ha
  have hbehind : lastOr none a = some d := by simp [lastOr, hlast]
  rw [Scan.scan_redact hm, hbehind]
  congr 1
  refine Scan.scan_congr fun y => ?_
  rw [ipv4Recogniser.len_behind (isIpv4Adjacent_of_digit hd),
    ipv4Recogniser.len_behind (by decide)]

theorem scan_behind_digit_stops (hv : Stops isIpv4Adjacent (codes post)) :
    Stops isIpv4Adjacent (codes (scan ipv6Matcher redactedIp (some '0') post)) := by
  cases post with
  | nil => rfl
  | cons c post =>
    rw [Scan.scan_keep (ipv6Recogniser.len_behind (by decide) _)]
    exact Span.stops_cons.mpr (Span.stops_cons.mp hv)

/-- The run of hex digits and colons that the text ends in. -/
theorem exists_hex_run (pre : Text) : ∃ x k, pre = x ++ k ∧
    (∀ c ∈ k, isIpv6Adjacent (byteOf c) = true) ∧
      x.getLast?.any (fun c => isIpv6Adjacent (byteOf c)) = false :=
  ⟨_, _, List.rdropWhile_append_rtakeWhile.symm,
    fun _ hc => List.mem_rtakeWhile_imp (p := fun c => isIpv6Adjacent (byteOf c)) hc,
    Span.getLast?_rdropWhile ..⟩

theorem hex_run_unique {k r : Text} (h : x ++ k = u ++ r)
    (hk : ∀ c ∈ k, isIpv6Adjacent (byteOf c) = true)
    (hr : ∀ c ∈ r, isIpv6Adjacent (byteOf c) = true)
    (hx : x.getLast?.any (fun c => isIpv6Adjacent (byteOf c)) = false)
    (hu : u.getLast?.any (fun c => isIpv6Adjacent (byteOf c)) = false) : u = x ∧ r = k := by
  have hnil : ∀ {v t : Text}, (v ++ t).getLast?.any (fun c => isIpv6Adjacent (byteOf c)) = false →
      (∀ c ∈ t, isIpv6Adjacent (byteOf c) = true) → t = [] := by
    intro v t hlast ht
    rcases List.eq_nil_or_concat t with rfl | ⟨t, d, rfl⟩
    · rfl
    · rw [List.concat_eq_append] at hlast ht
      simp [ht d] at hlast
  rcases List.append_eq_append_iff.mp h with ⟨t, rfl, rfl⟩ | ⟨t, rfl, rfl⟩
  · obtain rfl := hnil hu fun c hc => hk c (List.mem_append_left r hc)
    simp
  · obtain rfl := hnil hx fun c hc => hr c (List.mem_append_left k hc)
    simp

/-- When the IPv6 pass takes no part of a quad, the two address passes leave the same text for
every quad. -/
theorem stripIp_indistinct (hpre : (codes pre).getLast?.any isIpv4Adjacent = false)
    (hpost : Stops isIpv4Adjacent (codes post)) (h : NoPartial pre post) :
    ∃ Z, ∀ a, IsQuad (codes a) → stripIpv4 (stripIpv6 (pre ++ (a ++ post))) = Z := by
  rw [noPartial_iff] at h
  obtain ⟨x, k, rfl, hk, hx⟩ := exists_hex_run pre
  cases quadOutcome hx hk hpre (hpost.mono fun _ => isIpv4Adjacent_of_digit) with
  | covered Z _ _ hZ =>
    exact ⟨stripIpv4 Z, fun a ha => by rw [List.append_assoc, hZ a ha]⟩
  | kept X hX _ hscan =>
    refine ⟨scan ipv4Matcher redactedIp none X ++ (redactedIp ++ scan ipv4Matcher redactedIp
      (some '0') (scan ipv6Matcher redactedIp (some '0') post)), fun a ha => ?_⟩
    obtain ⟨o₁, o₂, o₃, o₄, h₁, h₂, h₃, h₄, rfl⟩ := ha.text
    have hnone : ipv6Matcher.len (some '.') (o₄ ++ post) = none := by
      by_contra hsome
      obtain ⟨n, hn⟩ := Option.ne_none_iff_exists'.mp hsome
      obtain ⟨w, y, hwy, rfl⟩ := Span.exists_split (ipv6Matcher.le hn)
      rw [hwy] at hn
      have hpos := h₄.pos
      rw [List.length_map] at hpos
      have hlast : (x ++ k ++ (o₁ ++ '.' :: (o₂ ++ '.' :: (o₃ ++ ['.'])))).getLast? = some '.' := by
        simp [List.getLast?_cons]
      have hover := h _ (x ++ k ++ (o₁ ++ '.' :: (o₂ ++ '.' :: (o₃ ++ ['.'])))) w y
        (isQuad_quadText h₁ h₂ h₃ h₄) (by simp [quadText, hwy]) (by rw [hlast]; exact hn)
      simp only [quadText, List.length_append, List.length_cons, List.length_nil] at hover
      omega
    have hv6 := hscan o₁ o₂ o₃ o₄ h₁ h₂ h₃ h₄
    rw [scan_octet h₄ hnone] at hv6
    have hquad : stripIpv6 (x ++ (k ++ (quadText o₁ o₂ o₃ o₄ ++ post))) =
        X ++ (quadText o₁ o₂ o₃ o₄ ++ scan ipv6Matcher redactedIp (some '0') post) := by
      rw [hv6]
      simp [quadText]
    have hq := isQuad_quadText h₁ h₂ h₃ h₄
    rw [List.append_assoc, ← quadText, hquad, stripIpv4_eq_scan, scan_ipv4_sep hX,
      scan_ipv4_quad hq (scan_behind_digit_stops hpost)]
  | part X j _ hj hlen _ =>
    have hone := hlen _ isQuad_oneQuad
    have hfirst : firstLen (codes oneQuad) = 1 := by decide
    have hsplit : k ++ (oneQuad ++ post) = (k ++ ['1']) ++ (".1.1.1".toList ++ post) := by
      rw [List.append_assoc]
      rfl
    rw [hfirst, if_pos (by omega), hsplit] at hone
    have hover := h _ x (k ++ ['1']) (".1.1.1".toList ++ post) isQuad_oneQuad
      (by rw [List.append_assoc, hsplit]) (by simpa using hone)
    have hlong : oneQuad.length = 7 := rfl
    simp only [List.length_append, List.length_singleton, hlong] at hover
    omega

theorem scan_ipv4_behind (hd : isIpv4Adjacent (byteOf c) = true)
    (hw : ∀ d ∈ w, isIpv4Adjacent (byteOf d) = true) :
    scan ipv4Matcher redactedIp (some c) (w ++ y) =
      w ++ scan ipv4Matcher redactedIp (lastOr (some c) w) y := by
  refine Scan.scan_keep_run fun u d v huv => ?_
  rcases List.eq_nil_or_concat u with rfl | ⟨u, e, rfl⟩
  · exact ipv4Recogniser.len_behind hd _
  · rw [List.concat_eq_append] at huv ⊢
    rw [lastOr_append, lastOr_cons]
    exact ipv4Recogniser.len_behind (hw e (by simp [huv])) _

/-- Octets behind a placeholder and a dot are kept. -/
theorem stripIpv4_behind {o₂ o₃ : Text} (hX : X.getLast? = some ']')
    (h₂ : IsOctet (codes o₂)) (h₃ : IsOctet (codes o₃)) :
    stripIpv4 (X ++ '.' :: (o₂ ++ '.' :: (o₃ ++ '.' :: y))) =
      scan ipv4Matcher redactedIp none X ++
        '.' :: (o₂ ++ '.' :: (o₃ ++ '.' :: scan ipv4Matcher redactedIp (some '.') y)) := by
  have hnone : ipv4Matcher.len none ('.' :: (o₂ ++ '.' :: (o₃ ++ '.' :: y))) = none := by
    by_contra hsome
    obtain ⟨n, hn⟩ := Option.ne_none_iff_exists'.mp hsome
    have hlen : quadLen 4 (byteOf '.' :: codes (o₂ ++ '.' :: (o₃ ++ '.' :: y))) = some n :=
      (Recogniser.matcher_len_iff.mp hn).2.1
    simp [quadLen, octetLen, show isAsciiDigit (byteOf '.') = false by decide] at hlen
  have hchars : ∀ d ∈ o₂ ++ '.' :: (o₃ ++ ['.']), isIpv4Adjacent (byteOf d) = true := by
    simp only [List.forall_mem_append, List.forall_mem_cons]
    exact ⟨octet_chars h₂, by decide, octet_chars h₃, by decide, by simp⟩
  have hrun := scan_ipv4_behind (c := '.') (y := y) (by decide) hchars
  have hlast : lastOr (some '.') (o₂ ++ '.' :: (o₃ ++ ['.'])) = some '.' := by simp
  simp only [hlast, List.append_assoc, List.cons_append, List.nil_append] at hrun
  rw [stripIpv4_eq_scan, scan_ipv4_sep (by rw [hX]; decide), Scan.scan_keep hnone, hrun]

/-- A quad that a placeholder follows is kept when it lacks its last octet. -/
theorem stripIpv4_short {h : Text}
    (hX : X.getLast?.any (fun c => isIpv4Adjacent (byteOf c)) = false)
    (hh : scan ipv4Matcher redactedIp none h = h) :
    stripIpv4 (X ++ (h ++ (redactedIp ++ y))) =
      scan ipv4Matcher redactedIp none X ++
        (h ++ scan ipv4Matcher redactedIp none (redactedIp ++ y)) := by
  have hsplit : redactedIp ++ y = '[' :: ("REDACTED_IP]".toList ++ y) := rfl
  have hopen := ipv4_separates (c := '[') (by decide)
  have hbehind := Scan.scan_sep (R := redactedIp) (p := none) (x := [])
    (y := "REDACTED_IP]".toList ++ y) hopen
  rw [List.nil_append, Scan.scan_nil, List.nil_append] at hbehind
  rw [stripIpv4_eq_scan, scan_ipv4_sep hX, hsplit, Scan.scan_sep hopen, hh, hbehind]

/-- Two quads that differ in the second octet. -/
def shownQuad (o : Text) (l : Text) : Text := quadText ['1'] o ['1'] l

theorem isOctet_one : IsOctet (codes ['1']) := by decide

theorem isOctet_two : IsOctet (codes ['2']) := by decide

theorem part_shows {k : Text} {j : Nat} (hX : X.getLast? = some ']') (hj : j ≤ 3)
    (hscan : ∀ o₁ o₂ o₃ o₄, IsOctet (codes o₁) → IsOctet (codes o₂) → IsOctet (codes o₃) →
      IsOctet (codes o₄) → j + o₁.length ≤ 4 →
        stripIpv6 (x ++ (k ++ (quadText o₁ o₂ o₃ o₄ ++ post))) =
          X ++ '.' :: (o₂ ++ '.' :: (o₃ ++ '.' ::
            scan ipv6Matcher redactedIp (some '.') (o₄ ++ post)))) :
    stripIpv4 (stripIpv6 (x ++ (k ++ (shownQuad ['1'] ['1'] ++ post)))) ≠
      stripIpv4 (stripIpv6 (x ++ (k ++ (shownQuad ['2'] ['1'] ++ post)))) := by
  have hone : j + ['1'].length ≤ 4 := Nat.succ_le_succ hj
  rw [shownQuad, shownQuad, hscan _ _ _ _ isOctet_one isOctet_one isOctet_one isOctet_one hone,
    hscan _ _ _ _ isOctet_one isOctet_two isOctet_one isOctet_one hone,
    stripIpv4_behind hX isOctet_one isOctet_one, stripIpv4_behind hX isOctet_two isOctet_one]
  simp

theorem kept_shows {k o : Text} (hX : X.getLast?.any (fun c => isIpv4Adjacent (byteOf c)) = false)
    (ho : IsOctet (codes o)) (hm : ipv6Matcher.len (some '.') (o ++ post) = some n)
    (hscan : ∀ o₁ o₂ o₃ o₄, IsOctet (codes o₁) → IsOctet (codes o₂) → IsOctet (codes o₃) →
      IsOctet (codes o₄) → stripIpv6 (x ++ (k ++ (quadText o₁ o₂ o₃ o₄ ++ post))) =
        X ++ (o₁ ++ '.' :: (o₂ ++ '.' :: (o₃ ++ '.' ::
          scan ipv6Matcher redactedIp (some '.') (o₄ ++ post))))) :
    stripIpv4 (stripIpv6 (x ++ (k ++ (shownQuad ['1'] o ++ post)))) ≠
      stripIpv4 (stripIpv6 (x ++ (k ++ (shownQuad ['2'] o ++ post)))) := by
  obtain ⟨w, y, hwy, rfl⟩ := Span.exists_split (ipv6Matcher.le hm)
  rw [hwy] at hm
  have h₁ := stripIpv4_short (y := scan ipv6Matcher redactedIp (lastOr (some '.') w) y)
    (h := "1.1.1.".toList) hX (by decide)
  have h₂ := stripIpv4_short (y := scan ipv6Matcher redactedIp (lastOr (some '.') w) y)
    (h := "1.2.1.".toList) hX (by decide)
  rw [shownQuad, shownQuad, hscan _ _ _ _ isOctet_one isOctet_one isOctet_one ho,
    hscan _ _ _ _ isOctet_one isOctet_two isOctet_one ho, hwy, Scan.scan_redact hm]
  intro heq
  have hshown := List.append_cancel_left (h₁.symm.trans (heq.trans h₂))
  exact absurd (List.append_cancel_right hshown) (by decide)

/-- A match that begins in a quad begins with its last octet. -/
theorem begins_last {o₁ o₂ o₃ o₄ v z : Text} (h₁ : IsOctet (codes o₁)) (h₂ : IsOctet (codes o₂))
    (h₃ : IsOctet (codes o₃)) (h₄ : IsOctet (codes o₄)) (hv : quadText o₁ o₂ o₃ o₄ = v ++ z)
    (hm : ipv6Matcher.len (x ++ v).getLast? (z ++ post) = some n) :
    ipv6Matcher.len (some '.') (o₄ ++ post) = some n := by
  have hchars : ∀ c ∈ o₁ ++ '.' :: (o₂ ++ '.' :: o₃), isIpv4Adjacent (byteOf c) = true := by
    simp only [List.forall_mem_append, List.forall_mem_cons]
    exact ⟨octet_chars h₁, by decide, octet_chars h₂, by decide, octet_chars h₃⟩
  have hsplit : (o₁ ++ '.' :: (o₂ ++ '.' :: o₃)) ++ '.' :: o₄ = v ++ z := by
    rw [← hv]
    simp [quadText]
  rcases List.append_eq_append_iff.mp hsplit with ⟨t, rfl, ht⟩ | ⟨t, hw, rfl⟩
  · cases t with
    | nil =>
      obtain rfl : z = '.' :: o₄ := ht.symm
      have hnone : ∀ p, ipv6Matcher.len p ('.' :: (o₄ ++ post)) = none :=
        fun p => ipv6Matcher_before_dot (w := []) (by simp)
      rw [List.cons_append, hnone] at hm
      simp at hm
    | cons d t =>
      obtain ⟨rfl, rfl⟩ := List.cons_eq_cons.mp ht
      rcases List.eq_nil_or_concat t with rfl | ⟨t, e, rfl⟩
      · have hlast : (x ++ (o₁ ++ '.' :: (o₂ ++ '.' :: o₃) ++ ['.'])).getLast? = some '.' := by
          simp [List.getLast?_cons]
        rwa [hlast] at hm
      · -- the character before the match is a digit
        have he : isAsciiDigit (byteOf e) = true := h₄.digits _ (by simp)
        have hlast : (x ++ (o₁ ++ '.' :: (o₂ ++ '.' :: o₃) ++ '.' :: t.concat e)).getLast? =
            some e := by simp [List.getLast?_cons]
        rw [hlast, ipv6Recogniser.len_behind (isIpv6Adjacent_of_digit he)] at hm
        simp at hm
  · have hnone := ipv6Matcher_before_dot (p := (x ++ v).getLast?) (w := t) (z := o₄ ++ post)
      fun c hc => hchars c (by simp [hw, hc])
    rw [List.append_assoc, List.cons_append, hnone] at hm
    simp at hm

theorem noPartial_of_indistinct (hpre : (codes pre).getLast?.any isIpv4Adjacent = false)
    (hpost : Stops isIpv4Adjacent (codes post))
    (hall : ∀ a b, IsQuad (codes a) → IsQuad (codes b) →
      stripIpv4 (stripIpv6 (pre ++ (a ++ post))) = stripIpv4 (stripIpv6 (pre ++ (b ++ post)))) :
    NoPartial pre post := by
  rw [noPartial_iff]
  intro a u w y ha hs hm
  by_contra hnot
  obtain ⟨x, k, rfl, hk, hx⟩ := exists_hex_run pre
  have hshown : ∀ {o}, IsOctet (codes o) →
      stripIpv4 (stripIpv6 (x ++ (k ++ (shownQuad ['1'] o ++ post)))) =
        stripIpv4 (stripIpv6 (x ++ (k ++ (shownQuad ['2'] o ++ post)))) := by
    intro o ho
    simpa [shownQuad] using hall _ _ (isQuad_quadText isOctet_one isOctet_one isOctet_one ho)
      (isQuad_quadText isOctet_one isOctet_two isOctet_one ho)
  have hdigit := hpost.mono fun _ => isIpv4Adjacent_of_digit
  have hout := quadOutcome hx hk hpre hdigit
  rcases Nat.lt_or_ge u.length (x ++ k).length with hlt | hge
  · obtain ⟨r, hr⟩ : u <+: x ++ k := List.prefix_of_prefix_length_le
      (hs ▸ List.prefix_append u _) (List.prefix_append _ _) hlt.le
    have hwy : w ++ y = r ++ (a ++ post) := by
      rw [← hr, List.append_assoc, List.append_cancel_left_eq] at hs
      exact hs.symm
    have hlens := congrArg List.length hr
    have hne : r ≠ [] := by
      rintro rfl
      rw [List.append_nil] at hr
      exact hlt.ne (congrArg List.length hr)
    have hlast : (codes r).getLast?.any isIpv4Adjacent = false := by
      rw [← hr, codes, List.map_append] at hpre
      exact last_tail hpre
    have hbehind := (Recogniser.matcher_len_iff.mp hm).1
    simp only [List.length_append] at hnot hlens
    rw [hwy] at hm
    cases meets (p := u.getLast?) hne hlast hdigit with
    | apart res hres hlen =>
      have hbound := hres _ ((hlen a ha).symm.trans hm)
      omega
    | whole _ hlen =>
      have heq := Option.some.inj ((hlen a ha).symm.trans hm)
      omega
    | part j hadj hj hlen =>
      obtain ⟨rfl, rfl⟩ := hex_run_unique hr.symm hk hadj hx hbehind
      cases hout with
      | covered Z _ hlen _ =>
        have heq := Option.some.inj ((hlen a ha).symm.trans hm)
        omega
      | kept X _ hnone _ =>
        rw [hnone a ha] at hm
        simp at hm
      | part X j hX hj _ hscan => exact part_shows hX hj hscan (hshown isOctet_one)
  · obtain ⟨v, rfl⟩ : x ++ k <+: u := List.prefix_of_prefix_length_le
      (List.prefix_append _ _) (hs ▸ List.prefix_append u _) hge
    have hav : a ++ post = v ++ (w ++ y) := by simpa using hs
    simp only [List.length_append] at hnot
    obtain ⟨z, hz⟩ : v <+: a := List.prefix_of_prefix_length_le
      (hav ▸ List.prefix_append v _) (List.prefix_append _ _) (by omega)
    have hwy : w ++ y = z ++ post := by
      rw [← hz, List.append_assoc, List.append_cancel_left_eq] at hav
      exact hav.symm
    rw [hwy] at hm
    obtain ⟨o₁, o₂, o₃, o₄, h₁, h₂, h₃, h₄, rfl⟩ := ha.text
    have hfirst := begins_last h₁ h₂ h₃ h₄ hz.symm hm
    cases hout with
    | covered Z hstop _ _ =>
      rw [ipv6Matcher_none (octet_chars h₄) hstop] at hfirst
      simp at hfirst
    | kept X hX _ hscan => exact kept_shows hX h₄ hfirst hscan (hshown h₄)
    | part X j hX hj _ hscan => exact part_shows hX hj hscan (hshown isOctet_one)

/-- Sanitised text reveals nothing of a bounded dotted quad of which no IPv6 match holds a part;
and where one does, the two address passes let octets through. -/
theorem quad_indistinct (pre post : Text)
    (hpre : (asBytes pre).getLast?.any isIpv4Adjacent = false)
    (hpost : (asBytes post).head?.any isIpv4Adjacent = false) :
    (NoPartial pre post → ∀ a b, IsQuad (asBytes a) → IsQuad (asBytes b) →
      stripPii (pre ++ (a ++ post)) = stripPii (pre ++ (b ++ post))) ∧
    ((∀ a b, IsQuad (asBytes a) → IsQuad (asBytes b) →
      stripIpv4 (stripIpv6 (pre ++ (a ++ post))) = stripIpv4 (stripIpv6 (pre ++ (b ++ post)))) →
        NoPartial pre post) := by
  have hpre' := last_codes hpre
  have hpost' : Stops isIpv4Adjacent (codes post) := by
    rw [Utf8.head?_asBytes] at hpost
    rw [Stops, codes, List.head?_map]
    exact hpost
  constructor
  · intro h a b ha hb
    obtain ⟨Z, hZ⟩ := stripIp_indistinct hpre' hpost' h
    rw [stripPii, stripPii, hZ a ((isQuad_asBytes a).mp ha), hZ b ((isQuad_asBytes b).mp hb)]
  · intro h
    refine noPartial_of_indistinct hpre' hpost' fun a b ha hb => ?_
    exact h a b ((isQuad_asBytes a).mpr ha) ((isQuad_asBytes b).mpr hb)

theorem isQuad_sample : IsQuad (asBytes "10.0.0.1".toList) ∧
    IsQuad (asBytes "192.168.100.200".toList) := by
  constructor
  · exact ⟨codes "10".toList, codes "0".toList, codes "0".toList, codes "1".toList, by decide,
      by decide, by decide, by decide, by decide⟩
  · exact ⟨codes "192".toList, codes "168".toList, codes "100".toList, codes "200".toList,
      by decide, by decide, by decide, by decide, by decide⟩

theorem quad_indistinct_sample :
    stripPii ("from ".toList ++ ("10.0.0.1".toList ++ ", port 80".toList)) =
      stripPii ("from ".toList ++ ("192.168.100.200".toList ++ ", port 80".toList)) ∧
    NoPartial "from ".toList ", port 80".toList := by
  have hfree : NoPartial "from ".toList ", port 80".toList :=
    noPartial_of_colons (by decide) (by decide)
  have hboth := quad_indistinct "from ".toList ", port 80".toList (by decide) (by decide)
  refine ⟨hboth.1 hfree _ _ isQuad_sample.1 isQuad_sample.2, hboth.2 fun a b ha hb => ?_⟩
  obtain ⟨Z, hZ⟩ := stripIp_indistinct (by decide) (by decide) hfree
  rw [hZ a ((isQuad_asBytes a).mp ha), hZ b ((isQuad_asBytes b).mp hb)]

/-- The IPv6 pass takes the last octet and what follows; the first one shows. -/
theorem partial_match_shows_quad : ¬ ∀ pre post a b : Text,
    (asBytes pre).getLast?.any isIpv4Adjacent = false →
      (asBytes post).head?.any isIpv4Adjacent = false → IsQuad (asBytes a) → IsQuad (asBytes b) →
        stripPii (pre ++ (a ++ post)) = stripPii (pre ++ (b ++ post)) := by
  intro h
  have hone : IsQuad (asBytes "1.2.3.4".toList) :=
    ⟨codes ['1'], codes ['2'], codes ['3'], codes ['4'], by decide, by decide, by decide, by decide,
      by decide⟩
  have hnine : IsQuad (asBytes "9.2.3.4".toList) :=
    ⟨codes ['9'], codes ['2'], codes ['3'], codes ['4'], by decide, by decide, by decide, by decide,
      by decide⟩
  have heq := h [] ":5:6".toList _ _ rfl (by decide) hone hnine
  exact absurd heq (by decide)

end ProviiAudit
