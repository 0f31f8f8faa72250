import ProviiAudit.Sanitize.Cuts
import ProviiAudit.Sanitize.Emails

/-! Texts that the address parsers cannot tell apart: their characters differ in the digits only,
and a run of digits is an octet in both or in neither. -/
namespace ProviiAudit

open Utf8 (Text asBytes byteOf)
open Span (Stops)

variable {b b' u v w x y : Bytes} {c : UInt8} {n k left : Nat} {saw : Bool} {p : UInt8 → Bool}

/-- What is left of a byte when its digit is not to be seen. -/
def blank (b : UInt8) : UInt8 := if isAsciiDigit b then byteOf '0' else b

/-- A class that holds all digits or none. -/
def Blind (p : UInt8 → Bool) : Prop := ∀ b, p (blank b) = p b

theorem blind_of (h : ∀ b, isAsciiDigit b = true → p b = p (byteOf '0')) : Blind p := by
  intro b
  by_cases hb : isAsciiDigit b = true
  · rw [blank, if_pos hb, h b hb]
  · rw [blank, if_neg hb]

theorem blind_true (h : ∀ b, isAsciiDigit b = true → p b = true) : Blind p :=
  blind_of fun b hb => by rw [h b hb, h (byteOf '0') (by decide)]

theorem blind_false (h : ∀ b, isAsciiDigit b = true → p b = false) : Blind p :=
  blind_of fun b hb => by rw [h b hb, h (byteOf '0') (by decide)]

theorem blind_digit : Blind isAsciiDigit := blind_true fun _ => id

theorem blind_hexdigit : Blind isAsciiHexdigit := blind_true fun _ => isAsciiHexdigit_of_digit

theorem blind_alphanumeric : Blind isAsciiAlphanumeric :=
  blind_true fun b hb => by simp [isAsciiAlphanumeric, hb]

theorem blind_alphabetic : Blind isAsciiAlphabetic := by
  refine blind_false fun b hb => ?_
  simp only [isAsciiDigit, isAsciiAlphabetic, Bool.and_eq_true, decide_eq_true_eq,
    Bool.or_eq_false_iff, Bool.and_eq_false_iff, decide_eq_false_iff_not,
    UInt8.le_iff_toNat_le] at hb ⊢
  simp at hb ⊢
  omega

theorem blind_eq (hc : isAsciiDigit c = false) : Blind (· == c) := by
  refine blind_false fun b hb => ?_
  rw [beq_eq_false_iff_ne]
  rintro rfl
  simp [hc] at hb

theorem Blind.or {q : UInt8 → Bool} (hp : Blind p) (hq : Blind q) : Blind fun b => p b || q b := by
  intro b
  simp only [hp b, hq b]

/-- The same bytes but for the digits. -/
def SameShape (b b' : Bytes) : Prop := b.map blank = b'.map blank

theorem SameShape.length (h : SameShape b b') : b.length = b'.length := by
  simpa using congrArg List.length h

theorem SameShape.drop (h : SameShape b b') (k : Nat) : SameShape (b.drop k) (b'.drop k) := by
  rw [SameShape, List.map_drop, List.map_drop, h]

theorem SameShape.take (h : SameShape b b') (k : Nat) : SameShape (b.take k) (b'.take k) := by
  rw [SameShape, List.map_take, List.map_take, h]

theorem SameShape.append {v' : Bytes} (h : SameShape b b') (hv : SameShape v v') :
    SameShape (b ++ v) (b' ++ v') := by
  rw [SameShape, List.map_append, List.map_append, h, hv]

theorem sameShape_refl (b : Bytes) : SameShape b b := rfl

theorem any_blank (hp : Blind p) (o : Option UInt8) : (o.map blank).any p = o.any p := by
  cases o with
  | none => rfl
  | some c => exact hp c

theorem SameShape.any (h : SameShape b b') (hp : Blind p) (n : Nat) :
    (b[n]?).any p = (b'[n]?).any p := by
  rw [← any_blank hp, ← any_blank hp b'[n]?, ← List.getElem?_map, ← List.getElem?_map, h]

theorem SameShape.last (h : SameShape b b') (hp : Blind p) :
    b.getLast?.any p = b'.getLast?.any p := by
  rw [← any_blank hp, ← any_blank hp b'.getLast?, ← List.getLast?_map, ← List.getLast?_map, h]

theorem SameShape.char (h : SameShape b b') (hc : isAsciiDigit c = false) (n : Nat) :
    b[n]? = some c ↔ b'[n]? = some c := by
  have hiff : ∀ o : Option UInt8, o = some c ↔ o.any (· == c) = true := by
    intro o
    cases o <;> simp
  rw [hiff, hiff, h.any (blind_eq hc)]

theorem SameShape.takeWhile (h : SameShape b b') (hp : Blind p) :
    (b.takeWhile p).length = (b'.takeWhile p).length := by
  have hmap : ∀ b : Bytes, (b.takeWhile p).length = ((b.map blank).takeWhile p).length := by
    intro b
    have hcomp : p ∘ blank = p := funext hp
    rw [List.takeWhile_map, List.length_map, hcomp]
  rw [hmap, hmap b', h]

theorem SameShape.count (h : SameShape b b') (hc : isAsciiDigit c = false) :
    b.count c = b'.count c := by
  have hmap : ∀ b : Bytes, b.count c = (b.map blank).count c := by
    intro b
    rw [List.count_eq_countP, List.count_eq_countP, List.countP_map]
    exact List.countP_congr fun d _ => by simpa using (blind_eq hc d).symm
  rw [hmap, hmap b', h]

theorem octetLen_none (h : Stops isAsciiDigit b) : octetLen b = none := by
  simp [octetLen, h.takeWhile]

/-- An octet is read up to where its digits end. -/
theorem octetLen_cut (hw : w ≠ [])
    (hend : w.getLast?.any isAsciiDigit = false ∨ Stops isAsciiDigit y) :
    octetLen (w ++ y) = octetLen w := by
  have hrun : (w ++ y).takeWhile isAsciiDigit = w.takeWhile isAsciiDigit := by
    rcases hend with hlast | hstop
    · exact Span.takeWhile_append_last hw hlast
    · exact Span.takeWhile_append hstop
  have hle := (List.takeWhile_prefix (l := w) isAsciiDigit).length_le
  simp only [octetLen, hrun, List.take_append_of_le_length hle]

/-- The parsers of addresses cannot tell the two apart. -/
structure Alike (b b' : Bytes) : Prop where
  shape : SameShape b b'
  octets : ∀ k, (b.take k).getLast?.any isAsciiDigit = false →
    octetLen (b.drop k) = octetLen (b'.drop k)

theorem Alike.trans {b'' : Bytes} (h : Alike b b') (h' : Alike b' b'') : Alike b b'' := by
  refine ⟨h.shape.trans h'.shape, fun k hk => (h.octets k hk).trans (h'.octets k ?_)⟩
  rwa [← (h.shape.take k).last blind_digit]

theorem Alike.octet (h : Alike b b') : octetLen b = octetLen b' := h.octets 0 rfl

/-- Between two digits the text must not be cut. -/
def CutAt (b : Bytes) (k : Nat) : Prop :=
  (b.take k).getLast?.any isAsciiDigit = false ∨ Stops isAsciiDigit (b.drop k)

theorem CutAt.shape (h : CutAt b k) (hs : SameShape b b') : CutAt b' k := by
  refine h.imp (fun hlast => ?_) fun hstop => ?_
  · rwa [← (hs.take k).last blind_digit]
  · have hany := (hs.drop k).any blind_digit 0
    rw [← List.head?_eq_getElem?, ← List.head?_eq_getElem?] at hany
    exact hany.symm.trans hstop

theorem getLast?_take_drop (h : (b.drop k).take n ≠ []) :
    ((b.drop k).take n).getLast? = (b.take (k + n)).getLast? := by
  rw [List.take_add, List.getLast?_append]
  obtain ⟨c, hc⟩ := Option.ne_none_iff_exists'.mp (List.getLast?_eq_none_iff.not.mpr h)
  rw [hc, Option.some_or]

theorem Alike.drop (h : Alike b b') (hk : CutAt b k) : Alike (b.drop k) (b'.drop k) := by
  refine ⟨h.shape.drop k, fun j hj => ?_⟩
  by_cases hnil : (b.drop k).take j = []
  · rcases List.take_eq_nil_iff.mp hnil with rfl | hb
    · rcases hk with hlast | hstop
      · simpa using h.octets k hlast
      · have hstop' : Stops isAsciiDigit (b'.drop k) := by
          have hany := (h.shape.drop k).any blind_digit 0
          rw [← List.head?_eq_getElem?, ← List.head?_eq_getElem?] at hany
          exact hany.symm.trans hstop
        rw [List.drop_zero, List.drop_zero, octetLen_none hstop, octetLen_none hstop']
    · have hb' : b'.drop k = [] := by
        rw [List.drop_eq_nil_iff] at hb ⊢
        exact h.shape.length ▸ hb
      rw [hb, hb']
  · rw [getLast?_take_drop hnil] at hj
    simpa [List.drop_drop] using h.octets (k + j) hj

theorem Alike.append_left (h : Alike b b') (hv : CutAt (v ++ b) v.length) :
    Alike (v ++ b) (v ++ b') := by
  refine ⟨(sameShape_refl v).append h.shape, fun k hk => ?_⟩
  rcases Nat.lt_or_ge k v.length with hlt | hge
  · rw [List.drop_append_of_le_length hlt.le, List.drop_append_of_le_length hlt.le]
    have hne : v.drop k ≠ [] := List.drop_eq_nil_iff.not.mpr (by omega)
    have hv' := hv.shape ((sameShape_refl v).append h.shape)
    rw [CutAt, List.take_left, List.drop_left] at hv hv'
    have hlast : (v.drop k).getLast? = v.getLast? := List.getLast?_drop.trans (if_neg (by omega))
    rw [← hlast] at hv hv'
    rw [octetLen_cut hne hv, octetLen_cut hne hv']
  · obtain ⟨j, rfl⟩ := Nat.exists_eq_add_of_le hge
    rw [List.drop_append, List.drop_append]
    simp only [Nat.add_sub_cancel_left, List.drop_of_length_le (Nat.le_add_right ..),
      List.nil_append]
    by_cases hnil : b.take j = []
    · rcases List.take_eq_nil_iff.mp hnil with rfl | rfl
      · exact h.octet
      · rw [List.length_eq_zero_iff.mp h.shape.length.symm]
    · apply h.octets j
      rw [List.take_length_add_append, List.getLast?_append] at hk
      obtain ⟨c, hc⟩ := Option.ne_none_iff_exists'.mp (List.getLast?_eq_none_iff.not.mpr hnil)
      rw [hc, Option.some_or] at hk
      rw [hc]
      exact hk

theorem Alike.append_right (h : Alike b b') (hy : Stops isAsciiDigit y) :
    Alike (b ++ y) (b' ++ y) := by
  have hlen := h.shape.length
  refine ⟨h.shape.append (sameShape_refl y), fun k hk => ?_⟩
  rcases Nat.lt_or_ge k b.length with hlt | hge
  · rw [List.drop_append_of_le_length hlt.le, List.drop_append_of_le_length (hlen ▸ hlt.le),
      octetLen_cut (List.drop_eq_nil_iff.not.mpr (by omega)) (.inr hy),
      octetLen_cut (List.drop_eq_nil_iff.not.mpr (by omega)) (.inr hy)]
    rw [List.take_append_of_le_length hlt.le] at hk
    exact h.octets k hk
  · have hnil : b.drop k = [] := List.drop_of_length_le hge
    have hnil' : b'.drop k = [] := List.drop_of_length_le (hlen ▸ hge)
    rw [List.drop_append, List.drop_append, hnil, hnil', hlen]

theorem Alike.take (h : Alike b b') (hk : CutAt b k) : Alike (b.take k) (b'.take k) := by
  refine ⟨h.shape.take k, fun j hj => ?_⟩
  rcases Nat.lt_or_ge j (min k b.length) with hlt | hge
  · have hread : ∀ {b : Bytes}, CutAt b k → j < min k b.length →
        octetLen ((b.take k).drop j) = octetLen (b.drop j) := by
      intro b hk hlt
      have hne : (b.take k).drop j ≠ [] := List.drop_eq_nil_iff.not.mpr (by simp; omega)
      have hlast : ((b.take k).drop j).getLast? = (b.take k).getLast? :=
        List.getLast?_drop.trans (if_neg (by simp; omega))
      rw [CutAt, ← hlast] at hk
      rw [← octetLen_cut hne hk, ← List.drop_append_of_le_length (by simp; omega),
        List.take_append_drop]
    rw [hread hk hlt, hread (hk.shape h.shape) (h.shape.length ▸ hlt)]
    apply h.octets j
    rwa [List.take_take, Nat.min_eq_left (by omega)] at hj
  · have hnil : ∀ {b : Bytes}, min k b.length ≤ j → (b.take k).drop j = [] :=
      fun hge => List.drop_eq_nil_iff.mpr (by simpa using hge)
    rw [hnil hge, hnil (h.shape.length ▸ hge)]

/-- Two runs of digits, as octets. -/
theorem alike_digits (hb : ∀ c ∈ b, isAsciiDigit c = true) (hb' : ∀ c ∈ b', isAsciiDigit c = true)
    (hlen : b.length = b'.length) (h : octetLen b = octetLen b') : Alike b b' := by
  have hblank : ∀ {b : Bytes}, (∀ c ∈ b, isAsciiDigit c = true) →
      b.map blank = List.replicate b.length (byteOf '0') := by
    intro b hb
    refine List.eq_replicate_iff.mpr ⟨List.length_map .., fun c hc => ?_⟩
    obtain ⟨d, hd, rfl⟩ := List.mem_map.mp hc
    exact if_pos (hb d hd)
  refine ⟨by rw [SameShape, hblank hb, hblank hb', hlen], fun k hk => ?_⟩
  by_cases hnil : b.take k = []
  · rcases List.take_eq_nil_iff.mp hnil with rfl | rfl
    · exact h
    · rw [List.length_eq_zero_iff.mp hlen.symm]
  · rw [List.getLast?_eq_some_getLast hnil, Option.any_some,
      hb _ (List.mem_of_mem_take (List.getLast_mem hnil))] at hk
    exact absurd hk (by decide)

/-- Parts that are alike, on both sides of a byte that is no digit. -/
theorem Alike.join {v' : Bytes} (hc : isAsciiDigit c = false) (h : Alike b b') (hv : Alike v v') :
    Alike (b ++ c :: v) (b' ++ c :: v') := by
  have hright : Alike (b ++ c :: v) (b' ++ c :: v) := h.append_right (Span.stops_cons.mpr hc)
  have hleft : Alike ((b' ++ [c]) ++ v) ((b' ++ [c]) ++ v') := by
    refine hv.append_left (.inl ?_)
    rw [List.take_left]
    simpa using hc
  simpa using hright.trans (by simpa using hleft)

theorem Alike.behind (h : Alike b b') (hc : isAsciiDigit c = false) (hb : b[n]? = some c) :
    Alike (b.drop (n + 1)) (b'.drop (n + 1)) := by
  refine h.drop (.inl ?_)
  rw [List.take_add_one, hb]
  simpa using hc

theorem Alike.quadLen (h : Alike b b') : quadLen left b = quadLen left b' := by
  induction left, b using quadLen.induct generalizing b' with
  | case1 b => rfl
  | case2 b => exact h.octet
  | case3 left b k hk hdot ih =>
    have hdot' := (h.shape.char (by decide) k).mp hdot
    simp only [ProviiAudit.quadLen, ← h.octet, hk, hdot, hdot', if_true,
      ih (h.behind (by decide) hdot)]
  | case4 left b k hk hdot =>
    have hdot' := (h.shape.char (by decide) k).not.mp hdot
    simp only [ProviiAudit.quadLen, ← h.octet, hk, hdot, hdot', if_false]
  | case5 left b hk => simp only [ProviiAudit.quadLen, ← h.octet, hk]

theorem SameShape.groupLen (h : SameShape b b') : groupLen b = groupLen b' :=
  (h.take 4).takeWhile blind_hexdigit

theorem Alike.suffixLen (h : Alike b b') : suffixLen b n = suffixLen b' n := by
  have hdot := h.shape.char (show isAsciiDigit (byteOf '.') = false by decide)
  simp only [ProviiAudit.suffixLen, h.quadLen, hdot]

theorem Alike.groupsLen (h : Alike b b') : groupsLen left saw b = groupsLen left saw b' := by
  have hcolon : isAsciiDigit (byteOf ':') = false := by decide
  induction left generalizing saw b b' with
  | zero => rfl
  | succ left ih =>
    have hchar := h.shape.char hcolon
    have hhex := h.shape.any blind_hexdigit
    simp only [ProviiAudit.groupsLen, h.shape.groupLen, h.suffixLen, ne_eq, hchar, hhex]
    by_cases h1 : b'[groupLen b']? = some (byteOf ':')
    · have hone : groupsLen left saw _ = groupsLen left saw _ :=
        ih (h.behind hcolon ((hchar _).mpr h1))
      by_cases h2 : b'[groupLen b' + 1]? = some (byteOf ':')
      · have htwo : groupsLen left true _ = groupsLen left true _ :=
          ih (h.behind hcolon ((hchar _).mpr h2))
        simp only [htwo, hone]
      · simp only [h2, if_false, hone]
    · simp only [h1, not_false_eq_true, if_true]

theorem Alike.ipv6HeadLen (h : Alike b b') : ipv6HeadLen b = ipv6HeadLen b' := by
  have hcolon : isAsciiDigit (byteOf ':') = false := by decide
  have hchar := h.shape.char hcolon
  have hhex := h.shape.any blind_hexdigit
  simp only [ProviiAudit.ipv6HeadLen, hchar, hhex, h.groupsLen]
  by_cases h1 : b'[1]? = some (byteOf ':')
  · rw [(h.behind hcolon ((hchar 1).mpr h1)).groupsLen]
  · simp only [h1, and_false, if_false]

theorem Alike.ipv6AddressLen (h : Alike b b') : ipv6AddressLen b = ipv6AddressLen b' := by
  have hcount : ∀ n, (b.take n).count (byteOf ':') = (b'.take n).count (byteOf ':') :=
    fun n => (h.shape.take n).count (by decide)
  simp only [ProviiAudit.ipv6AddressLen, h.ipv6HeadLen, hcount]

/-- Digits are all that the shape leaves open. -/
theorem SameShape.eq_of_digitless (h : SameShape b b') (hb : ∀ c ∈ b, isAsciiDigit c = false) :
    b = b' := by
  have hself : ∀ {b : Bytes}, (∀ c ∈ b, isAsciiDigit c = false) → b.map blank = b := by
    intro b hb
    refine (List.map_congr_left fun c hc => ?_).trans (List.map_id b)
    exact if_neg (by simp [hb c hc])
  have hb' : ∀ c ∈ b', isAsciiDigit c = false := by
    intro c hc
    obtain ⟨n, hn⟩ := List.mem_iff_getElem?.mp hc
    have hany := h.any blind_digit n
    rw [hn, Option.any_some] at hany
    cases hat : b[n]? with
    | none => rw [← hany, hat, Option.any_none]
    | some a => rw [← hany, hat, Option.any_some, hb a (List.mem_of_getElem? hat)]
  rw [← hself hb, ← hself hb', h]

theorem blind_local : Blind isEmailLocalChar :=
  blind_true fun b hb => by simp [isEmailLocalChar, isAsciiAlphanumeric, hb]

theorem SameShape.cons (h : SameShape (c :: b) b') :
    ∃ c' r, b' = c' :: r ∧ blank c = blank c' ∧ SameShape b r := by
  cases b' with
  | nil => simp [SameShape] at h
  | cons c' r =>
    obtain ⟨hc, hr⟩ := List.cons_eq_cons.mp h
    exact ⟨c', r, rfl, hc, hr⟩

theorem Blind.congr (hp : Blind p) {c c' : UInt8} (h : blank c = blank c') : p c = p c' := by
  rw [← hp c, ← hp c', h]

theorem SameShape.domainLoop (h : SameShape b b') (st : DomainScan) :
    domainLoop b st = domainLoop b' st := by
  induction b generalizing b' st with
  | nil =>
    obtain rfl : b' = [] := List.length_eq_zero_iff.mp h.length.symm
    rfl
  | cons c b ih =>
    obtain ⟨c', r, rfl, hc, hr⟩ := h.cons
    have hlabel := (blind_alphanumeric.or (blind_eq (c := byteOf '-') (by decide))).congr hc
    have hdot := (blind_eq (c := byteOf '.') (by decide)).congr hc
    simp only [ProviiAudit.domainLoop, hlabel, hdot, ih hr]

theorem SameShape.domainLen (h : SameShape b b') : domainLen b = domainLen b' := by
  have hall : ∀ i j,
      (slice b i j).all isAsciiAlphabetic = (slice b' i j).all isAsciiAlphabetic := by
    have hmap : ∀ b : Bytes, b.all isAsciiAlphabetic = (b.map blank).all isAsciiAlphabetic := by
      intro b
      have hcomp : isAsciiAlphabetic ∘ blank = isAsciiAlphabetic := funext blind_alphabetic
      rw [List.all_map, hcomp]
    intro i j
    rw [hmap, hmap (slice b' i j), slice, slice, (h.drop i).take (j - i)]
  simp only [ProviiAudit.domainLen, scanEmailDomainForward, List.drop_zero, h.domainLoop, hall]

end ProviiAudit
