import ProviiAudit.Digest.Tamper
import ProviiAudit.Limits

/-! Event ids: which texts they are, and when two of them are equal. -/
namespace ProviiAudit

open Utf8 (Text)

/-- The hexadecimal digits of a UUID of version 4 and variant 1. -/
structure IsUuidV4 (id : Text) : Prop where
  length : id.length = 32
  digits : ∀ c ∈ id, c ∈ Hex.alphabet
  version : id[12]? = some '4'
  variant : ∃ c ∈ "89ab".toList, id[16]? = some c

/-- What an id keeps of the random byte at a position. -/
def randomPart (i : Nat) (b : UInt8) : Nat :=
  if i = 6 then b.toNat % 16 else if i = 8 then b.toNat % 64 else b.toNat

/-- What an id makes of the random byte at a position. -/
def stamp (i : Nat) (b : UInt8) : UInt8 :=
  if i = 6 then b &&& 0x0f ||| 0x40 else if i = 8 then b &&& 0x3f ||| 0x80 else b

variable {C : Crypto} {host host' : Host} {id : Text} {i : Nat} {b b' : UInt8}
  {bytes bytes' : List UInt8}

theorem and_or_toNat {k m : Nat} (hk : k < 8) (hm : m < 256) (hdvd : 2 ^ k ∣ m) :
    (b &&& UInt8.ofNat (2 ^ k - 1) ||| UInt8.ofNat m).toNat = m + b.toNat % 2 ^ k := by
  have hmask : 2 ^ k - 1 < UInt8.size := by
    have hpow : 2 ^ k < 2 ^ 8 := Nat.pow_lt_pow_right (by decide) hk
    change _ < 2 ^ 8
    omega
  have hlow : b.toNat % 2 ^ k < 2 ^ k := Nat.mod_lt _ (Nat.two_pow_pos k)
  obtain ⟨a, rfl⟩ := hdvd
  rw [UInt8.toNat_or, UInt8.toNat_and, UInt8.toNat_ofNat_of_lt' hmask,
    UInt8.toNat_ofNat_of_lt' hm, Nat.and_two_pow_sub_one_eq_mod, Nat.or_comm,
    Nat.two_pow_add_eq_or_of_lt hlow]

theorem stamp_toNat : (stamp i b).toNat =
    (if i = 6 then 64 else if i = 8 then 128 else 0) + randomPart i b := by
  rw [stamp, randomPart]
  split_ifs
  · exact and_or_toNat (k := 4) (m := 64) (by decide) (by decide) (by decide)
  · exact and_or_toNat (k := 6) (m := 128) (by decide) (by decide) (by decide)
  · exact (Nat.zero_add _).symm

theorem stamp_eq_iff : stamp i b = stamp i b' ↔ randomPart i b = randomPart i b' := by
  rw [← UInt8.toNat_inj, stamp_toNat, stamp_toNat, Nat.add_left_cancel_iff]

theorem uuidBytes_getElem? : (uuidBytes bytes)[i]? = bytes[i]?.map (stamp i) := by
  rw [uuidBytes, List.getElem?_modify, List.getElem?_modify]
  cases bytes[i]? with
  | none => rfl
  | some b =>
    by_cases h6 : i = 6
    · subst h6
      rfl
    · by_cases h8 : i = 8
      · subst h8
        rfl
      · simp [stamp, h6, h8, Ne.symm h6, Ne.symm h8]

theorem uuidBytes_length : (uuidBytes bytes).length = bytes.length := by
  rw [uuidBytes, List.length_modify, List.length_modify]

theorem uuidBytes_eq_iff : uuidBytes bytes = uuidBytes bytes' ↔
    ∀ i, bytes[i]?.map (randomPart i) = bytes'[i]?.map (randomPart i) := by
  rw [List.ext_getElem?_iff]
  refine forall_congr' fun i => ?_
  rw [uuidBytes_getElem?, uuidBytes_getElem?]
  cases bytes[i]? <;> cases bytes'[i]? <;> simp [stamp_eq_iff]

/-- Bytes that have the version and the variant are left as they are. -/
theorem uuidBytes_eq_self {v r : UInt8} (h6 : bytes[6]? = some v) (hv : v.toNat / 16 = 4)
    (h8 : bytes[8]? = some r) (hr : r.toNat / 64 = 2) : uuidBytes bytes = bytes := by
  apply List.ext_getElem?
  intro i
  rw [uuidBytes_getElem?]
  have hkeep : ∀ b ∈ bytes[i]?, stamp i b = b := by
    intro b hb
    rw [← UInt8.toNat_inj, stamp_toNat, randomPart]
    split_ifs with hi hi'
    · subst hi
      obtain rfl : v = b := Option.some.inj (h6.symm.trans hb)
      omega
    · subst hi'
      obtain rfl : r = b := Option.some.inj (h8.symm.trans hb)
      omega
    · exact Nat.zero_add _
  cases h : bytes[i]? with
  | none => rfl
  | some b => exact congrArg some (hkeep b h)

theorem digit_eq_iff {n m : Nat} (hn : n < 16) (hm : m < 16) :
    Hex.digit n = Hex.digit m ↔ n = m :=
  ⟨Hex.digit_injective hn hm, fun h => by rw [h]⟩

/-- The variant is in the two high bits. -/
theorem variant_iff (hr : b.toNat / 16 < 16) :
    (∃ c ∈ "89ab".toList, some (Hex.digit (b.toNat / 16)) = some c) ↔ b.toNat / 64 = 2 := by
  have hchars : "89ab".toList = [Hex.digit 8, Hex.digit 9, Hex.digit 10, Hex.digit 11] := by decide
  simp only [hchars, List.mem_cons, List.not_mem_nil, or_false, Option.some.injEq,
    exists_eq_or_imp, exists_eq_left]
  rw [digit_eq_iff hr (by decide), digit_eq_iff hr (by decide), digit_eq_iff hr (by decide),
    digit_eq_iff hr (by decide)]
  omega

theorem high_lt (b : UInt8) : b.toNat / 16 < 16 := by
  have hlt := b.toNat_lt
  omega

/-- The digits of sixteen bytes are an id exactly when the bytes are stamped already. -/
theorem isUuidV4_iff (h : bytes.length = 16) :
    IsUuidV4 (Hex.encodeBytes bytes) ↔ uuidBytes bytes = bytes := by
  obtain ⟨v, h6⟩ : ∃ v, bytes[6]? = some v := ⟨_, List.getElem?_eq_getElem (by omega)⟩
  obtain ⟨r, h8⟩ : ∃ r, bytes[8]? = some r := ⟨_, List.getElem?_eq_getElem (by omega)⟩
  have hversion : (Hex.encodeBytes bytes)[12]? = some (Hex.digit (v.toNat / 16)) := by
    rw [Hex.encodeBytes_getElem? bytes 6, h6]
    rfl
  have hvariant : (Hex.encodeBytes bytes)[16]? = some (Hex.digit (r.toNat / 16)) := by
    rw [Hex.encodeBytes_getElem? bytes 8, h8]
    rfl
  have hfour : Hex.digit 4 = '4' := rfl
  constructor
  · intro hid
    have hv := hid.version
    have hr := hid.variant
    rw [hversion, Option.some.injEq, ← hfour, digit_eq_iff (high_lt v) (by decide)] at hv
    rw [hvariant, variant_iff (high_lt r)] at hr
    exact uuidBytes_eq_self h6 hv h8 hr
  · intro hstamped
    have hv : stamp 6 v = v := by
      have hget : (uuidBytes bytes)[6]? = bytes[6]?.map (stamp 6) := uuidBytes_getElem?
      rw [hstamped, h6, Option.map_some, Option.some.injEq] at hget
      exact hget.symm
    have hr : stamp 8 r = r := by
      have hget : (uuidBytes bytes)[8]? = bytes[8]?.map (stamp 8) := uuidBytes_getElem?
      rw [hstamped, h8, Option.map_some, Option.some.injEq] at hget
      exact hget.symm
    rw [← UInt8.toNat_inj, stamp_toNat, randomPart] at hv hr
    simp only [Nat.reduceEqDiff, reduceIte] at hv hr
    refine ⟨by rw [Hex.encodeBytes_length, h], Hex.encodeBytes_alphabet bytes, ?_, ?_⟩
    · rw [hversion, Option.some.injEq, ← hfour, digit_eq_iff (high_lt v) (by decide)]
      omega
    · rw [hvariant, variant_iff (high_lt r)]
      omega

theorem uuidBytes_uuidBytes : uuidBytes (uuidBytes bytes) = uuidBytes bytes := by
  rw [uuidBytes_eq_iff]
  intro i
  rw [uuidBytes_getElem?]
  cases bytes[i]? with
  | none => rfl
  | some b =>
    have hstamp : randomPart i (stamp i b) = randomPart i b := by
      have hb := stamp_toNat (i := i) (b := b)
      simp only [randomPart] at hb ⊢
      split_ifs at hb ⊢ <;> omega
    simp [hstamp]

theorem generateUuidV4_eq_ok_iff : generateUuidV4 C host = .ok id ↔
    ∃ r, host.getrandom = .ok r ∧ C.hex.encode (uuidBytes r.val) = id := by
  rw [generateUuidV4]
  cases host.getrandom with
  | error e => simp
  | ok r => simp

/-- The ids are exactly the UUIDs of version 4, all of which can come; and two events have one id
exactly when their random bytes agree but for the bits of version and variant. -/
theorem event_ids (C : Crypto) (hhex : C.hex.encode = Hex.encodeBytes) :
    (∀ id, (∃ host, generateUuidV4 C host = .ok id) ↔ IsUuidV4 id) ∧
    ∀ (b b' : AuditEventBuilder) (host host' : Host) (e e' : AuditEvent),
      b.build C host = .ok e → b'.build C host' = .ok e' → ∃ r r',
        host.getrandom = .ok r ∧ host'.getrandom = .ok r' ∧ (e.eventId = e'.eventId ↔
          ∀ i, r.val[i]?.map (randomPart i) = r'.val[i]?.map (randomPart i)) := by
  constructor
  · intro id
    constructor
    · rintro ⟨host, hid⟩
      obtain ⟨r, -, rfl⟩ := generateUuidV4_eq_ok_iff.mp hid
      rw [hhex, isUuidV4_iff (uuidBytes_length.trans r.property)]
      exact uuidBytes_uuidBytes
    · intro hid
      obtain ⟨bytes, hlen, rfl⟩ := Hex.exists_encodeBytes (n := 16) hid.length hid.digits
      refine ⟨⟨.ok ⟨bytes, hlen⟩, 0⟩, generateUuidV4_eq_ok_iff.mpr ⟨⟨bytes, hlen⟩, rfl, ?_⟩⟩
      rw [hhex, (isUuidV4_iff hlen).mp hid]
  · intro b b' host host' e e' he he'
    obtain ⟨-, -, -, hid, -⟩ := build_ok_iff.mp he
    obtain ⟨-, -, -, hid', -⟩ := build_ok_iff.mp he'
    obtain ⟨r, hr, hcode⟩ := generateUuidV4_eq_ok_iff.mp hid
    obtain ⟨r', hr', hcode'⟩ := generateUuidV4_eq_ok_iff.mp hid'
    refine ⟨r, r', hr, hr', ?_⟩
    rw [← hcode, ← hcode', C.hex.encode_injective.eq_iff, uuidBytes_eq_iff]

theorem event_ids_sample : IsUuidV4 "00000000000040008000000000000000".toList :=
  ((event_ids sampleCrypto rfl).1 _).mp ⟨zeroHost, by decide⟩

end ProviiAudit
