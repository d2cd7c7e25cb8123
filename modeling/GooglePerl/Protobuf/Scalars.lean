import GooglePerl.Protobuf.ParseLoop
import GooglePerl.Protobuf.Serialize

/-!
Scalars through the wire.

`FieldType.inRange` is the range of a declared type. `FieldType.rereads` is the
wider range of integers that `_encode_field` writes and `_decode_field` reads
back unchanged. Everything about the two case splits over types and wire types
that the message level needs is in `encodeScalar_int` and `encodeScalar_text`.
-/

namespace GooglePerl.Protobuf

open GooglePerl.Lib

/-- The integers of a declared type; no integer is legal for the other types. -/
def FieldType.inRange : FieldType → ℤ → Prop
  | .int32, n | .sint32, n | .sfixed32, n => -2 ^ 31 ≤ n ∧ n < 2 ^ 31
  | .int64, n | .sint64, n | .sfixed64, n => -2 ^ 63 ≤ n ∧ n < 2 ^ 63
  | .uint32, n | .fixed32, n => 0 ≤ n ∧ n < 2 ^ 32
  | .uint64, n | .fixed64, n => 0 ≤ n ∧ n < 2 ^ 64
  | .bool, n => n = 0 ∨ n = 1
  | .enum _, n => -2 ^ 31 ≤ n ∧ n < 2 ^ 31
  | .double, _ | .float, _ | .string, _ | .bytes, _ | .message _, _ => False

/-- The integers that survive being written and read as a declared type. -/
def FieldType.rereads : FieldType → ℤ → Prop
  | .int32, n => -2 ^ 64 + 2 ^ 31 ≤ n ∧ n < 2 ^ 31
  | .int64, n | .sint64, n | .sfixed64, n => -2 ^ 63 ≤ n ∧ n < 2 ^ 63
  | .sint32, n | .sfixed32, n => -2 ^ 31 ≤ n ∧ n < 2 ^ 31
  | .uint32, n | .uint64, n | .bool, n | .enum _, n => 0 ≤ n ∧ n < 2 ^ 70
  | .fixed32, n => 0 ≤ n ∧ n < 2 ^ 32
  | .fixed64, n => 0 ≤ n ∧ n < 2 ^ 64
  | .double, _ | .float, _ | .string, _ | .bytes, _ | .message _, _ => False

/-- The varint that the format has for an integer. -/
def FieldType.canonical (t : FieldType) (n : ℤ) : ℕ :=
  match t with
  | .sint32 | .sint64 => (zigzag n).toNat
  | _ => (n % 2 ^ 64).toNat

/-- A negative enum number is legal but not read back. -/
theorem FieldType.rereads_of_inRange {t : FieldType} {n : ℤ} (h : t.inRange n)
    (henum : ∀ e, t = .enum e → 0 ≤ n) : t.rereads n := by
  cases t with
  | enum e =>
      have hn := henum e rfl
      simp only [inRange, rereads] at *
      omega
  | bool =>
      simp only [inRange, rereads] at *
      omega
  | int32 =>
      simp only [inRange, rereads] at *
      omega
  | uint32 =>
      simp only [inRange, rereads] at *
      omega
  | uint64 =>
      simp only [inRange, rereads] at *
      omega
  | _ => exact h

/-- An integer scalar, in either representation. -/
def Val.IsNum (n : ℤ) (v : Val) : Prop := v = .iv n ∨ v = .big n

theorem Val.IsNum.content {n : ℤ} {v : Val} (h : v.IsNum n) : v.content = .num n := by
  rcases h with rfl | rfl <;> simp

theorem Val.IsNum.stringify {n : ℤ} {v : Val} (h : v.IsNum n) :
    v.stringify = .ok (decimalText n) := by
  rcases h with rfl | rfl <;> rfl

theorem Val.IsNum.bigInt {n : ℤ} {v : Val} (h : v.IsNum n) : v.bigInt = .ok (some n) := by
  rcases h with rfl | rfl <;> rfl

theorem Val.IsNum.inj {n n' : ℤ} {v : Val} (h : v.IsNum n) (h' : v.IsNum n') : n = n' := by
  rcases h with rfl | rfl <;> rcases h' with h' | h' <;> cases h' <;> rfl

/-! ### Zigzag and fixed-width kernels -/

theorem encodeZigzag32_eq {n : ℤ} (hlo : -2 ^ 31 ≤ n) (hhi : n < 2 ^ 31) :
    encodeZigzag32 n = zigzag n := by
  unfold encodeZigzag32
  rw [shift_xor_eq_zigzag hlo hhi]
  have hmask := land_mask_of_nonneg (zigzag_nonneg n) 32
  rw [show ((2 ^ 32 - 1 : ℕ) : ℤ) = 0xFFFFFFFF from rfl] at hmask
  rw [hmask, Int.emod_eq_of_lt (zigzag_nonneg n)]
  unfold zigzag
  split <;> omega

theorem encodeZigzag64_eq {n : ℤ} (hlo : -2 ^ 63 ≤ n) (hhi : n < 2 ^ 63) :
    encodeZigzag64 n = zigzag n :=
  shift_xor_eq_zigzag hlo hhi

theorem decodeZigzag64_eq (v : ℕ) : decodeZigzag64 v = unzigzag v :=
  shift_xor_eq_unzigzag (by omega)

theorem packLong_of_fits {n : ℤ} (hlo : -2 ^ 31 ≤ n) (hhi : n < 2 ^ 31) : packLong n = n := by
  unfold packLong
  rw [if_neg (by omega), if_neg (by omega)]
  exact Int.bmod_eq_of_le (by omega) (by omega)

theorem decodeZigzag32_zigzag {n : ℤ} (hlo : -2 ^ 31 ≤ n) (hhi : n < 2 ^ 31) :
    decodeZigzag32 ((zigzag n).toNat : ℕ) = n := by
  rw [decodeZigzag32, decodeZigzag64_eq, Int.toNat_of_nonneg (zigzag_nonneg n), unzigzag_zigzag,
    packLong_of_fits hlo hhi]

theorem encodeFixed64_eq {n : ℤ} (hlo : -2 ^ 63 ≤ n) (hhi : n < 2 ^ 64) :
    encodeFixed64 (some n) = leBytes 8 (n % 2 ^ 64).toNat := by
  have hmod : (if n < 0 then n + 18446744073709551616 else n) = ((n % 2 ^ 64).toNat : ℕ) := by
    split <;> omega
  have hlt : (n % 2 ^ 64).toNat < 2 ^ 64 := by omega
  unfold encodeFixed64
  simp only [Option.map_some]
  rw [hmod]
  exact reverse_packNibbles_padHex hlt

theorem encodeFixed32_eq (n : ℤ) :
    encodeFixed32 (some n) = .ok (leBytes 4 (n % 2 ^ 32).toNat) := by
  unfold encodeFixed32
  simp only
  congr 3
  split <;> omega

/-! ### Reading back what a branch of `_encode_field` wrote -/

variable {parseSub : String → PerlStr → Except Die Msg}

theorem decodeField_varint {n : ℕ} (h : n < 2 ^ 70) (t : FieldType) (rest : PerlStr) :
    decodeField parseSub 0 t (leb128 n ++ rest) = .ok (varintValue t n, rest) := by
  simp [decodeField, decodeVarint_leb128 h]

theorem decodeField_fixed64 {bytes : PerlStr} (h : bytes.length = 8) (t : FieldType)
    (rest : PerlStr) :
    decodeField parseSub 1 t (bytes ++ rest) = .ok (fixed64Value t bytes, rest) := by
  simp [decodeField, h]

theorem decodeField_fixed32 {bytes : PerlStr} (h : bytes.length = 4) (t : FieldType)
    (rest : PerlStr) :
    decodeField parseSub 5 t (bytes ++ rest) = .ok (fixed32Value t bytes, rest) := by
  simp [decodeField, h]

theorem decodeField_text {t : FieldType} (ht : ∀ c, t ≠ .message c) {s : PerlStr}
    (h : s.length < 2 ^ 70) (rest : PerlStr) :
    decodeField parseSub 2 t (leb128 s.length ++ s ++ rest) = .ok (.str s, rest) := by
  rw [List.append_assoc, decodeField, decodeVarint_leb128 h]
  simp only [ok_bind]
  rw [if_neg (by simp), List.take_left, List.drop_left]
  cases t with
  | message c => exact absurd rfl (ht c)
  | _ => rfl

theorem decodeField_message {c : String} {bytes : PerlStr} {m : Msg} (h : bytes.length < 2 ^ 70)
    (hsub : parseSub c bytes = .ok m) (rest : PerlStr) :
    decodeField parseSub 2 (.message c) (leb128 bytes.length ++ bytes ++ rest) =
      .ok (m.toVal, rest) := by
  rw [List.append_assoc, decodeField, decodeVarint_leb128 h]
  simp only [ok_bind]
  rw [if_neg (by simp), List.take_left, List.drop_left, hsub]
  rfl

theorem lengthPrefixed_eq (s : PerlStr) : lengthPrefixed s = .ok (leb128 s.length ++ s) := by
  simp [lengthPrefixed, encodeVarint_nat]

/-- What `_encode_varint` is given for a legal integer, and what is read back. -/
theorem varint_rereads {t : FieldType} {n : ℤ} (hwire : t.wire = 0) (h : t.rereads n) :
    -2 ^ 64 ≤ varintNumber t n ∧ varintOf (varintNumber t n) < 2 ^ 70 ∧
      (varintValue t (varintOf (varintNumber t n))).IsNum n := by
  have hneg : ∀ {k : ℤ}, k < 0 → varintOf k = (18446744073709551616 + k).toNat := by
    intro k hk
    simp [varintOf, hk]
  have hpos : ∀ {k : ℤ}, 0 ≤ k → varintOf k = k.toNat := by
    intro k hk
    simp [varintOf, Int.not_lt.mpr hk]
  cases t with
  | sint32 =>
      obtain ⟨hlo, hhi⟩ := h
      have hz := zigzag_nonneg n
      have hzlt : zigzag n < 2 ^ 32 := by
        unfold zigzag
        split <;> omega
      simp only [varintNumber, encodeZigzag32_eq hlo hhi, hpos hz, varintValue]
      refine ⟨by omega, by omega, .inl ?_⟩
      rw [decodeZigzag32_zigzag hlo hhi]
  | sint64 =>
      obtain ⟨hlo, hhi⟩ := h
      have hz := zigzag_nonneg n
      have hzlt : zigzag n < 2 ^ 64 := by
        unfold zigzag
        split <;> omega
      simp only [varintNumber, encodeZigzag64_eq hlo hhi, hpos hz, varintValue]
      refine ⟨by omega, by omega, .inr ?_⟩
      rw [decodeZigzag64_eq, Int.toNat_of_nonneg hz, unzigzag_zigzag]
  -- a negative number takes the ten octets of its complement to 2 ^ 64
  | int32 | int64 =>
      simp only [FieldType.rereads] at h
      simp only [varintNumber]
      by_cases hn : n < 0
      · rw [hneg hn]
        refine ⟨by omega, by omega, .inr ?_⟩
        rw [varintValue, if_pos (by omega)]
        congr 1
        omega
      · rw [hpos (by omega)]
        refine ⟨by omega, by omega, .inr ?_⟩
        rw [varintValue, if_neg (by omega)]
        congr 1
        omega
  | uint32 | uint64 | bool | enum e =>
      simp only [FieldType.rereads] at h
      simp only [varintNumber]
      rw [hpos h.1]
      refine ⟨by omega, by omega, .inr ?_⟩
      simp only [varintValue]
      congr 1
      omega
  | _ => simp [FieldType.wire] at hwire

/-- The eight octets of a number are read back as that number. -/
theorem fixed64Value_rereads {t : FieldType} (ht : t = .fixed64 ∨ t = .sfixed64) {n : ℤ}
    (h : t.rereads n) : fixed64Value t (leBytes 8 (n % 2 ^ 64).toNat) = .big n := by
  have hlt : (n % 2 ^ 64).toNat < 256 ^ 8 := by omega
  rcases ht with rfl | rfl
  · simp only [FieldType.rereads] at h
    simp only [fixed64Value, leValue_leBytes 8 hlt]
    congr 1
    omega
  · simp only [FieldType.rereads] at h
    simp only [fixed64Value, leValue_leBytes 8 hlt]
    by_cases hn : n < 0
    · rw [if_pos (by omega)]
      congr 1
      omega
    · rw [if_neg (by omega)]
      congr 1
      omega

/-- The four octets of a number are read back as that number. -/
theorem fixed32Value_rereads {t : FieldType} (ht : t = .fixed32 ∨ t = .sfixed32) {n : ℤ}
    (h : t.rereads n) : fixed32Value t (leBytes 4 (n % 2 ^ 32).toNat) = .iv n := by
  have hlt : (n % 2 ^ 32).toNat < 256 ^ 4 := by omega
  rcases ht with rfl | rfl
  · simp only [FieldType.rereads] at h
    simp only [fixed32Value, leValue_leBytes 4 hlt]
    congr 1
    omega
  · simp only [FieldType.rereads] at h
    have hmod : Int.bmod (n % 2 ^ 32) (2 ^ 32) = n := by
      rw [show (2 : ℤ) ^ 32 = ((2 ^ 32 : ℕ) : ℤ) from rfl, Int.emod_bmod]
      exact Int.bmod_eq_of_le (by omega) (by omega)
    simp only [fixed32Value, leValue_leBytes 4 hlt]
    rw [Int.toNat_of_nonneg (by omega), hmod]

/-- An integer field through the wire: whatever stands for the number `n`,
`_encode_field` writes it and `_decode_field` reads `n` back and stops there. -/
theorem encodeScalar_int {t : FieldType} {n : ℤ} (h : t.rereads n) {v : Val}
    (hv : v.bigInt = .ok (some n)) :
    ∃ p w, encodeScalar t v = .ok p ∧ w.IsNum n ∧
      ∀ parseSub rest, decodeField parseSub t.wire t (p ++ rest) = .ok (w, rest) := by
  have hvarint : t.wire = 0 → encodeScalar t v = encodeVarint (some (varintNumber t n)) →
      ∃ p w, encodeScalar t v = .ok p ∧ w.IsNum n ∧
        ∀ parseSub rest, decodeField parseSub t.wire t (p ++ rest) = .ok (w, rest) := by
    intro hwire henc
    obtain ⟨hlo, hlt, hnum⟩ := varint_rereads hwire h
    refine ⟨_, _, henc.trans (encodeVarint_some hlo), hnum, ?_⟩
    intro parseSub rest
    rw [hwire]
    exact decodeField_varint hlt t rest
  cases t with
  | int64 | uint64 | int32 | bool | uint32 | enum e | sint32 | sint64 =>
      exact hvarint rfl (by simp [encodeScalar, hv])
  | fixed64 =>
      refine ⟨leBytes 8 (n % 2 ^ 64).toNat, .big n, ?_, .inr rfl, ?_⟩
      · simp only [FieldType.rereads] at h
        simp [encodeScalar, hv, encodeFixed64_eq (by omega) h.2]
      · intro parseSub rest
        rw [FieldType.wire, decodeField_fixed64 (by simp), fixed64Value_rereads (.inl rfl) h]
  | sfixed64 =>
      refine ⟨leBytes 8 (n % 2 ^ 64).toNat, .big n, ?_, .inr rfl, ?_⟩
      · simp only [FieldType.rereads] at h
        simp [encodeScalar, hv, encodeFixed64_eq h.1 (by omega)]
      · intro parseSub rest
        rw [FieldType.wire, decodeField_fixed64 (by simp), fixed64Value_rereads (.inr rfl) h]
  | fixed32 =>
      refine ⟨leBytes 4 (n % 2 ^ 32).toNat, .iv n, ?_, .inl rfl, ?_⟩
      · simp [encodeScalar, hv, encodeFixed32_eq]
      · intro parseSub rest
        rw [FieldType.wire, decodeField_fixed32 (by simp), fixed32Value_rereads (.inl rfl) h]
  | sfixed32 =>
      refine ⟨leBytes 4 (n % 2 ^ 32).toNat, .iv n, ?_, .inl rfl, ?_⟩
      · simp [encodeScalar, hv, encodeFixed32_eq]
      · intro parseSub rest
        rw [FieldType.wire, decodeField_fixed32 (by simp), fixed32Value_rereads (.inr rfl) h]
  | _ => exact h.elim

/-- A string or bytes field through the wire. -/
theorem encodeScalar_text {t : FieldType} (ht : t = .string ∨ t = .bytes) {v : Val} {s : PerlStr}
    (hv : v.stringify = .ok s) (hlen : s.length < 2 ^ 70) :
    encodeScalar t v = .ok (leb128 s.length ++ s) ∧
      ∀ parseSub rest,
        decodeField parseSub t.wire t (leb128 s.length ++ s ++ rest) = .ok (.str s, rest) := by
  rcases ht with rfl | rfl
  · exact ⟨by simp [encodeScalar, hv, lengthPrefixed_eq],
      fun _ rest => decodeField_text (by simp) hlen rest⟩
  · exact ⟨by simp [encodeScalar, hv, lengthPrefixed_eq],
      fun _ rest => decodeField_text (by simp) hlen rest⟩

/-- A double or float field through the wire. -/
theorem encodeScalar_float {t : FieldType} {p : PerlStr}
    (ht : (t = .double ∧ p.length = 8) ∨ (t = .float ∧ p.length = 4)) :
    encodeScalar t (.nv p) = .ok p ∧
      ∀ parseSub rest, decodeField parseSub t.wire t (p ++ rest) = .ok (.nv p, rest) := by
  rcases ht with ⟨rfl, hlen⟩ | ⟨rfl, hlen⟩
  · exact ⟨rfl, fun _ rest => decodeField_fixed64 hlen _ rest⟩
  · exact ⟨rfl, fun _ rest => decodeField_fixed32 hlen _ rest⟩

/-! ### What a read can be -/

/-- The number that is stored for a varint read as type `t`. -/
def storedInt (t : FieldType) (raw : ℕ) : ℤ :=
  match t with
  | .sint32 => decodeZigzag32 raw
  | .sint64 => decodeZigzag64 raw
  | .int32 => if 2147483647 < raw then raw - 18446744073709551616 else raw
  | .int64 => if 9223372036854775807 < raw then raw - 18446744073709551616 else raw
  | _ => raw

theorem varintValue_isNum (t : FieldType) (raw : ℕ) :
    (varintValue t raw).IsNum (storedInt t raw) := by
  cases t with
  | sint32 => exact .inl rfl
  | int32 | int64 =>
      refine .inr ?_
      simp only [varintValue, storedInt]
      split <;> rfl
  | _ => exact .inr rfl

/-- A 64-bit read: the octets of a double, or a number that reads back. -/
theorem fixed64Value_cases {t : FieldType} {bytes : PerlStr} (ht : t.wire = 1)
    (hlen : bytes.length = 8) (ho : IsOctets bytes) :
    (t = .double ∧ fixed64Value t bytes = .nv bytes) ∨
      ∃ n, t.rereads n ∧ (fixed64Value t bytes).IsNum n := by
  have hlt : leValue bytes < 256 ^ 8 := leValue_lt hlen ho
  cases t with
  | double => exact .inl ⟨rfl, rfl⟩
  | fixed64 => exact .inr ⟨leValue bytes, ⟨by omega, by omega⟩, .inr rfl⟩
  | sfixed64 =>
      by_cases hbig : 9223372036854775807 < leValue bytes
      · refine .inr ⟨leValue bytes - 18446744073709551616, ⟨by omega, by omega⟩, .inr ?_⟩
        simp [fixed64Value, hbig]
      · refine .inr ⟨leValue bytes, ⟨by omega, by omega⟩, .inr ?_⟩
        simp [fixed64Value, hbig]
  | _ => simp [FieldType.wire] at ht

/-- A 32-bit read: the octets of a float, or a number that reads back. -/
theorem fixed32Value_cases {t : FieldType} {bytes : PerlStr} (ht : t.wire = 5)
    (hlen : bytes.length = 4) (ho : IsOctets bytes) :
    (t = .float ∧ fixed32Value t bytes = .nv bytes) ∨
      ∃ n, t.rereads n ∧ (fixed32Value t bytes).IsNum n := by
  have hlt : leValue bytes < 256 ^ 4 := leValue_lt hlen ho
  cases t with
  | float => exact .inl ⟨rfl, rfl⟩
  | fixed32 => exact .inr ⟨leValue bytes, ⟨by omega, by omega⟩, .inl rfl⟩
  | sfixed32 =>
      have hle : -(((2 ^ 32 : ℕ) : ℤ) / 2) ≤ Int.bmod (leValue bytes) (2 ^ 32) :=
        Int.le_bmod (by decide)
      have hlt' : Int.bmod (leValue bytes) (2 ^ 32) < (((2 ^ 32 : ℕ) : ℤ) + 1) / 2 :=
        Int.bmod_lt (by decide)
      exact .inr ⟨Int.bmod (leValue bytes) (2 ^ 32), ⟨by omega, by omega⟩, .inl rfl⟩
  | _ => simp [FieldType.wire] at ht

end GooglePerl.Protobuf
