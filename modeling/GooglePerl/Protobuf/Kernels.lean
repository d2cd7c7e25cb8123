import GooglePerl.Lib.Leb128
import GooglePerl.Lib.Zigzag
import GooglePerl.Lib.FixedWidth
import GooglePerl.Protobuf.Schema

/-!
The varint, zigzag and fixed-width kernels of `Protobuf::Engine::PurePerl`.

`Math::BigInt` numbers are integers, with `none` for a NaN. A read position
in a string is represented by the characters still unread.
-/

namespace GooglePerl.Protobuf

open GooglePerl.Lib

/-- The text of every croak about the input of `parse`. -/
def malformed : Die :=
  .croak (ps "Failed to parse message: Protobuf wire format is malformed or corrupt")

/-- The loop of `_encode_varint` on a non-negative number. -/
def encodeVarintLoop (v : ℕ) : PerlStr :=
  if 128 ≤ v then ((v &&& 0x7f) ||| 0x80) :: encodeVarintLoop (v >>> 7) else [v]
termination_by v
decreasing_by
  rw [shiftRight_7]
  omega

/-- `_encode_varint`. A number still negative after 2^64 is added falls through
the loop, and `chr` of a negative number is U+FFFD; a NaN satisfies the loop
condition and `chr` refuses it. -/
def encodeVarint : Option ℤ → Except Die PerlStr
  | none => .error (.fault .nan)
  | some v =>
      let v := if v < 0 then 18446744073709551616 + v else v
      if v < 0 then .ok [0xFFFD] else .ok (encodeVarintLoop v.toNat)

/-- The loop of `_decode_varint`, at the current `$val` and `$shift`. -/
def decodeVarintLoop (val shift : ℕ) : PerlStr → Except Die (ℕ × PerlStr)
  | [] => .error malformed
  | byte :: rest =>
      let val := val ||| ((byte &&& 0x7f) <<< shift)
      if byte &&& 0x80 = 0 then .ok (val, rest)
      else if 70 ≤ shift + 7 then .error malformed
      else decodeVarintLoop val (shift + 7) rest

/-- `_decode_varint`: the value and the unread rest. -/
def decodeVarint (data : PerlStr) : Except Die (ℕ × PerlStr) := decodeVarintLoop 0 0 data

/-- `_encode_zigzag32` -/
def encodeZigzag32 (v : ℤ) : ℤ :=
  Int.land (Int.xor (v <<< (1 : ℕ)) (v >>> (31 : ℕ))) 0xFFFFFFFF

/-- `unpack('l', pack('l', n))` with 64-bit integers: what does not fit an
unsigned or signed 64-bit integer saturates before the low 32 bits are taken. -/
def packLong (n : ℤ) : ℤ :=
  if 2 ^ 64 ≤ n then -1 else if n < -2 ^ 63 then 0 else Int.bmod n (2 ^ 32)

/-- `_decode_zigzag64` -/
def decodeZigzag64 (v : ℤ) : ℤ := Int.xor (v >>> (1 : ℕ)) (-(Int.land v 1))

/-- `_decode_zigzag32` -/
def decodeZigzag32 (v : ℤ) : ℤ := packLong (decodeZigzag64 v)

/-- `_encode_zigzag64` -/
def encodeZigzag64 (v : ℤ) : ℤ := Int.xor (v <<< (1 : ℕ)) (v >>> (63 : ℕ))

/-- The text `as_hex` gives, with `s/^0x//` applied: a minus sign keeps the mark. -/
def asHex : Option ℤ → PerlStr
  | none => ps "NaN"
  | some (.ofNat n) => hexText n
  | some (.negSucc n) => ps "-0x" ++ hexText (n + 1)

/-- The 64-bit branch of `_encode_field` for integers. -/
def encodeFixed64 (v : Option ℤ) : PerlStr :=
  let v := v.map fun n => if n < 0 then n + 18446744073709551616 else n
  (packNibbles ((padHex (asHex v)).map hexNibble)).reverse

/-- The 32-bit branch of `_encode_field` for integers. -/
def encodeFixed32 : Option ℤ → Except Die PerlStr
  | none => .error (.fault .nan)
  | some v =>
      let v := if v < 0 then v + 4294967296 else v
      .ok (leBytes 4 (v % 2 ^ 32).toNat)

/-! ### Varints -/

theorem encodeVarintLoop_eq (v : ℕ) : encodeVarintLoop v = leb128 v := by
  induction v using encodeVarintLoop.induct with
  | case1 v h ih =>
      rw [encodeVarintLoop, if_pos h, ih, leb128_of_ge h, and_127, shiftRight_7,
        or_128_of_lt (Nat.mod_lt v (by decide))]
  | case2 v h => rw [encodeVarintLoop, if_neg h, leb128_of_lt (by omega)]

/-- The number a varint carries for an integer: itself, or its 64-bit two's
complement. -/
def varintOf (v : ℤ) : ℕ := (if v < 0 then 18446744073709551616 + v else v).toNat

theorem encodeVarint_some {v : ℤ} (h : -2 ^ 64 ≤ v) :
    encodeVarint (some v) = .ok (leb128 (varintOf v)) := by
  unfold encodeVarint varintOf
  simp only [encodeVarintLoop_eq]
  rw [if_neg]
  split <;> omega

/-- A varint carries an integer modulo `2 ^ 64`. -/
theorem varintOf_eq_emod {n : ℤ} (hlo : -2 ^ 64 ≤ n) (hhi : n < 2 ^ 64) :
    varintOf n = (n % 2 ^ 64).toNat := by
  unfold varintOf
  split <;> omega

theorem encodeVarint_nat (n : ℕ) : encodeVarint (some (n : ℤ)) = .ok (leb128 n) := by
  have hn : ¬ ((n : ℤ) < 0) := by omega
  rw [encodeVarint_some (by omega)]
  simp [varintOf, hn]

/-- Reading a varint back, at any point of the loop. -/
theorem decodeVarintLoop_leb128 (n : ℕ) (val shift : ℕ) (rest : PerlStr)
    (hval : val < 2 ^ shift) (hdvd : 7 ∣ shift) (hshift : shift ≤ 63)
    (hn : n < 2 ^ (70 - shift)) :
    decodeVarintLoop val shift (leb128 n ++ rest) = .ok (val + n * 2 ^ shift, rest) := by
  induction n using leb128.induct generalizing val shift with
  | case1 n h =>
      rw [leb128_of_lt h, List.singleton_append, decodeVarintLoop]
      simp only [and_127, and_128_of_lt h, if_true, Nat.mod_eq_of_lt h, or_shiftLeft_of_lt hval]
  | case2 n h ih =>
      have hgroup : n % 128 < 128 := Nat.mod_lt n (by decide)
      have hroom : shift + 7 < 70 := by
        by_contra hge
        have hs : shift = 63 := by omega
        subst hs
        omega
      obtain ⟨r, hr⟩ : ∃ r, 70 - shift = r + 7 := ⟨63 - shift, by omega⟩
      have hdiv : n / 128 < 2 ^ (70 - (shift + 7)) := by
        rw [show 70 - (shift + 7) = r by omega, Nat.div_lt_iff_lt_mul (by decide)]
        rw [hr, Nat.pow_add] at hn
        simpa using hn
      have hval' : val + n % 128 * 2 ^ shift < 2 ^ (shift + 7) := by
        have hstep : (n % 128 + 1) * 2 ^ shift ≤ 128 * 2 ^ shift :=
          Nat.mul_le_mul_right _ hgroup
        rw [Nat.add_mul, Nat.one_mul] at hstep
        rw [Nat.pow_add, show (2 : ℕ) ^ 7 = 128 from rfl, Nat.mul_comm (2 ^ shift)]
        omega
      rw [leb128_of_ge (by omega), List.cons_append, decodeVarintLoop]
      have hlow : (n % 128 + 128) &&& 0x7f = n % 128 := by
        rw [and_127]
        omega
      simp only [hlow, and_128_of_add hgroup, or_shiftLeft_of_lt hval]
      rw [if_neg (by decide), if_neg (by omega),
        ih _ (shift + 7) hval' (by omega) (by omega) hdiv]
      have hsum : val + n % 128 * 2 ^ shift + n / 128 * 2 ^ (shift + 7) = val + n * 2 ^ shift := by
        rw [Nat.pow_add, show (2 : ℕ) ^ 7 = 128 from rfl]
        calc val + n % 128 * 2 ^ shift + n / 128 * (2 ^ shift * 128)
            = val + (128 * (n / 128) + n % 128) * 2 ^ shift := by ring
          _ = val + n * 2 ^ shift := by rw [Nat.div_add_mod]
      rw [hsum]

theorem decodeVarint_leb128 {n : ℕ} (h : n < 2 ^ 70) (rest : PerlStr) :
    decodeVarint (leb128 n ++ rest) = .ok (n, rest) := by
  have hread := decodeVarintLoop_leb128 n 0 0 rest (by simp) (by simp) (by omega) h
  simpa [decodeVarint] using hread

/-- What a varint read can be: a non-empty prefix of at most ten characters. -/
theorem decodeVarintLoop_ok {data : PerlStr} {val shift v : ℕ} {rest : PerlStr}
    (hshift : shift ≤ 63) (hdvd : 7 ∣ shift)
    (h : decodeVarintLoop val shift data = .ok (v, rest)) :
    ∃ used, data = used ++ rest ∧ 0 < used.length ∧ 7 * used.length + shift ≤ 70 := by
  induction data generalizing val shift with
  | nil => cases h
  | cons byte data ih =>
      rw [decodeVarintLoop] at h
      split at h
      · obtain ⟨-, rfl⟩ := Prod.mk.inj (Except.ok.inj h)
        exact ⟨[byte], rfl, by simp, by simp; omega⟩
      · split at h
        · cases h
        · obtain ⟨used, rfl, -, hbound⟩ := ih (by omega) (by omega) h
          exact ⟨byte :: used, rfl, by simp, by simp; omega⟩

theorem decodeVarint_ok {data : PerlStr} {v : ℕ} {rest : PerlStr}
    (h : decodeVarint data = .ok (v, rest)) :
    ∃ used, data = used ++ rest ∧ 0 < used.length ∧ used.length ≤ 10 := by
  obtain ⟨used, hdata, hpos, hle⟩ := decodeVarintLoop_ok (by omega) (by simp) h
  exact ⟨used, hdata, hpos, by omega⟩

/-- A varint read dies with one text. -/
theorem decodeVarintLoop_error {data : PerlStr} {val shift : ℕ} {e : Die}
    (h : decodeVarintLoop val shift data = .error e) : e = malformed := by
  induction data generalizing val shift with
  | nil => exact (Except.error.inj h).symm
  | cons byte data ih =>
      rw [decodeVarintLoop] at h
      split at h
      · cases h
      · split at h
        · exact (Except.error.inj h).symm
        · exact ih h

/-- Ten groups of seven bits: no varint read exceeds 70 bits. -/
theorem decodeVarintLoop_lt {data : PerlStr} {val shift v : ℕ} {rest : PerlStr}
    (hval : val < 2 ^ shift) (hdvd : 7 ∣ shift) (hshift : shift ≤ 63)
    (h : decodeVarintLoop val shift data = .ok (v, rest)) : v < 2 ^ 70 := by
  induction data generalizing val shift with
  | nil => cases h
  | cons byte data ih =>
      have hgroup : byte % 128 < 128 := Nat.mod_lt byte (by decide)
      have hval' : val + byte % 128 * 2 ^ shift < 2 ^ (shift + 7) := by
        have hstep : (byte % 128 + 1) * 2 ^ shift ≤ 128 * 2 ^ shift :=
          Nat.mul_le_mul_right _ hgroup
        rw [Nat.add_mul, Nat.one_mul] at hstep
        rw [Nat.pow_add, show (2 : ℕ) ^ 7 = 128 from rfl, Nat.mul_comm (2 ^ shift)]
        omega
      rw [decodeVarintLoop] at h
      simp only [and_127, or_shiftLeft_of_lt hval] at h
      split at h
      · obtain ⟨rfl, -⟩ := Prod.mk.inj (Except.ok.inj h)
        exact lt_of_lt_of_le hval' (Nat.pow_le_pow_right (by decide) (by omega))
      · split at h
        · cases h
        · exact ih hval' (by omega) (by omega) h

theorem decodeVarint_lt {data : PerlStr} {v : ℕ} {rest : PerlStr}
    (h : decodeVarint data = .ok (v, rest)) : v < 2 ^ 70 :=
  decodeVarintLoop_lt (by simp) (by simp) (by omega) h

/-- A varint read does not look past the varint. -/
theorem decodeVarintLoop_append {data : PerlStr} {val shift v : ℕ} {rest : PerlStr}
    (h : decodeVarintLoop val shift data = .ok (v, rest)) (ext : PerlStr) :
    decodeVarintLoop val shift (data ++ ext) = .ok (v, rest ++ ext) := by
  induction data generalizing val shift with
  | nil => cases h
  | cons byte data ih =>
      rw [decodeVarintLoop] at h
      rw [List.cons_append, decodeVarintLoop]
      split at h
      · rename_i hlast
        obtain ⟨rfl, rfl⟩ := Prod.mk.inj (Except.ok.inj h)
        rw [if_pos hlast]
      · rename_i hmore
        rw [if_neg hmore]
        split at h
        · cases h
        · rename_i hroom
          rw [if_neg hroom]
          exact ih h

theorem decodeVarint_append {data : PerlStr} {v : ℕ} {rest : PerlStr}
    (h : decodeVarint data = .ok (v, rest)) (ext : PerlStr) :
    decodeVarint (data ++ ext) = .ok (v, rest ++ ext) :=
  decodeVarintLoop_append h ext

/-- The characters a varint read consumes are a varint by themselves. -/
theorem decodeVarintLoop_split {data : PerlStr} {val shift v : ℕ} {rest : PerlStr}
    (h : decodeVarintLoop val shift data = .ok (v, rest)) :
    ∃ used, data = used ++ rest ∧ decodeVarintLoop val shift used = .ok (v, []) := by
  induction data generalizing val shift with
  | nil => cases h
  | cons byte data ih =>
      rw [decodeVarintLoop] at h
      split at h
      · rename_i hlast
        obtain ⟨rfl, rfl⟩ := Prod.mk.inj (Except.ok.inj h)
        exact ⟨[byte], rfl, by simp [decodeVarintLoop, hlast]⟩
      · rename_i hmore
        split at h
        · cases h
        · rename_i hroom
          obtain ⟨used, rfl, hused⟩ := ih h
          refine ⟨byte :: used, rfl, ?_⟩
          rw [decodeVarintLoop, if_neg hmore, if_neg hroom, hused]

theorem decodeVarint_split {data : PerlStr} {v : ℕ} {rest : PerlStr}
    (h : decodeVarint data = .ok (v, rest)) :
    ∃ used, data = used ++ rest ∧ decodeVarint used = .ok (v, []) :=
  decodeVarintLoop_split h

theorem decodeVarint_length {data : PerlStr} {v : ℕ} {rest : PerlStr}
    (h : decodeVarint data = .ok (v, rest)) : rest.length < data.length := by
  obtain ⟨used, rfl, hpos, -⟩ := decodeVarint_ok h
  simp only [List.length_append]
  omega

end GooglePerl.Protobuf
