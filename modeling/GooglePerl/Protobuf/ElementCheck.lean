import GooglePerl.Protobuf.ParseLoop

/-!
The type that the elements of a repeated field have to be of: `_get_type_tiny_code`
of `Protobuf::ClassGenerator` and the range that `TIEARRAY` adds, with the types of
`Types::Standard` as that module documents them. Which records of an input decode
to an element that passes is a matter of the record (`decodeField_passes`).
-/

namespace GooglePerl.Protobuf

open GooglePerl.Lib

/-- The types that occur in the generated code. -/
inductive TypeCode where
  | any
  | num
  | int
  | bool
  | str
  /-- `InstanceOf['Math::BigInt']` -/
  | bigInt
  /-- `InstanceOf` a message class -/
  | instanceOf (cls : String)
  | union (a b : TypeCode)
  deriving DecidableEq, Repr

/-- `_get_type_tiny_code`, without the `ArrayRef` that `TIEARRAY` takes off again.
The lists of the source leave out FIXED64. -/
def typeTinyCode : FieldType → TypeCode
  | .double | .float => .num
  | .int64 | .uint64 | .sfixed64 | .sint64 => .union .int (.union .str .bigInt)
  | .int32 | .fixed32 | .uint32 | .sfixed32 | .sint32 => .int
  | .bool => .bool
  | .string | .bytes => .str
  | .enum _ => .union .int .str
  | .message c => .instanceOf c
  | .fixed64 => .any

/-- The `where` clauses of `TIEARRAY`. -/
def whereRange : FieldType → Option (ℤ × ℤ)
  | .int32 | .sfixed32 | .sint32 => some (-2147483648, 2147483647)
  | .uint32 | .fixed32 => some (0, 4294967295)
  | _ => none

/-- `/\A-?[0-9]+\z/` -/
def isIntText : PerlStr → Bool
  | 45 :: s => !s.isEmpty && s.all isDigit
  | s => !s.isEmpty && s.all isDigit

section

-- the integer that the text of a double is, if it is one
variable (whole : PerlStr → Option ℤ)

/-- The integer that a scalar is, for `Int`. -/
def intValue : Val → Option ℤ
  | .iv n => some n
  | .nv p => whole p
  | .str s => if isIntText s then readDecimal s else none
  | _ => none

/-- The check of a type. Only `Any` and `Bool` take `undef`, and no type of scalars
takes a reference. -/
def TypeCode.check : TypeCode → Val → Bool
  | .any, _ => true
  | .num, .iv _ | .num, .nv _ => true
  | .num, .str s => looksLikeNumber s
  | .int, v => (intValue whole v).isSome
  | .bool, .undef => true
  | .bool, .str s => s == [] || s == ps "0" || s == ps "1"
  | .bool, .iv n => n == 0 || n == 1
  | .bool, .nv p => whole p == some 0 || whole p == some 1
  | .str, .iv _ | .str, .nv _ | .str, .str _ => true
  | .bigInt, .big _ => true
  | .instanceOf c, .msg c' _ _ => c' == c
  | .union a b, v => a.check v || b.check v
  | _, _ => false

/-- What `$self->{check}` says of an element. -/
def elementCheck (t : FieldType) (v : Val) : Bool :=
  (typeTinyCode t).check whole v &&
    match whereRange t with
    | none => true
    | some (lo, hi) => (intValue whole v).any fun n => lo ≤ n && n ≤ hi

/-- A clone is of the same types. -/
theorem elementCheck_deepClone (t : FieldType) (v : Val) :
    elementCheck whole t (deepClone v) = elementCheck whole t v := by
  cases v with
  | arr kind xs => cases kind <;> rw [deepClone] <;> cases t <;> rfl
  | hash es =>
      rw [deepClone]
      cases t <;> rfl
  | msg c fs u =>
      rw [deepClone]
      cases t <;> rfl
  | _ => rw [deepClone]

/-! ### Records that decode to an element that passes -/

/-- The types that a `Math::BigInt` is of, which is what a varint becomes. -/
def takesBigInt : FieldType → Bool
  | .int64 | .uint64 | .sfixed64 | .sint64 | .fixed64 => true
  | _ => false

/-- The types that `undef` is of. -/
def takesUndef : FieldType → Bool
  | .bool | .fixed64 => true
  | _ => false

/-- Whether an element passes that was decoded from what follows a tag. For the wire
type that belongs to the field this leaves out `int32`, `uint32`, `bool` and
enums. -/
def recordPasses (t : FieldType) (wire : ℕ) (payload : PerlStr) : Bool :=
  match wire, t with
  | 0, .sint32 => true
  | 0, t => takesBigInt t
  | 1, .double => true
  | 1, t => takesBigInt t
  | 2, .message _ => true
  | 2, t =>
      match decodeVarint payload with
      | .ok (len, rest) => elementCheck whole t (.str (rest.take len))
      | .error _ => true
  | 5, .float => true
  | 5, .sfixed32 => true
  | 5, t => elementCheck whole t (.iv (leValue (payload.take 4)))
  | _, t => takesUndef t

theorem elementCheck_big (t : FieldType) (n : ℤ) :
    elementCheck whole t (.big n) = takesBigInt t := by
  cases t <;> rfl

theorem elementCheck_undef (t : FieldType) : elementCheck whole t .undef = takesUndef t := by
  cases t <;> rfl

theorem elementCheck_int32 {t : FieldType} (ht : whereRange t = some (-2147483648, 2147483647))
    {n : ℤ} (hlo : -2 ^ 31 ≤ n) (hhi : n < 2 ^ 31) : elementCheck whole t (.iv n) = true := by
  have hcode : typeTinyCode t = .int := by cases t <;> first | rfl | cases ht
  have hrange : -2147483648 ≤ n ∧ n ≤ 2147483647 := by omega
  simp [elementCheck, hcode, TypeCode.check, intValue, ht, hrange]

theorem packLong_range (n : ℤ) : -2 ^ 31 ≤ packLong n ∧ packLong n < 2 ^ 31 := by
  have hlo := Int.le_bmod (x := n) (m := 2 ^ 32) (by norm_num)
  have hhi := Int.bmod_lt (x := n) (m := 2 ^ 32) (by norm_num)
  unfold packLong
  split
  · decide
  · split
    · decide
    · omega

theorem elementCheck_varintValue (t : FieldType) (n : ℕ) (payload : PerlStr) :
    elementCheck whole t (varintValue t n) = recordPasses whole t 0 payload := by
  cases t with
  | sint32 =>
      obtain ⟨hlo, hhi⟩ := packLong_range (decodeZigzag64 n)
      exact elementCheck_int32 whole rfl hlo hhi
  | int32 | int64 =>
      simp only [varintValue]
      split <;> exact elementCheck_big whole _ _
  | _ => exact elementCheck_big whole _ _

theorem elementCheck_fixed64Value (t : FieldType) (bytes payload : PerlStr) :
    elementCheck whole t (fixed64Value t bytes) = recordPasses whole t 1 payload := by
  cases t with
  | double => rfl
  | sfixed64 =>
      simp only [fixed64Value]
      split <;> exact elementCheck_big whole _ _
  | _ => exact elementCheck_big whole _ _

theorem elementCheck_fixed32Value (t : FieldType) (payload : PerlStr) :
    elementCheck whole t (fixed32Value t (payload.take 4)) = recordPasses whole t 5 payload := by
  cases t with
  | sfixed32 =>
      have hlo := Int.le_bmod (x := leValue (payload.take 4)) (m := 2 ^ 32) (by norm_num)
      have hhi := Int.bmod_lt (x := leValue (payload.take 4)) (m := 2 ^ 32) (by norm_num)
      exact elementCheck_int32 whole rfl (by omega) (by omega)
  | _ => rfl

/-- What is decoded passes exactly if the record is one of those. -/
theorem decodeField_passes {parseSub : String → PerlStr → Except Die Msg}
    (hsub : ∀ c bytes m, parseSub c bytes = .ok m → m.cls = c) {wire : ℕ} {t : FieldType}
    {payload rest : PerlStr} {v : Val} (h : decodeField parseSub wire t payload = .ok (v, rest)) :
    elementCheck whole t v = recordPasses whole t wire payload := by
  cases decodeField_eq_ok.mp h with
  | @varint n => exact elementCheck_varintValue whole t n payload
  | fixed64 => exact elementCheck_fixed64Value whole t _ payload
  | @message c _ _ m ht _ _ hparse =>
      subst ht
      obtain rfl := hsub c _ m hparse
      simp [elementCheck, typeTinyCode, TypeCode.check, whereRange, Msg.toVal, recordPasses]
  | text ht hread =>
      cases t with
      | message c => exact absurd rfl (ht c)
      | _ => simp only [recordPasses, hread]
  | fixed32 => exact elementCheck_fixed32Value whole t payload
  | other h0 h1 h2 h5 =>
      rw [elementCheck_undef]
      unfold recordPasses
      split
      · exact absurd rfl h0
      · exact absurd rfl h0
      · exact absurd rfl h1
      · exact absurd rfl h1
      · exact absurd rfl h2
      · exact absurd rfl h2
      · exact absurd rfl h5
      · exact absurd rfl h5
      · exact absurd rfl h5
      · rfl

end

end GooglePerl.Protobuf
