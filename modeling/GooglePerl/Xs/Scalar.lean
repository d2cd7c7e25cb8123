import GooglePerl.Lib.FloatFormat
import GooglePerl.Lib.Utf8
import GooglePerl.Protobuf.Access

/-!
Perl scalars as C code sees them: which of a scalar's values are valid
(`SvIOK`, `SvNOK`, `SvPOK`, `SvROK`) and what `SvIV`, `SvUV`, `SvNV` and
`SvTRUE` make of it, on a perl with 64-bit integers and IEEE doubles.
-/

namespace GooglePerl.Xs

open GooglePerl.Lib GooglePerl.Protobuf

inductive Scalar where
  | undef
  /-- an integer that fits an `IV` -/
  | iv (n : ℤ)
  /-- one above `IV_MAX` (`SvIsUV`) -/
  | uv (n : ℕ)
  | nv (v : FloatVal)
  /-- a string: its octets, and whether they are UTF-8 of the characters -/
  | str (pv : PerlStr) (utf8 : Bool)
  /-- a copy of `PL_sv_yes` or `PL_sv_no`, which is integer, number and string -/
  | yesNo (b : Bool)
  /-- a reference to a `Math::BigInt` -/
  | big (n : ℤ)
  /-- any other reference, by its address -/
  | ref (address : ℕ)
  deriving DecidableEq

/-- The characters blank to a C program: `isspace`. -/
def isSpace (c : ℕ) : Bool := c == 32 || (9 ≤ c && c ≤ 13)

theorem isSpace_of_isDigit {c : ℕ} (h : isDigit c = true) : isSpace c = false := by
  simp only [isDigit, Bool.and_eq_true, decide_eq_true_eq] at h
  have hne : c ≠ 32 := by omega
  have hgt : ¬ c ≤ 13 := by omega
  simp [isSpace, hne, hgt]

/-- The value of a run of digits. -/
def digitsValue (digits : PerlStr) : ℕ := digits.foldl (fun acc c => 10 * acc + (c - 48)) 0

/-- A sign, if there is one, and the rest. -/
def splitSign : PerlStr → Bool × PerlStr
  | 45 :: s => (true, s)
  | 43 :: s => (false, s)
  | s => (false, s)

def applySign (negative : Bool) (n : ℤ) : ℤ := if negative then -n else n

/-- The number that starts a text, as `Atof` reads it, before it is rounded: 0
when there is none. -/
def textValue (s : PerlStr) : FloatVal :=
  let (negative, body) := splitSign (s.dropWhile isSpace)
  let lower := body.map fun c => if 65 ≤ c && c ≤ 90 then c + 32 else c
  if (ps "inf").isPrefixOf lower then .inf negative
  else if (ps "nan").isPrefixOf lower then .nan
  else
    let whole := body.takeWhile isDigit
    let (fraction, rest) := match body.dropWhile isDigit with
      | 46 :: t => (t.takeWhile isDigit, t.dropWhile isDigit)
      | t => ([], t)
    -- no `e`, or no digits behind it: the exponent is 0
    let exponent : ℤ := match rest with
      | 101 :: t | 69 :: t =>
          let (negative, t) := splitSign t
          applySign negative (digitsValue (t.takeWhile isDigit))
      | _ => 0
    let mantissa := applySign negative (digitsValue (whole ++ fraction))
    .fin (mantissa * 10 ^ (exponent - fraction.length))

/-- The integer that a text is, apart from blanks around it: `grok_number`. -/
def integerText (s : PerlStr) : Option ℤ :=
  readDecimal ((s.dropWhile isSpace).reverse.dropWhile isSpace).reverse

/-- The integer that starts a text, as `strtoll` and `strtoull` read it, without
their bounds. -/
def cIntegerPrefix (s : PerlStr) : ℤ :=
  let (negative, body) := splitSign (s.dropWhile isSpace)
  applySign negative (digitsValue (body.takeWhile isDigit))

/-- Rounding to a C floating-point type. -/
def roundTo (F : FloatFormat) : FloatVal → FloatVal
  | .fin q => F.round q
  | v => v

/-- The integer part. -/
def truncate (q : ℚ) : ℤ := if 0 ≤ q then ⌊q⌋ else ⌈q⌉

/-- The `IV` or `UV` of a double: `I_V` and `U_V`, which stop at the ends. -/
def nvInteger : FloatVal → ℤ
  | .nan => 0
  | .inf negative => if negative then -2 ^ 63 else 2 ^ 64 - 1
  | .fin q => max (-2 ^ 63) (min (truncate q) (2 ^ 64 - 1))

/-- `(int64_t)` of a double: what the processor gives outside the range. -/
def castInt64 : FloatVal → ℤ
  | .fin q => if -2 ^ 63 ≤ truncate q ∧ truncate q < 2 ^ 63 then truncate q else -2 ^ 63
  | _ => -2 ^ 63

/-- `(uint64_t)` of a double. -/
def castUint64 : FloatVal → ℤ
  | .fin q => if -2 ^ 63 ≤ truncate q ∧ truncate q < 2 ^ 64 then truncate q % 2 ^ 64 else 2 ^ 63
  | _ => 2 ^ 63

/-- `sv_utf8_downgrade`: the octets that a UTF-8 text stands for, if they are. -/
def downgrade : PerlStr → Option PerlStr
  | [] => some []
  | [c] => if c < 0x80 then some [c] else none
  | c :: d :: s =>
      if c < 0x80 then (downgrade (d :: s)).map (c :: ·)
      else if c = 0xC2 ∨ c = 0xC3 then (downgrade s).map (((c - 0xC0) * 64 + (d - 0x80)) :: ·)
      else none

namespace Scalar

/-- `SvIOK` -/
def iok : Scalar → Bool
  | .iv _ | .uv _ | .yesNo _ => true
  | _ => false

/-- `SvROK` -/
def rok : Scalar → Bool
  | .big _ | .ref _ => true
  | _ => false

/-- `SvUOK` -/
def uok : Scalar → Bool
  | .uv _ => true
  | _ => false

/-- `SvNOK` -/
def nok : Scalar → Bool
  | .nv _ | .yesNo _ => true
  | _ => false

/-- `SvPOK` -/
def pok : Scalar → Bool
  | .str _ _ | .yesNo _ => true
  | _ => false

/-- The octets of the string value. -/
def pv : Scalar → PerlStr
  | .str pv _ => pv
  | .yesNo b => if b then ps "1" else []
  | _ => []

/-- `SvIOK(sv) || SvNOK(sv) || (SvPOK(sv) && looks_like_number(sv))` -/
def isNumeric (x : Scalar) : Bool := x.iok || x.nok || (x.pok && looksLikeNumber x.pv)

/-- `SvNV` -/
def svNV : Scalar → FloatVal
  | .undef => .fin 0
  | .iv n => FloatFormat.double.round n
  | .uv n => FloatFormat.double.round n
  | .nv v => v
  | .str pv _ => roundTo .double (textValue pv)
  | .yesNo b => .fin (if b then 1 else 0)
  | .big n => FloatFormat.double.round n
  | .ref address => FloatFormat.double.round address

/-- The integer value of a scalar, an `IV` or a `UV`. -/
def integer : Scalar → ℤ
  | .undef => 0
  | .iv n => n
  | .uv n => n
  | .nv v => nvInteger v
  | .str pv _ =>
      match integerText pv with
      | some n => if n < 2 ^ 64 then max (-2 ^ 63) n else nvInteger (FloatFormat.double.round n)
      | none => nvInteger (roundTo .double (textValue pv))
  | .yesNo b => if b then 1 else 0
  | .big n =>
      if -2 ^ 63 ≤ n ∧ n < 2 ^ 64 then n else nvInteger (FloatFormat.double.round n)
  | .ref address => address

/-- `SvIV` -/
def svIV : Scalar → ℤ
  | .iv n => n
  | x => Int.bmod x.integer (2 ^ 64)

/-- `SvUV` -/
def svUV (x : Scalar) : ℤ := x.integer % 2 ^ 64

/-- `SvTRUE` -/
def svTRUE : Scalar → Bool
  | .undef => false
  | .iv n => n != 0
  | .uv n => n != 0
  | .nv v => v != .fin 0
  | .str pv _ => !(pv == [] || pv == ps "0")
  | .yesNo b => b
  | .big n => n != 0
  | .ref _ => true

/-- `SvPVutf8` -/
def svPVutf8 : Scalar → PerlStr
  | .str pv utf8 => if utf8 then pv else utf8Text pv
  | x => x.pv

/-- `SvPVbyte`, which croaks on a character that is not an octet. -/
def svPVbyte : Scalar → Option PerlStr
  | .str pv utf8 => if utf8 then downgrade pv else some pv
  | x => some x.pv

/-- `PerlUpb_SVToI64` -/
def svToI64 (x : Scalar) : ℤ :=
  let bounded (n : ℤ) := max (-2 ^ 63) (min n (2 ^ 63 - 1))
  if x.iok then x.svIV
  else
    match x with
    | .big n => bounded n
    | .str pv _ => bounded (cIntegerPrefix pv)
    | x => castInt64 x.svNV

/-- `PerlUpb_SVToU64`; `strtoull` takes a minus sign modulo 2^64. -/
def svToU64 (x : Scalar) : ℤ :=
  let bounded (n : ℤ) := if |n| < 2 ^ 64 then n % 2 ^ 64 else 2 ^ 64 - 1
  if x.iok then x.svUV
  else
    match x with
    | .big n => bounded n
    | .str pv _ => bounded (cIntegerPrefix pv)
    | x => castUint64 x.svNV

end Scalar

end GooglePerl.Xs
