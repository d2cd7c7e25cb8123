import GooglePerl.Lib.Assoc
import GooglePerl.Lib.Except
import GooglePerl.Xs.Scalar

/-!
What `JSON::MaybeXS` makes of a JSON text, and how Perl reads it: as a string, as a
number, as a truth value and as a hash.

The decoder itself is a parameter of what follows. An array or a hash comes with the
address it happens to live at, which is what Perl shows when it is read as a string or
a number; a number comes with its text.
-/

namespace GooglePerl.Auth

open GooglePerl.Lib GooglePerl.Xs
open GooglePerl.Protobuf (PerlStr ps Die)

inductive JsonValue where
  /-- `null`, and what is not there -/
  | undef
  /-- a `JSON::PP::Boolean` -/
  | bool (b : Bool)
  | num (value : FloatVal) (text : PerlStr)
  | str (s : PerlStr)
  | array (address : ℕ) (items : List JsonValue)
  | hash (address : ℕ) (entries : List (PerlStr × JsonValue))

/-- The entries of a hash. -/
abbrev Entries := List (PerlStr × JsonValue)

/-- A string in a place for a number. -/
def perlNumber (s : PerlStr) : FloatVal :=
  match integerText s with
  | some n => if -2 ^ 63 ≤ n ∧ n < 2 ^ 64 then .fin n else FloatFormat.double.round n
  | none => roundTo .double (textValue s)

/-- A reference in a place for a string. -/
def refText (type : String) (address : ℕ) : PerlStr :=
  ps type ++ ps "(0x" ++ (Nat.toDigits 16 address).map Char.toNat ++ ps ")"

namespace JsonValue

def isDefined : JsonValue → Bool
  | .undef => false
  | _ => true

/-- The value in a place for a string: a hash key, an operand of `eq`. -/
def text : JsonValue → PerlStr
  | .undef => []
  | .bool b => ps (if b then "1" else "0")
  | .num _ t => t
  | .str s => s
  | .array address _ => refText "ARRAY" address
  | .hash address _ => refText "HASH" address

/-- The value in a place for a number. -/
def number : JsonValue → FloatVal
  | .undef => .fin 0
  | .bool b => .fin (if b then 1 else 0)
  | .num value _ => value
  | .str s => perlNumber s
  | .array address _ | .hash address _ => .fin address

def isTrue : JsonValue → Bool
  | .undef => false
  | .bool b => b
  | .num value _ => value != .fin 0
  | .str s => !(s == [] || s == ps "0")
  | .array _ _ | .hash _ _ => true

/-- `$v->{...}`: undef becomes an empty hash, and anything else that is no hash dies. -/
def entries : JsonValue → Except Die Entries
  | .undef => .ok []
  | .hash _ entries => .ok entries
  | _ => .error (.fault .notReference)

/-- `ref $v eq 'ARRAY' ? @$v : ($v)` -/
def elements : JsonValue → List JsonValue
  | .array _ items => items
  | v => [v]

end JsonValue

/-- `$hash->{key}` -/
def fetch (entries : Entries) (key : String) : JsonValue :=
  (Assoc.find entries (ps key)).getD .undef

end GooglePerl.Auth
