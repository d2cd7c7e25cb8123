import GooglePerl.Protobuf.Value

/-!
`Protobuf::WKT::Struct`: JSON-like data as `Struct`, `Value` and `ListValue` messages.

The messages are filled through accessors that the class generator makes, with the checks of
`Type::Tiny` in front of the engine; `Accessors` has what they store. Numbers are those of Perl, of
which only the text and what a field keeps of them matters here.
-/

namespace GooglePerl.Wkt

open GooglePerl.Lib GooglePerl.Protobuf

/-! ### Perl data -/

inductive Tree (N : Type) where
  | undef
  /-- a core boolean, for which `JSON::MaybeXS::is_bool` holds -/
  | bool (b : Bool)
  /-- a boolean object of a JSON module: a blessed reference to a scalar -/
  | boolObject (b : Bool)
  | num (n : N)
  | str (s : PerlStr)
  | array (items : List (Tree N))
  /-- a hash, in iteration order -/
  | hash (entries : List (PerlStr × Tree N))

/-- The members of the oneof `kind` -/
inductive Kind where
  | nullValue
  | numberValue
  | stringValue
  | boolValue
  | structValue
  | listValue
  deriving DecidableEq, Repr

/-- A `Value` message: its six fields. A `Struct` is the table of its `fields`, a `ListValue` the
list of its `values`. -/
inductive Value (N : Type) where
  | mk (nullValue numberValue stringValue boolValue : Option (Tree N))
      (structValue : Option (List (PerlStr × Value N))) (listValue : Option (List (Value N)))

/-! ### Accessors -/

/-- `/^-?\d+(\.\d+)?$/`, where `$` also matches before a newline at the end -/
def numericShape (digit : ℕ → Bool) (s : PerlStr) : Bool :=
  let digits := if s.head? = some 45 then s.tail else s
  let rest := digits.dropWhile digit
  let fraction := rest.tail
  let atEnd (t : PerlStr) : Bool := t.isEmpty || t = [10]
  (digits.head?.any digit && atEnd rest) ||
    (digits.head?.any digit && rest.head? = some 46 && fraction.head?.any digit &&
      atEnd (fraction.dropWhile digit))

/-- The scalar accessors of `Value`, and what they do with the values that `from_perl` makes -/
structure Accessors (N : Type) where
  /-- the text of a number -/
  text : N → PerlStr
  /-- `\d` -/
  digit : ℕ → Bool
  /-- the numbers 1 and 0 -/
  bit : Bool → N
  /-- the Perl boolean that a `bool` field returns -/
  truth : Bool → Tree N
  /-- what a setter leaves in the field -/
  store : Kind → Tree N → Except Die (Tree N)
  store_null : (store .nullValue (.num (bit false))).isOk = true
  store_bool : ∀ b, store .boolValue (.num (bit b)) = .ok (truth b)
  store_string : ∀ s, store .stringValue (.str s) = .ok (.str s)

section

variable {N : Type} (A : Accessors N)

namespace Value

/-- `new` -/
def new : Value N := .mk none none none none none none

/-- The engine's `set`, for a field that has passed the check -/
def setScalar : Kind → Tree N → Value N → Value N
  | .nullValue, x, .mk _ n s b st l => .mk (some x) n s b st l
  | .numberValue, x, .mk z _ s b st l => .mk z (some x) s b st l
  | .stringValue, x, .mk z n _ b st l => .mk z n (some x) b st l
  | .boolValue, x, .mk z n s _ st l => .mk z n s (some x) st l
  | .structValue, _, v => v
  | .listValue, _, v => v

def setStruct (fields : List (PerlStr × Value N)) : Value N → Value N
  | .mk z n s b _ l => .mk z n s b (some fields) l

def setList (values : List (Value N)) : Value N → Value N
  | .mk z n s b st _ => .mk z n s b st (some values)

/-- The members that are set -/
def kinds : Value N → List Kind
  | .mk z n s b st l =>
      (if z.isSome then [.nullValue] else []) ++ (if n.isSome then [.numberValue] else []) ++
        (if s.isSome then [.stringValue] else []) ++ (if b.isSome then [.boolValue] else []) ++
        (if st.isSome then [.structValue] else []) ++ (if l.isSome then [.listValue] else [])

end Value

def scalarAccessor (kind : Kind) (x : Tree N) (self : Value N) : Except Die (Value N) := do
  let stored ← A.store kind x
  pure (self.setScalar kind stored)

/-! ### `from_perl` -/

/-- The member a plain number or string goes to -/
def scalarKind (text : PerlStr) : Kind :=
  if numericShape A.digit text then .numberValue else .stringValue

mutual

/-- `Value::from_perl` -/
def valueFromPerl (self : Value N) : Tree N → Except Die (Value N)
  | .undef => scalarAccessor A .nullValue (.num (A.bit false)) self
  | .hash entries =>
      match Assoc.find entries (ps "string_value") with
      | some x => scalarAccessor A .stringValue x self
      | none =>
      match Assoc.find entries (ps "number_value") with
      | some x => scalarAccessor A .numberValue x self
      | none =>
      match Assoc.find entries (ps "bool_value") with
      | some x => scalarAccessor A .boolValue x self
      | none =>
      match Assoc.find entries (ps "null_value") with
      | some x => scalarAccessor A .nullValue x self
      | none =>
      match structEntry entries with
      | some fields => fields.map self.setStruct
      | none =>
      match listEntry entries with
      | some values => values.map self.setList
      | none => (entriesFromPerl entries).map self.setStruct
  | .array items => (itemsFromPerl items).map self.setList
  -- `reftype` of the object is SCALAR, which no branch is for
  | .boolObject _ => .ok self
  | .bool b => scalarAccessor A .boolValue (.num (A.bit b)) self
  | .num n => scalarAccessor A (scalarKind A (A.text n)) (.num n) self
  | .str s => scalarAccessor A (scalarKind A s) (.str s) self

/-- `Struct::from_perl`: the new `fields` -/
def structFromPerl : Tree N → Except Die (List (PerlStr × Value N))
  | .hash entries => entriesFromPerl entries
  | _ => .error (.croak (ps "Struct::from_perl expects a HASH ref"))

/-- `ListValue::from_perl`: the new `values` -/
def listFromPerl : Tree N → Except Die (List (Value N))
  | .array items => itemsFromPerl items
  | _ => .error (.croak (ps "ListValue::from_perl expects an ARRAY ref"))

def entriesFromPerl : List (PerlStr × Tree N) → Except Die (List (PerlStr × Value N))
  | [] => .ok []
  | (key, x) :: entries => do
      let value ← valueFromPerl .new x
      let fields ← entriesFromPerl entries
      pure ((key, value) :: fields)

def itemsFromPerl : List (Tree N) → Except Die (List (Value N))
  | [] => .ok []
  | x :: items => do
      let value ← valueFromPerl .new x
      let values ← itemsFromPerl items
      pure (value :: values)

/-- The entry `struct_value`, converted -/
def structEntry : List (PerlStr × Tree N) → Option (Except Die (List (PerlStr × Value N)))
  | [] => none
  | (key, x) :: entries =>
      if key = ps "struct_value" then some (structFromPerl x) else structEntry entries

/-- The entry `list_value`, converted -/
def listEntry : List (PerlStr × Tree N) → Option (Except Die (List (Value N)))
  | [] => none
  | (key, x) :: entries =>
      if key = ps "list_value" then some (listFromPerl x) else listEntry entries

end

/-! ### `to_perl` -/

mutual

/-- `Value::to_perl`, in list context: a bare `return` gives no element. The members are asked for
in the order of their declaration. -/
def Value.toPerl : Value N → Option (Tree N)
  | .mk (some _) _ _ _ _ _ => none
  | .mk none (some x) _ _ _ _ => some x
  | .mk none none (some x) _ _ _ => some x
  | .mk none none none (some x) _ _ => some x
  | .mk none none none none (some fields) _ => some (.hash (entriesToPerl fields))
  | .mk none none none none none (some values) => some (.array (itemsToPerl values))
  | .mk none none none none none none => none

/-- `Struct::to_perl`: each call is in scalar context -/
def entriesToPerl : List (PerlStr × Value N) → List (PerlStr × Tree N)
  | [] => []
  | (key, v) :: fields => (key, v.toPerl.getD .undef) :: entriesToPerl fields

/-- `ListValue::to_perl`: each call is in list context -/
def itemsToPerl : List (Value N) → List (Tree N)
  | [] => []
  | v :: values => v.toPerl.toList ++ itemsToPerl values

end

end

end GooglePerl.Wkt
