import GooglePerl.Lib.Except
import GooglePerl.Protobuf.Kernels

/-!
`serialize` and `_encode_field` of `Protobuf::Engine::PurePerl`.

The source walks the fields of the descriptor and looks each one up in the
message; recursion over a value wants its stored entries walked instead. So
every stored value is encoded where it stands (`fieldChunks`) and `assemble`
walks the descriptor and picks the chunks up by name. `serialize_eq` states
the loop the way the source has it.
-/

namespace GooglePerl.Protobuf

open GooglePerl.Lib

/-- A tag followed by a payload: `_encode_varint(($tag << 3) | $wire)` and the rest. -/
def tagged (number wire : ℕ) (payload : Except Die PerlStr) : Except Die PerlStr := do
  let tag ← encodeVarint (some ((number <<< 3) ||| wire : ℕ))
  let bytes ← payload
  return tag ++ bytes

/-- A length prefix followed by the bytes counted. -/
def lengthPrefixed (bytes : PerlStr) : Except Die PerlStr := do
  let len ← encodeVarint (some bytes.length)
  return len ++ bytes

/-- `pack('d', $val)` and `pack('f', $val)`. -/
def packFloat (width : ℕ) : Val → Except Die PerlStr
  | .undef => .ok (List.replicate width 0)
  | .nv p => .ok p
  | _ => .error (.fault .floating)

/-- The varint branch of `_encode_field`: the number handed to `_encode_varint`. -/
def varintNumber : FieldType → ℤ → ℤ
  | .sint32, n => encodeZigzag32 n
  | .sint64, n => encodeZigzag64 n
  | _, n => n

/-- `_encode_field` after the tag, for everything but a message object in a
message field. -/
def encodeScalar (t : FieldType) (val : Val) : Except Die PerlStr :=
  match t with
  | .int64 | .uint64 | .int32 | .bool | .uint32 | .enum _ | .sint32 | .sint64 => do
      let v ← val.bigInt
      encodeVarint (v.map (varintNumber t))
  | .double => packFloat 8 val
  | .fixed64 | .sfixed64 => do
      let v ← val.bigInt
      return encodeFixed64 v
  | .string | .bytes => do
      let s ← val.stringify
      lengthPrefixed s
  -- a value that is no object has no method `serialize`
  | .message _ => .error (.fault (.noMethod "serialize"))
  | .float => packFloat 4 val
  | .fixed32 | .sfixed32 => do
      let v ← val.bigInt
      encodeFixed32 v

/-- The names of the required fields that are missing or undefined. -/
def missingRequired (d : MessageDef) (fields : List (PerlStr × Val)) : List PerlStr :=
  (d.fields.filter fun f =>
    f.label == .required && !((Assoc.find fields f.name).any Val.isDefined)).map FieldDef.name

/-- `join(", ", @names)` -/
def joinNames (names : List PerlStr) : PerlStr := (ps ", ").intercalate names

/-- The required-field check and the loop over the descriptor's fields, given
the encoding of each stored value. -/
def assemble (d : MessageDef) (fields : List (PerlStr × Val))
    (chunks : List (PerlStr × Except Die PerlStr)) (unknown : Option PerlStr) :
    Except Die PerlStr :=
  let missing := missingRequired d fields
  if missing ≠ [] then
    .error (.croak (ps "Failed to serialize: Missing required fields: " ++ joinNames missing))
  else do
    let parts ← d.fields.mapM fun f => (Assoc.find chunks f.name).getD (.ok [])
    return parts.flatten ++ unknown.getD []

mutual

/-- `_encode_field` after the tag. -/
def encodePayload (S : Pool) (t : FieldType) : Val → Except Die PerlStr
  | .msg cls fields unknown =>
      match t with
      | .message _ => do
          let inner ←
            assemble (S.descriptor cls) fields (fieldChunks S (S.descriptor cls) fields) unknown
          lengthPrefixed inner
      | t => encodeScalar t (.msg cls fields unknown)
  | val => encodeScalar t val

/-- The `foreach my $item (@$val)` loop of a repeated field. -/
def encodeItems (S : Pool) (number : ℕ) (t : FieldType) : List Val → Except Die PerlStr
  | [] => .ok []
  | item :: items => do
      let first ← tagged number t.wire (encodePayload S t item)
      let rest ← encodeItems S number t items
      return first ++ rest

/-- The `foreach my $k (keys %$val)` loop of a map field. -/
def encodeEntries (S : Pool) (number : ℕ) (keyType valType : FieldType) :
    List (PerlStr × Val) → Except Die PerlStr
  | [] => .ok []
  | (k, v) :: entries => do
      let key ← tagged 1 keyType.wire (encodeScalar keyType (.str k))
      let val ← tagged 2 valType.wire (encodePayload S valType v)
      let first ← tagged number 2 (lengthPrefixed (key ++ val))
      let rest ← encodeEntries S number keyType valType entries
      return first ++ rest

/-- The encoding of every stored value, under its name. -/
def fieldChunks (S : Pool) (d : MessageDef) :
    List (PerlStr × Val) → List (PerlStr × Except Die PerlStr)
  | [] => []
  | (name, val) :: fields =>
      (name,
        match d.findFieldByName name with
        | none => .ok []
        | some f =>
            match val with
            | .undef => .ok []
            | val =>
                match f.shape S with
                | .singular => tagged f.number f.type.wire (encodePayload S f.type val)
                | .repeated =>
                    match val with
                    | .arr _ items => encodeItems S f.number f.type items
                    | _ => .error (.fault .notReference)
                | .map c =>
                    match val with
                    | .hash entries =>
                        match (S.descriptor c).findFieldByNumber 1,
                          (S.descriptor c).findFieldByNumber 2 with
                        | some k, some v => encodeEntries S f.number k.type v.type entries
                        | _, _ => .error (.fault (.noMethod "type_number"))
                    | .big _ | .msg _ _ _ => .error (.fault .internals)
                    | _ => .error (.fault .notReference)) ::
      fieldChunks S d fields

end

/-- `serialize` -/
def serialize (S : Pool) (m : Msg) : Except Die PerlStr :=
  assemble (S.descriptor m.cls) m.fields (fieldChunks S (S.descriptor m.cls) m.fields) m.unknown

/-- One turn of the loop over the descriptor's fields, for a value that is there. -/
def serializeField (S : Pool) (f : FieldDef) : Val → Except Die PerlStr
  | .undef => .ok []
  | val =>
      match f.shape S with
      | .singular => tagged f.number f.type.wire (encodePayload S f.type val)
      | .repeated =>
          match val with
          | .arr _ items => encodeItems S f.number f.type items
          | _ => .error (.fault .notReference)
      | .map c =>
          match val with
          | .hash entries =>
              match (S.descriptor c).findFieldByNumber 1, (S.descriptor c).findFieldByNumber 2 with
              | some k, some v => encodeEntries S f.number k.type v.type entries
              | _, _ => .error (.fault (.noMethod "type_number"))
          -- an object that is a hash inside: its own keys are gone over
          | .big _ | .msg _ _ _ => .error (.fault .internals)
          | _ => .error (.fault .notReference)

theorem find_fieldChunks (S : Pool) (d : MessageDef) (fields : List (PerlStr × Val))
    {f : FieldDef} (hf : f ∈ d.fields) :
    Assoc.find (fieldChunks S d fields) f.name =
      (Assoc.find fields f.name).map (serializeField S f) := by
  induction fields with
  | nil => simp [fieldChunks]
  | cons p fields ih =>
      obtain ⟨name, val⟩ := p
      rw [fieldChunks, Assoc.find_cons, Assoc.find_cons, ih]
      split
      · rename_i hname
        subst hname
        have hfind : d.findFieldByName f.name = some f :=
          MessageDef.findFieldByName_eq_some.mpr ⟨hf, rfl⟩
        rw [hfind]
        rfl
      · rfl

/-- The loop of `serialize` as the source has it: the descriptor's fields in
order, each looked up in the message. -/
theorem serialize_eq (S : Pool) (m : Msg) :
    serialize S m =
      if missingRequired (S.descriptor m.cls) m.fields ≠ [] then
        .error (.croak (ps "Failed to serialize: Missing required fields: " ++
          joinNames (missingRequired (S.descriptor m.cls) m.fields)))
      else do
        let parts ← (S.descriptor m.cls).fields.mapM fun f =>
          ((Assoc.find m.fields f.name).map (serializeField S f)).getD (.ok [])
        return parts.flatten ++ m.unknown.getD [] := by
  unfold serialize assemble
  rw [mapM_congr fun f hf => by rw [find_fieldChunks S _ _ hf]]

theorem encodePayload_msg (S : Pool) (c cls : String) (fs : List (PerlStr × Val))
    (u : Option PerlStr) :
    encodePayload S (.message c) (.msg cls fs u) =
      serialize S ⟨cls, fs, u⟩ >>= lengthPrefixed := by
  rw [encodePayload]
  rfl

/-- The unknown bytes come last. -/
theorem serialize_unknown (S : Pool) (cls : String) (fs : List (PerlStr × Val))
    (u : Option PerlStr) :
    serialize S ⟨cls, fs, u⟩ = (serialize S ⟨cls, fs, none⟩).map (· ++ u.getD []) := by
  rw [serialize_eq, serialize_eq]
  simp only
  split
  · rfl
  · generalize ((S.descriptor cls).fields.mapM fun f =>
      ((Assoc.find fs f.name).map (serializeField S f)).getD (.ok [])) = parts
    cases parts with
    | error e => rfl
    | ok parts => simp [Except.map]

end GooglePerl.Protobuf
