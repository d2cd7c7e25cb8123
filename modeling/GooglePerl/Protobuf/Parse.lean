import GooglePerl.Protobuf.Access

/-!
`parse`, `parse_into`, `_decode_field` and `_skip_field` of
`Protobuf::Engine::PurePerl`.

A message is parsed by one loop that reads a tag, and then either skips an
unknown field and keeps its bytes or decodes a known one and stores the value.
A sub-message is parsed by the same loop on its own bytes. The loop gets a
budget; `parse` gives it the length of the input, and `parseInto_cons` shows
that this is always enough, so that nothing after it mentions budgets.

Dying in the middle of `parse_into` leaves what was stored so far in the
message, so the error carries the message.
-/

namespace GooglePerl.Protobuf

open GooglePerl.Lib

/-- `_skip_field`: the rest after the payload. -/
def skipField (data : PerlStr) (wire : ℕ) : Except Die PerlStr :=
  match wire with
  | 0 => (decodeVarint data).map Prod.snd
  | 1 => if data.length < 8 then .error malformed else .ok (data.drop 8)
  | 2 => do
      let (len, rest) ← decodeVarint data
      if rest.length < len then .error malformed else .ok (rest.drop len)
  | 5 => if data.length < 4 then .error malformed else .ok (data.drop 4)
  | _ => .error malformed

/-- The varint branch of `_decode_field`: the value stored for a varint. All of
these are `Math::BigInt` objects (`as_number` returns one) except a sint32,
which comes out of `unpack`. -/
def varintValue (t : FieldType) (v : ℕ) : Val :=
  match t with
  | .sint32 => .iv (decodeZigzag32 v)
  | .sint64 => .big (decodeZigzag64 v)
  | .int32 => if 2147483647 < v then .big (v - 18446744073709551616) else .big v
  | .int64 => if 9223372036854775807 < v then .big (v - 18446744073709551616) else .big v
  | _ => .big v

/-- The 64-bit branch of `_decode_field`. -/
def fixed64Value (t : FieldType) (bytes : PerlStr) : Val :=
  match t with
  | .double => .nv bytes
  | .sfixed64 =>
      if 9223372036854775807 < leValue bytes then .big (leValue bytes - 18446744073709551616)
      else .big (leValue bytes)
  | _ => .big (leValue bytes)

/-- The 32-bit branch of `_decode_field`. -/
def fixed32Value (t : FieldType) (bytes : PerlStr) : Val :=
  match t with
  | .float => .nv bytes
  | .sfixed32 => .iv (Int.bmod (leValue bytes) (2 ^ 32))
  | _ => .iv (leValue bytes)

/-- `_decode_field`: the value and the unread rest, given the parser for
sub-messages. Group and reserved wire types match no branch, consume nothing
and yield `undef`. -/
def decodeField (parseSub : String → PerlStr → Except Die Msg) (wire : ℕ) (t : FieldType)
    (data : PerlStr) : Except Die (Val × PerlStr) :=
  match wire with
  | 0 => do
      let (v, rest) ← decodeVarint data
      return (varintValue t v, rest)
  | 1 =>
      if data.length < 8 then .error malformed
      else .ok (fixed64Value t (data.take 8), data.drop 8)
  | 2 => do
      let (len, rest) ← decodeVarint data
      if rest.length < len then .error malformed
      else
        match t with
        | .message c => do
            let m ← parseSub c (rest.take len)
            return (m.toVal, rest.drop len)
        -- every other type with this wire type is kept as its bytes, numbers too
        | _ => return (.str (rest.take len), rest.drop len)
  | 5 =>
      if data.length < 4 then .error malformed
      else .ok (fixed32Value t (data.take 4), data.drop 4)
  -- the groups' wire types: nothing is read, and undef is stored
  | _ => .ok (.undef, data)

/-- The map branch of `parse_into`: the hash with the entry stored, given what
the field held. Key and value both come through `get`. -/
def storeEntry (S : Pool) (val : Val) (old : Option Val) : Except Die Val :=
  match val with
  | .msg cls fields unknown => do
      let entry : Msg := ⟨cls, fields, unknown⟩
      let key ← (get S entry (ps "key")).1.stringify
      let v := (get S entry (ps "value")).1
      match old.filter Val.truthy with
      | none => return .hash [(key, v)]
      | some (.hash es) => return .hash (Assoc.store es key v)
      | some (.big _) | some (.msg _ _ _) => .error (.fault .internals)
      | some _ => .error (.fault .notReference)
  | _ => .error (.fault (.noMethod "get"))

/-- The repeated branch of `parse_into`: the array with the item pushed. -/
def storeItem (S : Pool) (f : FieldDef) (val : Val) (old : Option Val) : Except Die Val :=
  match old.filter Val.truthy with
  | none => .ok (.arr .blessed [val])
  | some (.arr .tied items) =>
      ((pushTied S f items [val]).mapError Prod.fst).map (.arr .tied)
  | some (.arr kind items) => .ok (.arr kind (items ++ [val]))
  | some _ => .error (.fault .notReference)

/-- What a field holds after a decoded value is stored, given what it held: the
three-way branch at the end of the loop. -/
def storedValue (S : Pool) (f : FieldDef) (val : Val) (old : Option Val) : Except Die Val :=
  match f.shape S with
  | .map _ => storeEntry S val old
  | .repeated => storeItem S f val old
  | .singular => .ok val

def storeField (S : Pool) (f : FieldDef) (val : Val) (m : Msg) : Except Die Msg :=
  (storedValue S f val (Assoc.find m.fields f.name)).map (m.put f.name)

/-- `$msg->{_unknown_fields} .= $raw_field`, after `||= ''`: a raw field has at
least two characters, so the store is never the false string `0`. -/
def Msg.keepUnknown (m : Msg) (raw : PerlStr) : Msg :=
  { m with unknown := some (m.unknown.getD [] ++ raw) }

/-- One turn of the loop of `parse_into`. -/
def parseStep (S : Pool) (parseSub : String → PerlStr → Except Die Msg) (data : PerlStr)
    (m : Msg) : Except Die (Msg × PerlStr) := do
  let (tagWire, afterTag) ← decodeVarint data
  let tag := tagWire >>> 3
  let wire := tagWire &&& 7
  match (S.descriptor m.cls).findFieldByNumber tag with
  | none => do
      let rest ← skipField afterTag wire
      return (m.keepUnknown (data.take (data.length - rest.length)), rest)
  | some f => do
      let (val, rest) ← decodeField parseSub wire f.type afterTag
      let m' ← storeField S f val m
      return (m', rest)

/-- The loop of `parse_into`, with a budget. -/
def parseLoop (S : Pool) : ℕ → PerlStr → Msg → Except (Die × Msg) Msg
  | _, [], m => .ok m
  | 0, _ :: _, m => .error (.fault .outOfFuel, m)
  | fuel + 1, data@(_ :: _), m =>
      match parseStep S (fun c bytes => (parseLoop S fuel bytes (.create c)).mapError Prod.fst)
          data m with
      | .error e => .error (e, m)
      | .ok (m', rest) => parseLoop S fuel rest m'

/-- `parse_into`, and `parse_from` of a pure-Perl message. -/
def parseInto (S : Pool) (data : PerlStr) (m : Msg) : Except (Die × Msg) Msg :=
  parseLoop S data.length data m

/-- `parse` -/
def parse (S : Pool) (cls : String) (data : PerlStr) : Except Die Msg :=
  (parseInto S data (.create cls)).mapError Prod.fst

end GooglePerl.Protobuf
