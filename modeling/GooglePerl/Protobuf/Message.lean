import GooglePerl.Protobuf.Merge
import GooglePerl.Protobuf.ParseLoop
import Mathlib.Data.List.Sort

/-!
Methods of `Protobuf::Message` and of the generated classes, for a message of
the pure-Perl engine.

`Op` lists the operations on a message. `Op.apply` is the message afterwards,
also when the call died half-way; `Op.writes` are the names of the fields that
the operation writes, in order, which is what "most recently set" is about.
-/

namespace GooglePerl.Protobuf

open GooglePerl.Lib

/-- The generated accessor of a field, called with a value. -/
def accessor (S : Pool) (m : Msg) (f : FieldDef) (value : Val) : Except Die Msg :=
  match S.checkField f value with
  | none => .error (.croak (ps "Invalid value for field '" ++ f.name ++ ps "' in message '" ++
      ps m.cls ++ ps "': "))
  | some value => set S m f.name value

/-- `from_perl`, over the keys in iteration order. Of the methods a key can name,
these are the accessors. -/
def fromPerl (S : Pool) : List (PerlStr × Val) → Msg → Except (Die × Msg) Msg
  | [], m => .ok m
  | (key, value) :: args, m =>
      match (S.descriptor m.cls).findFieldByName key with
      | none => .error (.croak (ps "No such field or method: " ++ key), m)
      | some f =>
          match accessor S m f value with
          | .ok m' => fromPerl S args m'
          | .error e => .error (e, m)

/-- `%type_priority` -/
def typePriority : FieldType → ℕ
  | .message _ => 1
  | .double | .float | .int64 | .uint64 | .int32 | .fixed64 | .fixed32 | .uint32
  | .sfixed32 | .sfixed64 | .sint32 | .sint64 => 2
  | .enum _ => 3
  | .bool => 4
  | .string | .bytes => 5

/-- The first member, by priority, that takes the value. -/
def acceptedMember (S : Pool) (m : Msg) (o : OneofDef) (value : Val) : Option (Msg × PerlStr) :=
  (o.fields.insertionSort fun f g => typePriority f.type ≤ typePriority g.type).findSome? fun f =>
    match accessor S m f value with
    | .ok m' => some (m', f.name)
    | .error _ => none

/-- `set_oneof`: the message and the name of the member that was set. -/
def setOneof (S : Pool) (m : Msg) (oneof : PerlStr) (value : Val) : Except Die (Msg × PerlStr) :=
  match (S.descriptor m.cls).findOneofByName oneof with
  | none => .error (.croak (ps "Oneof '" ++ oneof ++ ps "' not found"))
  | some o =>
      match acceptedMember S m o value with
      | some r => .ok r
      | none => .error (.croak (ps "Could not coerce value into any field of oneof '" ++ oneof ++
          ps "'"))

/-- `which_oneof` -/
def whichOneof (S : Pool) (m : Msg) (oneof : PerlStr) : Except Die (Option PerlStr) :=
  match (S.descriptor m.cls).findOneofByName oneof with
  | none => .error (.croak (ps "Oneof '" ++ oneof ++ ps "' not found"))
  | some o => .ok ((o.fields.find? fun f => has m f.name).map FieldDef.name)

inductive Op where
  | set (name : PerlStr) (value : Val)
  | accessor (name : PerlStr) (value : Val)
  | setOneof (oneof : PerlStr) (value : Val)
  | clear (name : PerlStr)
  | get (name : PerlStr)
  | fromPerl (args : List (PerlStr × Val))
  | parseFrom (data : PerlStr)
  /-- Also of the message itself, where that comes to an end. -/
  | mergeFrom (src : Msg)
  | copyFrom (src : Msg)
  /-- `$msg->copy_from($msg)` -/
  | copyFromSelf

/-- The message that a call leaves, whether it returned or died. -/
def left : Except (Die × Msg) Msg → Msg
  | .ok m => m
  | .error (_, m) => m

/-- The message after an operation. -/
def Op.apply (S : Pool) (m : Msg) : Op → Msg
  | .set name value => (Protobuf.set S m name value).toOption.getD m
  | .accessor name value =>
      match (S.descriptor m.cls).findFieldByName name with
      | none => m
      | some f => (Protobuf.accessor S m f value).toOption.getD m
  | .setOneof oneof value =>
      match Protobuf.setOneof S m oneof value with
      | .ok (m', _) => m'
      | .error _ => m
  | .clear name => Protobuf.clear m name
  | .get name => (Protobuf.get S m name).2
  -- what dies half-way leaves what it has done
  | .fromPerl args => left (Protobuf.fromPerl S args m)
  | .parseFrom data => left (parseInto S data m)
  | .mergeFrom src => left (merge S m src)
  | .copyFrom src => copy m src
  | .copyFromSelf => copySelf m

/-! ### What an operation writes -/

/-- The field that the next tag names. -/
def nextField (S : Pool) (cls : String) (data : PerlStr) : Option FieldDef :=
  match decodeVarint data with
  | .ok (tagWire, _) => (S.descriptor cls).findFieldByNumber (tagWire >>> 3)
  | .error _ => none

/-- The names that `parse_into` stores under, up to the end or the point where it dies. -/
def storedNames (S : Pool) : ℕ → PerlStr → Msg → List PerlStr
  | 0, _, _ => []
  | fuel + 1, data, m =>
      match parseStep S (parse S) data m with
      | .error _ => []
      | .ok (m', rest) =>
          (nextField S m.cls data).toList.map FieldDef.name ++ storedNames S fuel rest m'

def fromPerlNames (S : Pool) : List (PerlStr × Val) → Msg → List PerlStr
  | [], _ => []
  | (key, value) :: args, m =>
      match (S.descriptor m.cls).findFieldByName key with
      | none => []
      | some f =>
          match accessor S m f value with
          | .ok m' => key :: fromPerlNames S args m'
          | .error _ => []

def mergedNames (S : Pool) (d : MessageDef) :
    List (PerlStr × Val) → List (PerlStr × Val) → List PerlStr
  | [], _ => []
  | (name, val) :: fs, dst =>
      match val with
      | .undef => mergedNames S d fs dst
      | val =>
          match d.findFieldByName name with
          | none => mergedNames S d fs dst
          | some f =>
              match mergedValue S f val (mergeVal S val) (Assoc.find dst name) with
              | .ok x => name :: mergedNames S d fs (Assoc.store dst name x)
              | .error _ => [name]

/-- The fields that an operation sets, parses or merges, in order. -/
def Op.writes (S : Pool) (m : Msg) : Op → List PerlStr
  | .set name value => if (Protobuf.set S m name value).isOk then [name] else []
  | .accessor name value => fromPerlNames S [(name, value)] m
  | .setOneof oneof value =>
      match Protobuf.setOneof S m oneof value with
      | .ok (_, name) => [name]
      | .error _ => []
  | .clear _ => []
  | .get _ => []
  | .fromPerl args => fromPerlNames S args m
  | .parseFrom data => storedNames S data.length data m
  | .mergeFrom src => mergedNames S (S.descriptor m.cls) src.fields m.fields
  | .copyFrom src => Assoc.keys src.fields
  | .copyFromSelf => []

end GooglePerl.Protobuf
