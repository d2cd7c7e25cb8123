import GooglePerl.Xs.MessageValue
import GooglePerl.Xs.Scalar

/-!
`xs/convert/sv_to_upb.c`: Perl values into upb values.

What can go wrong is a croak, or that a union is read through another member
than the one that was written, or memory through the layout of another message
type, which the C code has no way of noticing.
-/

namespace GooglePerl.Xs

open GooglePerl.Lib GooglePerl.Protobuf

/-- The errors that the conversion raises, with what goes into their texts. -/
inductive Croak where
  /-- Expected %s for field '%s', but got %s -/
  | wrongType (expected : String) (field : PerlStr) (got : String)
  /-- Value %f out of range for field '%s' (type %d, limits %f to %f) -/
  | outOfRange (value : FloatVal) (field : PerlStr) (type : ℕ) (min max : FloatVal)
  /-- Value %f out of range for unsigned field '%s' -/
  | outOfRangeUnsigned (value : FloatVal) (field : PerlStr)
  /-- Wide character in subroutine entry -/
  | wideCharacter
  /-- Missing EnumDef for field '%s' -/
  | missingEnumDef (field : PerlStr)
  /-- Invalid enum name '%s' for field '%s' -/
  | invalidEnumName (name field : PerlStr)
  /-- Field '%s' not found in message '%s' -/
  | fieldNotFound (key : PerlStr) (message : String)
  /-- Invalid message object: … -/
  | invalidMessageObject
  /-- Message type mismatch for field '%s': expected %s, got %s -/
  | messageMismatch (field : PerlStr) (expected got : String)
  /-- PerlUpb_SvToUpb_BatchRaw: Unsupported type %d for fast-path -/
  | unsupportedFastPath (type : ℕ)
  /-- Cannot convert undef to non-message type for field '%s' -/
  | undefValue (field : PerlStr)
  /-- Type mismatch when copying map field -/
  | mapMismatch
  /-- Type mismatch when copying repeated field '%s': expected %d, got %d -/
  | repeatedMismatch (field : PerlStr) (expected got : ℕ)

inductive Fault where
  | croak (c : Croak)
  | misread
  /-- a failed `UPB_ASSERT` -/
  | abort
  /-- a walk over the inside of an object, which is not modelled -/
  | internals

/-- A key of a Perl hash: its octets and the UTF-8 flag. -/
structure HashKey where
  pv : PerlStr
  utf8 : Bool
  deriving DecidableEq

/-- A Perl value: a scalar, or a reference to something. -/
inductive Sv where
  | scalar (x : Scalar)
  | array (items : List Sv)
  /-- a plain hash, in the order in which it is iterated -/
  | hash (entries : List (HashKey × Sv))
  /-- the container of a repeated field -/
  | repeated (f : FieldDef) (items : List MessageValue)
  /-- the container of a map field -/
  | map (f : FieldDef) (entries : List (MessageValue × MessageValue))
  | message (cls : String) (slots : List (Option MessageValue)) (rest : PerlStr)
  | other

/-- What a conversion to a number makes of a value. -/
def Sv.view (address : Sv → ℕ) : Sv → Scalar
  | .scalar x => x
  | sv => .ref (address sv)

/-- `(int32_t)` -/
def toInt32 (n : ℤ) : ℤ := Int.bmod n (2 ^ 32)

/-- `(uint32_t)` -/
def toUint32 (n : ℤ) : ℤ := n % 2 ^ 32

/-- The limit of `float` fields, as the compiler reads the literal. -/
def floatLimit : ℚ := 3402823466 * 10 ^ 29

/-- `sv_reftype(sv, TRUE)`, which looks at the scalar and not at what it refers to. -/
def reftype (x : Scalar) : String := if x.rok then "REF" else "SCALAR"

/-- `CROAK_WRONG_TYPE` -/
def croakWrongType {α : Type} (x : Scalar) (expected : String) (f : FieldDef) : Except Fault α :=
  .error (.croak (.wrongType expected f.name (reftype x)))

def verifyLimits (x : Scalar) (f : FieldDef) (min max : FloatVal) : Except Fault Unit :=
  if x.svNV.lt min || max.lt x.svNV then
    .error (.croak (.outOfRange x.svNV f.name (typeNumber f.type) min max))
  else .ok ()

def verifyLimits64 (x : Scalar) (f : FieldDef) (isSigned : Bool) : Except Fault Unit :=
  match x with
  | .big _ => .ok ()
  | x =>
      if isSigned || x.uok then .ok ()
      else if x.nok then
        if x.svNV.lt (.fin 0) then .error (.croak (.outOfRangeUnsigned x.svNV f.name)) else .ok ()
      else if x.iok && x.svIV < 0 then
        .error (.croak (.outOfRangeUnsigned (.fin x.svIV) f.name))
      else .ok ()

/-- `upb_EnumDef_FindValueByNameWithSize` -/
def findValueByName (values : List (PerlStr × ℤ)) (name : PerlStr) : Option ℤ :=
  (values.find? fun v => v.1 == name).map Prod.snd

/-- The cases of `convert_singular_sv_to_upb` that take a scalar. -/
def convertScalar (f : FieldDef) (x : Scalar) : Except Fault MessageValue :=
  match f.type with
  | .int32 | .sint32 | .sfixed32 =>
      if x.isNumeric then do
        verifyLimits x f (.fin (-2 ^ 31)) (.fin (2 ^ 31 - 1))
        .ok (.int32 (toInt32 x.svIV))
      else croakWrongType x "an Integer" f
  | .string => if x.pok then .ok (.str x.svPVutf8) else croakWrongType x "a String" f
  | .bytes =>
      if x.pok then
        match x.svPVbyte with
        | some s => .ok (.str s)
        | none => .error (.croak .wideCharacter)
      else croakWrongType x "a Bytes" f
  | .bool => .ok (.bool x.svTRUE)
  | .float =>
      if x.isNumeric then do
        verifyLimits x f (FloatFormat.double.round (-floatLimit))
          (FloatFormat.double.round floatLimit)
        .ok (.float (roundTo .single x.svNV))
      else croakWrongType x "a Number" f
  | .double => if x.isNumeric then .ok (.double x.svNV) else croakWrongType x "a Number" f
  | .uint32 | .fixed32 =>
      if x.isNumeric then do
        verifyLimits x f (.fin 0) (.fin (2 ^ 32 - 1))
        .ok (.uint32 (toUint32 x.svUV))
      else croakWrongType x "an Unsigned Integer" f
  | .int64 | .sint64 | .sfixed64 => do
      verifyLimits64 x f true
      .ok (.int64 x.svToI64)
  | .uint64 | .fixed64 => do
      verifyLimits64 x f false
      .ok (.uint64 x.svToU64)
  | .enum values =>
      -- a number need not be one of the enum's
      if x.iok then .ok (.int32 (toInt32 x.svIV))
      else if x.pok then
        match values with
        | none => .error (.croak (.missingEnumDef f.name))
        | some values =>
            match findValueByName values x.svPVutf8 with
            | none => .error (.croak (.invalidEnumName x.svPVutf8 f.name))
            | some n => .ok (.int32 n)
      else croakWrongType x "an Integer or Enum Name" f
  -- messages do not come here; the C code would read the scalar as another type
  | .message _ => .error .misread

/-- `PerlUpb_SvToUpb_BatchRaw` -/
def batchRaw (src : List Scalar) : FieldType → Except Fault (List MessageValue)
  | .bool => .ok (src.map fun x => .bool x.svTRUE)
  | .int32 | .sint32 | .sfixed32 | .enum _ => .ok (src.map fun x => .int32 (toInt32 x.svIV))
  | .uint32 | .fixed32 => .ok (src.map fun x => .uint32 (toUint32 x.svUV))
  | .float => .ok (src.map fun x => .float (roundTo .single x.svNV))
  | .double => .ok (src.map fun x => .double x.svNV)
  | .int64 | .sint64 | .sfixed64 => .ok (src.map fun x => .int64 x.svToI64)
  | .uint64 | .fixed64 => .ok (src.map fun x => .uint64 x.svToU64)
  | .string => .error (.croak (.unsupportedFastPath 9))
  | .bytes => .error (.croak (.unsupportedFastPath 12))
  | .message _ => .error (.croak (.unsupportedFastPath 11))

/-- The types whose plain arrays are converted in one batch. -/
def isBatch : FieldType → Bool
  | .string | .bytes | .message _ => false
  | _ => true

/-- Reading a value as one of a given type: through its member of the union, and
for a message copying it by the layout of that type (`upb_Message_DeepCopy`). -/
def copyElement (t : FieldType) (v : MessageValue) : Except Fault MessageValue :=
  match t, v with
  | .message c, .msg c' slots rest =>
      if c' = c then .ok (.msg c' slots rest) else .error .misread
  | t, v => if v.member = typeMember t then .ok v else .error .misread

/-- The loop of the map fast path. -/
def copyEntries (k v : FieldType) (dst : List (MessageValue × MessageValue)) :
    List (MessageValue × MessageValue) → Except Fault (List (MessageValue × MessageValue))
  | [] => .ok dst
  | (x, y) :: es => do
      let y ← copyElement v y
      let x ← copyElement k x
      copyEntries k v (mapSet x y dst) es

section

variable (S : DefPool) (address : Sv → ℕ)

/-- `convert_singular_sv_to_upb`. A plain hash is made into a message by the
function `populate`, the recursion of the source. -/
def convertSingularWith (populate : String → Except Fault MessageValue) (f : FieldDef) (sv : Sv) :
    Except Fault MessageValue :=
  match f.type with
  | .message c =>
      match sv with
      | .hash _ => populate c
      | .message c' slots rest =>
          if c' = c then .ok (.msg c' slots rest)
          else .error (.croak (.messageMismatch f.name c c'))
      | .scalar .undef => croakWrongType (sv.view address) "a Message object or HashRef" f
      | _ => .error (.croak .invalidMessageObject)
  | _ => convertScalar f (sv.view address)

/-- `PerlUpb_SvToUpb`, given what the recursion makes of the elements of a plain
array and of the entries of a plain hash. -/
def svToUpbWith (populate : String → Except Fault MessageValue)
    (items : Except Fault (List MessageValue))
    (entries : FieldDef → FieldDef → Except Fault (List (MessageValue × MessageValue)))
    (f : FieldDef) (sv : Sv) : Except Fault MessageValue :=
  match sv with
  | .scalar .undef => .error (.croak (.undefValue f.name))
  | sv =>
      match f.shape S.toPool with
      | .map c =>
          match mapFields S.toPool c with
          | none => .error .misread
          | some (k, v) =>
              match sv with
              -- a tied map of another field: only the declared types of the two map fields are
              -- compared
              | .map g es =>
                  if typeNumber g.type ≠ typeNumber f.type then .error (.croak .mapMismatch)
                  else (copyEntries k.type v.type [] es).map .map
              | .hash _ => (entries k v).map .map
              | .message _ _ _ => .error .internals
              | .scalar (.big _) => .error .internals
              | .scalar x => croakWrongType x "a Reference" f
              | _ => croakWrongType (sv.view address) "a Hash Reference" f
      | .repeated =>
          match sv with
          | .repeated g xs =>
              if typeNumber g.type ≠ typeNumber f.type then
                .error (.croak
                  (.repeatedMismatch f.name (typeNumber f.type) (typeNumber g.type)))
              else (xs.mapM (copyElement f.type)).map .array
          | .array xs =>
              -- the fast way, which checks nothing
              if isBatch f.type then (batchRaw (xs.map (Sv.view address)) f.type).map .array
              else items.map .array
          | .scalar x =>
              if x.rok then croakWrongType x "an Array Reference" f
              else croakWrongType x "a Reference" f
          | _ => croakWrongType (sv.view address) "an Array Reference" f
      | .singular => convertSingularWith address populate f sv

/-- The field that a hash key names: `upb_MessageDef_FindFieldByName` takes a C
string, which ends at the first NUL. -/
def keyField (c : String) (key : HashKey) : Option FieldDef :=
  (S.descriptor c).findFieldByName (key.pv.takeWhile (· != 0))

mutual

/-- `PerlUpb_SvToUpb` -/
def svToUpb (f : FieldDef) : Sv → Except Fault MessageValue
  | .hash es =>
      svToUpbWith S address
        (fun c => (populate c (newMessage S c) es).map fun slots => .msg c slots [])
        (.ok []) (fun k v => convertEntries k v [] es) f (.hash es)
  | .array xs =>
      svToUpbWith S address (fun _ => .error .misread) (convertItems f xs)
        (fun _ _ => .ok []) f (.array xs)
  | sv =>
      svToUpbWith S address (fun _ => .error .misread) (.ok []) (fun _ _ => .ok []) f sv

/-- `convert_singular_sv_to_upb` -/
def convertSingular (f : FieldDef) : Sv → Except Fault MessageValue
  | .hash es =>
      convertSingularWith address
        (fun c => (populate c (newMessage S c) es).map fun slots => .msg c slots []) f (.hash es)
  | sv => convertSingularWith address (fun _ => .error .misread) f sv

/-- The loop over a plain hash in the message case. -/
def populate (c : String) (slots : List (Option MessageValue)) :
    List (HashKey × Sv) → Except Fault (List (Option MessageValue))
  | [] => .ok slots
  | (key, sv) :: es =>
      match keyField S c key with
      | none => .error (.croak (.fieldNotFound key.pv c))
      | some f =>
          match svToUpb f sv with
          | .error e => .error e
          | .ok v => populate c (setFieldByDef S c f v slots) es

/-- The loop over a plain array. -/
def convertItems (f : FieldDef) : List Sv → Except Fault (List MessageValue)
  | [] => .ok []
  | sv :: svs =>
      match convertSingular f sv with
      | .error e => .error e
      | .ok v => (convertItems f svs).map (v :: ·)

/-- The loop over a plain hash in the map case. -/
def convertEntries (k v : FieldDef) (dst : List (MessageValue × MessageValue)) :
    List (HashKey × Sv) → Except Fault (List (MessageValue × MessageValue))
  | [] => .ok dst
  | (key, sv) :: es =>
      match convertScalar k (.str key.pv key.utf8) with
      | .error e => .error e
      | .ok x =>
          match convertSingular v sv with
          | .error e => .error e
          | .ok y => convertEntries k v (mapSet x y dst) es

end

end

end GooglePerl.Xs
