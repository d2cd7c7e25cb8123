import GooglePerl.Xs.SvToUpb

/-!
`PerlUpb_Message_ToSv` of `xs/convert/upb_to_sv.c`: a message as a nested Perl
structure.
-/

namespace GooglePerl.Xs

open GooglePerl.Lib GooglePerl.Protobuf

/-- `newSVuv`: an `IV` if it fits. -/
def newSVuv (n : ℤ) : Scalar := if n < 2 ^ 63 then .iv n else .uv n.toNat

/-- The scalar that stands for a value without parts. -/
def perlScalar (t : FieldType) : MessageValue → Scalar
  | .msg _ _ _ | .array _ | .map _ => .undef
  | .bool b => .yesNo b
  | .int32 n => .iv n
  | .uint32 n => newSVuv n
  | .int64 n => .iv n
  | .uint64 n => newSVuv n
  | .float v => .nv v
  | .double v => .nv v
  | .str s => .str s (t == .string)

/-- `convert_singular_upb_to_sv` of anything but a message, through the member that
belongs to the type. `PerlUpb_UpbToSv_BatchRaw` does the same for each element of
an array, by the C type. -/
def elementToSv (t : FieldType) (v : MessageValue) : Except Fault Sv :=
  if v.member = typeMember t then .ok (.scalar (perlScalar t v)) else .error .misread

/-- The key under which `hv_store_ent` files an entry: the scalar as a string. -/
def hashKey : Scalar → HashKey
  | .str s utf8 => ⟨s, utf8⟩
  | .iv n => ⟨decimalText n, false⟩
  | .uv n => ⟨decimalText n, false⟩
  | .yesNo b => ⟨if b then ps "1" else [], false⟩
  | _ => ⟨[], false⟩

section

variable (S : DefPool)

/-- Whether the loop over the fields takes one. A map field has the label
`repeated` too and is met by the first test, which asks for the length of an
array. -/
def hasField (c : String) (f : FieldDef) (slot : Option MessageValue) : Except Fault Bool :=
  if f.label = .repeated then
    match f.shape S.toPool, slot with
    | .map _, _ => .error .misread
    | _, none => .ok false
    | _, some (.array items) => .ok (!items.isEmpty)
    | _, some _ => .error .misread
  else if S.hasPresence c f then .ok slot.isSome
  else .error .abort

mutual

/-- The value of a field; a message is shown by `PerlUpb_Message_ToSv`. -/
def valueToSv : ValueType → MessageValue → Except Fault Sv
  | .single (.message c), .msg c' slots _ =>
      if c' = c then (slotsToSv c (S.descriptor c).fields slots).map .hash else .error .misread
  | .single t, v => elementToSv t v
  | .array t, .array items => (itemsToSv t items).map .array
  | .map k v, .map entries => (entriesToSv k v [] entries).map .hash
  | _, _ => .error .misread

/-- The loop of `PerlUpb_Message_ToSv` over the fields. -/
def slotsToSv (c : String) :
    List FieldDef → List (Option MessageValue) → Except Fault (List (HashKey × Sv))
  | f :: fs, none :: slots =>
      match hasField S c f none with
      | .error e => .error e
      | .ok _ => slotsToSv c fs slots
  | f :: fs, some v :: slots =>
      match hasField S c f (some v) with
      | .error e => .error e
      | .ok false => slotsToSv c fs slots
      | .ok true =>
          match valueToSv (valueType S.toPool f) v with
          | .error e => .error e
          | .ok sv => (slotsToSv c fs slots).map ((⟨f.name, false⟩, sv) :: ·)
  | _, _ => .ok []

def itemsToSv (t : FieldType) : List MessageValue → Except Fault (List Sv)
  | [] => .ok []
  | v :: vs =>
      match valueToSv (.single t) v with
      | .error e => .error e
      | .ok sv => (itemsToSv t vs).map (sv :: ·)

def entriesToSv (k v : FieldType) (dst : List (HashKey × Sv)) :
    List (MessageValue × MessageValue) → Except Fault (List (HashKey × Sv))
  | [] => .ok dst
  | (x, y) :: es =>
      match elementToSv k x, valueToSv (.single v) y with
      | .ok _, .ok sv => entriesToSv k v (Assoc.store dst (hashKey (perlScalar k x)) sv) es
      | .error e, _ => .error e
      | _, .error e => .error e

end

end

end GooglePerl.Xs
