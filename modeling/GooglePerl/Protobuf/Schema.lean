import Mathlib.Algebra.Group.Nat.Defs
import GooglePerl.Protobuf.Value

/-!
Descriptors: what the engine reads of a message type.

A `MessageDef` carries the rules a compiled `.proto` file obeys (distinct
field numbers and names, the fixed form of a map entry type, oneof members
that are singular fields of the message), so that a descriptor breaking them
cannot be built. Message types refer to each other by class name, which
allows any nesting and recursion.
-/

namespace GooglePerl.Protobuf

/-- `label_number` -/
inductive Label where
  | optional
  | required
  | repeated
  deriving DecidableEq, Repr

/-- `type_number`, with the message class or the enum's values it refers to.
Groups (type 10) have no entry in `%TYPE_TO_WIRE` and are left out. -/
inductive FieldType where
  | double
  | float
  | int64
  | uint64
  | int32
  | fixed64
  | fixed32
  | bool
  | string
  | message (cls : String)
  | bytes
  | uint32
  | enum (values : Option (List (PerlStr × ℤ)))
  | sfixed32
  | sfixed64
  | sint32
  | sint64
  deriving DecidableEq, Repr

/-- `%TYPE_TO_WIRE` -/
def FieldType.wire : FieldType → ℕ
  | .double => 1
  | .float => 5
  | .int64 => 0
  | .uint64 => 0
  | .int32 => 0
  | .fixed64 => 1
  | .fixed32 => 5
  | .bool => 0
  | .string => 2
  | .message _ => 2
  | .bytes => 2
  | .uint32 => 0
  | .enum _ => 0
  | .sfixed32 => 5
  | .sfixed64 => 1
  | .sint32 => 0
  | .sint64 => 0

/-- The types a map key may have: integers, bool and string. -/
def FieldType.isKey : FieldType → Bool
  | .int64 | .uint64 | .int32 | .fixed64 | .fixed32 | .bool | .string | .uint32
  | .sfixed32 | .sfixed64 | .sint32 | .sint64 => true
  | .double | .float | .message _ | .bytes | .enum _ => false

structure FieldDef where
  name : PerlStr
  number : ℕ
  type : FieldType
  label : Label
  deriving DecidableEq, Repr

structure OneofDef where
  name : PerlStr
  fields : List FieldDef
  deriving DecidableEq, Repr

/-- The two fields every map entry type has. -/
def entryFields (k v : FieldType) : List FieldDef :=
  [⟨ps "key", 1, k, .optional⟩, ⟨ps "value", 2, v, .optional⟩]

structure MessageDef where
  fields : List FieldDef
  /-- `options.map_entry` -/
  mapEntry : Bool := false
  oneofs : List OneofDef := []
  numbers_nodup : (fields.map FieldDef.number).Nodup := by decide
  names_nodup : (fields.map FieldDef.name).Nodup := by decide
  number_lt : ∀ f ∈ fields, f.number < 2 ^ 29 := by decide
  entry_shape : mapEntry = true →
    ∃ k v, k.isKey = true ∧ fields = entryFields k v := by simp
  oneofs_singular : ∀ o ∈ oneofs, ∀ f ∈ o.fields, f ∈ fields ∧ f.label = .optional := by decide
  oneofs_nodup : (oneofs.map OneofDef.name).Nodup := by first | exact List.nodup_nil | decide

namespace MessageDef

/-- A message type without fields. -/
def empty : MessageDef := { fields := [] }

/-- `find_field_by_name` -/
def findFieldByName (d : MessageDef) (name : PerlStr) : Option FieldDef :=
  d.fields.find? fun f => f.name == name

/-- `find_field_by_number`, and the lookup in `%fields_by_num`: with distinct
numbers the first and the last match are the same field. -/
def findFieldByNumber (d : MessageDef) (number : ℕ) : Option FieldDef :=
  d.fields.find? fun f => f.number == number

/-- `find_oneof_by_name` -/
def findOneofByName (d : MessageDef) (name : PerlStr) : Option OneofDef :=
  d.oneofs.find? fun o => o.name == name

theorem findFieldByNumber_eq_some {d : MessageDef} {n : ℕ} {f : FieldDef} :
    d.findFieldByNumber n = some f ↔ f ∈ d.fields ∧ f.number = n := by
  constructor
  · intro h
    exact ⟨List.mem_of_find?_eq_some h, by simpa using List.find?_some h⟩
  · rintro ⟨hmem, rfl⟩
    cases hg : d.findFieldByNumber f.number with
    | none => exact absurd (List.find?_eq_none.mp hg f hmem) (by simp)
    | some g =>
        have hgmem := List.mem_of_find?_eq_some hg
        have hnum : g.number = f.number := by simpa using List.find?_some hg
        rw [List.inj_on_of_nodup_map d.numbers_nodup hgmem hmem hnum]

theorem findFieldByName_eq_some {d : MessageDef} {name : PerlStr} {f : FieldDef} :
    d.findFieldByName name = some f ↔ f ∈ d.fields ∧ f.name = name := by
  constructor
  · intro h
    exact ⟨List.mem_of_find?_eq_some h, by simpa using List.find?_some h⟩
  · rintro ⟨hmem, rfl⟩
    cases hg : d.findFieldByName f.name with
    | none => exact absurd (List.find?_eq_none.mp hg f hmem) (by simp)
    | some g =>
        have hgmem := List.mem_of_find?_eq_some hg
        have hname : g.name = f.name := by simpa using List.find?_some hg
        rw [List.inj_on_of_nodup_map d.names_nodup hgmem hmem hname]

theorem findFieldByName_eq_none {d : MessageDef} {name : PerlStr} :
    d.findFieldByName name = none ↔ ∀ f ∈ d.fields, f.name ≠ name := by
  simp [findFieldByName, List.find?_eq_none]

theorem findFieldByNumber_eq_none {d : MessageDef} {n : ℕ} :
    d.findFieldByNumber n = none ↔ ∀ f ∈ d.fields, f.number ≠ n := by
  simp [findFieldByNumber, List.find?_eq_none]

theorem findOneofByName_eq_some {d : MessageDef} {o : OneofDef} (h : o ∈ d.oneofs) :
    d.findOneofByName o.name = some o := by
  cases hfind : d.findOneofByName o.name with
  | none => exact absurd (List.find?_eq_none.mp hfind o h) (by simp)
  | some o' =>
      have hmem := List.mem_of_find?_eq_some hfind
      have hname : o'.name = o.name := by simpa using List.find?_some hfind
      rw [List.inj_on_of_nodup_map d.oneofs_nodup hmem h hname]

theorem eq_of_name_eq {d : MessageDef} {f g : FieldDef} (hf : f ∈ d.fields) (hg : g ∈ d.fields)
    (h : f.name = g.name) : f = g :=
  List.inj_on_of_nodup_map d.names_nodup hf hg h

end MessageDef

/-- The descriptor pool together with the generated classes: the descriptor of
each class, and the coercion and type check that Type::Tiny performs when an
element is pushed on a tied array (`checkItem`) or an accessor is given a value
(`checkField`); `none` is a failed check. `classToPerl` is how the method `to_perl`
of a class dies when it is called on the name of the class; `none` for a string that
names no class with this method. -/
structure Pool where
  descriptor : String → MessageDef
  checkItem : FieldDef → Val → Option Val := fun _ v => some v
  checkField : FieldDef → Val → Option Val := fun _ v => some v
  classToPerl : PerlStr → Option Die := fun _ => none

/-- How a field's value is stored: the three-way branch `is_map`,
`label == 3`, otherwise. -/
inductive Shape where
  | singular
  | repeated
  | map (entry : String)
  deriving DecidableEq, Repr

def FieldDef.shape (S : Pool) (f : FieldDef) : Shape :=
  match f.label, f.type with
  | .repeated, .message c => if (S.descriptor c).mapEntry then .map c else .repeated
  | .repeated, _ => .repeated
  | .optional, _ => .singular
  | .required, _ => .singular

theorem FieldDef.shape_map {S : Pool} {f : FieldDef} {c : String} (h : f.shape S = .map c) :
    f.type = .message c ∧ (S.descriptor c).mapEntry = true := by
  unfold FieldDef.shape at h
  split at h
  · split at h
    · rename_i hc
      obtain rfl := Shape.map.inj h
      exact ⟨by assumption, hc⟩
    · cases h
  · cases h
  · cases h
  · cases h

theorem FieldDef.shape_singular_of_optional {S : Pool} {f : FieldDef} (h : f.label = .optional) :
    f.shape S = .singular := by
  unfold FieldDef.shape
  rw [h]

/-- The two fields of a map entry determine its types. -/
theorem entryFields_inj {k k' v v' : FieldType} (h : entryFields k v = entryFields k' v') :
    k = k' ∧ v = v' := by
  simpa [entryFields] using h

/-- The fields of a map entry type. -/
theorem Pool.entry_fields (S : Pool) {c : String} (h : (S.descriptor c).mapEntry = true) :
    ∃ k v, k.isKey = true ∧ (S.descriptor c).fields = entryFields k v ∧
      (S.descriptor c).findFieldByNumber 1 = some ⟨ps "key", 1, k, .optional⟩ ∧
      (S.descriptor c).findFieldByNumber 2 = some ⟨ps "value", 2, v, .optional⟩ := by
  obtain ⟨k, v, hk, hfields⟩ := (S.descriptor c).entry_shape h
  refine ⟨k, v, hk, hfields, ?_, ?_⟩
  · rw [MessageDef.findFieldByNumber_eq_some, hfields]
    simp [entryFields]
  · rw [MessageDef.findFieldByNumber_eq_some, hfields]
    simp [entryFields]

end GooglePerl.Protobuf
