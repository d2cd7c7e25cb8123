import GooglePerl.Lib.FloatFormat
import GooglePerl.Protobuf.Schema

/-!
What upb's reflection hands out: `upb_MessageValue` as a tagged union, messages
as one slot for each field of the descriptor, and what it means for a value to
be of a field's declared type.

Equal messages are equal terms here. A slot is empty when the field is not
present, which for a field without presence (an array and a map among them)
means that it holds nothing but its zero value.
-/

namespace GooglePerl.Xs

open GooglePerl.Lib GooglePerl.Protobuf

/-- `upb_DefPool`. -/
structure DefPool extends Pool where
  /-- `upb_FieldDef_HasPresence`, of a field of a message type -/
  hasPresence : String → FieldDef → Bool
  not_repeated_of_hasPresence : ∀ c f, hasPresence c f = true → f.label ≠ .repeated
  /-- names are C strings -/
  name_ne_zero : ∀ c, ∀ f ∈ (descriptor c).fields, 0 ∉ f.name

/-- In a pool in which no field has presence. -/
theorem not_repeated_of_noPresence (_ : String) (f : FieldDef) (h : false = true) :
    f.label ≠ .repeated := by
  cases h

/-- `upb_MessageValue`. Of a message: its type, the slots of its fields, and the
encoding of what it holds besides (extensions and unknown fields). -/
inductive MessageValue where
  | bool (b : Bool)
  | int32 (n : ℤ)
  | uint32 (n : ℤ)
  | int64 (n : ℤ)
  | uint64 (n : ℤ)
  | float (v : FloatVal)
  | double (v : FloatVal)
  | str (s : PerlStr)
  | msg (cls : String) (slots : List (Option MessageValue)) (rest : PerlStr)
  | array (items : List MessageValue)
  | map (entries : List (MessageValue × MessageValue))

/-- The members of the union. -/
inductive Member where
  | bool
  | int32
  | uint32
  | int64
  | uint64
  | float
  | double
  | str
  | msg
  | array
  | map
  deriving DecidableEq

namespace MessageValue

def member : MessageValue → Member
  | .bool _ => .bool
  | .int32 _ => .int32
  | .uint32 _ => .uint32
  | .int64 _ => .int64
  | .uint64 _ => .uint64
  | .float _ => .float
  | .double _ => .double
  | .str _ => .str
  | .msg _ _ _ => .msg
  | .array _ => .array
  | .map _ => .map

/-- A value without parts. -/
def isScalar : MessageValue → Bool
  | .msg _ _ _ | .array _ | .map _ => false
  | _ => true

/-- The value that a field without presence does not store. -/
def isZero : MessageValue → Bool
  | .bool b => !b
  | .int32 n => n == 0
  | .uint32 n => n == 0
  | .int64 n => n == 0
  | .uint64 n => n == 0
  | .float v => v == .fin 0
  | .double v => v == .fin 0
  | .str s => s.isEmpty
  | .msg _ _ _ => false
  | .array items => items.isEmpty
  | .map entries => entries.isEmpty

/-- Equality of map keys: integers, booleans and strings. -/
def sameKey : MessageValue → MessageValue → Bool
  | .bool a, .bool b => a == b
  | .int32 a, .int32 b => a == b
  | .uint32 a, .uint32 b => a == b
  | .int64 a, .int64 b => a == b
  | .uint64 a, .uint64 b => a == b
  | .str a, .str b => a == b
  | _, _ => false

end MessageValue

/-! ### The parts of a value -/

/-- A value is part of another: the value itself, or part of a field, an element, a
key or a value of it. -/
inductive Within (u : MessageValue) : MessageValue → Prop where
  | refl : Within u u
  | slot {c : String} {slots : List (Option MessageValue)} {rest : PerlStr} {v : MessageValue} :
      some v ∈ slots → Within u v → Within u (.msg c slots rest)
  | item {items : List MessageValue} {v : MessageValue} :
      v ∈ items → Within u v → Within u (.array items)
  | key {entries : List (MessageValue × MessageValue)} {e : MessageValue × MessageValue} :
      e ∈ entries → Within u e.1 → Within u (.map entries)
  | value {entries : List (MessageValue × MessageValue)} {e : MessageValue × MessageValue} :
      e ∈ entries → Within u e.2 → Within u (.map entries)

/-- What an induction over values has to show. -/
structure InductionSteps (P : MessageValue → Prop) : Prop where
  scalar : ∀ v : MessageValue, v.isScalar = true → P v
  msg : ∀ c slots rest, (∀ v, some v ∈ slots → P v) → P (.msg c slots rest)
  array : ∀ items, (∀ v ∈ items, P v) → P (.array items)
  map : ∀ entries, (∀ e ∈ entries, P e.1 ∧ P e.2) → P (.map entries)

namespace InductionSteps

variable {P : MessageValue → Prop}

mutual

theorem all (h : InductionSteps P) : ∀ v, P v
  | .bool b => h.scalar (.bool b) rfl
  | .int32 n => h.scalar (.int32 n) rfl
  | .uint32 n => h.scalar (.uint32 n) rfl
  | .int64 n => h.scalar (.int64 n) rfl
  | .uint64 n => h.scalar (.uint64 n) rfl
  | .float v => h.scalar (.float v) rfl
  | .double v => h.scalar (.double v) rfl
  | .str s => h.scalar (.str s) rfl
  | .msg c slots rest => h.msg c slots rest (allSlots h slots)
  | .array items => h.array items (allItems h items)
  | .map entries => h.map entries (allEntries h entries)

theorem allSlots (h : InductionSteps P) :
    ∀ slots : List (Option MessageValue), ∀ v, some v ∈ slots → P v
  | [] => by simp
  | none :: slots => by simpa using allSlots h slots
  | some v :: slots => by simpa using ⟨all h v, allSlots h slots⟩

theorem allItems (h : InductionSteps P) : ∀ items : List MessageValue, ∀ v ∈ items, P v
  | [] => by simp
  | v :: items => by simpa using ⟨all h v, allItems h items⟩

theorem allEntries (h : InductionSteps P) :
    ∀ entries : List (MessageValue × MessageValue), ∀ e ∈ entries, P e.1 ∧ P e.2
  | [] => by simp
  | (k, v) :: entries => by
      have hk := all h k
      have hv := all h v
      have hes := allEntries h entries
      intro e he
      rcases List.mem_cons.mp he with rfl | he
      · exact ⟨hk, hv⟩
      · exact hes e he

end

end InductionSteps

/-- Induction over a value and its parts. -/
@[elab_as_elim]
theorem MessageValue.inductionOn {P : MessageValue → Prop} (v : MessageValue)
    (scalar : ∀ v : MessageValue, v.isScalar = true → P v)
    (msg : ∀ c slots rest, (∀ v, some v ∈ slots → P v) → P (.msg c slots rest))
    (array : ∀ items, (∀ v ∈ items, P v) → P (.array items))
    (map : ∀ entries, (∀ e ∈ entries, P e.1 ∧ P e.2) → P (.map entries)) : P v :=
  InductionSteps.all ⟨scalar, msg, array, map⟩ v

/-- `upb_Map_Set` -/
def mapSet (k v : MessageValue) :
    List (MessageValue × MessageValue) → List (MessageValue × MessageValue)
  | [] => [(k, v)]
  | (k', v') :: es => if k.sameKey k' then (k', v) :: es else (k', v') :: mapSet k v es

/-- `upb_FieldDef_Type` -/
def typeNumber : FieldType → ℕ
  | .double => 1
  | .float => 2
  | .int64 => 3
  | .uint64 => 4
  | .int32 => 5
  | .fixed64 => 6
  | .fixed32 => 7
  | .bool => 8
  | .string => 9
  | .message _ => 11
  | .bytes => 12
  | .uint32 => 13
  | .enum _ => 14
  | .sfixed32 => 15
  | .sfixed64 => 16
  | .sint32 => 17
  | .sint64 => 18

/-- The member that a single value of a type is stored in. -/
def typeMember : FieldType → Member
  | .bool => .bool
  | .int32 | .sint32 | .sfixed32 | .enum _ => .int32
  | .uint32 | .fixed32 => .uint32
  | .int64 | .sint64 | .sfixed64 => .int64
  | .uint64 | .fixed64 => .uint64
  | .float => .float
  | .double => .double
  | .string | .bytes => .str
  | .message _ => .msg

/-- What a field holds: one value, an array or a map. -/
inductive ValueType where
  | single (t : FieldType)
  | array (t : FieldType)
  | map (k v : FieldType)

/-- The fields `key` and `value` of a map entry type. -/
def mapFields (S : Pool) (c : String) : Option (FieldDef × FieldDef) :=
  match (S.descriptor c).findFieldByNumber 1, (S.descriptor c).findFieldByNumber 2 with
  | some k, some v => some (k, v)
  | _, _ => none

def valueType (S : Pool) (f : FieldDef) : ValueType :=
  match f.shape S with
  | .singular => .single f.type
  | .repeated => .array f.type
  | .map c =>
      match mapFields S c with
      | some (k, v) => .map k.type v.type
      | none => .array f.type

section

variable (S : DefPool)

/-- What a slot holds once a value is stored in it. -/
def stored (c : String) (f : FieldDef) (v : MessageValue) : Option MessageValue :=
  if S.hasPresence c f || !v.isZero then some v else none

/-- Whether two fields are members of one oneof. -/
def areRivals (d : MessageDef) (f g : FieldDef) : Bool :=
  d.oneofs.any fun o => o.fields.contains f && o.fields.contains g

/-- `upb_Message_New` -/
def newMessage (c : String) : List (Option MessageValue) :=
  (S.descriptor c).fields.map fun _ => none

/-- `upb_Message_SetFieldByDef`: the members of a oneof share their storage. -/
def setFieldByDef (c : String) (f : FieldDef) (v : MessageValue)
    (slots : List (Option MessageValue)) : List (Option MessageValue) :=
  (S.descriptor c).fields.zipWith
    (fun g slot =>
      if g = f then stored S c f v
      else if areRivals (S.descriptor c) f g then none
      else slot)
    slots

/-- At most one member of a oneof is set. -/
def OneofsExclusive (d : MessageDef) (slots : List (Option MessageValue)) : Prop :=
  ∀ a ∈ d.fields.zip slots, ∀ b ∈ d.fields.zip slots, a.1 ≠ b.1 → areRivals d a.1 b.1 = true →
    a.2 = none ∨ b.2 = none

variable (Text : PerlStr → Prop)

mutual

/-- A value of a declared type. `Text` is what a string field may hold. -/
def Typed (ty : ValueType) : MessageValue → Prop
  | .bool _ => ty = .single .bool
  | .int32 n => ∃ t, ty = .single t ∧ typeMember t = .int32 ∧ -2 ^ 31 ≤ n ∧ n < 2 ^ 31
  | .uint32 n => ∃ t, ty = .single t ∧ typeMember t = .uint32 ∧ 0 ≤ n ∧ n < 2 ^ 32
  | .int64 n => ∃ t, ty = .single t ∧ typeMember t = .int64 ∧ -2 ^ 63 ≤ n ∧ n < 2 ^ 63
  | .uint64 n => ∃ t, ty = .single t ∧ typeMember t = .uint64 ∧ 0 ≤ n ∧ n < 2 ^ 64
  | .float v => ty = .single .float ∧ ∀ q, v = .fin q → FloatFormat.single.Representable q
  | .double v => ty = .single .double ∧ ∀ q, v = .fin q → FloatFormat.double.Representable q
  | .str s => ty = .single .bytes ∨ (ty = .single .string ∧ Text s)
  | .msg c slots _ =>
      ty = .single (.message c) ∧ OneofsExclusive (S.descriptor c) slots ∧
        TypedSlots c (S.descriptor c).fields slots
  | .array items => ∃ t, ty = .array t ∧ TypedItems t items
  | .map entries =>
      ∃ k v, ty = .map k v ∧ entries.Pairwise (fun a b => b.1.sameKey a.1 = false) ∧
        TypedEntries k v entries

def TypedSlots (c : String) : List FieldDef → List (Option MessageValue) → Prop
  | [], [] => True
  | _ :: fs, none :: slots => TypedSlots c fs slots
  | f :: fs, some v :: slots =>
      stored S c f v = some v ∧ Typed (valueType S.toPool f) v ∧ TypedSlots c fs slots
  | _, _ => False

def TypedItems (t : FieldType) : List MessageValue → Prop
  | [] => True
  | v :: vs => Typed (.single t) v ∧ TypedItems t vs

def TypedEntries (k v : FieldType) : List (MessageValue × MessageValue) → Prop
  | [] => True
  | (x, y) :: es => Typed (.single k) x ∧ Typed (.single v) y ∧ TypedEntries k v es

end

end

end GooglePerl.Xs
