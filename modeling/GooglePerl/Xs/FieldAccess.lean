import GooglePerl.Xs.Restore
import GooglePerl.Xs.WideIntegers

/-!
`xs/message/access.c`: reading, writing and clearing the fields of a message that hold one value
without parts, as the `_xs_` functions of `Protobuf::Message` reach them, by name.
-/

namespace GooglePerl.Xs

open GooglePerl.Lib GooglePerl.Protobuf

/-- What goes wrong in a call. -/
inductive AccessFault where
  | conversion (f : Fault)
  /-- Field '%s' not found in message '%s' -/
  | noField (name : PerlStr) (message : String)
  /-- Oneof '%s' not found in message '%s' -/
  | noOneof (name : PerlStr) (message : String)
  /-- Field does not have presence -/
  | noPresence

/-- Whether the call croaks. -/
def AccessFault.isCroak : AccessFault → Bool
  | .conversion (.croak _) | .noField _ _ | .noOneof _ _ | .noPresence => true
  | .conversion _ => false

section

variable (S : DefPool) (address : Sv → ℕ)

/-- The slot of a field. -/
def slotOf (c : String) (f : FieldDef) (slots : List (Option MessageValue)) :
    Option MessageValue :=
  (((S.descriptor c).fields.zip slots).find? fun p => p.1 = f).bind Prod.snd

/-- `PerlUpb_Message_GetField` of a field that is neither a message nor a container. What upb
answers for an unset field is its `upb_FieldDef_Default`. -/
def messageGetField (fieldDefault : FieldDef → MessageValue) (c : String) (f : FieldDef)
    (slots : List (Option MessageValue)) : Except Fault Sv :=
  elementToSv f.type ((slotOf S c f slots).getD (fieldDefault f))

/-- `PerlUpb_Message_HasField` -/
def messageHasField (c : String) (f : FieldDef) (slots : List (Option MessageValue)) :
    Except AccessFault Bool :=
  if S.hasPresence c f then .ok (slotOf S c f slots).isSome else .error .noPresence

/-- `PerlUpb_Message_ClearField`; of a oneof only the member that is set is cleared. -/
def messageClearField (c : String) (f : FieldDef) (slots : List (Option MessageValue)) :
    List (Option MessageValue) :=
  (S.descriptor c).fields.zipWith (fun g slot => if g = f then none else slot) slots

/-- `PerlUpb_Message_WhichOneof`: the empty string when no member is set. -/
def messageWhichOneof (c : String) (o : OneofDef) (slots : List (Option MessageValue)) : PerlStr :=
  ((o.fields.find? fun f => (slotOf S c f slots).isSome).map FieldDef.name).getD []

/-- `GET_FIELD_DEF_OR_CROAK` -/
def fieldOrCroak (c : String) (name : PerlStr) : Except AccessFault FieldDef :=
  match keyField S c ⟨name, false⟩ with
  | some f => .ok f
  | none => .error (.noField name c)

/-- `_xs_get` -/
def xsGetField (fieldDefault : FieldDef → MessageValue) (c : String) (name : PerlStr)
    (slots : List (Option MessageValue)) : Except AccessFault Sv := do
  let f ← fieldOrCroak S c name
  (messageGetField S fieldDefault c f slots).mapError .conversion

/-- `_xs_set` -/
def xsSetField (c : String) (name : PerlStr) (sv : Sv) (slots : List (Option MessageValue)) :
    Except AccessFault (List (Option MessageValue)) := do
  let f ← fieldOrCroak S c name
  (messageSetField S address c f sv slots).mapError .conversion

/-- `_xs_has` -/
def xsHasField (c : String) (name : PerlStr) (slots : List (Option MessageValue)) :
    Except AccessFault Bool := do
  let f ← fieldOrCroak S c name
  messageHasField S c f slots

/-- `_xs_clear` -/
def xsClearField (c : String) (name : PerlStr) (slots : List (Option MessageValue)) :
    Except AccessFault (List (Option MessageValue)) := do
  let f ← fieldOrCroak S c name
  return messageClearField S c f slots

/-- `_xs_which_oneof` -/
def xsWhichOneof (c : String) (name : PerlStr) (slots : List (Option MessageValue)) :
    Except AccessFault PerlStr :=
  match (S.descriptor c).findOneofByName name with
  | some o => .ok (messageWhichOneof S c o slots)
  | none => .error (.noOneof name c)

end

/-! ### Slots as a function of the field -/

variable {S : DefPool} {address : Sv → ℕ} {c : String} {V : FieldDef → Option MessageValue}

theorem find_zip_map {fs : List FieldDef} {f : FieldDef} (hf : f ∈ fs) :
    (fs.zip (fs.map V)).find? (fun p => p.1 = f) = some (f, V f) := by
  induction fs with
  | nil => cases hf
  | cons g fs ih =>
      rw [List.map_cons, List.zip_cons_cons, List.find?_cons]
      by_cases hg : g = f
      · simp [hg]
      · rcases List.mem_cons.mp hf with rfl | hf
        · exact absurd rfl hg
        · simpa [hg] using ih hf

theorem slotOf_map {f : FieldDef} (hf : f ∈ (S.descriptor c).fields) :
    slotOf S c f ((S.descriptor c).fields.map V) = V f := by
  rw [slotOf, find_zip_map hf]
  rfl

theorem fieldOrCroak_name {f : FieldDef} (hf : f ∈ (S.descriptor c).fields) :
    fieldOrCroak S c f.name = .ok f := by
  rw [fieldOrCroak, keyField_name hf]

theorem messageClearField_map (f : FieldDef) :
    messageClearField S c f ((S.descriptor c).fields.map V) =
      (S.descriptor c).fields.map fun g => if g = f then none else V g := by
  rw [messageClearField, List.zipWith_map_right, List.zipWith_self]

theorem svToUpb_scalar {f : FieldDef} (hshape : f.shape S.toPool = .singular)
    (htype : ∀ c, f.type ≠ .message c) {x : Scalar} (hx : x ≠ .undef) :
    svToUpb S address f (.scalar x) = convertScalar f x := by
  rw [svToUpb_singular hshape (by simpa using hx)]
  simp only [convertSingular, convertSingularWith]
  cases hft : f.type with
  | message c => exact absurd hft (htype c)
  | _ => rfl

end GooglePerl.Xs
