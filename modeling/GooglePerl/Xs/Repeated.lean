import GooglePerl.Lib.TiedArray
import GooglePerl.Xs.Restore

/-!
`Protobuf::Internal::Repeated`: the class that the container of a repeated field
is tied to in the XS engine, over `xs/repeated/repeated.c`.

Of the hooks it lacks, `SPLICE` comes from `Tie::Array`. An index is a C `int`
in the code and any integer here.
-/

namespace GooglePerl.Xs

open GooglePerl.Lib GooglePerl.Protobuf

/-- What one slot of a `upb_Array` can hold: a value of the element type, in its
width, or a null pointer in place of a message. -/
def IsElement (t : FieldType) : Option MessageValue → Prop
  | none => ∃ c, t = .message c
  | some (.bool _) => t = .bool
  | some (.int32 n) => typeMember t = .int32 ∧ -2 ^ 31 ≤ n ∧ n < 2 ^ 31
  | some (.uint32 n) => typeMember t = .uint32 ∧ 0 ≤ n ∧ n < 2 ^ 32
  | some (.int64 _) => typeMember t = .int64
  | some (.uint64 n) => typeMember t = .uint64 ∧ 0 ≤ n ∧ n < 2 ^ 64
  | some (.float v) => t = .float ∧ roundTo .single v = v
  | some (.double _) => t = .double
  | some (.str _) => typeMember t = .str
  | some (.msg c _ _) => t = .message c
  | some (.array _) | some (.map _) => False

abbrev Element (t : FieldType) := { v : Option MessageValue // IsElement t v }

/-- `convert_singular_upb_to_sv`; of a null pointer it makes `undef`. -/
def elementSv {t : FieldType} (e : Element t) : Sv :=
  match e.1 with
  | none => .scalar .undef
  | some (.msg c slots rest) => .message c slots rest
  | some v => .scalar (perlScalar t v)

theorem roundTo_single_zero : roundTo .single (.fin 0) = .fin 0 :=
  FloatFormat.round_of_representable
    ⟨⟨0, 0, by norm_num, by decide, by norm_num⟩, by norm_num [FloatFormat.single]⟩

/-- What zeroed memory holds. -/
def zeroElement : (t : FieldType) → Element t
  | .bool => ⟨some (.bool false), rfl⟩
  | .int32 => ⟨some (.int32 0), rfl, by decide, by decide⟩
  | .sint32 => ⟨some (.int32 0), rfl, by decide, by decide⟩
  | .sfixed32 => ⟨some (.int32 0), rfl, by decide, by decide⟩
  | .enum _ => ⟨some (.int32 0), rfl, by decide, by decide⟩
  | .uint32 => ⟨some (.uint32 0), rfl, by decide, by decide⟩
  | .fixed32 => ⟨some (.uint32 0), rfl, by decide, by decide⟩
  | .int64 => ⟨some (.int64 0), rfl⟩
  | .sint64 => ⟨some (.int64 0), rfl⟩
  | .sfixed64 => ⟨some (.int64 0), rfl⟩
  | .uint64 => ⟨some (.uint64 0), rfl, by decide, by decide⟩
  | .fixed64 => ⟨some (.uint64 0), rfl, by decide, by decide⟩
  | .float => ⟨some (.float (.fin 0)), rfl, roundTo_single_zero⟩
  | .double => ⟨some (.double (.fin 0)), rfl⟩
  | .string => ⟨some (.str []), rfl⟩
  | .bytes => ⟨some (.str []), rfl⟩
  | .message c => ⟨none, c, rfl⟩

/-- A repeated field, with what the conversion needs to know of it. -/
structure RepeatedField where
  pool : DefPool
  /-- the addresses that references have as numbers -/
  address : Sv → ℕ
  fdef : FieldDef
  shape_eq : fdef.shape pool.toPool = .repeated
  /-- enum values are 32-bit numbers -/
  enum_range : ∀ values, fdef.type = .enum (some values) → ∀ v ∈ values,
    -2 ^ 31 ≤ v.2 ∧ v.2 < 2 ^ 31
  /-- what a new slot holds until it is written -/
  fresh : Element fdef.type

/-! ### What the conversion makes is an element -/

theorem roundTo_idem (F : FloatFormat) (v : FloatVal) : roundTo F (roundTo F v) = roundTo F v := by
  cases v with
  | nan => rfl
  | inf negative => rfl
  | fin q =>
      cases hround : F.round q with
      | fin r =>
          simp only [roundTo, hround]
          exact FloatFormat.round_of_representable (FloatFormat.representable_of_round hround)
      | _ => simp [roundTo, hround]

theorem toInt32_range (n : ℤ) : -2 ^ 31 ≤ toInt32 n ∧ toInt32 n < 2 ^ 31 := by
  have hlo := Int.le_bmod (x := n) (m := 2 ^ 32) (by norm_num)
  have hhi := Int.bmod_lt (x := n) (m := 2 ^ 32) (by norm_num)
  unfold toInt32
  omega

theorem toUint32_range (n : ℤ) : 0 ≤ toUint32 n ∧ toUint32 n < 2 ^ 32 := by
  unfold toUint32
  omega

theorem svToU64_range (x : Scalar) : 0 ≤ x.svToU64 ∧ x.svToU64 < 2 ^ 64 := by
  have hcast : ∀ v, 0 ≤ castUint64 v ∧ castUint64 v < 2 ^ 64 := by
    intro v
    unfold castUint64
    split
    · split <;> omega
    · omega
  have hbounded : ∀ n : ℤ, 0 ≤ (if |n| < 2 ^ 64 then n % 2 ^ 64 else 2 ^ 64 - 1) ∧
      (if |n| < 2 ^ 64 then n % 2 ^ 64 else 2 ^ 64 - 1) < 2 ^ 64 := by
    intro n
    split <;> omega
  unfold Scalar.svToU64
  by_cases hiok : x.iok = true
  · simp only [hiok, if_true, Scalar.svUV]
    omega
  · rw [if_neg hiok]
    cases x with
    | big n => exact hbounded n
    | str pv utf8 => exact hbounded _
    | undef => exact hcast (Scalar.svNV .undef)
    | nv v => exact hcast v
    | ref address => exact hcast (Scalar.svNV (.ref address))
    | iv n => exact absurd rfl hiok
    | uv n => exact absurd rfl hiok
    | yesNo b => exact absurd rfl hiok

/-- What the checked cases of the conversion make, if they make anything. -/
theorem eq_of_checked {check : Except Fault Unit} {u v : MessageValue}
    (h : (check >>= fun _ => .ok u) = .ok v) : u = v := by
  cases check with
  | error e => cases h
  | ok _ => exact Except.ok.inj h

theorem eq_of_guarded {numeric : Bool} {made : Except Fault MessageValue} {v : MessageValue}
    {x : Scalar} {expected : String} {f : FieldDef}
    (h : (if numeric then made else croakWrongType x expected f) = .ok v) : made = .ok v := by
  cases numeric with
  | false => cases h
  | true => exact h

section Conversion

variable (R : RepeatedField)

theorem isElement_of_convertScalar {x : Scalar} {v : MessageValue}
    (h : convertScalar R.fdef x = .ok v) : IsElement R.fdef.type (some v) := by
  unfold convertScalar at h
  cases ht : R.fdef.type with
  | int32 | sint32 | sfixed32 =>
      rw [ht] at h
      obtain rfl := eq_of_checked (eq_of_guarded h)
      exact ⟨rfl, toInt32_range _⟩
  | uint32 | fixed32 =>
      rw [ht] at h
      obtain rfl := eq_of_checked (eq_of_guarded h)
      exact ⟨rfl, toUint32_range _⟩
  | float =>
      rw [ht] at h
      obtain rfl := eq_of_checked (eq_of_guarded h)
      exact ⟨rfl, roundTo_idem _ _⟩
  | double =>
      rw [ht] at h
      obtain rfl := Except.ok.inj (eq_of_guarded h)
      rfl
  | bool =>
      rw [ht] at h
      obtain rfl := Except.ok.inj h
      rfl
  | int64 | sint64 | sfixed64 =>
      rw [ht] at h
      obtain rfl := eq_of_checked h
      rfl
  | uint64 | fixed64 =>
      rw [ht] at h
      obtain rfl := eq_of_checked h
      exact ⟨rfl, svToU64_range x⟩
  | string =>
      rw [ht] at h
      obtain rfl := Except.ok.inj (eq_of_guarded h)
      rfl
  | bytes =>
      rw [ht] at h
      have hmade := eq_of_guarded h
      cases hbyte : x.svPVbyte with
      | none => simp [hbyte] at hmade
      | some s =>
          simp only [hbyte] at hmade
          obtain rfl := Except.ok.inj hmade
          rfl
  | enum values =>
      rw [ht] at h
      simp only at h
      split at h
      · obtain rfl := Except.ok.inj h
        exact ⟨rfl, toInt32_range _⟩
      · have hmade := eq_of_guarded h
        cases values with
        | none => cases hmade
        | some values =>
            cases hfind : findValueByName values x.svPVutf8 with
            | none => simp [hfind] at hmade
            | some n =>
                simp only [hfind] at hmade
                obtain rfl := Except.ok.inj hmade
                obtain ⟨entry, hentry, rfl⟩ := Option.map_eq_some_iff.mp hfind
                exact ⟨rfl, R.enum_range values ht entry (List.mem_of_find?_eq_some hentry)⟩
  | message c =>
      rw [ht] at h
      cases h

/-- Anything but a message is converted as a scalar. -/
theorem convertSingular_of_scalarType (hscalar : ∀ c, R.fdef.type ≠ .message c) (sv : Sv) :
    convertSingular R.pool R.address R.fdef sv = convertScalar R.fdef (sv.view R.address) := by
  have hwith : ∀ populate, convertSingularWith R.address populate R.fdef sv =
      convertScalar R.fdef (sv.view R.address) := by
    intro populate
    unfold convertSingularWith
    cases ht : R.fdef.type with
    | message c => exact absurd ht (hscalar c)
    | _ => rfl
  cases sv <;> simp only [convertSingular, hwith]

/-- The messages that a message field takes are of its type. -/
theorem class_of_convertSingular {c : String} (ht : R.fdef.type = .message c) {sv : Sv}
    {v : MessageValue} (h : convertSingular R.pool R.address R.fdef sv = .ok v) :
    ∃ slots rest, v = .msg c slots rest := by
  cases sv with
  | hash es =>
      rw [convertSingular_hash ht] at h
      obtain ⟨slots, -, rfl⟩ := map_eq_ok.mp h
      exact ⟨slots, [], rfl⟩
  | message c' slots rest =>
      simp only [convertSingular, convertSingularWith, ht] at h
      split at h
      · obtain rfl := Except.ok.inj h
        exact ⟨slots, rest, by simp_all⟩
      · cases h
  | scalar x => cases x <;> simp [convertSingular, convertSingularWith, ht, croakWrongType] at h
  | _ => simp [convertSingular, convertSingularWith, ht] at h

/-- `PerlUpb_SvToUpb_Element` makes elements. -/
theorem isElement_of_convertSingular {sv : Sv} {v : MessageValue}
    (h : convertSingular R.pool R.address R.fdef sv = .ok v) :
    IsElement R.fdef.type (some v) := by
  by_cases hmessage : ∃ c, R.fdef.type = .message c
  · obtain ⟨c, ht⟩ := hmessage
    obtain ⟨slots, rest, rfl⟩ := class_of_convertSingular R ht h
    exact ht
  · rw [convertSingular_of_scalarType R (not_exists.mp hmessage)] at h
    exact isElement_of_convertScalar R h

/-- The elements that `STORE` takes back after `FETCH`: not a null pointer, and not a
`float` beyond the limit that the conversion has for them. -/
def Storable {t : FieldType} (e : Element t) : Prop :=
  match e.1 with
  | none => False
  | some (.float v) => passesFloat v = true
  | some _ => True

theorem isBatch_of_member {t : FieldType} {m : Member} (h : typeMember t = m)
    (hm : m ≠ .str ∧ m ≠ .msg) : isBatch t = true := by
  subst h
  cases t with
  | string => exact absurd rfl hm.1
  | bytes => exact absurd rfl hm.1
  | message c => exact absurd rfl hm.2
  | _ => rfl

/-- The types that the batch has too. -/
theorem convertScalar_of_typed {v : MessageValue}
    (hbatch : isBatch R.fdef.type = true)
    (htyped : Typed R.pool (fun _ => True) (.single R.fdef.type) v)
    (hfloat : ∀ w, v = .float w → passesFloat w = true) :
    convertScalar R.fdef (perlScalar R.fdef.type v) = .ok v := by
  have hbatchable := batchable_perlScalar htyped hbatch hfloat
  rw [((agrees_iff hbatch _).mpr hbatchable).1, batchOne_perlScalar htyped hbatch]

theorem convertScalar_perlScalar_of_element {v : MessageValue} (hv : v.isScalar = true)
    (h : IsElement R.fdef.type (some v)) (hfloat : ∀ w, v = .float w → passesFloat w = true) :
    convertScalar R.fdef (perlScalar R.fdef.type v) = .ok v := by
  cases v with
  | bool b => exact convertScalar_of_typed R (by rw [h]; rfl) (by rw [h, Typed]) hfloat
  | int32 n =>
      exact convertScalar_of_typed R (isBatch_of_member h.1 (by decide)) ⟨_, rfl, h⟩ hfloat
  | uint32 n =>
      exact convertScalar_of_typed R (isBatch_of_member h.1 (by decide)) ⟨_, rfl, h⟩ hfloat
  | uint64 n =>
      exact convertScalar_of_typed R (isBatch_of_member h.1 (by decide)) ⟨_, rfl, h⟩ hfloat
  | float w =>
      obtain ⟨ht, hround⟩ := h
      refine convertScalar_of_typed R (by rw [ht]; rfl) ⟨by rw [ht], ?_⟩ hfloat
      rintro q rfl
      exact FloatFormat.representable_of_round hround
  -- these members have no limits to pass
  | int64 n =>
      have hmember : typeMember R.fdef.type = .int64 := h
      unfold convertScalar
      cases ht : R.fdef.type with
      | int64 | sint64 | sfixed64 => rfl
      | _ =>
          rw [ht] at hmember
          cases hmember
  | double w =>
      have ht : R.fdef.type = .double := h
      unfold convertScalar
      rw [ht]
      rfl
  | str s =>
      have hmember : typeMember R.fdef.type = .str := h
      unfold convertScalar
      cases ht : R.fdef.type with
      | string | bytes => rfl
      | _ =>
          rw [ht] at hmember
          cases hmember
  | msg c slots rest => cases hv
  | array items => cases hv
  | map entries => cases hv

theorem member_of_isElement {t : FieldType} {v : MessageValue} (h : IsElement t (some v)) :
    v.member = typeMember t := by
  cases v with
  | bool | double | msg =>
      obtain rfl := h
      rfl
  | float =>
      obtain rfl := h.1
      rfl
  | int32 | uint32 | uint64 => exact h.1.symm
  | int64 | str => exact h.symm
  | array => exact absurd h id
  | map => exact absurd h id

/-- What was fetched can be stored again. -/
theorem convertSingular_elementSv {e : Element R.fdef.type} (h : Storable e) :
    ∃ v, e.1 = some v ∧ convertSingular R.pool R.address R.fdef (elementSv e) = .ok v := by
  obtain ⟨slot, helement⟩ := e
  cases slot with
  | none => exact absurd h id
  | some v =>
      refine ⟨v, rfl, ?_⟩
      cases hv : v.isScalar with
      | true =>
          have hscalar : ∀ c, R.fdef.type ≠ .message c := by
            intro c ht
            have hmember := member_of_isElement helement
            rw [ht] at hmember
            cases v <;> cases hmember
            cases hv
          have hsv : elementSv (⟨some v, helement⟩ : Element R.fdef.type) =
              .scalar (perlScalar R.fdef.type v) := by
            cases v <;> first | rfl | cases hv
          rw [hsv, convertSingular_of_scalarType R hscalar]
          refine convertScalar_perlScalar_of_element R hv helement ?_
          rintro w rfl
          exact h
      | false =>
          cases v with
          | msg c slots rest =>
              have ht : R.fdef.type = .message c := helement
              simp [elementSv, convertSingular, convertSingularWith, ht]
          | array => exact absurd helement id
          | map => exact absurd helement id
          | _ => cases hv

end Conversion

/-! ### The hooks -/

/-- The errors of `xs/repeated/repeated.c`. -/
inductive RepeatedError where
  /-- raised in the conversion -/
  | convert (e : Fault)
  /-- Index out of bounds for repeated field -/
  | outOfBounds
  /-- Index out of bounds for repeated field insert -/
  | outOfBoundsInsert
  /-- Negative size for repeated field resize -/
  | negativeSize

namespace RepeatedField

variable (R : RepeatedField)

/-- `upb_Array` -/
abbrev Items := List (Element R.fdef.type)

/-- `PerlUpb_SvToUpb_Element` -/
def convertElement (sv : Sv) : Except Fault (Element R.fdef.type) :=
  match h : convertSingular R.pool R.address R.fdef sv with
  | .ok v => .ok ⟨some v, isElement_of_convertSingular R h⟩
  | .error e => .error e

/-- `PerlUpb_Repeated_GetItem` -/
def getItem (i : ℤ) : EStateM RepeatedError R.Items Sv := fun a =>
  if i < 0 ∨ a.length ≤ i then .ok (.scalar .undef) a
  else .ok ((a[i.toNat]?.map elementSv).getD (.scalar .undef)) a

/-- `PerlUpb_Repeated_SetItem` -/
def setItem (i : ℤ) (sv : Sv) : EStateM RepeatedError R.Items Unit := fun a =>
  if i < 0 ∨ a.length ≤ i then .error .outOfBounds a
  else
    match R.convertElement sv with
    | .error e => .error (.convert e) a
    | .ok v => .ok () (a.set i.toNat v)

/-- `PerlUpb_Repeated_Append` -/
def append (sv : Sv) : EStateM RepeatedError R.Items Unit := fun a =>
  match R.convertElement sv with
  | .error e => .error (.convert e) a
  | .ok v => .ok () (a ++ [v])

/-- `PerlUpb_Repeated_Delete` -/
def delete (i count : ℤ) : EStateM RepeatedError R.Items Unit := fun a =>
  if i < 0 ∨ a.length < i then .ok () a
  else
    let count := if a.length < i + count then a.length - i else count
    if count ≤ 0 then .ok () a
    else .ok () (a.take i.toNat ++ a.drop (i.toNat + count.toNat))

/-- `PerlUpb_Repeated_Insert`: the slot is made first, and stays, with what the memory
held, when the conversion croaks. -/
def insert (i : ℤ) (sv : Sv) : EStateM RepeatedError R.Items Unit := fun a =>
  if i < 0 ∨ a.length < i then .error .outOfBoundsInsert a
  else
    let slotMade (v : Element R.fdef.type) := a.take i.toNat ++ v :: a.drop i.toNat
    match R.convertElement sv with
    | .error e => .error (.convert e) (slotMade (a[i.toNat]?.getD R.fresh))
    | .ok v => .ok () (slotMade v)

/-- `PerlUpb_Repeated_Resize` -/
def resize (n : ℤ) : EStateM RepeatedError R.Items Unit := fun a =>
  if n < 0 then .error .negativeSize a
  else .ok () (resizeTo (zeroElement R.fdef.type) a n.toNat)

/-- `PerlUpb_Repeated_Size` -/
def size : EStateM RepeatedError R.Items ℕ := fun a => .ok a.length a

/-- The loop of `PUSH`. -/
def push : List Sv → EStateM RepeatedError R.Items Unit
  | [] => pure ()
  | sv :: svs => do
      R.append sv
      push svs

/-- The loop of `UNSHIFT`, over the values in reverse. -/
def unshift : List Sv → EStateM RepeatedError R.Items Unit
  | [] => pure ()
  | sv :: svs => do
      R.insert 0 sv
      unshift svs

/-- `POP` and `SHIFT`: one item is read and deleted. -/
def take (index : ℕ → ℤ) : EStateM RepeatedError R.Items Sv := do
  let size ← R.size
  if size = 0 then return .scalar .undef
  else
    let sv ← R.getItem (index size)
    R.delete (index size) 1
    return sv

/-- The methods of the class. -/
def hooks : Hooks Sv RepeatedError R.Items where
  fetch := R.getItem
  store := R.setItem
  fetchSize := R.size
  storeSize := R.resize
  clear := R.resize 0
  push := R.push
  pop := R.take fun size => size - 1
  shift := R.take fun _ => 0
  unshift svs := R.unshift svs.reverse
  splice := tieArraySplice R.getItem R.setItem R.size R.resize

/-- The form in which a value is read back, if it is taken. -/
def accept (sv : Sv) : Option Sv := (R.convertElement sv).toOption.map elementSv

/-- The container as something that answers array operations. -/
def array : ArrayLike where
  V := Sv
  σ := R.Items
  undef := .scalar .undef
  step := R.hooks.apply (.scalar .undef)
  view a := a.map elementSv
  accept := R.accept

/-- A `splice` that the class can do: of a range that lies in the array, with no more
values than are removed, and behind it, if that is moved, only elements that can
be stored again. -/
def SpliceFits (a : R.Items) (args : SpliceArgs Sv) : Prop :=
  let off := spliceOffset a.length args
  let len := spliceLength a.length off args
  0 ≤ off ∧ off + len ≤ a.length ∧ args.values.length ≤ len ∧
    (args.values.length < len → ∀ e ∈ a.drop (off + len).toNat, Storable e)

/-- The operations that do not ask for a slot past the end. -/
def Fits (a : R.Items) : ArrayOp Sv → Prop
  | .store i _ => i < a.length
  | .assign svs => svs = []
  | .splice args => R.SpliceFits a args
  | _ => True

/-! ### The tied array as an array -/

variable {R}

theorem convertElement_of_ok {sv : Sv} {v : MessageValue}
    (h : convertSingular R.pool R.address R.fdef sv = .ok v) :
    R.convertElement sv = .ok ⟨some v, isElement_of_convertSingular R h⟩ := by
  unfold convertElement
  split
  · rename_i w hw
    obtain rfl := Except.ok.inj (h.symm.trans hw)
    rfl
  · rename_i e he
    cases h.symm.trans he

theorem accept_eq_some {sv w : Sv} :
    R.accept sv = some w ↔ ∃ e, R.convertElement sv = .ok e ∧ elementSv e = w := by
  unfold accept
  cases R.convertElement sv with
  | error e => simp [Except.toOption]
  | ok v => simp [Except.toOption]

theorem accept_storable {e : Element R.fdef.type} (h : Storable e) :
    R.accept (elementSv e) = some (elementSv e) := by
  obtain ⟨v, hv, hconvert⟩ := convertSingular_elementSv R h
  obtain ⟨slot, helement⟩ := e
  subst hv
  exact accept_eq_some.mpr ⟨_, convertElement_of_ok hconvert, rfl⟩

/-- The form in which a value is read back. -/
def accepted (R : RepeatedField) (sv : Sv) : Sv := (R.accept sv).getD sv

/-- The elements that legal values become. -/
theorem exists_elements {svs : List Sv} (h : ∀ sv ∈ svs, (R.accept sv).isSome = true) :
    ∃ es : R.Items, List.Forall₂ (fun sv e => R.convertElement sv = .ok e) svs es ∧
      es.map elementSv = svs.map R.accepted := by
  induction svs with
  | nil => exact ⟨[], .nil, rfl⟩
  | cons sv svs ih =>
      rw [List.forall_mem_cons] at h
      obtain ⟨w, hw⟩ := Option.isSome_iff_exists.mp h.1
      obtain ⟨e, he, rfl⟩ := accept_eq_some.mp hw
      obtain ⟨es, hes, hview⟩ := ih h.2
      refine ⟨e :: es, .cons he hes, ?_⟩
      simp [hview, accepted, hw]

theorem getItem_eq {a : R.Items} {k : ℕ} :
    R.getItem k a = .ok ((a.map elementSv)[k]?.getD (.scalar .undef)) a := by
  unfold getItem
  by_cases hk : a.length ≤ k
  · rw [if_pos (by omega), List.getElem?_eq_none (by simpa using hk)]
    rfl
  · rw [if_neg (by omega)]
    simp

theorem setItem_eq {a : R.Items} {k : ℕ} {sv : Sv} {e : Element R.fdef.type} (hk : k < a.length)
    (he : R.convertElement sv = .ok e) : R.setItem k sv a = .ok () (a.set k e) := by
  unfold setItem
  rw [if_neg (by omega), he]
  rfl

theorem resize_eq {a : R.Items} {n : ℕ} (h : n ≤ a.length) : R.resize n a = .ok () (a.take n) := by
  unfold resize
  rw [if_neg (by omega), Int.toNat_natCast, resizeTo_of_le _ h]

/-- Enough for `Tie::Array::SPLICE`. -/
theorem shrinking :
    Shrinking R.getItem R.setItem R.size R.resize R.accept (List.map elementSv) where
  fetchSize_eq a := by simp [size]
  fetch_eq a k v h := by
    rw [getItem_eq, h]
    rfl
  store_eq a k sv w hk h := by
    obtain ⟨e, he, rfl⟩ := accept_eq_some.mp h
    exact ⟨a.set k e, setItem_eq (by simpa using hk) he, List.map_set⟩
  storeSize_eq a n h := ⟨a.take n, resize_eq (by simpa using h), List.map_take⟩

theorem push_eq {svs : List Sv} {es : R.Items}
    (h : List.Forall₂ (fun sv e => R.convertElement sv = .ok e) svs es) (a : R.Items) :
    R.push svs a = .ok () (a ++ es) := by
  induction h generalizing a with
  | nil => simp [push, pure, EStateM.pure]
  | @cons sv e svs es he _ ih =>
      have happend : R.append sv a = .ok () (a ++ [e]) := by simp [append, he]
      rw [push, bind_of_ok happend, ih]
      simp

theorem unshift_eq {svs : List Sv} {es : R.Items}
    (h : List.Forall₂ (fun sv e => R.convertElement sv = .ok e) svs es) (a : R.Items) :
    R.unshift svs a = .ok () (es.reverse ++ a) := by
  induction h generalizing a with
  | nil => simp [unshift, pure, EStateM.pure]
  | @cons sv e svs es he _ ih =>
      have hinsert : R.insert 0 sv a = .ok () (e :: a) := by
        unfold insert
        rw [if_neg (by omega)]
        simp [he]
      rw [unshift, bind_of_ok hinsert, ih]
      simp

theorem delete_one {a : R.Items} {k : ℕ} (hk : k < a.length) :
    R.delete k 1 a = .ok () (a.eraseIdx k) := by
  unfold delete
  rw [if_neg (by omega)]
  simp only [show ¬(a.length : ℤ) < k + 1 by omega, if_false]
  rw [if_neg (by omega), List.eraseIdx_eq_take_drop_succ]
  rfl

/-- One item is taken out. -/
theorem take_eq {a : R.Items} {i : ℕ → ℤ} {k : ℕ} (hk : k < a.length) (hi : i a.length = k) :
    R.take i a = .ok ((a.map elementSv)[k]?.getD (.scalar .undef)) (a.eraseIdx k) := by
  have hsize : R.size a = .ok a.length a := rfl
  rw [take, bind_of_ok hsize, if_neg (by omega), hi, bind_of_ok getItem_eq,
    bind_of_ok (delete_one hk)]
  rfl

/-- The class answers an operation as an ordinary array would. -/
def Answers (R : RepeatedField) (a : R.Items) (op : ArrayOp Sv) : Prop :=
  ∃ r b, R.hooks.call (.scalar .undef) op a = .ok r b ∧
    (op.map R.accepted).apply (.scalar .undef) (a.map elementSv) = (b.map elementSv, r)

theorem hooks_fetchSize (a : R.Items) : R.hooks.fetchSize a = .ok a.length a := rfl

theorem answers_store {a : R.Items} {i : ℤ} {sv : Sv} (hsv : (R.accept sv).isSome = true)
    (hi : i < a.length) : R.Answers a (.store i sv) := by
  simp only [Answers, ArrayOp.map, ArrayOp.apply, List.length_map]
  cases hslot : slotOf a.length i with
  | none => exact ⟨_, _, Hooks.call_store_before (hooks_fetchSize a) _ hslot sv, rfl⟩
  | some k =>
      have hk : k < a.length := by
        have hk := slotOf_eq_some.mp hslot
        omega
      obtain ⟨w, hw⟩ := Option.isSome_iff_exists.mp hsv
      obtain ⟨e, he, rfl⟩ := accept_eq_some.mp hw
      have hstore : R.hooks.store k sv a = .ok () (a.set k e) := setItem_eq hk he
      refine ⟨.done, a.set k e, ?_, ?_⟩
      · rw [Hooks.call_store (hooks_fetchSize a) _ hslot, bind_of_ok hstore]
        rfl
      · simp only
        rw [storeSlot_of_lt _ (by simpa using hk), List.map_set]
        simp [accepted, hw]

theorem answers_push {a : R.Items} {svs : List Sv}
    (h : ∀ sv ∈ svs, (R.accept sv).isSome = true) : R.Answers a (.push svs) := by
  obtain ⟨es, hes, hview⟩ := exists_elements h
  have hpush : R.hooks.push svs a = .ok () (a ++ es) := push_eq hes a
  refine ⟨.count (a ++ es).length, a ++ es, ?_, ?_⟩
  · rw [Hooks.call, bind_of_ok hpush, bind_of_ok (hooks_fetchSize _)]
    rfl
  · simp [ArrayOp.map, ArrayOp.apply, hview, hes.length_eq]

theorem answers_unshift {a : R.Items} {svs : List Sv}
    (h : ∀ sv ∈ svs, (R.accept sv).isSome = true) : R.Answers a (.unshift svs) := by
  obtain ⟨es, hes, hview⟩ := exists_elements h
  have hunshift : R.hooks.unshift svs a = .ok () (es ++ a) := by
    have hreverse := unshift_eq (List.rel_reverse hes) a
    rw [List.reverse_reverse] at hreverse
    exact hreverse
  refine ⟨.count (es ++ a).length, es ++ a, ?_, ?_⟩
  · rw [Hooks.call, bind_of_ok hunshift, bind_of_ok (hooks_fetchSize _)]
    rfl
  · simp [ArrayOp.map, ArrayOp.apply, hview, hes.length_eq, Nat.add_comm]

theorem answers_pop (a : R.Items) : R.Answers a .pop := by
  rcases List.eq_nil_or_concat a with rfl | ⟨a', e, rfl⟩
  · exact ⟨_, _, rfl, rfl⟩
  · have hpop : R.hooks.pop (a' ++ [e]) = .ok (elementSv e) a' := by
      have htake := take_eq (a := a' ++ [e]) (i := fun n => n - 1) (k := a'.length) (by simp)
        (by simp)
      have herase : (a' ++ [e]).eraseIdx a'.length = a' := by
        simp [List.eraseIdx_append_of_length_le]
      have hitem : ((a' ++ [e]).map elementSv)[a'.length]?.getD (.scalar .undef) = elementSv e := by
        simp
      rw [herase, hitem] at htake
      exact htake
    refine ⟨.value (elementSv e), a', ?_, ?_⟩
    · rw [List.concat_eq_append, Hooks.call, bind_of_ok hpop]
      rfl
    · simp [ArrayOp.map, ArrayOp.apply]

theorem answers_shift (a : R.Items) : R.Answers a .shift := by
  cases a with
  | nil => exact ⟨_, _, rfl, rfl⟩
  | cons e a =>
      have hshift : R.hooks.shift (e :: a) = .ok (elementSv e) a :=
        take_eq (a := e :: a) (i := fun _ => 0) (k := 0) (by simp) rfl
      refine ⟨.value (elementSv e), a, ?_, ?_⟩
      · rw [Hooks.call, bind_of_ok hshift]
        rfl
      · simp [ArrayOp.map, ArrayOp.apply]

theorem answers_resize {a : R.Items} {n : ℕ} (h : n ≤ a.length) : R.Answers a (.resize n) := by
  have hresize : R.hooks.storeSize n a = .ok () (a.take n) := resize_eq h
  refine ⟨.done, a.take n, ?_, ?_⟩
  · rw [Hooks.call, bind_of_ok hresize]
    rfl
  · simp only [ArrayOp.map, ArrayOp.apply]
    rw [resizeTo_of_le _ (by simpa using h), List.map_take]

theorem answers_clear (a : R.Items) : R.Answers a .clear := by
  have hclear : R.hooks.clear a = .ok () (a.take 0) := resize_eq (n := 0) (by simp)
  refine ⟨.done, a.take 0, ?_, ?_⟩
  · rw [Hooks.call, bind_of_ok hclear]
    rfl
  · simp [ArrayOp.map, ArrayOp.apply]

theorem answers_fetch (a : R.Items) (i : ℤ) : R.Answers a (.fetch i) := by
  simp only [Answers, ArrayOp.map, ArrayOp.apply, List.length_map]
  cases hslot : slotOf a.length i with
  | none => exact ⟨_, _, Hooks.call_fetch_before (hooks_fetchSize a) _ hslot, rfl⟩
  | some k =>
      have hfetch : R.hooks.fetch k a =
          .ok ((a.map elementSv)[k]?.getD (.scalar .undef)) a := getItem_eq
      refine ⟨_, a, ?_, rfl⟩
      rw [Hooks.call_fetch (hooks_fetchSize a) _ hslot, bind_of_ok hfetch]
      rfl

theorem answers_splice {a : R.Items} {args : SpliceArgs Sv}
    (h : ∀ sv ∈ args.values, (R.accept sv).isSome = true) (hfits : R.SpliceFits a args) :
    R.Answers a (.splice args) := by
  obtain ⟨hoff, hend, hfew, hmoved⟩ := hfits
  obtain ⟨o, ho⟩ := Int.eq_ofNat_of_zero_le hoff
  rw [ho] at hend hfew hmoved
  obtain ⟨l, hl⟩ := Int.eq_ofNat_of_zero_le (show 0 ≤ spliceLength a.length o args by omega)
  rw [hl] at hend hfew hmoved
  have hlength : (a.map elementSv).length = a.length := List.length_map _
  have hol : o + l ≤ (a.map elementSv).length := by omega
  rw [← hlength] at ho hl
  have hws : args.values.map R.accept = (args.values.map R.accepted).map some := by
    rw [List.map_map]
    refine List.map_congr_left fun sv hsv => ?_
    obtain ⟨w, hw⟩ := Option.isSome_iff_exists.mp (h sv hsv)
    simp [accepted, hw]
  have hmoved : args.values.length < l → ∀ v ∈ (a.map elementSv).drop (o + l),
      R.accept v = some v := by
    intro hlt v hv
    rw [← List.map_drop] at hv
    obtain ⟨e, he, rfl⟩ := List.mem_map.mp hv
    have hnat : ((o : ℤ) + l).toNat = o + l := by omega
    exact accept_storable (hmoved (by omega) e (by rwa [hnat]))
  obtain ⟨b, hsplice, hview⟩ := shrinking.tieArraySplice_eq ho hl hol (by omega) hws hmoved
  refine ⟨.values (((a.map elementSv).drop o).take l), b, ?_, ?_⟩
  · have hcall : R.hooks.splice args a = .ok (((a.map elementSv).drop o).take l) b := hsplice
    rw [Hooks.call, bind_of_ok hcall]
    rfl
  · rw [hview]
    simp only [ArrayOp.map, ArrayOp.apply]
    rw [splice_of_range (by simpa using ho) (by simpa using hl) hol, SpliceArgs.values_map]

/-- One operation that fits, with values that are taken. -/
theorem answers_of_fits {a : R.Items} {op : ArrayOp Sv}
    (hvalues : ∀ sv ∈ op.values, (R.accept sv).isSome = true) (hreach : op.Reaches a.length)
    (hfits : R.Fits a op) : R.Answers a op := by
  cases op with
  | store i sv => exact answers_store (hvalues sv List.mem_cons_self) hfits
  | assign svs =>
      obtain rfl : svs = [] := hfits
      obtain ⟨r, b, hcall, happly⟩ := answers_clear a
      exact ⟨r, b, hcall, happly⟩
  | push svs => exact answers_push hvalues
  | pop => exact answers_pop a
  | shift => exact answers_shift a
  | unshift svs => exact answers_unshift hvalues
  | splice args => exact answers_splice hvalues hfits
  | resize n => exact answers_resize hreach
  | clear => exact answers_clear a
  | fetch i => exact answers_fetch a i
  | length => exact ⟨.count a.length, a, rfl, by simp [ArrayOp.map, ArrayOp.apply]⟩

theorem array_step {a : R.Items} {op : ArrayOp Sv} (hlegal : R.array.Legal a op)
    (hfits : R.Fits a op) :
    (R.array.view (R.array.step a op).1, (R.array.step a op).2) =
      (op.map R.array.accepted).apply R.array.undef (R.array.view a) := by
  have hreach : op.Reaches (a.map elementSv).length := hlegal.2
  rw [List.length_map] at hreach
  obtain ⟨r, b, hcall, happly⟩ := answers_of_fits hlegal.1 hreach hfits
  have hstep : R.array.step a op = (b, r) := Hooks.apply_of_ok hcall
  rw [hstep]
  exact happly.symm

end RepeatedField

end GooglePerl.Xs
