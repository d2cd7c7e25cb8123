import GooglePerl.Xs.Limits
import Mathlib.Data.List.Forall2

/-!
The two ways in which `sv_to_upb.c` converts the elements of a repeated scalar
field: one by one, with the checks of `convert_singular_sv_to_upb`, or, for an
array that is not tied, in a batch without any.
-/

namespace GooglePerl.Xs

open GooglePerl.Lib GooglePerl.Protobuf FloatFormat

/-- What the batch stores for one element. -/
def batchOne (t : FieldType) (x : Scalar) : MessageValue :=
  match t with
  | .bool => .bool x.svTRUE
  | .int32 | .sint32 | .sfixed32 | .enum _ => .int32 (toInt32 x.svIV)
  | .uint32 | .fixed32 => .uint32 (toUint32 x.svUV)
  | .float => .float (roundTo .single x.svNV)
  | .double => .double x.svNV
  | .int64 | .sint64 | .sfixed64 => .int64 x.svToI64
  | .uint64 | .fixed64 => .uint64 x.svToU64
  | .string | .bytes | .message _ => .array []

theorem batchRaw_eq {t : FieldType} (h : isBatch t = true) (xs : List Scalar) :
    batchRaw xs t = .ok (xs.map (batchOne t)) := by
  cases t <;> first | rfl | cases h

/-- A number that the type does not have. The floating types have infinities and
NaN; an enum takes names, so only integers can be out of its range. -/
def OutOfRange (t : FieldType) (x : Scalar) : Prop :=
  match t with
  | .int32 | .sint32 | .sfixed32 => x.number ≠ none ∧ ¬ InRange (-2 ^ 31) (2 ^ 31 - 1) x
  | .uint32 | .fixed32 => x.number ≠ none ∧ ¬ InRange 0 (2 ^ 32 - 1) x
  | .int64 | .sint64 | .sfixed64 => x.number ≠ none ∧ ¬ InRange (-2 ^ 63) (2 ^ 63 - 1) x
  | .uint64 | .fixed64 => x.number ≠ none ∧ ¬ InRange 0 (2 ^ 64 - 1) x
  | .float => ∃ q, x.number = some (.fin q) ∧ single.max < |q|
  | .double => ∃ q, x.number = some (.fin q) ∧ double.max < |q|
  | .enum _ => x.iok = true ∧ ¬ InRange (-2 ^ 31) (2 ^ 31 - 1) x
  | .bool | .string | .bytes | .message _ => False

/-- The types whose values are numbers and nothing else. -/
def isNumber : FieldType → Bool
  | .bool | .enum _ | .string | .bytes | .message _ => false
  | _ => true

/-- Elements that both ways are to refuse. -/
def MustRefuse (t : FieldType) (x : Scalar) : Prop :=
  x = .undef ∨ (isNumber t = true ∧ x.number = none) ∨ OutOfRange t x

section

variable (S : DefPool) (address : Sv → ℕ)

/-- The batch accepts an array exactly if each element would be accepted, and
stores what each would have been converted to; what must be refused is refused
both ways, and the names of an enum are resolved both ways. -/
def BatchAgrees (f : FieldDef) (xs : List Scalar) : Prop :=
  let whole := svToUpb S address f (.array (xs.map .scalar))
  let one (x : Scalar) := convertSingular S address f (.scalar x)
  ((∃ v, whole = .ok v) ↔ ∀ x ∈ xs, ∃ v, one x = .ok v) ∧
    (∀ v, whole = .ok v → ∃ us, v = .array us ∧ List.Forall₂ (fun x u => one x = .ok u) xs us) ∧
    (∀ x ∈ xs, MustRefuse f.type x → (∀ v, one x ≠ .ok v) ∧ ∀ v, whole ≠ .ok v) ∧
    ∀ values, f.type = .enum (some values) → ∀ (i : ℕ) (pv : PerlStr) (utf8 : Bool) (n : ℤ),
      xs[i]? = some (.str pv utf8) →
      findValueByName values (Scalar.str pv utf8).svPVutf8 = some n →
      one (.str pv utf8) = .ok (.int32 n) ∧
        ∀ us, whole = .ok (.array us) → us[i]? = some (.int32 n)

end

/-- The elements on which both ways do the same, and the right thing: for a
number a number in the range of the type (and not a `Math::BigInt`, which only
the 64-bit types take); for an enum an integer in range, or the name of a value
that is the number which the text of the name is for Perl. -/
def Batchable (t : FieldType) (x : Scalar) : Prop :=
  match t with
  | .bool => x ≠ .undef
  | .int32 | .sint32 | .sfixed32 => x.isNumeric = true ∧ InRange (-2 ^ 31) (2 ^ 31 - 1) x
  | .uint32 | .fixed32 => x.isNumeric = true ∧ InRange 0 (2 ^ 32 - 1) x
  | .int64 | .sint64 | .sfixed64 => InRange (-2 ^ 63) (2 ^ 63 - 1) x
  | .uint64 | .fixed64 => InRange 0 (2 ^ 64 - 1) x
  | .float => x.isNumeric = true ∧ passesFloat x.svNV = true
  | .double => x.isNumeric = true ∧ ∀ q, x.number = some (.fin q) → |q| ≤ double.max
  | .enum values =>
      (x.iok = true ∧ InRange (-2 ^ 31) (2 ^ 31 - 1) x) ∨
        ∃ pv utf8 names, x = .str pv utf8 ∧ values = some names ∧
          findValueByName names x.svPVutf8 = some (toInt32 x.svIV)
  | .string | .bytes | .message _ => False

/-! ### One element -/

theorem InRange.number {lo hi : ℚ} {x : Scalar} (h : InRange lo hi x) : x.number ≠ none := by
  obtain ⟨q, hq, -⟩ := h
  simp [hq]

/-- For a type of integers, what must be refused is what is not a number in range. -/
theorem mustRefuse_integer {t : FieldType} {x : Scalar} {lo hi : ℚ} (ht : isNumber t = true)
    (hrange : OutOfRange t x ↔ x.number ≠ none ∧ ¬ InRange lo hi x) :
    MustRefuse t x ↔ ¬ InRange lo hi x := by
  constructor
  · rintro (rfl | ⟨-, hnone⟩ | hout)
    · exact fun h => h.number rfl
    · exact fun h => h.number hnone
    · exact (hrange.mp hout).2
  · intro h
    by_cases hnone : x.number = none
    · exact .inr (.inl ⟨ht, hnone⟩)
    · exact .inr (.inr (hrange.mpr ⟨hnone, h⟩))

/-- The form that most cases of the conversion have. -/
theorem guarded_eq_ok {numeric : Bool} {check : Except Fault Unit} {v : MessageValue} {x : Scalar}
    {expected : String} {f : FieldDef} :
    (if numeric then (check >>= fun _ => .ok v) else croakWrongType x expected f) = .ok v ↔
      numeric = true ∧ check = .ok () := by
  cases numeric with
  | false => simp [croakWrongType]
  | true =>
      cases check with
      | error e => simp [Bind.bind, Except.bind]
      | ok u => simp [Bind.bind, Except.bind]

/-- The 32-bit types. -/
theorem checked_iff {x : Scalar} {f : FieldDef} {lo hi : ℚ} {v : MessageValue} {expected : String}
    (hlo : double.Representable lo) (hhi : double.Representable hi)
    (hrefuse : MustRefuse f.type x ↔ ¬ InRange lo hi x) :
    ((if x.isNumeric then (verifyLimits x f (.fin lo) (.fin hi) >>= fun _ => .ok v)
        else croakWrongType x expected f) = .ok v ∧ ¬ MustRefuse f.type x) ↔
      x.isNumeric = true ∧ InRange lo hi x := by
  rw [guarded_eq_ok, hrefuse, not_not]
  constructor
  · rintro ⟨⟨hnumeric, -⟩, hrange⟩
    exact ⟨hnumeric, hrange⟩
  · rintro ⟨hnumeric, hrange⟩
    exact ⟨⟨hnumeric, verifyLimits_of_inRange f hlo hhi hrange⟩, hrange⟩

theorem agrees_int32 {f : FieldDef} {x : Scalar}
    (h : f.type = .int32 ∨ f.type = .sint32 ∨ f.type = .sfixed32) :
    (convertScalar f x = .ok (batchOne f.type x) ∧ ¬ MustRefuse f.type x) ↔
      Batchable f.type x := by
  obtain ⟨name, number, t, label⟩ := f
  rcases h with rfl | rfl | rfl
  all_goals exact checked_iff double_int32Min double_int32Max (mustRefuse_integer rfl Iff.rfl)

theorem agrees_uint32 {f : FieldDef} {x : Scalar} (h : f.type = .uint32 ∨ f.type = .fixed32) :
    (convertScalar f x = .ok (batchOne f.type x) ∧ ¬ MustRefuse f.type x) ↔
      Batchable f.type x := by
  obtain ⟨name, number, t, label⟩ := f
  rcases h with rfl | rfl
  all_goals exact checked_iff double_zero double_uint32Max (mustRefuse_integer rfl Iff.rfl)

/-- The signed 64-bit types check nothing. -/
theorem agrees_int64 {f : FieldDef} {x : Scalar}
    (h : f.type = .int64 ∨ f.type = .sint64 ∨ f.type = .sfixed64) :
    (convertScalar f x = .ok (batchOne f.type x) ∧ ¬ MustRefuse f.type x) ↔
      Batchable f.type x := by
  have hcheck : verifyLimits64 x f true = .ok () := by cases x <;> rfl
  have hconvert : convertScalar f x = .ok (batchOne f.type x) := by
    rcases h with h | h | h <;> simp [convertScalar, batchOne, h, hcheck, Bind.bind, Except.bind]
  have hrefuse : MustRefuse f.type x ↔ ¬ Batchable f.type x := by
    rcases h with h | h | h <;> rw [h] <;> exact mustRefuse_integer rfl Iff.rfl
  rw [hrefuse, not_not]
  exact and_iff_right hconvert

/-- The unsigned ones refuse negative integers and doubles. -/
theorem agrees_uint64 {f : FieldDef} {x : Scalar} (h : f.type = .uint64 ∨ f.type = .fixed64) :
    (convertScalar f x = .ok (batchOne f.type x) ∧ ¬ MustRefuse f.type x) ↔
      Batchable f.type x := by
  have hrefuse : MustRefuse f.type x ↔ ¬ Batchable f.type x := by
    rcases h with h | h <;> rw [h] <;> exact mustRefuse_integer rfl Iff.rfl
  rw [hrefuse, not_not]
  refine and_iff_right_of_imp fun hrange => ?_
  have hcheck : verifyLimits64 x f false = .ok () := by
    rcases h with h | h <;> rw [h] at hrange <;> exact verifyLimits64_of_inRange f hrange
  rcases h with h | h <;> simp [convertScalar, batchOne, h, hcheck, Bind.bind, Except.bind]

theorem agrees_bool {f : FieldDef} {x : Scalar} (h : f.type = .bool) :
    (convertScalar f x = .ok (batchOne f.type x) ∧ ¬ MustRefuse f.type x) ↔
      Batchable f.type x := by
  simp [convertScalar, batchOne, Batchable, MustRefuse, OutOfRange, isNumber, h]

theorem convertScalar_float {f : FieldDef} {x : Scalar} (h : f.type = .float) :
    convertScalar f x = .ok (batchOne f.type x) ↔ Batchable f.type x := by
  obtain ⟨name, number, t, label⟩ := f
  obtain rfl : t = .float := h
  exact guarded_eq_ok.trans (and_congr_right fun _ => verifyLimits_float x _)

theorem agrees_float {f : FieldDef} {x : Scalar} (h : f.type = .float) :
    (convertScalar f x = .ok (batchOne f.type x) ∧ ¬ MustRefuse f.type x) ↔
      Batchable f.type x := by
  rw [convertScalar_float h, h]
  refine and_iff_left_of_imp ?_
  rintro ⟨hnumeric, hpass⟩ (rfl | ⟨-, hnone⟩ | ⟨q, hq, hlarge⟩)
  · exact Scalar.number_of_isNumeric hnumeric rfl
  · exact Scalar.number_of_isNumeric hnumeric hnone
  · rw [x.not_passesFloat hq hlarge.le] at hpass
    cases hpass

theorem agrees_double {f : FieldDef} {x : Scalar} (h : f.type = .double) :
    (convertScalar f x = .ok (batchOne f.type x) ∧ ¬ MustRefuse f.type x) ↔
      Batchable f.type x := by
  have hconvert : convertScalar f x = .ok (batchOne f.type x) ↔ x.isNumeric = true := by
    cases hnumeric : x.isNumeric <;> simp [convertScalar, batchOne, h, hnumeric, croakWrongType]
  rw [hconvert, h]
  refine and_congr_right fun hnumeric => ?_
  constructor
  · intro hrefuse q hq
    exact not_lt.mp fun hlarge => hrefuse (.inr (.inr ⟨q, hq, hlarge⟩))
  · rintro hrange (rfl | ⟨-, hnone⟩ | ⟨q, hq, hlarge⟩)
    · exact Scalar.number_of_isNumeric hnumeric rfl
    · exact Scalar.number_of_isNumeric hnumeric hnone
    · exact absurd (hrange q hq) (not_le.mpr hlarge)

/-- An enum takes integers of any size one by one, and names; the batch takes
names for numbers. -/
theorem agrees_enum {f : FieldDef} {x : Scalar} {values : Option (List (PerlStr × ℤ))}
    (h : f.type = .enum values) :
    (convertScalar f x = .ok (batchOne f.type x) ∧ ¬ MustRefuse f.type x) ↔
      Batchable f.type x := by
  by_cases hiok : x.iok = true
  · have hconvert : convertScalar f x = .ok (batchOne f.type x) := by
      simp [convertScalar, batchOne, h, hiok]
    have hne : x ≠ .undef := by
      rintro rfl
      cases hiok
    have hstr : ∀ pv utf8, x ≠ .str pv utf8 := by
      rintro pv utf8 rfl
      cases hiok
    simp only [hconvert, true_and]
    simp [MustRefuse, OutOfRange, Batchable, isNumber, h, hiok, hne, hstr]
  cases x with
  | str pv utf8 =>
      cases values with
      | none => simp [convertScalar, Batchable, h, hiok, Scalar.pok]
      | some names =>
          cases hfind : findValueByName names (Scalar.str pv utf8).svPVutf8 with
          | none => simp [convertScalar, Batchable, h, hiok, Scalar.pok, hfind]
          | some n =>
              simp [convertScalar, Batchable, MustRefuse, OutOfRange, isNumber, batchOne, h, hiok,
                Scalar.pok, hfind]
  | iv n => exact absurd rfl hiok
  | uv n => exact absurd rfl hiok
  | yesNo b => exact absurd rfl hiok
  | undef => simp [convertScalar, Batchable, h, Scalar.iok, Scalar.pok, croakWrongType]
  | nv v => simp [convertScalar, Batchable, h, Scalar.iok, Scalar.pok, croakWrongType]
  | big n => simp [convertScalar, Batchable, h, Scalar.iok, Scalar.pok, croakWrongType]
  | ref address => simp [convertScalar, Batchable, h, Scalar.iok, Scalar.pok, croakWrongType]

theorem agrees_iff {f : FieldDef} (hf : isBatch f.type = true) (x : Scalar) :
    (convertScalar f x = .ok (batchOne f.type x) ∧ ¬ MustRefuse f.type x) ↔
      Batchable f.type x := by
  cases ht : f.type with
  | double => exact ht ▸ agrees_double ht
  | float => exact ht ▸ agrees_float ht
  | bool => exact ht ▸ agrees_bool ht
  | enum values => exact ht ▸ agrees_enum ht
  | int32 => exact ht ▸ agrees_int32 (.inl ht)
  | sint32 => exact ht ▸ agrees_int32 (.inr (.inl ht))
  | sfixed32 => exact ht ▸ agrees_int32 (.inr (.inr ht))
  | uint32 => exact ht ▸ agrees_uint32 (.inl ht)
  | fixed32 => exact ht ▸ agrees_uint32 (.inr ht)
  | int64 => exact ht ▸ agrees_int64 (.inl ht)
  | sint64 => exact ht ▸ agrees_int64 (.inr (.inl ht))
  | sfixed64 => exact ht ▸ agrees_int64 (.inr (.inr ht))
  | uint64 => exact ht ▸ agrees_uint64 (.inl ht)
  | fixed64 => exact ht ▸ agrees_uint64 (.inr ht)
  | string => simp [ht, isBatch] at hf
  | bytes => simp [ht, isBatch] at hf
  | message c => simp [ht, isBatch] at hf

/-! ### A whole array -/

section

variable (S : DefPool) (address : Sv → ℕ)

theorem shape_of_isBatch {f : FieldDef} (hlabel : f.label = .repeated)
    (htype : isBatch f.type = true) : f.shape S.toPool = .repeated := by
  unfold FieldDef.shape
  rw [hlabel]
  cases ht : f.type with
  | message c => simp [ht, isBatch] at htype
  | _ => rfl

theorem convertSingular_scalar {f : FieldDef} (htype : isBatch f.type = true) (x : Scalar) :
    convertSingular S address f (.scalar x) = convertScalar f x := by
  simp only [convertSingular, convertSingularWith]
  cases ht : f.type with
  | message c => simp [ht, isBatch] at htype
  | _ => rfl

/-- The batch never croaks. -/
theorem svToUpb_batch {f : FieldDef} (hlabel : f.label = .repeated)
    (htype : isBatch f.type = true) (xs : List Scalar) :
    svToUpb S address f (.array (xs.map .scalar)) = .ok (.array (xs.map (batchOne f.type))) := by
  have hview : (xs.map Sv.scalar).map (Sv.view address) = xs := by
    rw [List.map_map]
    exact List.map_id xs
  simp only [svToUpb, svToUpbWith, shape_of_isBatch S hlabel htype, htype, hview,
    batchRaw_eq htype, if_true]
  rfl

/-- The two ways agree exactly on arrays of elements that the batch may be given. -/
theorem batchAgrees_iff {f : FieldDef} (hlabel : f.label = .repeated)
    (htype : isBatch f.type = true) (xs : List Scalar) :
    BatchAgrees S address f xs ↔ ∀ x ∈ xs, Batchable f.type x := by
  have hwhole := svToUpb_batch S address hlabel htype xs
  simp only [BatchAgrees, hwhole, convertSingular_scalar S address htype]
  constructor
  · rintro ⟨-, hresults, hrefused, -⟩ x hx
    rw [← agrees_iff htype]
    obtain ⟨us, hus, hall⟩ := hresults _ rfl
    obtain rfl := MessageValue.array.inj hus
    rw [List.forall₂_map_right_iff, List.forall₂_same] at hall
    refine ⟨hall x hx, fun hrefuse => ?_⟩
    exact (hrefused x hx hrefuse).2 _ rfl
  · intro h
    have hone : ∀ x ∈ xs, convertScalar f x = .ok (batchOne f.type x) ∧ ¬ MustRefuse f.type x :=
      fun x hx => (agrees_iff htype x).mpr (h x hx)
    refine ⟨⟨fun _ x hx => ⟨_, (hone x hx).1⟩, fun _ => ⟨_, rfl⟩⟩, ?_, ?_, ?_⟩
    · rintro v hv
      obtain rfl := Except.ok.inj hv
      refine ⟨_, rfl, ?_⟩
      rw [List.forall₂_map_right_iff, List.forall₂_same]
      exact fun x hx => (hone x hx).1
    · intro x hx hrefuse
      exact absurd hrefuse (hone x hx).2
    · intro values hvalues i pv utf8 n hi hfind
      have hconvert : convertScalar f (.str pv utf8) = .ok (.int32 n) := by
        simp [convertScalar, hvalues, Scalar.iok, Scalar.pok, hfind]
      refine ⟨hconvert, fun us hus => ?_⟩
      obtain rfl := MessageValue.array.inj (Except.ok.inj hus)
      have hsame := (hone _ (List.mem_of_getElem? hi)).1
      rw [hconvert] at hsame
      rw [List.getElem?_map, hi, Option.map_some, Except.ok.inj hsame]

end

/-- A pool without messages. -/
def scalarPool : DefPool where
  descriptor := fun _ => .empty
  hasPresence := fun _ _ => false
  not_repeated_of_hasPresence := not_repeated_of_noPresence
  name_ne_zero := by simp [MessageDef.empty]

theorem batchAgrees_of_small :
    BatchAgrees scalarPool (fun _ => 0) ⟨ps "xs", 1, .int32, .repeated⟩ [.iv 7, .iv (-3)] := by
  rw [batchAgrees_iff scalarPool (fun _ => 0) rfl rfl]
  intro x hx
  simp only [List.mem_cons, List.not_mem_nil, or_false] at hx
  rcases hx with rfl | rfl
  · exact ⟨rfl, 7, rfl, by norm_num, by norm_num⟩
  · exact ⟨rfl, -3, rfl, by norm_num, by norm_num⟩

/-- Of `[2147483648]` the batch makes an array with one negative number. -/
theorem batchAgrees_fails :
    ¬ BatchAgrees scalarPool (fun _ => 0) ⟨ps "xs", 1, .int32, .repeated⟩ [.iv (2 ^ 31)] := by
  rintro ⟨-, -, hrefused, -⟩
  have hrefuse : MustRefuse .int32 (.iv (2 ^ 31)) := by
    right; right
    refine ⟨by simp [Scalar.number], ?_⟩
    rintro ⟨q, hq, -, hle⟩
    simp only [Scalar.number, Option.some.injEq, FloatVal.fin.injEq] at hq
    norm_num [← hq] at hle
  have hstored := svToUpb_batch scalarPool (fun _ => 0)
    (f := ⟨ps "xs", 1, .int32, .repeated⟩) rfl rfl [.iv (2 ^ 31)]
  exact (hrefused _ (by simp) hrefuse).2 _ hstored

end GooglePerl.Xs
