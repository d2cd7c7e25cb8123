import GooglePerl.Protobuf.Kernels

/-!
`get`, `set`, `has`, `clear` and `_deep_clone` of `Protobuf::Engine::PurePerl`.
-/

namespace GooglePerl.Protobuf

open GooglePerl.Lib

/-- `$msg->{_fields}{$name} = $value` -/
def Msg.put (m : Msg) (name : PerlStr) (v : Val) : Msg :=
  { m with fields := Assoc.store m.fields name v }

@[simp] theorem Msg.put_cls (m : Msg) (name : PerlStr) (v : Val) : (m.put name v).cls = m.cls := rfl

@[simp] theorem Msg.put_unknown (m : Msg) (name : PerlStr) (v : Val) :
    (m.put name v).unknown = m.unknown := rfl

@[simp] theorem Msg.put_fields (m : Msg) (name : PerlStr) (v : Val) :
    (m.put name v).fields = Assoc.store m.fields name v := rfl

/-- `has` -/
def has (m : Msg) (name : PerlStr) : Bool := (Assoc.find m.fields name).isSome

/-- `clear` -/
def clear (m : Msg) (name : PerlStr) : Msg := { m with fields := Assoc.delete m.fields name }

/-- `_default_value`. The list of 64-bit types in the source leaves out FIXED64,
which falls through to `undef`. -/
def defaultValue : FieldType → Val
  | .double => .nv (List.replicate 8 0)
  | .float => .nv (List.replicate 4 0)
  | .int64 | .uint64 | .sfixed64 | .sint64 => .iv 0
  | .int32 | .fixed32 | .uint32 | .sfixed32 | .sint32 => .iv 0
  | .bool => .iv 0
  | .string | .bytes => .str []
  | .message _ => .undef
  | .fixed64 => .undef
  | .enum _ => .iv 0

/-- `get`: the value, and the message, in which a missing container has been
created. -/
def get (S : Pool) (m : Msg) (name : PerlStr) : Val × Msg :=
  match Assoc.find m.fields name with
  | some v => (v, m)
  | none =>
      match (S.descriptor m.cls).findFieldByName name with
      | none => (.undef, m)
      | some f =>
          match f.shape S with
          | .map _ => (.hash [], m.put name (.hash []))
          | .repeated => (.arr .tied [], m.put name (.arr .tied []))
          | .singular => (defaultValue f.type, m)

mutual

/-- `_deep_clone`: a copy, in which no array is tied. -/
def deepClone : Val → Val
  | .arr .plain xs => .arr .plain (deepCloneList xs)
  | .arr .blessed xs => .arr .blessed (deepCloneList xs)
  | .arr .tied xs => .arr .blessed (deepCloneList xs)
  | .hash es => .hash (deepCloneEntries es)
  | .msg c fs u => .msg c (deepCloneEntries fs) u
  | .undef => .undef
  | .iv n => .iv n
  | .big n => .big n
  | .nv p => .nv p
  | .str s => .str s

def deepCloneList : List Val → List Val
  | [] => []
  | x :: xs => deepClone x :: deepCloneList xs

def deepCloneEntries : List (PerlStr × Val) → List (PerlStr × Val)
  | [] => []
  | (k, v) :: es => (k, deepClone v) :: deepCloneEntries es

end

/-- The `where` part of `looks_like_number` for a string: surrounding blanks, a
sign, then digits with an optional fraction and exponent, or a name of infinity
or NaN. -/
def looksLikeNumber (s : PerlStr) : Bool :=
  let blank := fun c => c == 32 || (9 ≤ c && c ≤ 13)
  -- blanks are let pass on both sides
  let s := ((s.dropWhile blank).reverse.dropWhile blank).reverse
  let body := match s with
    | 45 :: t => t
    | 43 :: t => t
    | t => t
  let lower := body.map fun c => if 65 ≤ c && c ≤ 90 then c + 32 else c
  if lower == ps "inf" || lower == ps "infinity" || lower == ps "nan" then true
  else
    let whole := body.takeWhile isDigit
    let afterWhole := body.dropWhile isDigit
    let (fraction, afterFraction) := match afterWhole with
      | 46 :: t => (t.takeWhile isDigit, t.dropWhile isDigit)
      | t => ([], t)
    let exponentOk := match afterFraction with
      | [] => true
      | e :: t =>
          (e == 101 || e == 69) &&
            (let digits := match t with
              | 45 :: u => u
              | 43 :: u => u
              | u => u
             !digits.isEmpty && digits.all isDigit)
    -- a digit before the point or behind it
    (!whole.isEmpty || !fraction.isEmpty) && exponentOk

/-- The enum branch of `set`: a name becomes its number. -/
def resolveEnum (f : FieldDef) (value : Val) : Except Die Val :=
  match f.type with
  | .enum (some values) =>
      let byName (text : PerlStr) : Except Die Val :=
        match Assoc.find values text with
        | some n => .ok (.iv n)
        | none => .error (.croak (ps "Invalid enum value '" ++ text ++ ps "' for field '" ++
            f.name ++ ps "'"))
      match value with
      | .undef | .iv _ | .big _ | .nv _ => .ok value
      | .str s => if looksLikeNumber s then .ok value else byName s
      | value => value.stringify.bind byName
  | _ => .ok value

/-- `push @$arr, @$value` on a tied array: every element is coerced and checked,
and a failed check leaves the elements before it in the array. -/
def pushTied (S : Pool) (f : FieldDef) (items : List Val) :
    List Val → Except (Die × List Val) (List Val)
  | [] => .ok items
  | v :: vs =>
      match S.checkItem f v with
      | some v' => pushTied S f (items ++ [v']) vs
      | none =>
          .error (.croak (ps "Invalid value for repeated field '" ++ f.name ++ ps "': "), items)

/-- The clone that `set` stores, by the shape of the field. -/
def cloneForSet (S : Pool) (f : FieldDef) (value : Val) : Except Die Val :=
  match f.shape S with
  | .map _ => .ok (deepClone value)
  | .repeated =>
      match deepClone value with
      | .arr .plain xs => ((pushTied S f [] xs).mapError Prod.fst).map (.arr .tied)
      | v => .ok v
  | .singular =>
      match f.type with
      | .message _ => .ok (deepClone value)
      | _ => .ok value

/-- The last step of `set`: a 64-bit `Math::BigInt` that fits becomes native. -/
def nativeIfFits (t : FieldType) : Val → Val
  | .big n =>
      match t with
      | .int64 | .uint64 | .sfixed64 | .sint64 =>
          if -2 ^ 63 ≤ n ∧ n ≤ 2 ^ 63 - 1 then .iv n else .big n
      | _ => .big n
  | v => v

/-- `set` -/
def set (S : Pool) (m : Msg) (name : PerlStr) (value : Val) : Except Die Msg :=
  match (S.descriptor m.cls).findFieldByName name with
  | none => .ok (m.put name value)
  | some f => do
      let value ← resolveEnum f value
      let value ← cloneForSet S f value
      return m.put name (nativeIfFits f.type value)

/-! ### A clone says the same -/

theorem deepCloneList_eq_map (xs : List Val) : deepCloneList xs = xs.map deepClone := by
  induction xs with
  | nil => rfl
  | cons x xs ih => simp [deepCloneList, ih]

theorem deepCloneEntries_eq_map (es : List (PerlStr × Val)) :
    deepCloneEntries es = es.map fun p => (p.1, deepClone p.2) := by
  induction es with
  | nil => rfl
  | cons p es ih =>
      obtain ⟨k, v⟩ := p
      simp [deepCloneEntries, ih]

theorem find_deepCloneEntries (es : List (PerlStr × Val)) (k : PerlStr) :
    Assoc.find (deepCloneEntries es) k = (Assoc.find es k).map deepClone := by
  rw [deepCloneEntries_eq_map, Assoc.find_map]

theorem isEmptyContainer_deepClone (v : Val) :
    (deepClone v).isEmptyContainer = v.isEmptyContainer := by
  cases v with
  | arr kind xs =>
      cases kind <;> cases xs <;> simp [deepClone, deepCloneList, Val.isEmptyContainer]
  | hash es =>
      cases es with
      | nil => simp [deepClone, deepCloneEntries, Val.isEmptyContainer]
      | cons p es =>
          obtain ⟨k, v⟩ := p
          simp [deepClone, deepCloneEntries, Val.isEmptyContainer]
  | _ => simp [deepClone, Val.isEmptyContainer]

@[simp] theorem content_deepClone (v : Val) : (deepClone v).content = v.content := by
  induction v using Val.induct with
  | undef => simp [deepClone]
  | iv n => simp [deepClone]
  | big n => simp [deepClone]
  | nv p => simp [deepClone]
  | str s => simp [deepClone]
  | arr kind xs ih =>
      have hmap : (deepCloneList xs).map Val.content = xs.map Val.content := by
        rw [deepCloneList_eq_map, List.map_map]
        exact List.map_congr_left fun x hx => ih x hx
      cases kind <;> simp [deepClone, hmap]
  | hash es ih =>
      simp only [deepClone, content_hash, find_deepCloneEntries, Option.map_map]
      congr 1
      funext k
      cases hk : Assoc.find es k with
      | none => rfl
      | some v => simpa using ih k v (Assoc.mem_of_find hk)
  | msg c fs u ih =>
      simp only [deepClone, content_msg]
      congr 1
      funext name
      unfold fieldContent
      rw [find_deepCloneEntries]
      cases hname : Assoc.find fs name with
      | none => rfl
      | some v =>
          have hv := ih name v (Assoc.mem_of_find hname)
          simp [isEmptyContainer_deepClone, hv]

end GooglePerl.Protobuf
