import GooglePerl.Protobuf.Message

/-!
`to_perl` of the pure-Perl engine, and `from_perl` of what it returns.

`_clean_value` goes into unblessed references only, so the container of a map field comes out as
it is. An element of a repeated field is asked for a method `to_perl`, and a string answers for the
class that it names.
-/

namespace GooglePerl.Protobuf

open GooglePerl.Lib

/-! ### Perl data -/

/-- The data that `to_perl` returns; an object handed on as it is stays a stored value. -/
inductive PerlData where
  | undef
  | iv (n : ℤ)
  | big (n : ℤ)
  | nv (packed : PerlStr)
  | str (s : PerlStr)
  | arr (items : List PerlData)
  | hash (entries : List (PerlStr × PerlData))
  | obj (v : Val)

mutual

def PerlData.toVal : PerlData → Val
  | .undef => .undef
  | .iv n => .iv n
  | .big n => .big n
  | .nv p => .nv p
  | .str s => .str s
  | .arr items => .arr .plain (itemsToVal items)
  | .hash entries => .hash (entriesToVal entries)
  | .obj v => v

def itemsToVal : List PerlData → List Val
  | [] => []
  | d :: items => d.toVal :: itemsToVal items

def entriesToVal : List (PerlStr × PerlData) → List (PerlStr × Val)
  | [] => []
  | (k, d) :: entries => (k, d.toVal) :: entriesToVal entries

end

/-! ### `to_perl` -/

/-- `numify` of a `Math::BigInt`: exact as long as a native integer can hold it. -/
def numify (n : ℤ) : Except Die PerlData :=
  if -2 ^ 63 ≤ n ∧ n < 2 ^ 64 then .ok (.iv n) else .error (.fault .floating)

mutual

/-- `_clean_value` in scalar context -/
def cleanValue : PerlData → Except Die PerlData
  | .big n => numify n
  | .arr xs => (cleanList xs).map .arr
  | .hash es => (cleanEntries es).map .hash
  | .undef => .ok .undef
  | .iv n => .ok (.iv n)
  | .nv p => .ok (.nv p)
  | .str s => .ok (.str s)
  | .obj v => .ok (.obj v)

/-- `map { _clean_value($_) } @$val`: in list context an undefined item gives nothing. -/
def cleanList : List PerlData → Except Die (List PerlData)
  | [] => .ok []
  | .undef :: xs => cleanList xs
  | x :: xs => do
      let y ← cleanValue x
      let ys ← cleanList xs
      return y :: ys

def cleanEntries : List (PerlStr × PerlData) → Except Die (List (PerlStr × PerlData))
  | [] => .ok []
  | (k, x) :: es => do
      let y ← cleanValue x
      let ys ← cleanEntries es
      return (k, y) :: ys

end

mutual

/-- A value that is passed on as it is. -/
def Val.asData : Val → PerlData
  | .undef => .undef
  | .iv n => .iv n
  | .big n => .big n
  | .nv p => .nv p
  | .str s => .str s
  | .arr .plain xs => .arr (asDataList xs)
  | .arr .blessed xs => .obj (.arr .blessed xs)
  | .arr .tied xs => .obj (.arr .tied xs)
  | .hash es => .obj (.hash es)
  | .msg c fs u => .obj (.msg c fs u)

def asDataList : List Val → List PerlData
  | [] => []
  | x :: xs => x.asData :: asDataList xs

end

mutual

/-- One turn of the loop of `to_perl`. A map field's value is a blessed hash,
which none of the branches takes, so it is handed on as it is. -/
def toPerlValue (S : Pool) : Val → Except Die PerlData
  | .msg _ fs _ => do
      let res ← toPerlFields S fs
      cleanValue (.hash res)
  | .arr .plain _ => .error (.fault (.noMethod "isa"))
  | .arr .blessed xs => (toPerlItems S xs).map .arr
  | .arr .tied xs => (toPerlItems S xs).map .arr
  | .hash es => .ok (.obj (.hash es))
  | .undef => .ok .undef
  | .iv n => .ok (.iv n)
  | .big n => .ok (.big n)
  | .nv p => .ok (.nv p)
  | .str s => .ok (.str s)

/-- `to_perl` of a repeated field: `can('to_perl')` decides for each item, and a string
answers for the class that it names. -/
def toPerlItems (S : Pool) : List Val → Except Die (List PerlData)
  | [] => .ok []
  | .arr .plain ys :: xs => do
      let rest ← toPerlItems S xs
      return (Val.arr .plain ys).asData :: rest
  | .str s :: xs =>
      match S.classToPerl s with
      | some e => .error e
      | none => do
          let rest ← toPerlItems S xs
          return .str s :: rest
  | x :: xs => do
      let y ← toPerlValue S x
      let rest ← toPerlItems S xs
      return y :: rest

def toPerlFields (S : Pool) : List (PerlStr × Val) → Except Die (List (PerlStr × PerlData))
  | [] => .ok []
  | (name, v) :: fs => do
      let y ← toPerlValue S v
      let rest ← toPerlFields S fs
      return (name, y) :: rest

end

/-- `to_perl` -/
def toPerl (S : Pool) (m : Msg) : Except Die PerlData := do
  let res ← toPerlFields S m.fields
  cleanValue (.hash res)

/-! ### `from_perl` -/

mutual

/-- The coercion of a message field: a hash becomes a message. -/
def coerceOne (S : Pool) (t : FieldType) : PerlData → Except Die Val
  | .hash entries =>
      match t with
      | .message c => (fromData S entries (.create c)).map Msg.toVal
      | _ => .ok (PerlData.hash entries).toVal
  | d => .ok d.toVal

/-- The coercion of a repeated message field -/
def coerceItems (S : Pool) (t : FieldType) : List PerlData → Except Die (List Val)
  | [] => .ok []
  | d :: items => do
      let first ← coerceOne S t d
      let rest ← coerceItems S t items
      return first :: rest

/-- The coercion that an accessor starts with -/
def coerceValue (S : Pool) (f : FieldDef) : PerlData → Except Die Val
  | .arr items =>
      match f.shape S with
      | .repeated => (coerceItems S f.type items).map (.arr .plain)
      | _ => .ok (PerlData.arr items).toVal
  | .hash entries =>
      match f.shape S, f.type with
      | .singular, .message c => (fromData S entries (.create c)).map Msg.toVal
      | _, _ => .ok (PerlData.hash entries).toVal
  | d => .ok d.toVal

/-- `from_perl`, with the coercions of the accessors written out -/
def fromData (S : Pool) : List (PerlStr × PerlData) → Msg → Except Die Msg
  | [], m => .ok m
  | (key, d) :: entries, m =>
      match (S.descriptor m.cls).findFieldByName key with
      | none => .error (.croak (ps "No such field or method: " ++ key))
      | some f => do
          let v ← coerceValue S f d
          let m ← accessor S m f v
          fromData S entries m

end

/-! ### What `to_perl` returns -/

theorem cleanList_cons {x : PerlData} (hx : x ≠ .undef) (xs : List PerlData) :
    cleanList (x :: xs) = do
      let y ← cleanValue x
      let ys ← cleanList xs
      return y :: ys := by
  cases x with
  | undef => exact absurd rfl hx
  | _ => rw [cleanList]; simp

theorem cleanValue_ne_undef {x y : PerlData} (hx : x ≠ .undef) (h : cleanValue x = .ok y) :
    y ≠ .undef := by
  rintro rfl
  cases x with
  | undef => exact hx rfl
  | big n =>
      rw [cleanValue, numify] at h
      split at h <;> cases h
  | arr xs =>
      obtain ⟨_, -, hy⟩ := map_eq_ok.mp h
      cases hy
  | hash es =>
      obtain ⟨_, -, hy⟩ := map_eq_ok.mp h
      cases hy
  | _ => cases h

mutual

/-- Cleaning twice is cleaning once. -/
theorem cleanValue_clean : ∀ {x y : PerlData}, cleanValue x = .ok y → cleanValue y = .ok y
  | .undef, y, h => by
      obtain rfl := Except.ok.inj h
      rfl
  | .iv n, y, h => by
      obtain rfl := Except.ok.inj h
      rfl
  | .nv p, y, h => by
      obtain rfl := Except.ok.inj h
      rfl
  | .str s, y, h => by
      obtain rfl := Except.ok.inj h
      rfl
  | .obj v, y, h => by
      obtain rfl := Except.ok.inj h
      rfl
  | .big n, y, h => by
      rw [cleanValue, numify] at h
      split at h
      · obtain rfl := Except.ok.inj h
        rfl
      · cases h
  | .arr xs, y, h => by
      obtain ⟨ys, hys, rfl⟩ := map_eq_ok.mp h
      rw [cleanValue, cleanList_clean hys]
      rfl
  | .hash es, y, h => by
      obtain ⟨fs, hfs, rfl⟩ := map_eq_ok.mp h
      rw [cleanValue, cleanEntries_clean hfs]
      rfl

theorem cleanList_clean : ∀ {xs ys : List PerlData}, cleanList xs = .ok ys → cleanList ys = .ok ys
  | [], ys, h => by
      obtain rfl := Except.ok.inj h
      rfl
  | x :: xs, ys, h => by
      by_cases hx : x = .undef
      · subst hx
        exact @cleanList_clean xs ys h
      · rw [cleanList_cons hx] at h
        obtain ⟨y, hy, h⟩ := bind_eq_ok.mp h
        obtain ⟨rest, hrest, h⟩ := bind_eq_ok.mp h
        obtain rfl := Except.ok.inj h
        rw [cleanList_cons (cleanValue_ne_undef hx hy), cleanValue_clean hy, cleanList_clean hrest]
        rfl

theorem cleanEntries_clean : ∀ {es fs : List (PerlStr × PerlData)}, cleanEntries es = .ok fs →
    cleanEntries fs = .ok fs
  | [], fs, h => by
      obtain rfl := Except.ok.inj h
      rfl
  | (k, x) :: es, fs, h => by
      rw [cleanEntries] at h
      obtain ⟨y, hy, h⟩ := bind_eq_ok.mp h
      obtain ⟨rest, hrest, h⟩ := bind_eq_ok.mp h
      obtain rfl := Except.ok.inj h
      rw [cleanEntries, cleanValue_clean hy, cleanEntries_clean hrest]
      rfl

end

theorem cleanList_cons_eq_ok {x : PerlData} {xs ys : List PerlData} :
    cleanList (x :: xs) = .ok ys ↔
      ∃ first rest, cleanList [x] = .ok first ∧ cleanList xs = .ok rest ∧ ys = first ++ rest := by
  by_cases hx : x = .undef
  · subst hx
    simp [cleanList]
  · rw [cleanList_cons hx, cleanList_cons hx]
    cases cleanValue x with
    | error e => simp [error_bind]
    | ok y =>
        cases cleanList xs with
        | error e => simp [ok_bind, error_bind]
        | ok rest => simp [ok_bind, cleanList, pure, Except.pure, eq_comm]

section

variable (S : Pool)

/-- What `to_perl` collects for one item of a repeated field -/
def itemValue : Val → Except Die PerlData
  | .arr .plain xs => .ok (Val.arr .plain xs).asData
  | .str s =>
      match S.classToPerl s with
      | some e => .error e
      | none => .ok (.str s)
  | x => toPerlValue S x

/-- The value of a field, and what the caller gets for it -/
def FieldData (v : Val) (d : PerlData) : Prop :=
  ∃ y, toPerlValue S v = .ok y ∧ cleanValue y = .ok d

def FieldsData (fs : List (PerlStr × Val)) (entries : List (PerlStr × PerlData)) : Prop :=
  ∃ ys, toPerlFields S fs = .ok ys ∧ cleanEntries ys = .ok entries

/-- An item of a repeated field, and what stands for it in the array: an undefined one is gone. -/
def ItemData (x : Val) (ds : List PerlData) : Prop :=
  ∃ y, itemValue S x = .ok y ∧ cleanList [y] = .ok ds

def ItemsData (xs : List Val) (items : List PerlData) : Prop :=
  ∃ ys, toPerlItems S xs = .ok ys ∧ cleanList ys = .ok items

end

variable {S : Pool}

theorem toPerlItems_cons (x : Val) (xs : List Val) :
    toPerlItems S (x :: xs) = do
      let y ← itemValue S x
      let rest ← toPerlItems S xs
      return y :: rest := by
  cases x with
  | arr kind ys => cases kind <;> rw [toPerlItems, itemValue] <;> simp [ok_bind]
  | str s =>
      rw [toPerlItems, itemValue]
      cases S.classToPerl s <;> rfl
  | _ => rw [toPerlItems, itemValue] <;> simp

theorem toPerl_eq_ok {m : Msg} {d : PerlData} :
    toPerl S m = .ok d ↔ ∃ entries, FieldsData S m.fields entries ∧ d = .hash entries := by
  rw [toPerl, bind_eq_ok]
  constructor
  · rintro ⟨ys, hys, h⟩
    obtain ⟨entries, hentries, rfl⟩ := map_eq_ok.mp h
    exact ⟨entries, ⟨ys, hys, hentries⟩, rfl⟩
  · rintro ⟨entries, ⟨ys, hys, hentries⟩, rfl⟩
    exact ⟨ys, hys, map_eq_ok.mpr ⟨entries, hentries, rfl⟩⟩

theorem fieldsData_nil {entries : List (PerlStr × PerlData)} :
    FieldsData S [] entries ↔ entries = [] := by
  simp [FieldsData, toPerlFields, cleanEntries, eq_comm]

theorem fieldsData_cons {name : PerlStr} {v : Val} {fs : List (PerlStr × Val)}
    {entries : List (PerlStr × PerlData)} :
    FieldsData S ((name, v) :: fs) entries ↔
      ∃ d rest, FieldData S v d ∧ FieldsData S fs rest ∧ entries = (name, d) :: rest := by
  simp only [FieldsData, FieldData, toPerlFields, bind_eq_ok]
  constructor
  · rintro ⟨ys, ⟨y, hy, rest, hrest, hys⟩, h⟩
    obtain rfl := Except.ok.inj hys
    rw [cleanEntries] at h
    obtain ⟨d, hd, h⟩ := bind_eq_ok.mp h
    obtain ⟨entries', hentries, h⟩ := bind_eq_ok.mp h
    exact ⟨d, entries', ⟨y, hy, hd⟩, ⟨rest, hrest, hentries⟩, (Except.ok.inj h).symm⟩
  · rintro ⟨d, entries', ⟨y, hy, hd⟩, ⟨rest, hrest, hentries⟩, rfl⟩
    refine ⟨(name, y) :: rest, ⟨y, hy, rest, hrest, rfl⟩, ?_⟩
    rw [cleanEntries, hd, hentries]
    rfl

theorem itemsData_nil {items : List PerlData} : ItemsData S [] items ↔ items = [] := by
  simp [ItemsData, toPerlItems, cleanList, eq_comm]

theorem ItemsData.unique {xs : List Val} {items items' : List PerlData} (h : ItemsData S xs items)
    (h' : ItemsData S xs items') : items = items' := by
  obtain ⟨ys, hys, hitems⟩ := h
  obtain ⟨ys', hys', hitems'⟩ := h'
  obtain rfl := Except.ok.inj (hys.symm.trans hys')
  exact Except.ok.inj (hitems.symm.trans hitems')

theorem itemsData_cons {x : Val} {xs : List Val} {items : List PerlData} :
    ItemsData S (x :: xs) items ↔
      ∃ ds rest, ItemData S x ds ∧ ItemsData S xs rest ∧ items = ds ++ rest := by
  simp only [ItemsData, ItemData, toPerlItems_cons, bind_eq_ok]
  constructor
  · rintro ⟨ys, ⟨y, hy, rest, hrest, hys⟩, h⟩
    obtain rfl := Except.ok.inj hys
    obtain ⟨ds, items', hds, hitems, rfl⟩ := cleanList_cons_eq_ok.mp h
    exact ⟨ds, items', ⟨y, hy, hds⟩, ⟨rest, hrest, hitems⟩, rfl⟩
  · rintro ⟨ds, items', ⟨y, hy, hds⟩, ⟨rest, hrest, hitems⟩, rfl⟩
    exact ⟨y :: rest, ⟨y, hy, rest, hrest, rfl⟩,
      cleanList_cons_eq_ok.mpr ⟨ds, items', hds, hitems, rfl⟩⟩

/-- A message inside another one is cleaned a second time, which changes nothing. -/
theorem fieldData_msg {c : String} {fs : List (PerlStr × Val)} {u : Option PerlStr}
    {d : PerlData} :
    FieldData S (.msg c fs u) d ↔ ∃ entries, FieldsData S fs entries ∧ d = .hash entries := by
  simp only [FieldData, FieldsData, toPerlValue, bind_eq_ok]
  constructor
  · rintro ⟨y, ⟨ys, hys, hy⟩, hd⟩
    obtain rfl : y = d := Except.ok.inj ((cleanValue_clean hy).symm.trans hd)
    obtain ⟨entries, hentries, rfl⟩ := map_eq_ok.mp hy
    exact ⟨entries, ⟨ys, hys, hentries⟩, rfl⟩
  · rintro ⟨entries, ⟨ys, hys, hentries⟩, rfl⟩
    have hclean : cleanValue (.hash ys) = .ok (.hash entries) :=
      map_eq_ok.mpr ⟨entries, hentries, rfl⟩
    exact ⟨.hash entries, ⟨ys, hys, hclean⟩, cleanValue_clean hclean⟩

theorem fieldData_arr {kind : ArrKind} (hkind : kind ≠ .plain) {xs : List Val} {d : PerlData} :
    FieldData S (.arr kind xs) d ↔ ∃ items, ItemsData S xs items ∧ d = .arr items := by
  have htoPerl : toPerlValue S (.arr kind xs) = (toPerlItems S xs).map .arr := by
    cases kind with
    | plain => exact absurd rfl hkind
    | _ => rw [toPerlValue]
  simp only [FieldData, ItemsData, htoPerl, map_eq_ok]
  constructor
  · rintro ⟨_, ⟨ys, hys, rfl⟩, hd⟩
    obtain ⟨items, hitems, rfl⟩ := map_eq_ok.mp hd
    exact ⟨items, ⟨ys, hys, hitems⟩, rfl⟩
  · rintro ⟨items, ⟨ys, hys, hitems⟩, rfl⟩
    exact ⟨.arr ys, ⟨ys, hys, rfl⟩, map_eq_ok.mpr ⟨items, hitems, rfl⟩⟩

theorem itemData_msg {c : String} {fs : List (PerlStr × Val)} {u : Option PerlStr}
    {ds : List PerlData} :
    ItemData S (.msg c fs u) ds ↔ ∃ entries, FieldsData S fs entries ∧ ds = [.hash entries] := by
  have hne : ∀ y, toPerlValue S (.msg c fs u) = .ok y → y ≠ .undef := by
    intro y hy
    rw [toPerlValue] at hy
    obtain ⟨ys, -, hy⟩ := bind_eq_ok.mp hy
    obtain ⟨_, -, rfl⟩ := map_eq_ok.mp hy
    simp
  constructor
  · rintro ⟨y, hy, hds⟩
    rw [cleanList_cons (hne y hy)] at hds
    obtain ⟨d, hd, hds⟩ := bind_eq_ok.mp hds
    obtain rfl := Except.ok.inj hds
    have hfield : FieldData S (.msg c fs u) d := ⟨y, hy, hd⟩
    obtain ⟨entries, hentries, rfl⟩ := fieldData_msg.mp hfield
    exact ⟨entries, hentries, rfl⟩
  · rintro ⟨entries, hentries, rfl⟩
    have hfield : FieldData S (.msg c fs u) (.hash entries) :=
      fieldData_msg.mpr ⟨entries, hentries, rfl⟩
    obtain ⟨y, hy, hd⟩ := hfield
    refine ⟨y, hy, ?_⟩
    rw [cleanList_cons (hne y hy), hd]
    rfl

end GooglePerl.Protobuf
