import GooglePerl.Lib.Except
import GooglePerl.Wkt.Struct
import Mathlib.Data.List.Forall2

/-!
Data through `Struct` and back.

`to_perl` returns an empty list for a null, so an array loses its `undef` elements, and a boolean
object sets no member at all. Nothing else is lost, as long as the fields keep the numbers
(`perl_round_trip_iff`).
-/

namespace GooglePerl.Wkt

open GooglePerl.Lib GooglePerl.Protobuf

variable {N : Type}

/-! ### Trees -/

theorem Tree.induct {P : Tree N → Prop} (undef : P .undef) (bool : ∀ b, P (.bool b))
    (boolObject : ∀ b, P (.boolObject b)) (num : ∀ n, P (.num n)) (str : ∀ s, P (.str s))
    (array : ∀ items, (∀ x ∈ items, P x) → P (.array items))
    (hash : ∀ entries, (∀ k x, (k, x) ∈ entries → P x) → P (.hash entries)) (t : Tree N) :
    P t := by
  refine @Tree.rec N P (fun items => ∀ x ∈ items, P x)
    (fun entries => ∀ k x, (k, x) ∈ entries → P x) (fun e => P e.2)
    undef bool boolObject num str array hash ?_ ?_ ?_ ?_ ?_ t
  · simp
  · intro x items hx hitems
    exact List.forall_mem_cons.mpr ⟨hx, hitems⟩
  · simp
  · intro e entries he hentries k x hx
    obtain rfl | hx := List.mem_cons.mp hx
    · exact he
    · exact hentries k x hx
  · intro k x hx
    exact hx

/-- Data up to the order of hashes -/
inductive Content (N : Type) where
  | undef
  | bool (b : Bool)
  | boolObject (b : Bool)
  | num (n : N)
  | str (s : PerlStr)
  | array (items : List (Content N))
  | hash (entry : PerlStr → Option (Content N))

mutual

def Tree.content : Tree N → Content N
  | .undef => .undef
  | .bool b => .bool b
  | .boolObject b => .boolObject b
  | .num n => .num n
  | .str s => .str s
  | .array items => .array (contentItems items)
  | .hash entries => .hash (Assoc.find (contentEntries entries))

def contentItems : List (Tree N) → List (Content N)
  | [] => []
  | x :: items => x.content :: contentItems items

def contentEntries : List (PerlStr × Tree N) → List (PerlStr × Content N)
  | [] => []
  | (k, x) :: entries => (k, x.content) :: contentEntries entries

end

section

attribute [local simp] contentItems contentEntries

theorem contentItems_eq (items : List (Tree N)) : contentItems items = items.map Tree.content := by
  induction items with
  | nil => rfl
  | cons x items ih => simp [ih]

theorem contentEntries_eq (entries : List (PerlStr × Tree N)) :
    contentEntries entries = entries.map fun e => (e.1, e.2.content) := by
  induction entries with
  | nil => rfl
  | cons e entries ih => simp [ih]

end

section

variable (A : Accessors N)

mutual

/-- The data with booleans as a `bool` field returns them -/
def Tree.expected : Tree N → Tree N
  | .undef => .undef
  | .bool b => A.truth b
  | .boolObject b => A.truth b
  | .num n => .num n
  | .str s => .str s
  | .array items => .array (expectedItems items)
  | .hash entries => .hash (expectedEntries entries)

def expectedItems : List (Tree N) → List (Tree N)
  | [] => []
  | x :: items => x.expected :: expectedItems items

def expectedEntries : List (PerlStr × Tree N) → List (PerlStr × Tree N)
  | [] => []
  | (k, x) :: entries => (k, x.expected) :: expectedEntries entries

end

section

attribute [local simp] expectedItems expectedEntries

theorem expectedItems_eq (items : List (Tree N)) :
    expectedItems A items = items.map (Tree.expected A) := by
  induction items with
  | nil => rfl
  | cons x items ih => simp [ih]

theorem expectedEntries_eq (entries : List (PerlStr × Tree N)) :
    expectedEntries A entries = entries.map fun e => (e.1, e.2.expected A) := by
  induction entries with
  | nil => rfl
  | cons e entries ih => simp [ih]

end

/-! ### What is promised -/

/-- The names that `Value::from_perl` looks for in a hash -/
def reservedKeys : List PerlStr :=
  [ps "string_value", ps "number_value", ps "bool_value", ps "null_value", ps "struct_value",
    ps "list_value"]

/-- Strings that are not like numbers, and hashes without the reserved keys -/
inductive Proper : Tree N → Prop where
  | undef : Proper .undef
  | bool (b : Bool) : Proper (.bool b)
  | boolObject (b : Bool) : Proper (.boolObject b)
  | num (n : N) : Proper (.num n)
  | str {s : PerlStr} (h : numericShape A.digit s = false) : Proper (.str s)
  | array {items : List (Tree N)} (h : ∀ x ∈ items, Proper x) : Proper (.array items)
  | hash {entries : List (PerlStr × Tree N)} (hkeys : (Assoc.keys entries).Nodup)
      (hreserved : ∀ k ∈ reservedKeys, k ∉ Assoc.keys entries)
      (h : ∀ k x, (k, x) ∈ entries → Proper x) : Proper (.hash entries)

/-- No `undef` in an array, no boolean object, and only numbers that their field keeps -/
inductive Kept : Tree N → Prop where
  | undef : Kept .undef
  | bool (b : Bool) : Kept (.bool b)
  | num {n : N} (h : A.store (scalarKind A (A.text n)) (.num n) = .ok (.num n)) : Kept (.num n)
  | str (s : PerlStr) : Kept (.str s)
  | array {items : List (Tree N)} (hundef : .undef ∉ items) (h : ∀ x ∈ items, Kept x) :
      Kept (.array items)
  | hash {entries : List (PerlStr × Tree N)} (h : ∀ k x, (k, x) ∈ entries → Kept x) :
      Kept (.hash entries)

/-- The messages right below -/
def Value.children : Value N → List (Value N)
  | .mk _ _ _ _ st l => (st.getD []).map Prod.snd ++ l.getD []

/-- One member of `kind` is set, here and everywhere below. -/
inductive OneKind : Value N → Prop where
  | mk {v : Value N} (hone : v.kinds.length = 1) (h : ∀ w ∈ v.children, OneKind w) : OneKind v

def ValueRoundTrips (t : Tree N) : Prop :=
  ∃ v, valueFromPerl A .new t = .ok v ∧ OneKind v ∧
    (v.toPerl.getD .undef).content = (t.expected A).content

def StructRoundTrips (t : Tree N) : Prop :=
  ∃ fields, structFromPerl A t = .ok fields ∧ (∀ k v, (k, v) ∈ fields → OneKind v) ∧
    (Tree.hash (entriesToPerl fields)).content = (t.expected A).content

def ListRoundTrips (t : Tree N) : Prop :=
  ∃ values, listFromPerl A t = .ok values ∧ (∀ v ∈ values, OneKind v) ∧
    (Tree.array (itemsToPerl values)).content = (t.expected A).content

/-! ### One node -/

variable {A} {t : Tree N} {v : Value N}

section

attribute [local simp] entriesFromPerl itemsFromPerl entriesToPerl structEntry listEntry
  valueFromPerl

theorem entriesFromPerl_eq_ok {entries : List (PerlStr × Tree N)}
    {fields : List (PerlStr × Value N)} :
    entriesFromPerl A entries = .ok fields ↔
      List.Forall₂ (fun e f => e.1 = f.1 ∧ valueFromPerl A .new e.2 = .ok f.2) entries fields := by
  induction entries generalizing fields with
  | nil =>
      rw [entriesFromPerl, List.forall₂_nil_left_iff]
      exact ⟨fun h => (Except.ok.inj h).symm, fun h => by rw [h]⟩
  | cons e entries ih =>
      obtain ⟨key, x⟩ := e
      rw [entriesFromPerl, List.forall₂_cons_left_iff]
      simp only [bind_eq_ok, pure_eq_ok, Except.ok.injEq, ih]
      constructor
      · rintro ⟨value, hvalue, rest, hrest, rfl⟩
        exact ⟨(key, value), rest, ⟨rfl, hvalue⟩, hrest, rfl⟩
      · rintro ⟨⟨_, value⟩, rest, ⟨rfl, hvalue⟩, hrest, rfl⟩
        exact ⟨value, hvalue, rest, hrest, rfl⟩

theorem itemsFromPerl_eq_ok {items : List (Tree N)} {values : List (Value N)} :
    itemsFromPerl A items = .ok values ↔
      List.Forall₂ (fun x v => valueFromPerl A .new x = .ok v) items values := by
  induction items generalizing values with
  | nil =>
      rw [itemsFromPerl, List.forall₂_nil_left_iff]
      exact ⟨fun h => (Except.ok.inj h).symm, fun h => by rw [h]⟩
  | cons x items ih =>
      rw [itemsFromPerl, List.forall₂_cons_left_iff]
      simp only [bind_eq_ok, pure_eq_ok, Except.ok.injEq, ih]
      constructor
      · rintro ⟨value, hvalue, rest, hrest, rfl⟩
        exact ⟨value, rest, hvalue, hrest, rfl⟩
      · rintro ⟨value, rest, hvalue, hrest, rfl⟩
        exact ⟨value, hvalue, rest, hrest, rfl⟩

theorem entriesToPerl_eq (fields : List (PerlStr × Value N)) :
    entriesToPerl fields = fields.map fun f => (f.1, f.2.toPerl.getD .undef) := by
  induction fields with
  | nil => rfl
  | cons f fields ih => simp [ih]

theorem scalarAccessor_new_eq_ok {kind : Kind} {x : Tree N} :
    scalarAccessor A kind x .new = .ok v ↔
      ∃ stored, A.store kind x = .ok stored ∧ Value.new.setScalar kind stored = v := by
  simp [scalarAccessor, bind_eq_ok]

theorem structEntry_eq_none {entries : List (PerlStr × Tree N)}
    (h : ps "struct_value" ∉ Assoc.keys entries) : structEntry A entries = none := by
  induction entries with
  | nil => rfl
  | cons e entries ih =>
      rw [Assoc.mem_keys_cons, not_or] at h
      rw [structEntry, if_neg (Ne.symm h.1), ih h.2]

theorem listEntry_eq_none {entries : List (PerlStr × Tree N)}
    (h : ps "list_value" ∉ Assoc.keys entries) : listEntry A entries = none := by
  induction entries with
  | nil => rfl
  | cons e entries ih =>
      rw [Assoc.mem_keys_cons, not_or] at h
      rw [listEntry, if_neg (Ne.symm h.1), ih h.2]

/-- A hash without the reserved keys becomes a struct. -/
theorem valueFromPerl_hash {entries : List (PerlStr × Tree N)}
    (h : ∀ k ∈ reservedKeys, k ∉ Assoc.keys entries) :
    valueFromPerl A .new (.hash entries) =
      (entriesFromPerl A entries).map Value.new.setStruct := by
  have hfind : ∀ k ∈ reservedKeys, Assoc.find entries k = none := fun k hk =>
    Assoc.find_eq_none_iff.mpr (h k hk)
  rw [valueFromPerl, hfind _ (by simp [reservedKeys]), hfind _ (by simp [reservedKeys]),
    hfind _ (by simp [reservedKeys]), hfind _ (by simp [reservedKeys]),
    structEntry_eq_none (h _ (by simp [reservedKeys])),
    listEntry_eq_none (h _ (by simp [reservedKeys]))]

end

/-- The members that hold a scalar which `to_perl` returns -/
def Kind.IsPlain (kind : Kind) : Prop :=
  kind = .numberValue ∨ kind = .stringValue ∨ kind = .boolValue

theorem isPlain_scalarKind (s : PerlStr) : (scalarKind A s).IsPlain := by
  unfold scalarKind
  split
  · exact .inl rfl
  · exact .inr (.inl rfl)

theorem toPerl_setScalar {kind : Kind} (h : kind.IsPlain) (x : Tree N) :
    (Value.new.setScalar kind x).toPerl = some x := by
  obtain rfl | rfl | rfl := h <;> rfl

theorem oneKind_setScalar {kind : Kind} (h : kind.IsPlain) (x : Tree N) :
    OneKind (Value.new.setScalar kind x) := by
  have hchildren : (Value.new.setScalar kind x).children = [] := by
    obtain rfl | rfl | rfl := h <;> rfl
  refine .mk ?_ (by simp [hchildren])
  obtain rfl | rfl | rfl := h <;> rfl

theorem oneKind_setStruct_iff {fields : List (PerlStr × Value N)} :
    OneKind (Value.new.setStruct fields) ↔ ∀ k v, (k, v) ∈ fields → OneKind v := by
  have hchildren : (Value.new.setStruct fields).children = fields.map Prod.snd := by
    simp [Value.children, Value.setStruct, Value.new]
  constructor
  · rintro ⟨-, h⟩ k v hv
    exact h v (hchildren ▸ List.mem_map_of_mem hv)
  · intro h
    refine .mk rfl fun w hw => ?_
    rw [hchildren, List.mem_map] at hw
    obtain ⟨⟨k, w⟩, hw, rfl⟩ := hw
    exact h k w hw

theorem oneKind_setList_iff {values : List (Value N)} :
    OneKind (Value.new.setList values) ↔ ∀ v ∈ values, OneKind v := by
  have hchildren : (Value.new.setList values).children = values := by
    simp [Value.children, Value.setList, Value.new]
  constructor
  · rintro ⟨-, h⟩
    rwa [hchildren] at h
  · intro h
    exact .mk rfl (by rwa [hchildren])

theorem valueRoundTrips_undef : ValueRoundTrips A .undef := by
  cases hstore : A.store .nullValue (.num (A.bit false)) with
  | error e =>
      have hok := A.store_null
      rw [hstore] at hok
      cases hok
  | ok x =>
      refine ⟨Value.new.setScalar .nullValue x, ?_, .mk rfl ?_, rfl⟩
      · rw [valueFromPerl, scalarAccessor, hstore]
        rfl
      · simp [Value.children, Value.setScalar, Value.new]

/-- A scalar comes back if its field keeps it. -/
theorem valueRoundTrips_scalar_iff {kind : Kind} {x : Tree N} (hkind : kind.IsPlain)
    (ht : valueFromPerl A .new t = scalarAccessor A kind x .new) :
    ValueRoundTrips A t ↔
      ∃ stored, A.store kind x = .ok stored ∧ stored.content = (t.expected A).content := by
  unfold ValueRoundTrips
  rw [ht]
  simp only [scalarAccessor_new_eq_ok]
  constructor
  · rintro ⟨v, ⟨stored, hstore, rfl⟩, -, hcontent⟩
    rw [toPerl_setScalar hkind] at hcontent
    exact ⟨stored, hstore, hcontent⟩
  · rintro ⟨stored, hstore, hcontent⟩
    refine ⟨_, ⟨stored, hstore, rfl⟩, oneKind_setScalar hkind stored, ?_⟩
    rwa [toPerl_setScalar hkind]

theorem valueRoundTrips_bool (b : Bool) : ValueRoundTrips A (.bool b) :=
  (valueRoundTrips_scalar_iff (.inr (.inr rfl)) (by rw [valueFromPerl])).mpr
    ⟨A.truth b, A.store_bool b, by rw [Tree.expected]⟩

theorem not_valueRoundTrips_boolObject (b : Bool) : ¬ ValueRoundTrips A (.boolObject b) := by
  rintro ⟨v, h, ⟨hone, -⟩, -⟩
  rw [valueFromPerl] at h
  obtain rfl := Except.ok.inj h
  cases hone

theorem valueRoundTrips_num_iff {n : N} :
    ValueRoundTrips A (.num n) ↔ A.store (scalarKind A (A.text n)) (.num n) = .ok (.num n) := by
  rw [valueRoundTrips_scalar_iff (isPlain_scalarKind _) (by rw [valueFromPerl]), Tree.expected]
  constructor
  · rintro ⟨stored, hstore, hcontent⟩
    cases stored with
    | num m =>
        simp only [Tree.content, Content.num.injEq] at hcontent
        rw [hstore, hcontent]
    | _ => simp [Tree.content] at hcontent
  · intro h
    exact ⟨.num n, h, rfl⟩

theorem valueRoundTrips_str {s : PerlStr} (h : numericShape A.digit s = false) :
    ValueRoundTrips A (.str s) := by
  have hkind : scalarKind A s = .stringValue := by simp [scalarKind, h]
  refine (valueRoundTrips_scalar_iff (.inr (.inl rfl)) (by rw [valueFromPerl, hkind])).mpr ?_
  exact ⟨.str s, A.store_string s, by rw [Tree.expected]⟩

theorem valueRoundTrips_hash_iff {entries : List (PerlStr × Tree N)}
    (h : ∀ k ∈ reservedKeys, k ∉ Assoc.keys entries) :
    ValueRoundTrips A (.hash entries) ↔ StructRoundTrips A (.hash entries) := by
  unfold ValueRoundTrips StructRoundTrips
  rw [valueFromPerl_hash h, structFromPerl]
  simp only [map_eq_ok]
  constructor
  · rintro ⟨v, ⟨fields, hfields, rfl⟩, hone, hcontent⟩
    exact ⟨fields, hfields, oneKind_setStruct_iff.mp hone, hcontent⟩
  · rintro ⟨fields, hfields, hone, hcontent⟩
    exact ⟨_, ⟨fields, hfields, rfl⟩, oneKind_setStruct_iff.mpr hone, hcontent⟩

theorem valueRoundTrips_array_iff {items : List (Tree N)} :
    ValueRoundTrips A (.array items) ↔ ListRoundTrips A (.array items) := by
  unfold ValueRoundTrips ListRoundTrips
  rw [valueFromPerl, listFromPerl]
  simp only [map_eq_ok]
  constructor
  · rintro ⟨v, ⟨values, hvalues, rfl⟩, hone, hcontent⟩
    exact ⟨values, hvalues, oneKind_setList_iff.mp hone, hcontent⟩
  · rintro ⟨values, hvalues, hone, hcontent⟩
    exact ⟨_, ⟨values, hvalues, rfl⟩, oneKind_setList_iff.mpr hone, hcontent⟩

/-- Only `undef` gives no element in list context. -/
theorem toPerl_eq_none_iff (ht : Proper A t) (h : valueFromPerl A .new t = .ok v)
    (hone : OneKind v) : v.toPerl = none ↔ t = .undef := by
  have hplain {kind : Kind} {x : Tree N} (hkind : kind.IsPlain)
      (h : scalarAccessor A kind x .new = .ok v) : v.toPerl ≠ none := by
    obtain ⟨stored, -, rfl⟩ := scalarAccessor_new_eq_ok.mp h
    simp [toPerl_setScalar hkind]
  cases ht with
  | undef =>
      rw [valueFromPerl, scalarAccessor_new_eq_ok] at h
      obtain ⟨stored, -, rfl⟩ := h
      exact ⟨fun _ => rfl, fun _ => rfl⟩
  | bool b =>
      rw [valueFromPerl] at h
      simp [hplain (.inr (.inr rfl)) h]
  | boolObject b =>
      rw [valueFromPerl] at h
      obtain rfl := Except.ok.inj h
      obtain ⟨hone, -⟩ := hone
      cases hone
  | num n =>
      rw [valueFromPerl] at h
      simp [hplain (isPlain_scalarKind _) h]
  | str hs =>
      rw [valueFromPerl] at h
      simp [hplain (isPlain_scalarKind _) h]
  | array hitems =>
      rw [valueFromPerl] at h
      obtain ⟨values, -, rfl⟩ := map_eq_ok.mp h
      simp [Value.toPerl, Value.setList, Value.new]
  | hash hkeys hreserved hentries =>
      rw [valueFromPerl_hash hreserved] at h
      obtain ⟨fields, -, rfl⟩ := map_eq_ok.mp h
      simp [Value.toPerl, Value.setStruct, Value.new]

/-! ### Arrays and hashes -/

theorem length_itemsToPerl_le (values : List (Value N)) :
    (itemsToPerl values).length ≤ values.length := by
  induction values with
  | nil => exact Nat.le_refl _
  | cons v values ih =>
      rw [itemsToPerl, List.length_append, List.length_cons]
      have hv : v.toPerl.toList.length ≤ 1 := Option.length_toList_le
      omega

theorem listRoundTrips_array_iff {items : List (Tree N)} (hitems : ∀ x ∈ items, Proper A x) :
    ListRoundTrips A (.array items) ↔
      .undef ∉ items ∧ ∀ x ∈ items, ValueRoundTrips A x := by
  have hcontent (values : List (Value N)) :
      (Tree.array (itemsToPerl values)).content = ((Tree.array items).expected A).content ↔
        (itemsToPerl values).map Tree.content = items.map fun x => (x.expected A).content := by
    rw [Tree.expected, Tree.content, Tree.content, Content.array.injEq, contentItems_eq,
      contentItems_eq, expectedItems_eq, List.map_map]
    rfl
  unfold ListRoundTrips
  rw [listFromPerl]
  simp only [hcontent, itemsFromPerl_eq_ok]
  clear hcontent
  induction items with
  | nil =>
      refine ⟨fun _ => by simp, fun _ => ⟨[], .nil, by simp, rfl⟩⟩
  | cons x items ih =>
      obtain ⟨hx, hitems⟩ := List.forall_mem_cons.mp hitems
      rw [List.mem_cons, not_or, List.forall_mem_cons]
      constructor
      · rintro ⟨values, hvalues, hone, heq⟩
        obtain ⟨v, values, hv, hrest, rfl⟩ := List.forall₂_cons_left_iff.mp hvalues
        obtain ⟨hv1, hone⟩ := List.forall_mem_cons.mp hone
        rw [itemsToPerl] at heq
        cases hperl : v.toPerl with
        | none =>
            -- an element is missing, and the rest cannot make up for it
            have hlength := congrArg List.length heq
            have hle := length_itemsToPerl_le values
            have hlen := hrest.length_eq
            rw [hperl] at hlength
            simp only [Option.toList_none, List.nil_append, List.length_map,
              List.length_cons] at hlength
            omega
        | some y =>
            rw [hperl, Option.toList_some, List.singleton_append, List.map_cons, List.map_cons,
              List.cons.injEq] at heq
            obtain ⟨hundef, hall⟩ := (ih hitems).mp ⟨values, hrest, hone, heq.2⟩
            have hne : x ≠ .undef := fun h => by
              have hnone := (toPerl_eq_none_iff hx hv hv1).mpr h
              rw [hperl] at hnone
              cases hnone
            exact ⟨⟨hne.symm, hundef⟩, ⟨v, hv, hv1, by rw [hperl]; exact heq.1⟩, hall⟩
      · rintro ⟨⟨hne, hundef⟩, ⟨v, hv, hv1, hv2⟩, hall⟩
        obtain ⟨values, hrest, hone, heq⟩ := (ih hitems).mpr ⟨hundef, hall⟩
        refine ⟨v :: values, .cons hv hrest, List.forall_mem_cons.mpr ⟨hv1, hone⟩, ?_⟩
        cases hperl : v.toPerl with
        | none => exact absurd ((toPerl_eq_none_iff hx hv hv1).mp hperl).symm hne
        | some y =>
            rw [hperl] at hv2
            rw [itemsToPerl, hperl, Option.toList_some, List.singleton_append, List.map_cons,
              List.map_cons, heq]
            exact congrArg (· :: _) hv2

theorem content_entriesToPerl_iff {entries : List (PerlStr × Tree N)}
    {fields : List (PerlStr × Value N)} (hkeys : (Assoc.keys entries).Nodup)
    (hsame : Assoc.keys fields = Assoc.keys entries) :
    (Tree.hash (entriesToPerl fields)).content = ((Tree.hash entries).expected A).content ↔
      fields.map (fun f => (f.1, (f.2.toPerl.getD .undef).content)) =
        entries.map fun e => (e.1, (e.2.expected A).content) := by
  rw [Tree.expected, Tree.content, Tree.content, Content.hash.injEq, contentEntries_eq,
    contentEntries_eq, entriesToPerl_eq, expectedEntries_eq, List.map_map, List.map_map]
  refine Assoc.find_inj ?_ ?_
  · rw [Assoc.keys, Assoc.keys, List.map_map, List.map_map]
    exact hsame
  · rw [← hsame] at hkeys
    rw [Assoc.keys, List.map_map]
    exact hkeys

theorem keys_entriesFromPerl {entries : List (PerlStr × Tree N)}
    {fields : List (PerlStr × Value N)} (h : entriesFromPerl A entries = .ok fields) :
    Assoc.keys fields = Assoc.keys entries := by
  have hfields := entriesFromPerl_eq_ok.mp h
  clear h
  induction hfields with
  | nil => rfl
  | cons hhead _ ih =>
      unfold Assoc.keys at ih ⊢
      rw [List.map_cons, List.map_cons, hhead.1, ih]

/-- The entries one by one -/
theorem entries_round_trip_iff {entries : List (PerlStr × Tree N)} :
    (∃ fields, entriesFromPerl A entries = .ok fields ∧ (∀ k v, (k, v) ∈ fields → OneKind v) ∧
      fields.map (fun f => (f.1, (f.2.toPerl.getD .undef).content)) =
        entries.map fun e => (e.1, (e.2.expected A).content)) ↔
      ∀ k x, (k, x) ∈ entries → ValueRoundTrips A x := by
  simp only [entriesFromPerl_eq_ok]
  constructor
  · rintro ⟨fields, hfields, hone, heq⟩
    induction hfields with
    | nil => simp
    | @cons e f entries fields hhead _ ih =>
        obtain ⟨key, x⟩ := e
        obtain ⟨_, v⟩ := f
        obtain ⟨rfl, hv⟩ := hhead
        rw [List.map_cons, List.map_cons, List.cons.injEq, Prod.mk.injEq] at heq
        intro k y hy
        obtain hy | hy := List.mem_cons.mp hy
        · obtain ⟨rfl, rfl⟩ := Prod.mk.inj hy
          exact ⟨v, hv, hone k v List.mem_cons_self, heq.1.2⟩
        · exact ih (fun k v hv => hone k v (List.mem_cons_of_mem _ hv)) heq.2 k y hy
  · intro h
    induction entries with
    | nil => exact ⟨[], .nil, by simp, rfl⟩
    | cons e entries ih =>
        obtain ⟨key, x⟩ := e
        obtain ⟨v, hv, hv1, hv2⟩ := h key x List.mem_cons_self
        obtain ⟨fields, hrest, hone, heq⟩ := ih fun k y hy => h k y (List.mem_cons_of_mem _ hy)
        refine ⟨(key, v) :: fields, .cons ⟨rfl, hv⟩ hrest, ?_, ?_⟩
        · intro k w hw
          obtain hw | hw := List.mem_cons.mp hw
          · obtain ⟨rfl, rfl⟩ := Prod.mk.inj hw
            exact hv1
          · exact hone k w hw
        · rw [List.map_cons, List.map_cons, heq, hv2]

theorem structRoundTrips_hash_iff {entries : List (PerlStr × Tree N)}
    (hkeys : (Assoc.keys entries).Nodup) :
    StructRoundTrips A (.hash entries) ↔ ∀ k x, (k, x) ∈ entries → ValueRoundTrips A x := by
  rw [← entries_round_trip_iff, StructRoundTrips, structFromPerl]
  refine exists_congr fun fields => and_congr_right fun hfields => and_congr_right fun _ => ?_
  exact content_entriesToPerl_iff hkeys (keys_entriesFromPerl hfields)

/-! ### Whole trees -/

theorem valueRoundTrips_iff (ht : Proper A t) : ValueRoundTrips A t ↔ Kept A t := by
  induction t using Tree.induct with
  | undef => exact ⟨fun _ => .undef, fun _ => valueRoundTrips_undef⟩
  | bool b => exact ⟨fun _ => .bool b, fun _ => valueRoundTrips_bool b⟩
  | boolObject b =>
      refine ⟨fun h => absurd h (not_valueRoundTrips_boolObject b), fun h => ?_⟩
      cases h
  | num n =>
      rw [valueRoundTrips_num_iff]
      refine ⟨.num, fun h => ?_⟩
      cases h with
      | num h => exact h
  | str s =>
      cases ht with
      | str hs => exact ⟨fun _ => .str s, fun _ => valueRoundTrips_str hs⟩
  | array items ih =>
      cases ht with
      | array hitems =>
          rw [valueRoundTrips_array_iff, listRoundTrips_array_iff hitems]
          constructor
          · rintro ⟨hundef, h⟩
            exact .array hundef fun x hx => (ih x hx (hitems x hx)).mp (h x hx)
          · intro h
            cases h with
            | array hundef h =>
                exact ⟨hundef, fun x hx => (ih x hx (hitems x hx)).mpr (h x hx)⟩
  | hash entries ih =>
      cases ht with
      | hash hkeys hreserved hentries =>
          rw [valueRoundTrips_hash_iff hreserved, structRoundTrips_hash_iff hkeys]
          constructor
          · intro h
            exact .hash fun k x hx => (ih k x hx (hentries k x hx)).mp (h k x hx)
          · intro h
            cases h with
            | hash h => exact fun k x hx => (ih k x hx (hentries k x hx)).mpr (h k x hx)

/-- Data comes back from a `Value`, a `Struct` and a `ListValue` if it is `Kept`. -/
theorem perl_round_trip_iff (A : Accessors N) {t : Tree N} (ht : Proper A t) :
    (ValueRoundTrips A t ↔ Kept A t) ∧
      (∀ entries, t = .hash entries → (StructRoundTrips A t ↔ Kept A t)) ∧
      ∀ items, t = .array items → (ListRoundTrips A t ↔ Kept A t) := by
  refine ⟨valueRoundTrips_iff ht, ?_, ?_⟩
  · rintro entries rfl
    rw [← valueRoundTrips_iff ht]
    cases ht with
    | hash _ hreserved _ => exact (valueRoundTrips_hash_iff hreserved).symm
  · rintro items rfl
    rw [← valueRoundTrips_iff ht]
    exact valueRoundTrips_array_iff.symm

end

/-- The accessors of the pure-Perl engine, on integers -/
def integerAccessors : Accessors ℤ where
  text := decimalText
  digit c := 48 ≤ c && c ≤ 57
  bit b := if b then 1 else 0
  truth b := .num (if b then 1 else 0)
  store
    | .nullValue, .num n => .ok (.num n)
    | .numberValue, .num n => .ok (.num n)
    | .boolValue, .num n =>
        if n = 0 ∨ n = 1 then .ok (.num n)
        else .error (.croak (ps "Invalid value for field"))
    | .stringValue, .num n => .ok (.num n)
    | .stringValue, .str s => .ok (.str s)
    | _, _ => .error (.croak (ps "Invalid value for field"))
  store_null := rfl
  store_bool b := by cases b <;> rfl
  store_string _ := rfl

theorem round_trip_nested :
    StructRoundTrips integerAccessors
      (.hash [(ps "foo", .array [.num (-12), .str (ps "bar")]), (ps "none", .undef)]) := by
  have hstr : numericShape integerAccessors.digit (ps "bar") = false := by decide
  have hproper : Proper integerAccessors
      (.hash [(ps "foo", .array [.num (-12), .str (ps "bar")]), (ps "none", .undef)]) := by
    refine .hash (by decide) (by decide) ?_
    simp only [List.mem_cons, List.not_mem_nil, or_false, Prod.mk.injEq]
    rintro k x (⟨-, rfl⟩ | ⟨-, rfl⟩)
    · refine .array ?_
      simp only [List.mem_cons, List.not_mem_nil, or_false]
      rintro x (rfl | rfl)
      · exact .num _
      · exact .str hstr
    · exact .undef
  refine ((perl_round_trip_iff _ hproper).2.1 _ rfl).mpr (.hash ?_)
  simp only [List.mem_cons, List.not_mem_nil, or_false, Prod.mk.injEq]
  rintro k x (⟨-, rfl⟩ | ⟨-, rfl⟩)
  · refine .array (by simp) ?_
    simp only [List.mem_cons, List.not_mem_nil, or_false]
    rintro x (rfl | rfl)
    · exact .num rfl
    · exact .str _
  · constructor

/-- `[undef]`, and a boolean object -/
theorem not_round_trip_null_element :
    ¬ ListRoundTrips integerAccessors (.array [.undef]) ∧
      ¬ ValueRoundTrips integerAccessors (.boolObject true) := by
  refine ⟨fun h => ?_, not_valueRoundTrips_boolObject true⟩
  have hitems := (listRoundTrips_array_iff (by simpa using Proper.undef)).mp h
  exact hitems.1 List.mem_cons_self

end GooglePerl.Wkt
