import GooglePerl.Protobuf.LoadOrder

/-!
From the bytes of descriptors to the schema of an engine.

The engine asks the objects of a pool about a message type: for its fields and their types, for
the message type or the enum behind a field, whether a field is a map. A `Pool` answers such
questions at once. For files that a compiler accepts there is one such schema, and whatever the
order in which their bytes are loaded, every object of the pool answers as it does
(`loaded_schema`).
-/

namespace GooglePerl.Protobuf

open GooglePerl.Lib

/-! ### What an object answers -/

/-- `is_map_entry` -/
def MessageObject.isMapEntry (o : MessageObject) : Bool := o.options.getD false

/-- `get_field` -/
def MessageObject.getField (o : MessageObject) (i : ℕ) : Option FieldObject := o.fields[i]?

/-- `find_field_by_name` -/
def MessageObject.findFieldByName (o : MessageObject) (name : PerlStr) : Option FieldObject :=
  o.fields.find? fun f => f.name == name

/-- `find_field_by_number` -/
def MessageObject.findFieldByNumber (o : MessageObject) (number : ℤ) : Option FieldObject :=
  o.fields.find? fun f => f.number == number

/-- `find_oneof_by_name` -/
def MessageObject.findOneofByName (o : MessageObject) (name : PerlStr) : Option OneofObject :=
  o.oneofs.find? fun x => x.name == name

/-- `fields` of a oneof -/
def MessageObject.oneofFields (o : MessageObject) (x : OneofObject) : List FieldObject :=
  x.fields.filterMap o.getField

namespace DescriptorPool

/-- The object that an address is of. -/
def messageAt (p : DescriptorPool) (address : ℕ) : Option MessageObject :=
  (p.messages.find? fun e => e.2.address == address).map Prod.snd

def enumAt (p : DescriptorPool) (address : ℕ) : Option EnumObject :=
  (p.enums.find? fun e => e.2.address == address).map Prod.snd

/-- `message_type` -/
def messageType (p : DescriptorPool) (f : FieldObject) : Option MessageObject :=
  f.messageType.bind p.messageAt

/-- `enum_type` -/
def enumType (p : DescriptorPool) (f : FieldObject) : Option EnumObject := f.enumType.bind p.enumAt

/-- `is_map` -/
def isMap (p : DescriptorPool) (f : FieldObject) : Bool :=
  if f.label ≠ 3 then false
  else if f.type ≠ 11 then false
  else
    match p.messageType f with
    | none => false
    | some m => m.isMapEntry

end DescriptorPool

/-! ### What the answers mean -/

def labelOf : ℤ → Option Label
  | 1 => some .optional
  | 2 => some .required
  | 3 => some .repeated
  | _ => none

/-- The type of a number, with the class of the message type or the values of the enum. -/
def fieldTypeOf (number : ℤ) (cls : Option String) (values : Option (List (PerlStr × ℤ))) :
    Option FieldType :=
  match number with
  | 1 => some .double
  | 2 => some .float
  | 3 => some .int64
  | 4 => some .uint64
  | 5 => some .int32
  | 6 => some .fixed64
  | 7 => some .fixed32
  | 8 => some .bool
  | 9 => some .string
  | 11 => cls.map .message
  | 12 => some .bytes
  | 13 => some .uint32
  | 14 => some (.enum values)
  | 15 => some .sfixed32
  | 16 => some .sfixed64
  | 17 => some .sint32
  | 18 => some .sint64
  | _ => none

def fieldDefOf (name : PerlStr) (number type label : ℤ) (cls : Option String)
    (values : Option (List (PerlStr × ℤ))) : Option FieldDef :=
  number.toNat?.bind fun n =>
    (fieldTypeOf type cls values).bind fun t =>
      (labelOf label).map fun l => ⟨name, n, t, l⟩

/-- A field as its object tells it; `classOf` is the class of a message type. -/
def DescriptorPool.fieldDef (p : DescriptorPool) (classOf : PerlStr → String) (f : FieldObject) :
    Option FieldDef :=
  fieldDefOf f.name f.number f.type f.label
    ((p.messageType f).map fun m => classOf m.fullName)
    ((p.enumType f).map fun e => e.values.map fun v => (v.1, v.2.1))

/-- An object answers every question as the schema does. -/
structure MessageObject.Answers (o : MessageObject) (p : DescriptorPool)
    (classOf : PerlStr → String) (S : Pool) : Prop where
  field : ∀ i, (o.getField i).bind (p.fieldDef classOf) =
    (S.descriptor (classOf o.fullName)).fields[i]?
  byName : ∀ name, (o.findFieldByName name).bind (p.fieldDef classOf) =
    (S.descriptor (classOf o.fullName)).findFieldByName name
  byNumber : ∀ n : ℕ, (o.findFieldByNumber n).bind (p.fieldDef classOf) =
    (S.descriptor (classOf o.fullName)).findFieldByNumber n
  isMap : ∀ f ∈ o.fields, ∀ g, p.fieldDef classOf f = some g →
    (p.isMap f = true ↔ ∃ entry, g.shape S = .map entry)
  oneof : ∀ name, (o.findOneofByName name).map
      (fun x => (o.oneofFields x).map (p.fieldDef classOf)) =
    ((S.descriptor (classOf o.fullName)).findOneofByName name).map fun x => x.fields.map some

/-! ### What files declare -/

section Declarations

variable (fds : List FileDescriptor) (classOf : PerlStr → String)

/-- The class of the message type that a type name refers to. -/
def declaredClass (typeName : PerlStr) : Option String :=
  (Assoc.find (fds.flatMap FileDescriptor.messages) (DescriptorPool.normalizeName typeName)).map
    fun _ => classOf (DescriptorPool.normalizeName typeName)

/-- The values of the enum that a type name refers to. -/
def declaredValues (typeName : PerlStr) : Option (List (PerlStr × ℤ)) :=
  (Assoc.find (fds.flatMap FileDescriptor.enums) (DescriptorPool.normalizeName typeName)).map
    fun e => e.value.map fun v => (v.name, v.number)

def FieldDescriptor.declares (f : FieldDescriptor) : Option FieldDef :=
  fieldDefOf f.name f.number f.type f.label (declaredClass fds classOf f.typeName)
    (declaredValues fds f.typeName)

/-- What a compiler sees to for a message type. -/
structure MessageDescriptor.Compiles (m : MessageDescriptor) : Prop where
  numbers : (m.field.map FieldDescriptor.number).Nodup
  names : (m.field.map FieldDescriptor.name).Nodup
  number_lt : ∀ f ∈ m.field, f.number < 2 ^ 29
  /-- Numbers, labels and types are those of the language, and message types are declared. -/
  fields : ∀ f ∈ m.field, (f.declares fds classOf).isSome
  entry : m.options = some true → ∃ k v, k.isKey = true ∧
    m.field.map (FieldDescriptor.declares fds classOf) = (entryFields k v).map some
  oneof_optional : ∀ f ∈ m.field, f.oneofIndex ≠ none → f.label = 1
  oneofs : (m.oneofDecl.map OneofDescriptor.name).Nodup

/-- The descriptor is that of the message type. -/
structure MessageDef.Describes (d : MessageDef) (m : MessageDescriptor) : Prop where
  fields : m.field.map (FieldDescriptor.declares fds classOf) = d.fields.map some
  mapEntry : d.mapEntry = m.options.getD false
  oneofs : d.oneofs = m.oneofDecl.mapIdx fun i o =>
    ⟨o.name, (members m.field i).filterMap fun j => d.fields[j]?⟩

/-- The schema is that of the files. -/
def Pool.Describes (S : Pool) : Prop :=
  ∀ fd ∈ fds, ∀ e ∈ fd.messages, (S.descriptor (classOf e.1)).Describes fds classOf e.2

end Declarations

/-! ### Lists that are read element by element -/

section Lists

variable {α β : Type} {g : α → Option β} {l : List α} {l' : List β}

theorem exists_map_some (h : ∀ x ∈ l, (g x).isSome) : ∃ l' : List β, l.map g = l'.map some := by
  induction l with
  | nil => exact ⟨[], rfl⟩
  | cons x l ih =>
      obtain ⟨y, hy⟩ := Option.isSome_iff_exists.mp (h x List.mem_cons_self)
      obtain ⟨l', hl'⟩ := ih fun z hz => h z (List.mem_cons_of_mem _ hz)
      exact ⟨y :: l', by rw [List.map_cons, List.map_cons, hy, hl']⟩

theorem getElem?_map_some (h : l.map g = l'.map some) (i : ℕ) : l[i]?.map g = l'[i]?.map some := by
  rw [← List.getElem?_map, ← List.getElem?_map, h]

theorem getElem?_bind (h : l.map g = l'.map some) (i : ℕ) : l[i]?.bind g = l'[i]? := by
  have hi := getElem?_map_some h i
  cases hl : l[i]? <;> cases hl' : l'[i]? <;> simp_all

theorem exists_of_mem_map_some (h : l.map g = l'.map some) {y : β} (hy : y ∈ l') :
    ∃ x ∈ l, g x = some y := by
  have hmem : some y ∈ l.map g := h ▸ List.mem_map_of_mem hy
  exact List.mem_map.mp hmem

theorem map_eq_map {γ δ : Type} {a : α → γ} {b : β → γ} {φ : α → δ} {ψ : β → δ}
    (h : l.map a = l'.map b) (hφ : ∀ x ∈ l, ∀ y, a x = b y → φ x = ψ y) : l.map φ = l'.map ψ := by
  induction l generalizing l' with
  | nil =>
      obtain rfl : l' = [] := by simpa using h.symm
      rfl
  | cons x l ih =>
      cases l' with
      | nil => cases h
      | cons y l' =>
          obtain ⟨hxy, hl⟩ := List.cons.inj h
          rw [List.map_cons, List.map_cons, hφ x List.mem_cons_self y hxy,
            ih hl fun z hz => hφ z (List.mem_cons_of_mem _ hz)]

theorem find?_bind {pred : α → Bool} {pred' : β → Bool} (h : l.map g = l'.map some)
    (hpred : ∀ x y, g x = some y → pred x = pred' y) : (l.find? pred).bind g = l'.find? pred' := by
  induction l generalizing l' with
  | nil =>
      obtain rfl : l' = [] := by simpa using h.symm
      rfl
  | cons x l ih =>
      cases l' with
      | nil => cases h
      | cons y l' =>
          obtain ⟨hxy, hl⟩ := List.cons.inj h
          rw [List.find?_cons, List.find?_cons, hpred x y hxy]
          cases pred' y with
          | true => exact hxy
          | false => exact ih hl

theorem filterMap_getElem? (h : l.map g = l'.map some) (is : List ℕ) :
    (is.filterMap fun i => l[i]?).map g = (is.filterMap fun i => l'[i]?).map some := by
  induction is with
  | nil => rfl
  | cons i is ih =>
      have hi := getElem?_map_some h i
      cases hl : l[i]? <;> cases hl' : l'[i]? <;> simp_all

theorem find?_mapIdx {γ δ : Type} {pred : γ → Bool} {pred' : δ → Bool} {make : ℕ → α → γ}
    {make' : ℕ → α → δ} (hpred : ∀ i x, pred (make i x) = pred' (make' i x)) {ρ : Type}
    {out : γ → ρ} {out' : δ → ρ} (hout : ∀ i x, out (make i x) = out' (make' i x)) (l : List α) :
    ((l.mapIdx make).find? pred).map out = ((l.mapIdx make').find? pred').map out' := by
  induction l generalizing make make' with
  | nil => rfl
  | cons x l ih =>
      rw [List.mapIdx_cons, List.mapIdx_cons, List.find?_cons, List.find?_cons, hpred]
      cases pred' (make' 0 x) with
      | true => exact congrArg some (hout 0 x)
      | false => exact ih (fun i => hpred (i + 1)) (fun i => hout (i + 1))

end Lists

/-! ### Fields -/

theorem fieldDefOf_eq_some {name : PerlStr} {number type label : ℤ} {cls : Option String}
    {values : Option (List (PerlStr × ℤ))} {g : FieldDef} :
    fieldDefOf name number type label cls values = some g ↔
      g.name = name ∧ (g.number : ℤ) = number ∧ fieldTypeOf type cls values = some g.type ∧
        labelOf label = some g.label := by
  have hnat : ∀ (n : ℤ) (k : ℕ), n.toNat? = some k ↔ (k : ℤ) = n := by
    intro n k
    cases n with
    | ofNat n => simp [Int.toNat?, eq_comm]
    | negSucc n => simp [Int.toNat?]
  simp only [fieldDefOf, Option.bind_eq_some_iff, Option.map_eq_some_iff, hnat]
  constructor
  · rintro ⟨n, hn, t, ht, l, hl, rfl⟩
    exact ⟨rfl, hn, ht, hl⟩
  · rintro ⟨rfl, hn, ht, hl⟩
    exact ⟨g.number, hn, g.type, ht, g.label, hl, rfl⟩

theorem labelOf_eq_repeated_iff {n : ℤ} : labelOf n = some .repeated ↔ n = 3 := by
  unfold labelOf
  split <;> simp_all

theorem fieldTypeOf_eq_message_iff {n : ℤ} {cls : Option String}
    {values : Option (List (PerlStr × ℤ))} {c : String} :
    fieldTypeOf n cls values = some (.message c) ↔ n = 11 ∧ cls = some c := by
  unfold fieldTypeOf
  split <;> simp_all

/-! ### The schema of the files -/

variable {fds : List FileDescriptor} {classOf : PerlStr → String}

/-- A place of a oneof is that of a field with its index. -/
theorem exists_of_mem_members {fs : List FieldDescriptor} {i j : ℕ} (h : j ∈ members fs i) :
    ∃ f, fs[j]? = some f ∧ f.oneofIndex = some (i : ℤ) := by
  obtain ⟨⟨f, k⟩, hmem, rfl⟩ := List.mem_map.mp h
  obtain ⟨hzip, hindex⟩ := List.mem_filter.mp hmem
  exact ⟨f, (List.mem_zipIdx_iff_getElem?.mp hzip), by simpa using hindex⟩

theorem MessageDescriptor.Compiles.exists_describes {m : MessageDescriptor}
    (h : m.Compiles fds classOf) : ∃ d : MessageDef, d.Describes fds classOf m := by
  obtain ⟨fields, hfields⟩ := exists_map_some h.fields
  have hnames : m.field.map FieldDescriptor.name = fields.map FieldDef.name :=
    map_eq_map hfields fun f _ y hy => (fieldDefOf_eq_some.mp hy).1.symm
  have hnumbers : m.field.map FieldDescriptor.number = fields.map fun f => (f.number : ℤ) :=
    map_eq_map hfields fun f _ y hy => (fieldDefOf_eq_some.mp hy).2.1.symm
  have hnodup : (fields.map fun f => (f.number : ℤ)).Nodup := hnumbers ▸ h.numbers
  have hentry : m.options.getD false = true → ∃ k v, k.isKey = true ∧ fields = entryFields k v := by
    intro hoption
    have hsome : m.options = some true := by
      cases hm : m.options <;> simp_all
    obtain ⟨k, v, hk, heq⟩ := h.entry hsome
    exact ⟨k, v, hk, List.map_injective_iff.mpr (Option.some_injective _) (hfields.symm.trans heq)⟩
  have honeofs : ∀ i, ∀ y ∈ (members m.field i).filterMap fun j => fields[j]?,
      y ∈ fields ∧ y.label = .optional := by
    intro i y hy
    obtain ⟨j, hj, hget⟩ := List.mem_filterMap.mp hy
    obtain ⟨f, hf, hindex⟩ := exists_of_mem_members hj
    have hread := getElem?_map_some hfields j
    rw [hf, hget, Option.map_some, Option.map_some, Option.some.injEq] at hread
    have hlabel := h.oneof_optional f (List.mem_of_getElem? hf) (by simp [hindex])
    obtain ⟨-, -, -, hy⟩ := fieldDefOf_eq_some.mp hread
    rw [hlabel] at hy
    exact ⟨List.mem_of_getElem? hget, (Option.some.inj hy).symm⟩
  refine ⟨{
    fields := fields
    mapEntry := m.options.getD false
    oneofs := m.oneofDecl.mapIdx fun i o =>
      ⟨o.name, (members m.field i).filterMap fun j => fields[j]?⟩
    numbers_nodup := ?_
    names_nodup := hnames ▸ h.names
    number_lt := ?_
    entry_shape := hentry
    oneofs_singular := ?_
    oneofs_nodup := ?_ }, hfields, rfl, rfl⟩
  · rw [show (fun f : FieldDef => (f.number : ℤ)) = (fun n : ℕ => (n : ℤ)) ∘ FieldDef.number from rfl,
      ← List.map_map] at hnodup
    exact hnodup.of_map _
  · intro y hy
    obtain ⟨f, hf, hfy⟩ := exists_of_mem_map_some hfields hy
    have hlt := h.number_lt f hf
    have hnumber := (fieldDefOf_eq_some.mp hfy).2.1
    omega
  · intro o ho
    obtain ⟨i, hi, rfl⟩ := List.mem_mapIdx.mp ho
    exact honeofs i
  · have hmap : (m.oneofDecl.mapIdx fun i o => (⟨o.name, (members m.field i).filterMap
        fun j => fields[j]?⟩ : OneofDef)).map OneofDef.name =
        m.oneofDecl.map OneofDescriptor.name := by
      refine List.ext_getElem? fun i => ?_
      rw [List.getElem?_map, List.getElem?_mapIdx, Option.map_map, List.getElem?_map]
      rfl
    rw [hmap]
    exact h.oneofs

/-- The schema of files whose message types have classes of their own. -/
theorem exists_schema (hdistinct : Distinct fds)
    (hcompiles : ∀ fd ∈ fds, ∀ e ∈ fd.messages, e.2.Compiles fds classOf)
    (hclass : Set.InjOn classOf {name | name ∈ Assoc.keys (fds.flatMap FileDescriptor.messages)}) :
    ∃ S : Pool, S.Describes fds classOf := by
  have hone : ∀ cls, ∃ d : MessageDef, ∀ e ∈ fds.flatMap FileDescriptor.messages,
      classOf e.1 = cls → d.Describes fds classOf e.2 := by
    intro cls
    by_cases hcls : ∃ e ∈ fds.flatMap FileDescriptor.messages, classOf e.1 = cls
    · obtain ⟨e, he, rfl⟩ := hcls
      obtain ⟨fd, hfd, hmem⟩ := List.mem_flatMap.mp he
      obtain ⟨d, hd⟩ := (hcompiles fd hfd e hmem).exists_describes
      refine ⟨d, fun e' he' heq => ?_⟩
      have hname := hclass (List.mem_map_of_mem he') (List.mem_map_of_mem he) heq
      obtain rfl := List.inj_on_of_nodup_map hdistinct.symbols.of_append_left he' he hname
      exact hd
    · exact ⟨.empty, fun e he heq => absurd ⟨e, he, heq⟩ hcls⟩
  choose d hd using hone
  exact ⟨{ descriptor := d }, fun fd hfd e he => hd _ e (List.mem_flatMap.mpr ⟨fd, hfd, he⟩) rfl⟩

/-- The order of the files does not matter. -/
theorem declares_perm {fds' : List FileDescriptor} (hdistinct : Distinct fds)
    (horder : fds.Perm fds') :
    FieldDescriptor.declares fds classOf = FieldDescriptor.declares fds' classOf := by
  funext f
  have hmessages := Assoc.find_perm (horder.flatMap_right FileDescriptor.messages)
    hdistinct.symbols.of_append_left (DescriptorPool.normalizeName f.typeName)
  have henums := Assoc.find_perm (horder.flatMap_right FileDescriptor.enums)
    hdistinct.symbols.of_append_right (DescriptorPool.normalizeName f.typeName)
  simp only [FieldDescriptor.declares, declaredClass, declaredValues, hmessages, henums]

theorem Pool.Describes.perm {fds' : List FileDescriptor} {S : Pool} (h : S.Describes fds classOf)
    (hdistinct : Distinct fds) (horder : fds.Perm fds') : S.Describes fds' classOf := by
  intro fd hfd e he
  obtain ⟨hfields, hentry, honeofs⟩ := h fd (horder.mem_iff.mpr hfd) e he
  exact ⟨declares_perm hdistinct horder ▸ hfields, hentry, honeofs⟩

/-! ### The objects of a pool -/

namespace Holds

variable {p : DescriptorPool} {name : PerlStr} {o : MessageObject} {f : FieldObject}

theorem messageAt_address (h : Holds p fds) (ho : (name, o) ∈ p.messages) :
    p.messageAt o.address = some o := by
  cases hfind : p.messages.find? fun e => e.2.address == o.address with
  | none => exact absurd (List.find?_eq_none.mp hfind _ ho) (by simp)
  | some e =>
      have heq : e.2.address = o.address := by simpa using List.find?_some hfind
      have hentry := eq_of_numbered h.messageAddresses (List.mem_of_find?_eq_some hfind) ho heq
      rw [DescriptorPool.messageAt, hfind, hentry]
      rfl

theorem enumAt_address (h : Holds p fds) {o : EnumObject} (ho : (name, o) ∈ p.enums) :
    p.enumAt o.address = some o := by
  cases hfind : p.enums.find? fun e => e.2.address == o.address with
  | none => exact absurd (List.find?_eq_none.mp hfind _ ho) (by simp)
  | some e =>
      have heq : e.2.address = o.address := by simpa using List.find?_some hfind
      have hentry := eq_of_numbered h.enumAddresses (List.mem_of_find?_eq_some hfind) ho heq
      rw [DescriptorPool.enumAt, hfind, hentry]
      rfl

/-- The object behind a field is the one that its type name finds. -/
theorem messageType_eq (h : Holds p fds) (hresolved : p.Resolved) (ho : (name, o) ∈ p.messages)
    (hf : f ∈ o.fields) : p.messageType f = p.findMessageByName f.typeName := by
  rw [DescriptorPool.messageType, (hresolved _ ho f hf).1]
  cases hfind : p.findMessageByName f.typeName with
  | none => rfl
  | some m => exact h.messageAt_address (Assoc.mem_of_find hfind)

theorem enumType_eq (h : Holds p fds) (hresolved : p.Resolved) (ho : (name, o) ∈ p.messages)
    (hf : f ∈ o.fields) : p.enumType f = p.findEnumByName f.typeName := by
  rw [DescriptorPool.enumType, (hresolved _ ho f hf).2]
  cases hfind : p.findEnumByName f.typeName with
  | none => rfl
  | some e => exact h.enumAt_address (Assoc.mem_of_find hfind)

/-- An object of the pool is that of a declared message type. -/
theorem exists_declared (h : Holds p fds) (ho : Assoc.find p.messages name = some o) :
    ∃ fd ∈ fds, ∃ e ∈ fd.messages, e.1 = name ∧ o.shape = (messageObject 0 fd.key e.1 e.2).shape := by
  have hmem : (name, o.shape) ∈ p.messages.map fun e => (e.1, e.2.shape) :=
    List.mem_map.mpr ⟨_, Assoc.mem_of_find ho, rfl⟩
  rw [h.messages] at hmem
  obtain ⟨fd, hfd, hmem⟩ := List.mem_flatMap.mp hmem
  obtain ⟨e, he, heq⟩ := List.mem_map.mp hmem
  obtain ⟨rfl, hshape⟩ := Prod.mk.inj heq
  exact ⟨fd, hfd, e, he, rfl, hshape.symm⟩

theorem class_eq (h : Holds p fds) (typeName : PerlStr) :
    (p.findMessageByName typeName).map (fun m => classOf m.fullName) =
      declaredClass fds classOf typeName := by
  rw [DescriptorPool.findMessageByName, declaredClass]
  cases hfind : Assoc.find p.messages (DescriptorPool.normalizeName typeName) with
  | none =>
      rw [Assoc.find_eq_none_iff, h.keys_messages] at hfind
      rw [Assoc.find_eq_none_iff.mpr hfind]
      rfl
  | some m =>
      obtain ⟨fd, hfd, e, he, hname, hshape⟩ := h.exists_declared hfind
      have hsome : Assoc.find (fds.flatMap FileDescriptor.messages)
          (DescriptorPool.normalizeName typeName) ≠ none := by
        rw [ne_eq, Assoc.find_eq_none_iff, not_not, ← hname]
        exact List.mem_map_of_mem (List.mem_flatMap.mpr ⟨fd, hfd, he⟩)
      obtain ⟨e', he'⟩ := Option.ne_none_iff_exists'.mp hsome
      have hfull : m.fullName = e.1 := congrArg MessageObject.fullName hshape
      rw [he', Option.map_some, Option.map_some, hfull, hname]

theorem values_eq (h : Holds p fds) (hdistinct : Distinct fds) (typeName : PerlStr) :
    (p.findEnumByName typeName).map (fun e => e.values.map fun v => (v.1, v.2.1)) =
      declaredValues fds typeName := by
  rw [DescriptorPool.findEnumByName, declaredValues]
  cases hfind : Assoc.find (fds.flatMap FileDescriptor.enums)
      (DescriptorPool.normalizeName typeName) with
  | none =>
      rw [Assoc.find_eq_none_iff, ← h.keys_enums] at hfind
      rw [Assoc.find_eq_none_iff.mpr hfind]
      rfl
  | some e =>
      obtain ⟨fd, hfd, he⟩ := List.mem_flatMap.mp (Assoc.mem_of_find hfind)
      obtain ⟨o, ho, hshape⟩ := Option.map_eq_some_iff.mp (h.find_enum hdistinct hfd he)
      have hvalues : o.values = (enumObject 0 fd.key (DescriptorPool.normalizeName typeName)
        e).values := (congrArg EnumObject.values hshape :)
      rw [ho, Option.map_some, Option.map_some, hvalues, enumObject, List.map_map]
      rfl

/-- A field tells what was declared. -/
theorem fieldDef_eq (h : Holds p fds) (hresolved : p.Resolved) (hdistinct : Distinct fds)
    (ho : (name, o) ∈ p.messages) (hf : f ∈ o.fields) {fullName : PerlStr} {f' : FieldDescriptor}
    {oneof : Option ℕ} (hshape : f.shape = fieldObject fullName f' oneof) :
    p.fieldDef classOf f = f'.declares fds classOf := by
  have hname : f.name = f'.name := congrArg FieldObject.name hshape
  have hnumber : f.number = f'.number := congrArg FieldObject.number hshape
  have htype : f.type = f'.type := congrArg FieldObject.type hshape
  have hlabel : f.label = f'.label := congrArg FieldObject.label hshape
  have htypeName : f.typeName = f'.typeName := congrArg FieldObject.typeName hshape
  rw [DescriptorPool.fieldDef, h.messageType_eq hresolved ho hf, h.enumType_eq hresolved ho hf,
    h.class_eq, h.values_eq hdistinct, hname, hnumber, htype, hlabel, htypeName]
  rfl

/-- A field is a map field when its type is a map entry. -/
theorem isMap_iff (h : Holds p fds) (hresolved : p.Resolved) {S : Pool}
    (hS : S.Describes fds classOf) (ho : (name, o) ∈ p.messages) (hf : f ∈ o.fields)
    {g : FieldDef} (hg : p.fieldDef classOf f = some g) :
    p.isMap f = true ↔ ∃ entry, g.shape S = .map entry := by
  obtain ⟨-, -, htype, hlabel⟩ := fieldDefOf_eq_some.mp hg
  rw [DescriptorPool.isMap]
  by_cases hl : f.label = 3
  · have hrepeated : g.label = .repeated :=
      Option.some.inj (hlabel.symm.trans (labelOf_eq_repeated_iff.mpr hl))
    rw [if_neg (not_not.mpr hl)]
    by_cases ht : f.type = 11
    · rw [if_neg (not_not.mpr ht)]
      cases hm : p.messageType f with
      | none =>
          rw [hm, ht] at htype
          cases htype
      | some m =>
          rw [hm, ht] at htype
          have hmessage : g.type = .message (classOf m.fullName) := (Option.some.inj htype).symm
          -- the entry's own declaration says whether it is one
          rw [h.messageType_eq hresolved ho hf] at hm
          obtain ⟨fd, hfd, e, he, -, hshape⟩ := h.exists_declared hm
          have hfull : m.fullName = e.1 := congrArg MessageObject.fullName hshape
          have hoptions : m.options = e.2.options := congrArg MessageObject.options hshape
          have hentry : (S.descriptor (classOf m.fullName)).mapEntry = m.isMapEntry := by
            rw [hfull, (hS fd hfd e he).mapEntry, MessageObject.isMapEntry, hoptions]
          simp only [FieldDef.shape, hrepeated, hmessage, hentry]
          split <;> simp_all
    · rw [if_pos ht]
      refine iff_of_false Bool.false_ne_true ?_
      rintro ⟨entry, hentry⟩
      rw [(FieldDef.shape_map hentry).1] at htype
      exact ht (fieldTypeOf_eq_message_iff.mp htype).1
  · rw [if_pos hl]
    refine iff_of_false Bool.false_ne_true ?_
    rintro ⟨entry, hentry⟩
    have hrepeated : g.label ≠ .repeated := fun heq => hl (labelOf_eq_repeated_iff.mp (heq ▸ hlabel))
    unfold FieldDef.shape at hentry
    split at hentry <;> simp_all

/-- Every object answers as the schema of the files does. -/
theorem answers (h : Holds p fds) (hresolved : p.Resolved) (hdistinct : Distinct fds)
    {S : Pool} (hS : S.Describes fds classOf) {fd : FileDescriptor} (hfd : fd ∈ fds)
    {e : PerlStr × MessageDescriptor} (he : e ∈ fd.messages)
    (ho : Assoc.find p.messages e.1 = some o) (hdescribes : o.Describes fd e) :
    o.Answers p classOf S := by
  have hmem := Assoc.mem_of_find ho
  obtain ⟨hdeclared, -, honeofs⟩ := hS fd hfd e he
  rw [← hdescribes.fullName] at hdeclared honeofs
  have hfields : o.fields.map (p.fieldDef classOf) =
      (S.descriptor (classOf o.fullName)).fields.map some :=
    (map_eq_map hdescribes.fields fun f hf f' hshape =>
      h.fieldDef_eq hresolved hdistinct hmem hf hshape).trans hdeclared
  have hnames : ∀ f g, p.fieldDef classOf f = some g → g.name = f.name ∧ (g.number : ℤ) = f.number :=
    fun f g hg => ⟨(fieldDefOf_eq_some.mp hg).1, (fieldDefOf_eq_some.mp hg).2.1⟩
  refine ⟨getElem?_bind hfields, fun name => ?_, fun n => ?_,
    fun f hf g hg => h.isMap_iff hresolved hS hmem hf hg, fun name => ?_⟩
  · exact find?_bind hfields fun f g hg => by rw [(hnames f g hg).1]
  · refine find?_bind hfields fun f g hg => ?_
    rw [← (hnames f g hg).2, Bool.eq_iff_iff]
    simp
  · rw [MessageObject.findOneofByName, hdescribes.oneofs, MessageDef.findOneofByName, honeofs]
    refine find?_mapIdx ?_ ?_ _
    · exact fun _ _ => rfl
    · exact fun i _ => filterMap_getElem? hfields _

end Holds

/-- A message type with a field of its own type and a field of an enum inside it. -/
def nodeFile : FileDescriptor where
  name := ps "node.proto"
  package := ps "p"
  messageType := [{
    name := ps "Node"
    field := [
      { name := ps "next", number := 1, label := 1, type := 11, typeName := ps ".p.Node" },
      { name := ps "kinds", number := 2, label := 3, type := 14, typeName := ps ".p.Node.Kind" }]
    enumType := [{ name := ps "Kind", value := [⟨ps "LEAF", 0⟩] }] }]

end GooglePerl.Protobuf
