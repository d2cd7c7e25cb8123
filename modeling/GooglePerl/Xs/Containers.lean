import GooglePerl.Xs.SvToUpb

/-!
Assigning the container of one field to another (`PerlUpb_SvToUpb`, the fast
paths). The paths compare the outer types of the two fields, which for two maps
and for two repeated messages are always the same.
-/

namespace GooglePerl.Xs

open GooglePerl.Lib GooglePerl.Protobuf

section

variable (S : DefPool) (Text : PerlStr → Prop) (address : Sv → ℕ)

/-- The container of a repeated or map field, and what it holds. -/
structure LiveContainer where
  field : FieldDef
  value : MessageValue
  label : field.label = .repeated
  typed : Typed S Text (valueType S.toPool field) value

variable {S Text} in
/-- The tied array or hash that a getter returns for it. -/
def LiveContainer.sv (L : LiveContainer S Text) : Sv :=
  match L.value with
  | .array items => .repeated L.field items
  | .map entries => .map L.field entries
  | _ => .other

/-- The assignment croaks or stores values of the declared types, and stores the
same contents if the types are the same. -/
def AssignSafe (f : FieldDef) (L : LiveContainer S Text) : Prop :=
  ((∃ e, svToUpb S address f L.sv = .error (.croak e)) ∨
    ∃ v, svToUpb S address f L.sv = .ok v ∧ Typed S Text (valueType S.toPool f) v) ∧
  (valueType S.toPool f = valueType S.toPool L.field → svToUpb S address f L.sv = .ok L.value)

/-- Whether a value of type `t` may be taken for one of type `t'`: the types use
the same member of the union, and the same message type; what becomes a string
is text. -/
def Fits (t t' : FieldType) (v : MessageValue) : Prop :=
  typeMember t = typeMember t' ∧ (∀ c c', t = .message c → t' = .message c' → c = c') ∧
    (t' = .string → ∀ s, v = .str s → Text s)

/-- When the assignment is safe: the containers are of different kinds, or repeated
fields of different types, so that it croaks; or everything in the container fits. -/
def Assignable (f : FieldDef) (L : LiveContainer S Text) : Prop :=
  match valueType S.toPool f, L.value with
  | .map k' v', .map entries =>
      ∀ k v, valueType S.toPool L.field = .map k v →
        ∀ e ∈ entries, Fits Text k k' e.1 ∧ Fits Text v v' e.2
  | .array t', .array items =>
      typeNumber L.field.type ≠ typeNumber t' ∨ ∀ x ∈ items, Fits Text L.field.type t' x
  | _, _ => True

end

section

variable {S : DefPool} {Text : PerlStr → Prop} {t t' : FieldType} {v w : MessageValue}

/-! ### One value -/

theorem copyElement_eq_ok :
    copyElement t' v = .ok w ↔ w = v ∧ v.member = typeMember t' ∧
      ∀ c slots rest c', v = .msg c slots rest → t' = .message c' → c = c' := by
  unfold copyElement
  split
  · rename_i c c' slots rest
    constructor
    · intro h
      split at h
      · rename_i heq
        subst heq
        obtain rfl := Except.ok.inj h
        refine ⟨rfl, rfl, ?_⟩
        rintro c₁ slots₁ rest₁ c₂ hv ht
        obtain ⟨rfl, -, -⟩ := MessageValue.msg.inj hv
        exact FieldType.message.inj ht
      · cases h
    · rintro ⟨rfl, -, hcls⟩
      rw [if_pos (hcls _ _ _ _ rfl rfl)]
  · rename_i hne
    constructor
    · intro h
      split at h
      · rename_i hmember
        obtain rfl := Except.ok.inj h
        refine ⟨rfl, hmember, ?_⟩
        rintro c slots rest c' rfl rfl
        exact absurd rfl (hne _ _ _ _ rfl)
      · cases h
    · rintro ⟨rfl, hmember, -⟩
      rw [if_pos hmember]

theorem copyElement_eq_error {e : Fault} (h : copyElement t' v = .error e) : e = .misread := by
  unfold copyElement at h
  split at h
  · split at h <;> cases h
    rfl
  · split at h <;> cases h
    rfl

theorem member_of_typed (h : Typed S Text (.single t) v) : v.member = typeMember t := by
  cases v with
  | bool b =>
      simp only [Typed, ValueType.single.injEq] at h
      rw [h]
      rfl
  | int32 n | uint32 n | int64 n | uint64 n =>
      simp only [Typed, ValueType.single.injEq] at h
      obtain ⟨_, rfl, hmember, -⟩ := h
      exact hmember.symm
  | float v | double v =>
      simp only [Typed, ValueType.single.injEq] at h
      rw [h.1]
      rfl
  | str s =>
      simp only [Typed, ValueType.single.injEq] at h
      rcases h with rfl | ⟨rfl, -⟩ <;> rfl
  | msg c slots rest =>
      simp only [Typed, ValueType.single.injEq] at h
      rw [h.1]
      rfl
  | array items => simp [Typed] at h
  | map entries => simp [Typed] at h

theorem eq_message_of_typed {c : String} (h : Typed S Text (.single (.message c)) v) :
    ∃ slots rest, v = .msg c slots rest := by
  cases v with
  | msg c' slots rest =>
      simp only [Typed, ValueType.single.injEq, FieldType.message.injEq] at h
      obtain ⟨rfl, -⟩ := h
      exact ⟨slots, rest, rfl⟩
  | _ => simp [Typed, typeMember] at h

/-- A value that fits is one of the other type as well. -/
theorem typed_of_fits (h : Typed S Text (.single t) v) (hfits : Fits Text t t' v) :
    Typed S Text (.single t') v := by
  obtain ⟨hmember, hcls, htext⟩ := hfits
  have hv := member_of_typed h
  rw [hmember] at hv
  cases v with
  | bool b =>
      cases t' <;> cases hv
      simp only [Typed]
  | int32 n | uint32 n | int64 n | uint64 n =>
      simp only [Typed, ValueType.single.injEq] at h ⊢
      obtain ⟨_, rfl, -, hrange⟩ := h
      exact ⟨t', rfl, hv.symm, hrange⟩
  | float x | double x =>
      cases t' <;> cases hv
      simp only [Typed, true_and] at h ⊢
      exact h.2
  | str s =>
      cases t' <;> cases hv
      · simpa [Typed] using htext rfl s rfl
      · simp [Typed]
  | msg c slots rest =>
      cases t' <;> cases hv
      simp only [Typed, ValueType.single.injEq, FieldType.message.injEq] at h ⊢
      exact ⟨(hcls _ _ h.1 rfl).symm, h.2⟩
  | array items => simp [Typed] at h
  | map entries => simp [Typed] at h

/-- What can be read as another type, and is of it, is what fits. -/
theorem copyElement_iff (h : Typed S Text (.single t) v) :
    (copyElement t' v = .ok v ∧ Typed S Text (.single t') v) ↔ Fits Text t t' v := by
  constructor
  · rintro ⟨hcopy, htyped⟩
    obtain ⟨-, hmember, hcls⟩ := copyElement_eq_ok.mp hcopy
    refine ⟨(member_of_typed h).symm.trans hmember, ?_, ?_⟩
    · rintro c c' rfl rfl
      obtain ⟨slots, rest, rfl⟩ := eq_message_of_typed h
      exact hcls _ _ _ _ rfl rfl
    · rintro rfl s rfl
      simpa [Typed] using htyped
  · intro hfits
    refine ⟨copyElement_eq_ok.mpr ⟨rfl, (member_of_typed h).trans hfits.1, ?_⟩,
      typed_of_fits h hfits⟩
    rintro c slots rest c' rfl rfl
    simp only [Typed, ValueType.single.injEq] at h
    exact hfits.2.1 _ _ h.1 rfl

/-! ### Whole containers -/

theorem typedItems_iff {items : List MessageValue} :
    TypedItems S Text t items ↔ ∀ x ∈ items, Typed S Text (.single t) x := by
  induction items with
  | nil => simp [TypedItems]
  | cons x xs ih => simp [TypedItems, ih]

theorem typedEntries_iff {entries : List (MessageValue × MessageValue)} :
    TypedEntries S Text t t' entries ↔
      ∀ e ∈ entries, Typed S Text (.single t) e.1 ∧ Typed S Text (.single t') e.2 := by
  induction entries with
  | nil => simp [TypedEntries]
  | cons e es ih =>
      obtain ⟨x, y⟩ := e
      simp [TypedEntries, ih, and_assoc]

/-- Copying one value gives it back, or is a misreading. -/
theorem copyElement_cases (t' : FieldType) (v : MessageValue) :
    copyElement t' v = .ok v ∨ copyElement t' v = .error .misread := by
  cases h : copyElement t' v with
  | error e => exact .inr (by rw [copyElement_eq_error h])
  | ok w => exact .inl (by rw [(copyElement_eq_ok.mp h).1])

/-- So is copying an array. -/
theorem copyItems_cases (t' : FieldType) (items : List MessageValue) :
    (items.mapM (copyElement t') = .ok items ∧ ∀ x ∈ items, copyElement t' x = .ok x) ∨
      (items.mapM (copyElement t') = .error .misread ∧ ∃ x ∈ items, copyElement t' x ≠ .ok x) := by
  induction items with
  | nil => exact .inl ⟨rfl, by simp⟩
  | cons x xs ih =>
      rw [List.mapM_cons]
      rcases copyElement_cases t' x with hx | hx
      · rcases ih with ⟨hxs, hall⟩ | ⟨hxs, y, hy, hfail⟩
        · left
          refine ⟨by rw [hx, hxs]; rfl, ?_⟩
          intro y hy
          rcases List.mem_cons.mp hy with rfl | hy
          · exact hx
          · exact hall y hy
        · right
          exact ⟨by rw [hx, hxs]; rfl, y, List.mem_cons_of_mem _ hy, hfail⟩
      · right
        exact ⟨by rw [hx]; rfl, x, List.mem_cons_self, by simp [hx]⟩

theorem mapSet_of_new {k v : MessageValue} {dst : List (MessageValue × MessageValue)}
    (h : ∀ e ∈ dst, k.sameKey e.1 = false) : mapSet k v dst = dst ++ [(k, v)] := by
  induction dst with
  | nil => rfl
  | cons e es ih =>
      obtain ⟨k', v'⟩ := e
      have hk : k.sameKey k' = false := h (k', v') List.mem_cons_self
      rw [mapSet, hk, ih fun e he => h e (List.mem_cons_of_mem _ he)]
      rfl

/-- And copying a map, whose keys are distinct. -/
theorem copyEntries_cases (k v : FieldType) (dst entries : List (MessageValue × MessageValue))
    (hkeys : (dst ++ entries).Pairwise fun a b => b.1.sameKey a.1 = false) :
    (copyEntries k v dst entries = .ok (dst ++ entries) ∧
        ∀ e ∈ entries, copyElement k e.1 = .ok e.1 ∧ copyElement v e.2 = .ok e.2) ∨
      (copyEntries k v dst entries = .error .misread ∧
        ∃ e ∈ entries, ¬ (copyElement k e.1 = .ok e.1 ∧ copyElement v e.2 = .ok e.2)) := by
  induction entries generalizing dst with
  | nil => exact .inl ⟨by simp [copyEntries], by simp⟩
  | cons e es ih =>
      obtain ⟨x, y⟩ := e
      simp only [copyEntries]
      rcases copyElement_cases v y with hy | hy
      · rcases copyElement_cases k x with hx | hx
        · have hnew : mapSet x y dst = dst ++ [(x, y)] := by
            apply mapSet_of_new
            intro e he
            exact (List.pairwise_append.mp hkeys).2.2 e he (x, y) List.mem_cons_self
          have happend : dst ++ (x, y) :: es = (dst ++ [(x, y)]) ++ es := by simp
          rw [happend] at hkeys ⊢
          simp only [hy, hx, hnew, Bind.bind, Except.bind]
          rcases ih _ hkeys with ⟨hes, hall⟩ | ⟨hes, e, he, hfail⟩
          · left
            refine ⟨hes, ?_⟩
            intro e he
            rcases List.mem_cons.mp he with rfl | he
            · exact ⟨hx, hy⟩
            · exact hall e he
          · right
            exact ⟨hes, e, List.mem_cons_of_mem _ he, hfail⟩
        · right
          exact ⟨by simp [hx, hy, Bind.bind, Except.bind], (x, y), List.mem_cons_self, by simp [hx]⟩
      · right
        exact ⟨by simp [hy, Bind.bind, Except.bind], (x, y), List.mem_cons_self, by simp [hy]⟩

/-! ### The fast paths -/

theorem mapFields_of_mapEntry {c : String} (h : (S.descriptor c).mapEntry = true) :
    ∃ k v, mapFields S.toPool c = some (k, v) := by
  obtain ⟨k, v, -, -, hkey, hvalue⟩ := S.toPool.entry_fields h
  exact ⟨_, _, by rw [mapFields, hkey, hvalue]⟩

/-- A field with the label `repeated` is an array or a map. -/
theorem valueType_of_repeated {f : FieldDef} (h : f.label = .repeated) :
    (f.shape S.toPool = .repeated ∧ valueType S.toPool f = .array f.type) ∨
      ∃ c k v, f.shape S.toPool = .map c ∧ f.type = .message c ∧
        mapFields S.toPool c = some (k, v) ∧ valueType S.toPool f = .map k.type v.type := by
  cases hshape : f.shape S.toPool with
  | singular =>
      unfold FieldDef.shape at hshape
      rw [h] at hshape
      split at hshape <;> try cases hshape
      · split at hshape <;> cases hshape
      · rename_i heq
        cases heq
      · rename_i heq
        cases heq
  | repeated => exact .inl ⟨rfl, by rw [valueType, hshape]⟩
  | map c =>
      right
      obtain ⟨htype, hentry⟩ := FieldDef.shape_map hshape
      obtain ⟨k, v, hfields⟩ := mapFields_of_mapEntry hentry
      exact ⟨c, k, v, rfl, htype, hfields, by simp [valueType, hshape, hfields]⟩

variable {address : Sv → ℕ} {f g : FieldDef}

/-- A repeated container given to a repeated field. -/
theorem svToUpb_repeated {items : List MessageValue} (h : f.shape S.toPool = .repeated) :
    svToUpb S address f (.repeated g items) =
      if typeNumber g.type ≠ typeNumber f.type then
        .error (.croak (.repeatedMismatch f.name (typeNumber f.type) (typeNumber g.type)))
      else (items.mapM (copyElement f.type)).map .array := by
  simp only [svToUpb, svToUpbWith, h]

/-- A map container given to a map field: both are messages to the check. -/
theorem svToUpb_map {c : String} {k v : FieldDef} {entries : List (MessageValue × MessageValue)}
    (h : f.shape S.toPool = .map c) (hfields : mapFields S.toPool c = some (k, v))
    (htype : typeNumber g.type = typeNumber f.type) :
    svToUpb S address f (.map g entries) = (copyEntries k.type v.type [] entries).map .map := by
  simp only [svToUpb, svToUpbWith, h, hfields, htype, ne_eq, not_true_eq_false, if_false]

/-- The value of a container is an array or a map, as its field is. -/
theorem LiveContainer.value_cases (L : LiveContainer S Text) :
    (∃ items, L.value = .array items ∧ valueType S.toPool L.field = .array L.field.type ∧
        ∀ x ∈ items, Typed S Text (.single L.field.type) x) ∨
      ∃ c k v entries, L.value = .map entries ∧ L.field.type = .message c ∧
        valueType S.toPool L.field = .map k v ∧
        entries.Pairwise (fun a b => b.1.sameKey a.1 = false) ∧
        ∀ e ∈ entries, Typed S Text (.single k) e.1 ∧ Typed S Text (.single v) e.2 := by
  have htyped := L.typed
  rcases valueType_of_repeated (S := S) L.label with ⟨-, hty⟩ | ⟨c, k, v, -, htype, -, hty⟩
  · left
    rw [hty] at htyped
    cases hv : L.value with
    | array items =>
        simp only [hv, Typed, ValueType.array.injEq] at htyped
        obtain ⟨t, rfl, hitems⟩ := htyped
        exact ⟨items, rfl, hty, typedItems_iff.mp hitems⟩
    | _ => simp [hv, Typed] at htyped
  · right
    rw [hty] at htyped
    cases hv : L.value with
    | map entries =>
        simp only [hv, Typed, ValueType.map.injEq] at htyped
        obtain ⟨k', v', ⟨rfl, rfl⟩, hkeys, hentries⟩ := htyped
        exact ⟨c, k.type, v.type, entries, rfl, htype, hty, hkeys, typedEntries_iff.mp hentries⟩
    | _ => simp [hv, Typed] at htyped

theorem assignSafe_repeated (L : LiveContainer S Text) {items : List MessageValue}
    (hshape : f.shape S.toPool = .repeated) (hf : valueType S.toPool f = .array f.type)
    (hvalue : L.value = .array items) (hg : valueType S.toPool L.field = .array L.field.type)
    (hitems : ∀ x ∈ items, Typed S Text (.single L.field.type) x) :
    AssignSafe S Text address f L ↔ Assignable S Text f L := by
  have hsv : L.sv = .repeated L.field items := by rw [LiveContainer.sv, hvalue]
  simp only [AssignSafe, Assignable, hsv, hvalue, hf, hg, svToUpb_repeated hshape,
    ValueType.array.injEq]
  by_cases hnum : typeNumber L.field.type = typeNumber f.type
  · simp only [hnum, ne_eq, not_true_eq_false, if_false, false_or]
    rcases copyItems_cases f.type items with ⟨hcopy, hall⟩ | ⟨hcopy, x, hx, hfail⟩
    · simp only [hcopy, Except.map, Except.ok.injEq, reduceCtorEq, exists_false, false_or,
        implies_true, and_true, exists_eq_left', Typed, ValueType.array.injEq, typedItems_iff]
      refine forall₂_congr fun x hx => ?_
      rw [← copyElement_iff (hitems x hx)]
      exact (and_iff_right (hall x hx)).symm
    · simp only [hcopy, Except.map, Except.error.injEq, reduceCtorEq, exists_false, false_and,
        or_self, false_iff, not_forall]
      refine ⟨x, hx, fun hfits => hfail ?_⟩
      exact ((copyElement_iff (hitems x hx)).mpr hfits).1
  · simp only [ne_eq, hnum, not_false_eq_true, if_true, true_or, iff_true]
    refine ⟨.inl ⟨_, rfl⟩, fun heq => absurd ?_ hnum⟩
    rw [heq]

theorem assignSafe_map (L : LiveContainer S Text) {c c' : String} {k v : FieldDef}
    {kg vg : FieldType} {entries : List (MessageValue × MessageValue)}
    (hshape : f.shape S.toPool = .map c) (htype : f.type = .message c)
    (hfields : mapFields S.toPool c = some (k, v))
    (hf : valueType S.toPool f = .map k.type v.type)
    (hvalue : L.value = .map entries) (hgtype : L.field.type = .message c')
    (hg : valueType S.toPool L.field = .map kg vg)
    (hkeys : entries.Pairwise fun a b => b.1.sameKey a.1 = false)
    (hentries : ∀ e ∈ entries, Typed S Text (.single kg) e.1 ∧ Typed S Text (.single vg) e.2) :
    AssignSafe S Text address f L ↔ Assignable S Text f L := by
  have hsv : L.sv = .map L.field entries := by rw [LiveContainer.sv, hvalue]
  have hnum : typeNumber L.field.type = typeNumber f.type := by rw [hgtype, htype]; rfl
  have hfits : ∀ e ∈ entries, (Fits Text kg k.type e.1 ∧ Fits Text vg v.type e.2) ↔
      (copyElement k.type e.1 = .ok e.1 ∧ copyElement v.type e.2 = .ok e.2) ∧
        Typed S Text (.single k.type) e.1 ∧ Typed S Text (.single v.type) e.2 := by
    intro e he
    rw [← copyElement_iff (hentries e he).1, ← copyElement_iff (hentries e he).2]
    exact and_and_and_comm
  have hassign : Assignable S Text f L ↔
      ∀ e ∈ entries, Fits Text kg k.type e.1 ∧ Fits Text vg v.type e.2 := by
    simp only [Assignable, hf, hvalue, hg, ValueType.map.injEq]
    exact ⟨fun h => h _ _ ⟨rfl, rfl⟩, fun h k v ⟨hk, hv⟩ => hk ▸ hv ▸ h⟩
  rw [hassign]
  simp only [AssignSafe, hsv, hvalue, hf, hg, svToUpb_map hshape hfields hnum, ValueType.map.injEq]
  rcases copyEntries_cases k.type v.type [] entries hkeys with ⟨hcopy, hall⟩ | ⟨hcopy, e, he, hfail⟩
  · simp only [hcopy, List.nil_append, Except.map, Except.ok.injEq, reduceCtorEq, exists_false,
      false_or, implies_true, and_true, exists_eq_left', Typed, ValueType.map.injEq,
      typedEntries_iff]
    constructor
    · rintro ⟨k', v', ⟨rfl, rfl⟩, -, htyped⟩ e he
      exact (hfits e he).mpr ⟨hall e he, htyped e he⟩
    · intro h
      exact ⟨_, _, ⟨rfl, rfl⟩, hkeys, fun e he => ((hfits e he).mp (h e he)).2⟩
  · simp only [hcopy, Except.map, Except.error.injEq, reduceCtorEq, exists_false, false_and,
      or_self, false_iff, not_forall]
    exact ⟨e, he, fun h => hfail ((hfits e he).mp h).1⟩

/-- Assigning a container is safe exactly when what it holds fits, or the kinds or
the types of the fields differ enough to be noticed. -/
theorem assignSafe_iff (hf : f.label = .repeated) (L : LiveContainer S Text) :
    AssignSafe S Text address f L ↔ Assignable S Text f L := by
  rcases valueType_of_repeated (S := S) hf with
    ⟨hshape, hty⟩ | ⟨c, k, v, hshape, htype, hfields, hty⟩
  · rcases L.value_cases with
      ⟨items, hvalue, hg, hitems⟩ | ⟨c', kg, vg, entries, hvalue, -, hg, -, -⟩
    · exact assignSafe_repeated L hshape hty hvalue hg hitems
    · have hsv : L.sv = .map L.field entries := by rw [LiveContainer.sv, hvalue]
      have hcroak : ∃ e, svToUpb S address f L.sv = .error (.croak e) := by
        rw [hsv]
        simp [svToUpb, svToUpbWith, hshape, croakWrongType]
      simp [AssignSafe, Assignable, hcroak, hty, hg, hvalue]
  · rcases L.value_cases with ⟨items, hvalue, hg, -⟩ |
      ⟨c', kg, vg, entries, hvalue, hgtype, hg, hkeys, hentries⟩
    · have hsv : L.sv = .repeated L.field items := by rw [LiveContainer.sv, hvalue]
      have hcroak : ∃ e, svToUpb S address f L.sv = .error (.croak e) := by
        rw [hsv]
        simp [svToUpb, svToUpbWith, hshape, hfields, croakWrongType]
      simp [AssignSafe, Assignable, hcroak, hty, hg, hvalue]
    · exact assignSafe_map L hshape htype hfields hty hvalue hgtype hg hkeys hentries

end

/-! ### Two maps -/

/-- Entry types of a `map<string, int32>` and a `map<string, string>`. -/
def twoMaps : DefPool where
  descriptor := fun c =>
    { fields := entryFields .string (if c = "Counts" then .int32 else .string)
      mapEntry := true
      numbers_nodup := by simp [entryFields]
      names_nodup := by simp [entryFields, ps]
      number_lt := by simp [entryFields]
      entry_shape := fun _ => ⟨_, _, rfl, rfl⟩
      oneofs_singular := by simp }
  hasPresence := fun _ _ => false
  not_repeated_of_hasPresence := not_repeated_of_noPresence
  name_ne_zero := by simp [entryFields, ps]

def counts : FieldDef := ⟨ps "counts", 1, .message "Counts", .repeated⟩

def names : FieldDef := ⟨ps "names", 2, .message "Names", .repeated⟩

theorem valueType_counts : valueType twoMaps.toPool counts = .map .string .int32 := rfl

/-- `counts` with one entry. -/
def oneCount : LiveContainer twoMaps fun _ => True where
  field := counts
  value := .map [(.str (ps "a"), .int32 7)]
  label := rfl
  typed := by simp [valueType_counts, Typed, TypedEntries, typeMember]

theorem assignSafe_same : AssignSafe twoMaps (fun _ => True) (fun _ => 0) counts oneCount := by
  rw [assignSafe_iff rfl oneCount]
  simp [Assignable, valueType_counts, oneCount, Fits]

/-- A count is read as the address of a string. -/
theorem assignSafe_fails : ¬ AssignSafe twoMaps (fun _ => True) (fun _ => 0) names oneCount := by
  have hmisread : svToUpb twoMaps (fun _ => 0) names oneCount.sv = .error .misread := rfl
  simp [AssignSafe, hmisread]

end GooglePerl.Xs
