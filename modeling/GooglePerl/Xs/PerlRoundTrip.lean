import GooglePerl.Lib.Except
import GooglePerl.Xs.Batch
import GooglePerl.Xs.Containers
import GooglePerl.Xs.UpbToSv

/-!
From a message to a nested Perl structure and back: `PerlUpb_Message_ToSv`,
then `PerlUpb_SvToUpb` on the result. The order in which Perl iterates over a
hash is not the order in which it was filled, so what comes back has to be the
same message for every order.
-/

namespace GooglePerl.Xs

open GooglePerl.Lib GooglePerl.Protobuf

section

variable (S : DefPool)

mutual

/-- A Perl structure that shows a value: exactly the set fields, in any order, the
elements in their order, the entries in any order. -/
def Shows : ValueType → MessageValue → Sv → Prop
  | ty, .msg c slots _, sv =>
      ty = .single (.message c) ∧ ∃ es shown, sv = .hash es ∧ es.Perm shown ∧
        ShowsSlots (S.descriptor c).fields slots shown
  | ty, .array items, sv => ∃ t svs, ty = .array t ∧ sv = .array svs ∧ ShowsItems t items svs
  | ty, .map entries, sv =>
      ∃ k v es shown, ty = .map k v ∧ sv = .hash es ∧ es.Perm shown ∧
        ShowsEntries k v entries shown
  | ty, v, sv => ∃ t, ty = .single t ∧ sv = .scalar (perlScalar t v)

def ShowsSlots : List FieldDef → List (Option MessageValue) → List (HashKey × Sv) → Prop
  | _ :: fs, none :: slots, es => ShowsSlots fs slots es
  | f :: fs, some v :: slots, (key, sv) :: es =>
      key = ⟨f.name, false⟩ ∧ Shows (valueType S.toPool f) v sv ∧ ShowsSlots fs slots es
  | [], [], [] => True
  | _, _, _ => False

def ShowsItems (t : FieldType) : List MessageValue → List Sv → Prop
  | [], [] => True
  | v :: vs, sv :: svs => Shows (.single t) v sv ∧ ShowsItems t vs svs
  | _, _ => False

def ShowsEntries (k v : FieldType) :
    List (MessageValue × MessageValue) → List (HashKey × Sv) → Prop
  | [], [] => True
  | (x, y) :: es, (key, sv) :: svs =>
      key = hashKey (perlScalar k x) ∧ Shows (.single v) y sv ∧ ShowsEntries k v es svs
  | _, _ => False

end

/-- A message that the engine holds. -/
structure HeldMessage where
  cls : String
  slots : List (Option MessageValue)
  rest : PerlStr
  typed : Typed S (fun _ => True) (.single (.message cls)) (.msg cls slots rest)

variable {S} in
def HeldMessage.value (m : HeldMessage S) : MessageValue := .msg m.cls m.slots m.rest

/-- All floating-point numbers in a value are finite. -/
def AllFinite (m : MessageValue) : Prop :=
  ∀ v, Within (.float v) m ∨ Within (.double v) m → ∃ q, v = .fin q

/-- Showing reads every field through its own member of the union and shows exactly
what is set; and from what is shown, in whatever order its hashes are iterated,
the same message is made again. -/
def RoundTrips (address : Sv → ℕ) (m : HeldMessage S) : Prop :=
  ∃ sv, valueToSv S (.single (.message m.cls)) m.value = .ok sv ∧
    Shows S (.single (.message m.cls)) m.value sv ∧
    (AllFinite m.value → ∀ f sv', f.type = .message m.cls → f.label ≠ .repeated →
      Shows S (.single (.message m.cls)) m.value sv' → svToUpb S address f sv' = .ok m.value)

/-- No message within has a map field, set or not, or a singular field without
presence. -/
def Readable (m : MessageValue) : Prop :=
  ∀ c slots rest, Within (.msg c slots rest) m → ∀ f ∈ (S.descriptor c).fields,
    (∀ e, f.shape S.toPool ≠ .map e) ∧ (f.label ≠ .repeated → S.hasPresence c f = true)

/-- No message within has unknown fields or extensions, or a singular `float` that
is the largest finite one or its negative. -/
def Restorable (m : MessageValue) : Prop :=
  ∀ c slots rest, Within (.msg c slots rest) m → rest = [] ∧
    ∀ q, some (.float (.fin q)) ∈ slots → |q| ≠ FloatFormat.single.max

end

/-! ### Parts -/

theorem within_msg {u : MessageValue} {c : String} {slots : List (Option MessageValue)}
    {rest : PerlStr} :
    Within u (.msg c slots rest) ↔ u = .msg c slots rest ∨ ∃ v, some v ∈ slots ∧ Within u v := by
  constructor
  · intro h
    cases h with
    | refl => exact .inl rfl
    | slot hv hu => exact .inr ⟨_, hv, hu⟩
  · rintro (rfl | ⟨v, hv, hu⟩)
    · exact .refl
    · exact .slot hv hu

theorem within_array {u : MessageValue} {items : List MessageValue} :
    Within u (.array items) ↔ u = .array items ∨ ∃ v ∈ items, Within u v := by
  constructor
  · intro h
    cases h with
    | refl => exact .inl rfl
    | item hv hu => exact .inr ⟨_, hv, hu⟩
  · rintro (rfl | ⟨v, hv, hu⟩)
    · exact .refl
    · exact .item hv hu

theorem within_scalar {u v : MessageValue} (hv : v.isScalar = true) : Within u v ↔ u = v := by
  constructor
  · intro h
    cases h with
    | refl => rfl
    | slot => cases hv
    | item => cases hv
    | key => cases hv
    | value => cases hv
  · rintro rfl
    exact .refl

section

variable {S : DefPool} {Text : PerlStr → Prop}

theorem readable_msg {c : String} {slots : List (Option MessageValue)} {rest : PerlStr} :
    Readable S (.msg c slots rest) ↔
      (∀ f ∈ (S.descriptor c).fields,
        (∀ e, f.shape S.toPool ≠ .map e) ∧ (f.label ≠ .repeated → S.hasPresence c f = true)) ∧
      ∀ v, some v ∈ slots → Readable S v := by
  constructor
  · intro h
    exact ⟨h c slots rest .refl, fun v hv c' slots' rest' hw => h c' slots' rest' (.slot hv hw)⟩
  · rintro ⟨hfields, hslots⟩ c' slots' rest' hw
    rcases within_msg.mp hw with heq | ⟨v, hv, hu⟩
    · obtain ⟨rfl, rfl, rfl⟩ := MessageValue.msg.inj heq
      exact hfields
    · exact hslots v hv c' slots' rest' hu

theorem readable_array {items : List MessageValue} :
    Readable S (.array items) ↔ ∀ v ∈ items, Readable S v := by
  constructor
  · intro h v hv c slots rest hw
    exact h c slots rest (.item hv hw)
  · intro h c slots rest hw
    rcases within_array.mp hw with heq | ⟨v, hv, hu⟩
    · cases heq
    · exact h v hv c slots rest hu

theorem readable_scalar {v : MessageValue} (hv : v.isScalar = true) : Readable S v := by
  intro c slots rest hw
  rw [within_scalar hv] at hw
  subst hw
  cases hv

/-! ### Fields and slots -/

/-- The slots as a function of the field. -/
theorem exists_slotFunction {fs : List FieldDef} {slots : List (Option MessageValue)}
    (hnd : fs.Nodup) (hlen : fs.length = slots.length) :
    ∃ V : FieldDef → Option MessageValue, slots = fs.map V := by
  induction fs generalizing slots with
  | nil =>
      cases slots with
      | nil => exact ⟨fun _ => none, rfl⟩
      | cons => cases hlen
  | cons f fs ih =>
      cases slots with
      | nil => cases hlen
      | cons slot slots =>
          obtain ⟨hf, hnd⟩ := List.nodup_cons.mp hnd
          obtain ⟨V, rfl⟩ := ih hnd (Nat.succ.inj hlen)
          refine ⟨fun g => if g = f then slot else V g, ?_⟩
          rw [List.map_cons, if_pos rfl]
          congr 1
          apply List.map_congr_left
          intro g hg
          rw [if_neg]
          rintro rfl
          exact hf hg

theorem typedSlots_length {c : String} {fs : List FieldDef} {slots : List (Option MessageValue)}
    (h : TypedSlots S Text c fs slots) : fs.length = slots.length := by
  induction fs generalizing slots with
  | nil =>
      cases slots with
      | nil => rfl
      | cons => simp [TypedSlots] at h
  | cons f fs ih =>
      match slots with
      | [] => simp [TypedSlots] at h
      | none :: slots =>
          simp only [TypedSlots] at h
          simp [ih h]
      | some v :: slots =>
          simp only [TypedSlots] at h
          simp [ih h.2.2]

theorem typedSlots_map {c : String} {fs : List FieldDef} {V : FieldDef → Option MessageValue}
    (h : TypedSlots S Text c fs (fs.map V)) {f : FieldDef} {v : MessageValue} (hf : f ∈ fs)
    (hv : V f = some v) : stored S c f v = some v ∧ Typed S Text (valueType S.toPool f) v := by
  induction fs with
  | nil => cases hf
  | cons g fs ih =>
      rw [List.map_cons] at h
      rcases List.mem_cons.mp hf with rfl | hf
      · rw [hv] at h
        simp only [TypedSlots] at h
        exact ⟨h.1, h.2.1⟩
      · cases hg : V g with
        | none =>
            rw [hg] at h
            simp only [TypedSlots] at h
            exact ih h hf
        | some w =>
            rw [hg] at h
            simp only [TypedSlots] at h
            exact ih h.2.2 hf

/-! ### Showing -/

theorem label_of_shape {f : FieldDef} (h : f.shape S.toPool ≠ .singular) :
    f.label = .repeated := by
  cases hlabel : f.label with
  | repeated => rfl
  | optional => simp [FieldDef.shape, hlabel] at h
  | required => simp [FieldDef.shape, hlabel] at h

theorem array_of_typed {f : FieldDef} {v : MessageValue} (hmap : ∀ e, f.shape S.toPool ≠ .map e)
    (hlabel : f.label = .repeated) (h : Typed S Text (valueType S.toPool f) v) :
    ∃ items, v = .array items := by
  rcases valueType_of_repeated (S := S) hlabel with ⟨-, hty⟩ | ⟨e, -, -, hshape, -⟩
  · rw [hty] at h
    cases v with
    | array items => exact ⟨items, rfl⟩
    | _ => simp [Typed] at h
  · exact absurd hshape (hmap e)

theorem hasField_of_readable {c : String} {f : FieldDef} {slot : Option MessageValue}
    (hmap : ∀ e, f.shape S.toPool ≠ .map e)
    (hpresence : f.label ≠ .repeated → S.hasPresence c f = true)
    (hslot : ∀ v, slot = some v →
      stored S c f v = some v ∧ (f.label = .repeated → ∃ items, v = .array items)) :
    hasField S c f slot = .ok slot.isSome := by
  by_cases hlabel : f.label = .repeated
  · rcases valueType_of_repeated (S := S) hlabel with ⟨hshape, -⟩ | ⟨e, -, -, hshape, -⟩
    · cases slot with
      | none => simp [hasField, hlabel, hshape]
      | some v =>
          obtain ⟨hstored, harray⟩ := hslot v rfl
          obtain ⟨items, rfl⟩ := harray hlabel
          have hpres : S.hasPresence c f = false := by
            by_contra hne
            exact S.not_repeated_of_hasPresence c f (by simpa using hne) hlabel
          have hne : items.isEmpty = false := by
            simpa [stored, hpres, MessageValue.isZero] using hstored
          simp [hasField, hlabel, hshape, hne]
    · exact absurd hshape (hmap e)
  · simp [hasField, hlabel, hpresence hlabel]

theorem readable_of_hasField {c : String} {f : FieldDef} {slot : Option MessageValue} {b : Bool}
    (h : hasField S c f slot = .ok b) :
    (∀ e, f.shape S.toPool ≠ .map e) ∧ (f.label ≠ .repeated → S.hasPresence c f = true) := by
  constructor
  · intro e hshape
    have hlabel : f.label = .repeated := label_of_shape (S := S) (by simp [hshape])
    simp [hasField, hlabel, hshape] at h
  · intro hlabel
    by_contra hpresence
    simp [hasField, hlabel, hpresence] at h

theorem member_of_valueType {f : FieldDef} {v : MessageValue}
    (hmap : ∀ e, f.shape S.toPool ≠ .map e) (h : Typed S Text (valueType S.toPool f) v) :
    v.member ≠ .map := by
  cases v with
  | map entries =>
      simp only [Typed, valueType] at h
      obtain ⟨k, v, hty, -⟩ := h
      cases hshape : f.shape S.toPool with
      | singular => simp [hshape] at hty
      | repeated => simp [hshape] at hty
      | map e => exact absurd hshape (hmap e)
  | _ => simp [MessageValue.member]

theorem valueToSv_scalar {t : FieldType} {v : MessageValue} (hv : v.isScalar = true) :
    valueToSv S (.single t) v = elementToSv t v := by
  cases v with
  | msg => cases hv
  | array => cases hv
  | map => cases hv
  | _ => cases t <;> rfl

theorem typed_scalar {ty : ValueType} {v : MessageValue} (hv : v.isScalar = true)
    (h : Typed S Text ty v) : ∃ t, ty = .single t ∧ v.member = typeMember t := by
  have hsingle : ∃ t, ty = .single t := by
    cases v with
    | msg => cases hv
    | array => cases hv
    | map => cases hv
    | bool b => exact ⟨_, by simpa [Typed] using h⟩
    | int32 n | uint32 n | int64 n | uint64 n =>
        simp only [Typed] at h
        obtain ⟨t, hty, -⟩ := h
        exact ⟨t, hty⟩
    | float w | double w =>
        simp only [Typed] at h
        exact ⟨_, h.1⟩
    | str s =>
        simp only [Typed] at h
        rcases h with hty | ⟨hty, -⟩
        · exact ⟨_, hty⟩
        · exact ⟨_, hty⟩
  obtain ⟨t, rfl⟩ := hsingle
  exact ⟨t, rfl, member_of_typed h⟩

theorem shows_scalar {ty : ValueType} {v : MessageValue} {sv : Sv} (hv : v.isScalar = true) :
    Shows S ty v sv ↔ ∃ t, ty = .single t ∧ sv = .scalar (perlScalar t v) := by
  cases v with
  | msg => cases hv
  | array => cases hv
  | map => cases hv
  | _ => simp only [Shows]

theorem slotsToSv_of_readable {c : String} {fs : List FieldDef}
    {slots : List (Option MessageValue)}
    (hfields : ∀ f ∈ fs, (∀ e, f.shape S.toPool ≠ .map e) ∧
      (f.label ≠ .repeated → S.hasPresence c f = true))
    (htyped : TypedSlots S Text c fs slots)
    (hvalues : ∀ v, some v ∈ slots → ∀ ty, Typed S Text ty v → v.member ≠ .map →
      ∃ sv, valueToSv S ty v = .ok sv ∧ Shows S ty v sv) :
    ∃ es, slotsToSv S c fs slots = .ok es ∧ ShowsSlots S fs slots es := by
  induction fs generalizing slots with
  | nil =>
      cases slots with
      | nil => exact ⟨[], by simp [slotsToSv], by simp [ShowsSlots]⟩
      | cons => simp [TypedSlots] at htyped
  | cons f fs ih =>
      obtain ⟨hmap, hpresence⟩ := hfields f List.mem_cons_self
      have hfs := fun g hg => hfields g (List.mem_cons_of_mem f hg)
      match slots with
      | [] => simp [TypedSlots] at htyped
      | none :: slots =>
          simp only [TypedSlots] at htyped
          obtain ⟨es, hes, hshows⟩ := ih hfs htyped fun v hv => hvalues v (by simp [hv])
          have hhas : hasField S c f none = .ok false :=
            hasField_of_readable hmap hpresence (by simp)
          exact ⟨es, by simp [slotsToSv, hhas, hes], by simpa [ShowsSlots] using hshows⟩
      | some v :: slots =>
          simp only [TypedSlots] at htyped
          obtain ⟨hstored, hv, htyped⟩ := htyped
          obtain ⟨es, hes, hshows⟩ := ih hfs htyped fun v hv => hvalues v (by simp [hv])
          obtain ⟨sv, hsv, hshow⟩ := hvalues v (by simp) _ hv (member_of_valueType hmap hv)
          have hhas : hasField S c f (some v) = .ok true := by
            apply hasField_of_readable hmap hpresence
            rintro w hw
            obtain rfl := Option.some.inj hw
            exact ⟨hstored, fun hlabel => array_of_typed hmap hlabel hv⟩
          refine ⟨(⟨f.name, false⟩, sv) :: es, ?_, ?_⟩
          · simp only [slotsToSv, hhas, hsv, hes]
            rfl
          · simpa [ShowsSlots] using ⟨hshow, hshows⟩

/-- What is shown of a readable message. -/
theorem shown_of_readable (v : MessageValue) :
    ∀ ty, Typed S Text ty v → v.member ≠ .map → Readable S v →
      ∃ sv, valueToSv S ty v = .ok sv ∧ Shows S ty v sv := by
  induction v using MessageValue.inductionOn with
  | scalar v hv =>
      intro ty htyped _ _
      obtain ⟨t, rfl, hmember⟩ := typed_scalar hv htyped
      refine ⟨.scalar (perlScalar t v), ?_, (shows_scalar hv).mpr ⟨t, rfl, rfl⟩⟩
      rw [valueToSv_scalar hv, elementToSv, if_pos hmember]
  | msg c slots rest ih =>
      intro ty htyped _ hreadable
      simp only [Typed] at htyped
      obtain ⟨rfl, -, htyped⟩ := htyped
      obtain ⟨hfields, hslots⟩ := readable_msg.mp hreadable
      obtain ⟨es, hes, hshows⟩ := slotsToSv_of_readable hfields htyped fun v hv ty hty hmap =>
        ih v hv ty hty hmap (hslots v hv)
      refine ⟨.hash es, ?_, ?_⟩
      · simp only [valueToSv, hes, if_true]
        rfl
      · simp only [Shows, true_and]
        exact ⟨es, es, rfl, .refl es, hshows⟩
  | array items ih =>
      intro ty htyped _ hreadable
      simp only [Typed] at htyped
      obtain ⟨t, rfl, hitems⟩ := htyped
      rw [typedItems_iff] at hitems
      rw [readable_array] at hreadable
      -- the items one by one
      suffices h : ∃ svs, itemsToSv S t items = .ok svs ∧ ShowsItems S t items svs by
        obtain ⟨svs, hsvs, hshows⟩ := h
        refine ⟨.array svs, by simp only [valueToSv, hsvs]; rfl, ?_⟩
        simp only [Shows]
        exact ⟨t, svs, rfl, rfl, hshows⟩
      induction items with
      | nil => exact ⟨[], by simp [itemsToSv], by simp [ShowsItems]⟩
      | cons v vs ihs =>
          simp only [List.forall_mem_cons] at ih hitems hreadable
          have hmap : v.member ≠ .map := by
            rw [member_of_typed hitems.1]
            cases t <;> simp [typeMember]
          obtain ⟨sv, hsv, hshow⟩ := ih.1 _ hitems.1 hmap hreadable.1
          obtain ⟨svs, hsvs, hshows⟩ :=
            ihs ih.2 (by simp [MessageValue.member]) hreadable.2 hitems.2
          refine ⟨sv :: svs, ?_, ?_⟩
          · simp only [itemsToSv, hsv, hsvs]
            rfl
          · simpa [ShowsItems] using ⟨hshow, hshows⟩
  | map entries ih =>
      intro _ _ hmap
      exact absurd rfl hmap

theorem slotsToSv_readable {c : String} {fs : List FieldDef} {slots : List (Option MessageValue)}
    {es : List (HashKey × Sv)} (h : slotsToSv S c fs slots = .ok es)
    (htyped : TypedSlots S Text c fs slots)
    (hvalues : ∀ v, some v ∈ slots → ∀ ty sv, Typed S Text ty v → v.member ≠ .map →
      valueToSv S ty v = .ok sv → Readable S v) :
    (∀ f ∈ fs, (∀ e, f.shape S.toPool ≠ .map e) ∧
      (f.label ≠ .repeated → S.hasPresence c f = true)) ∧
    ∀ v, some v ∈ slots → Readable S v := by
  induction fs generalizing slots es with
  | nil =>
      cases slots with
      | nil => simp
      | cons => simp [TypedSlots] at htyped
  | cons f fs ih =>
      match slots with
      | [] => simp [TypedSlots] at htyped
      | none :: slots =>
          simp only [TypedSlots] at htyped
          cases hhas : hasField S c f none with
          | error e => simp [slotsToSv, hhas] at h
          | ok b =>
              simp only [slotsToSv, hhas] at h
              obtain ⟨hfields, hslots⟩ := ih h htyped fun v hv => hvalues v (by simp [hv])
              exact ⟨List.forall_mem_cons.mpr ⟨readable_of_hasField hhas, hfields⟩,
                by simpa using hslots⟩
      | some v :: slots =>
          simp only [TypedSlots] at htyped
          obtain ⟨hstored, hv, htyped⟩ := htyped
          cases hhas : hasField S c f (some v) with
          | error e => simp [slotsToSv, hhas] at h
          | ok b =>
              obtain ⟨hmap, hpresence⟩ := readable_of_hasField hhas
              -- a readable field that is set is shown
              have hhas' : hasField S c f (some v) = .ok true := by
                apply hasField_of_readable hmap hpresence
                rintro w hw
                obtain rfl := Option.some.inj hw
                exact ⟨hstored, fun hlabel => array_of_typed hmap hlabel hv⟩
              cases hsv : valueToSv S (valueType S.toPool f) v with
              | error e => simp [slotsToSv, hhas', hsv] at h
              | ok sv =>
                  simp only [slotsToSv, hhas', hsv, map_eq_ok] at h
                  obtain ⟨es', hes, -⟩ := h
                  obtain ⟨hfields, hslots⟩ := ih hes htyped fun v hv => hvalues v (by simp [hv])
                  have hread := hvalues v (by simp) _ sv hv (member_of_valueType hmap hv) hsv
                  refine ⟨List.forall_mem_cons.mpr ⟨⟨hmap, hpresence⟩, hfields⟩, ?_⟩
                  intro w hw
                  rcases List.mem_cons.mp hw with heq | hw
                  · obtain rfl := Option.some.inj heq
                    exact hread
                  · exact hslots w hw

/-- A message of which something is shown is readable. -/
theorem readable_of_shown (v : MessageValue) :
    ∀ ty sv, Typed S Text ty v → v.member ≠ .map → valueToSv S ty v = .ok sv → Readable S v := by
  induction v using MessageValue.inductionOn with
  | scalar v hv =>
      intro _ _ _ _ _
      exact readable_scalar hv
  | msg c slots rest ih =>
      intro ty sv htyped _ hsv
      simp only [Typed] at htyped
      obtain ⟨rfl, -, htyped⟩ := htyped
      simp only [valueToSv, if_true, map_eq_ok] at hsv
      obtain ⟨es, hes, -⟩ := hsv
      exact readable_msg.mpr (slotsToSv_readable hes htyped ih)
  | array items ih =>
      intro ty sv htyped _ hsv
      simp only [Typed] at htyped
      obtain ⟨t, rfl, hitems⟩ := htyped
      rw [typedItems_iff] at hitems
      simp only [valueToSv, map_eq_ok] at hsv
      obtain ⟨svs, hsvs, -⟩ := hsv
      rw [readable_array]
      induction items generalizing svs with
      | nil => simp
      | cons v vs ihs =>
          simp only [List.forall_mem_cons] at ih hitems ⊢
          have hmap : v.member ≠ .map := by
            rw [member_of_typed hitems.1]
            cases t <;> simp [typeMember]
          cases hsv : valueToSv S (.single t) v with
          | error e => simp [itemsToSv, hsv] at hsvs
          | ok sv =>
              simp only [itemsToSv, hsv, map_eq_ok] at hsvs
              obtain ⟨svs', hsvs', -⟩ := hsvs
              exact ⟨ih.1 _ _ hitems.1 hmap hsv,
                ihs ih.2 (by simp [MessageValue.member]) hitems.2 svs' hsvs'⟩
  | map entries ih =>
      intro _ _ _ hmap
      exact absurd rfl hmap

end

end GooglePerl.Xs
