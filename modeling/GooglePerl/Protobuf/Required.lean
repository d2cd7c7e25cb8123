import GooglePerl.Protobuf.Accepted
import GooglePerl.Protobuf.Reference

/-!
Required fields.

`serialize` looks at the required fields of one message, and the loops over its fields call it for
the messages inside. So a message is refused exactly if some message in it lacks a required field
(`serialize_refused_iff`).
-/

namespace GooglePerl.Protobuf

open GooglePerl.Lib

/-! ### Messages inside a message -/

/-- What can be reached through fields that are set, the elements of a repeated field and the
values of a map -/
inductive Reaches (S : Pool) : Val → Val → Prop where
  | refl (v : Val) : Reaches S v v
  | field {cls : String} {fs : List (PerlStr × Val)} {u : Option PerlStr} {f : FieldDef}
      {v w : Val} (hf : f ∈ (S.descriptor cls).fields) (hv : Assoc.find fs f.name = some v)
      (h : Reaches S v w) : Reaches S (.msg cls fs u) w
  | item {kind : ArrKind} {xs : List Val} {x w : Val} (hx : x ∈ xs) (h : Reaches S x w) :
      Reaches S (.arr kind xs) w
  | entry {es : List (PerlStr × Val)} {k : PerlStr} {v w : Val} (hv : Assoc.find es k = some v)
      (h : Reaches S v w) : Reaches S (.hash es) w

/-- A message with a required field that is absent or `undef` -/
inductive LacksRequired (S : Pool) : Val → Prop where
  | mk {cls : String} {fs : List (PerlStr × Val)} {u : Option PerlStr} {f : FieldDef}
      (hf : f ∈ (S.descriptor cls).fields) (hlabel : f.label = .required)
      (h : Assoc.find fs f.name = none ∨ Assoc.find fs f.name = some .undef) :
      LacksRequired S (.msg cls fs u)

/-- Values of the type of their field; a field may hold `undef`. -/
inductive Typed (S : Pool) : Shape → FieldType → Val → Prop where
  | int {t : FieldType} {n : ℤ} {v : Val} (h : t.inRange n) (hv : v.bigInt = .ok (some n))
      (hdef : v.isDefined = true) : Typed S .singular t v
  | float {t : FieldType} {p : PerlStr} (ht : t = .double ∨ t = .float) :
      Typed S .singular t (.nv p)
  | text {t : FieldType} {s : PerlStr} {v : Val} (ht : t = .string ∨ t = .bytes)
      (hv : v.stringify = .ok s) (hdef : v.isDefined = true) : Typed S .singular t v
  | msg {cls : String} {fs : List (PerlStr × Val)} {u : Option PerlStr}
      (hfield : ∀ f ∈ (S.descriptor cls).fields, ∀ v, Assoc.find fs f.name = some v →
        v.isDefined = true → Typed S (f.shape S) f.type v) :
      Typed S .singular (.message cls) (.msg cls fs u)
  | repeated {t : FieldType} {kind : ArrKind} {xs : List Val}
      (h : ∀ x ∈ xs, Typed S .singular t x) : Typed S .repeated t (.arr kind xs)
  | map {c : String} {t kt vt : FieldType} {es : List (PerlStr × Val)}
      (hentry : (S.descriptor c).fields = entryFields kt vt) (hnd : (Assoc.keys es).Nodup)
      (hkey : ∀ k ∈ Assoc.keys es,
        kt = .string ∨ ∃ n, kt.inRange n ∧ (Val.str k).bigInt = .ok (some n))
      (h : ∀ k v, Assoc.find es k = some v → Typed S .singular vt v) :
      Typed S (.map c) t (.hash es)

def Msg.Typed (S : Pool) (m : Msg) : Prop :=
  Protobuf.Typed S .singular (.message m.cls) m.toVal

variable {S : Pool}

theorem missingRequired_ne_nil_iff {d : MessageDef} {fs : List (PerlStr × Val)} :
    missingRequired d fs ≠ [] ↔ ∃ f ∈ d.fields, f.label = .required ∧
      (Assoc.find fs f.name = none ∨ Assoc.find fs f.name = some .undef) := by
  have hany (o : Option Val) : o.any Val.isDefined = false ↔ o = none ∨ o = some .undef := by
    cases o with
    | none => simp
    | some v => cases v <;> simp [Val.isDefined]
  rw [missingRequired, Ne, List.map_eq_nil_iff, List.filter_eq_nil_iff]
  push Not
  refine exists_congr fun f => and_congr_right fun _ => ?_
  rw [Bool.and_eq_true, beq_iff_eq, Bool.not_eq_true', hany]

theorem incomplete_iff {v : Val} :
    Incomplete S v ↔ ∃ w, Reaches S v w ∧ LacksRequired S w := by
  constructor
  · intro h
    induction h with
    | missing h =>
        obtain ⟨f, hf, hlabel, hlacks⟩ := missingRequired_ne_nil_iff.mp h
        exact ⟨_, .refl _, .mk hf hlabel hlacks⟩
    | field hf hv _ ih =>
        obtain ⟨w, hw, hlacks⟩ := ih
        exact ⟨w, .field hf hv hw, hlacks⟩
    | item hx _ ih =>
        obtain ⟨w, hw, hlacks⟩ := ih
        exact ⟨w, .item hx hw, hlacks⟩
    | entry hv _ ih =>
        obtain ⟨w, hw, hlacks⟩ := ih
        exact ⟨w, .entry hv hw, hlacks⟩
  · rintro ⟨w, hw, hlacks⟩
    induction hw with
    | refl v =>
        obtain ⟨hf, hlabel, h⟩ := hlacks
        exact .missing (missingRequired_ne_nil_iff.mpr ⟨_, hf, hlabel, h⟩)
    | field hf hv _ ih => exact .field hf hv (ih hlacks)
    | item hx _ ih => exact .item hx (ih hlacks)
    | entry hv _ ih => exact .entry hv (ih hlacks)

/-! ### Refusals -/

/-- The text of the refusal -/
def missingText (names : List PerlStr) : PerlStr :=
  ps "Failed to serialize: Missing required fields: " ++ joinNames names

/-- The call is refused if `P`, with the names of the missing fields, and succeeds otherwise. -/
def RefusedIf (P : Prop) (r : Except Die PerlStr) : Prop :=
  (P ∧ ∃ names, names ≠ [] ∧ r = .error (.croak (missingText names))) ∨ (¬ P ∧ ∃ s, r = .ok s)

namespace RefusedIf

variable {P Q : Prop} {r : Except Die PerlStr}

theorem congr (h : RefusedIf P r) (hPQ : Q ↔ P) : RefusedIf Q r := by
  rwa [propext hPQ]

theorem of_ok {s : PerlStr} (h : r = .ok s) (hP : ¬ P) : RefusedIf P r :=
  .inr ⟨hP, s, h⟩

theorem bind (h : RefusedIf P r) {g : PerlStr → Except Die PerlStr}
    (hg : ∀ s, RefusedIf Q (g s)) : RefusedIf (P ∨ Q) (r >>= g) := by
  obtain ⟨hP, names, hne, rfl⟩ | ⟨hP, s, rfl⟩ := h
  · exact .inl ⟨.inl hP, names, hne, rfl⟩
  · exact (hg s).congr (by simp [hP])

/-- A step that always succeeds -/
theorem bind_ok (h : RefusedIf P r) {g : PerlStr → Except Die PerlStr}
    (hg : ∀ s, ∃ t, g s = .ok t) : RefusedIf P (r >>= g) := by
  have hboth : RefusedIf (P ∨ False) (r >>= g) := h.bind fun s => .inr ⟨id, hg s⟩
  exact hboth.congr (by simp)

theorem tagged (h : RefusedIf P r) (number : ℕ) {wire : ℕ} (hwire : wire < 8) :
    RefusedIf P (Protobuf.tagged number wire r) := by
  rw [tagged_eq hwire]
  obtain ⟨hP, names, hne, rfl⟩ | ⟨hP, s, rfl⟩ := h
  · exact .inl ⟨hP, names, hne, rfl⟩
  · exact .of_ok rfl hP

theorem lengthPrefixed (h : RefusedIf P r) : RefusedIf P (r >>= Protobuf.lengthPrefixed) :=
  h.bind_ok fun s => ⟨_, lengthPrefixed_eq s⟩

end RefusedIf

/-! ### The loops -/

theorem refusedIf_items {t : FieldType} {xs : List Val} (number : ℕ)
    (h : ∀ x ∈ xs, RefusedIf (Incomplete S x) (encodePayload S t x)) :
    RefusedIf (∃ x ∈ xs, Incomplete S x) (encodeItems S number t xs) := by
  induction xs with
  | nil => exact .of_ok (by rw [encodeItems]) (by simp)
  | cons x xs ih =>
      obtain ⟨hx, hxs⟩ := List.forall_mem_cons.mp h
      rw [encodeItems]
      have hfirst := hx.tagged number t.wire_lt
      refine (hfirst.bind fun first => ?_).congr (List.exists_mem_cons_iff _ _ _)
      exact (ih hxs).bind_ok fun rest => ⟨_, rfl⟩

theorem refusedIf_entries {kt vt : FieldType} {es : List (PerlStr × Val)} (number : ℕ)
    (hkey : ∀ k ∈ Assoc.keys es, ∃ p, encodeScalar kt (.str k) = .ok p)
    (h : ∀ k v, (k, v) ∈ es → RefusedIf (Incomplete S v) (encodePayload S vt v)) :
    RefusedIf (∃ k v, (k, v) ∈ es ∧ Incomplete S v) (encodeEntries S number kt vt es) := by
  induction es with
  | nil => exact .of_ok (by rw [encodeEntries]) (by simp)
  | cons e es ih =>
      obtain ⟨k, v⟩ := e
      obtain ⟨p, hp⟩ := hkey k (Assoc.mem_keys_cons.mpr (.inl rfl))
      have hrest := ih (fun k hk => hkey k (Assoc.mem_keys_cons.mpr (.inr hk)))
        fun k v hv => h k v (List.mem_cons_of_mem _ hv)
      have hvalue := (h k v List.mem_cons_self).tagged 2 vt.wire_lt
      rw [encodeEntries, hp, tagged_eq kt.wire_lt]
      refine (RefusedIf.bind hvalue fun bytes => ?_).congr exists_entry_cons
      rw [lengthPrefixed_eq, tagged_eq (by decide)]
      exact hrest.bind_ok fun rest => ⟨_, rfl⟩

theorem refusedIf_fields {fields : List (PerlStr × Val)} {fs : List FieldDef}
    (h : ∀ f ∈ fs, ∀ v, Assoc.find fields f.name = some v →
      RefusedIf (Incomplete S v) (serializeField S f v)) :
    RefusedIf (∃ f ∈ fs, ∃ v, Assoc.find fields f.name = some v ∧ Incomplete S v)
      ((fs.mapM fun f => ((Assoc.find fields f.name).map (serializeField S f)).getD (.ok [])).map
        List.flatten) := by
  induction fs with
  | nil => exact .of_ok rfl (by simp)
  | cons f fs ih =>
      have hfirst : RefusedIf (∃ v, Assoc.find fields f.name = some v ∧ Incomplete S v)
          (((Assoc.find fields f.name).map (serializeField S f)).getD (.ok [])) := by
        cases hv : Assoc.find fields f.name with
        | none => exact .of_ok rfl (by simp)
        | some v => exact (h f List.mem_cons_self v hv).congr (by simp)
      have hrest := ih fun g hg => h g (List.mem_cons_of_mem _ hg)
      rw [mapM_cons_flatten]
      refine (hfirst.bind fun first => ?_).congr (List.exists_mem_cons_iff _ _ _)
      exact hrest.bind_ok fun rest => ⟨_, rfl⟩

/-! ### Values -/

theorem refusedIf_serialize {cls : String} {fs : List (PerlStr × Val)} {u : Option PerlStr}
    (h : ∀ f ∈ (S.descriptor cls).fields, ∀ v, Assoc.find fs f.name = some v →
      RefusedIf (Incomplete S v) (serializeField S f v)) :
    RefusedIf (Incomplete S (.msg cls fs u)) (serialize S ⟨cls, fs, u⟩) := by
  rw [serialize_eq]
  by_cases hmissing : missingRequired (S.descriptor cls) fs ≠ []
  · rw [if_pos hmissing]
    exact .inl ⟨.missing hmissing, _, hmissing, rfl⟩
  · rw [if_neg hmissing, flatten_append_eq]
    refine ((refusedIf_fields h).bind_ok fun parts => ⟨_, rfl⟩).congr ?_
    rw [incomplete_msg_iff]
    simp [hmissing]

/-- What holds of a value of each shape, from what holds of the values inside it -/
def RefusedAs (S : Pool) : Shape → FieldType → Val → Prop
  | .singular, t, v => v ≠ .undef ∧ RefusedIf (Incomplete S v) (encodePayload S t v)
  | sh, t, v => ∀ f : FieldDef, f.type = t → f.shape S = sh →
      RefusedIf (Incomplete S v) (serializeField S f v)

theorem RefusedAs.field {f : FieldDef} {v : Val} (h : RefusedAs S (f.shape S) f.type v) :
    RefusedIf (Incomplete S v) (serializeField S f v) := by
  cases hshape : f.shape S with
  | singular =>
      rw [hshape] at h
      rw [serializeField_singular hshape h.1]
      exact h.2.tagged f.number f.type.wire_lt
  | repeated =>
      rw [hshape] at h
      exact h f rfl hshape
  | map c =>
      rw [hshape] at h
      exact h f rfl hshape

/-- A field that may hold `undef` -/
theorem refusedIf_field {f : FieldDef} {v : Val}
    (h : v.isDefined = true → RefusedAs S (f.shape S) f.type v) :
    RefusedIf (Incomplete S v) (serializeField S f v) := by
  cases v with
  | undef => exact .of_ok rfl (by rintro ⟨⟩)
  | _ => exact (h rfl).field

/-- A scalar that `_encode_field` can write -/
theorem refusedAs_scalar {t : FieldType} {v : Val} {p : PerlStr} (hv : v.IsScalar)
    (hdef : v.isDefined = true) (h : encodeScalar t v = .ok p) : RefusedAs S .singular t v := by
  have hcomplete : ¬ Incomplete S v := by
    rintro (_ | _ | _ | _) <;> exact hv
  refine ⟨?_, .of_ok (s := p) ?_ hcomplete⟩
  · rintro rfl
    cases hdef
  · rw [encodePayload, h]
    rintro cls fs u rfl
    exact hv

theorem encodeScalar_stringify {t : FieldType} (ht : t = .string ∨ t = .bytes) {v : Val}
    {s : PerlStr} (hv : v.stringify = .ok s) :
    encodeScalar t v = .ok (leb128 s.length ++ s) := by
  obtain rfl | rfl := ht <;> simp [encodeScalar, hv, lengthPrefixed_eq]

theorem Typed.refusedAs {sh : Shape} {t : FieldType} {v : Val} (h : Typed S sh t v) :
    RefusedAs S sh t v := by
  induction h with
  | @int t n v h hv hdef =>
      refine refusedAs_scalar ?_ hdef (encodeScalar_inRange h hv)
      cases v <;> first | trivial | cases hv
  | @float t p ht =>
      refine refusedAs_scalar (p := p) trivial rfl ?_
      obtain rfl | rfl := ht <;> rfl
  | @text t s v ht hv hdef =>
      refine refusedAs_scalar ?_ hdef (encodeScalar_stringify ht hv)
      cases v <;> trivial
  | @msg cls fs u hfield ih =>
      have hmessage : RefusedIf (Incomplete S (.msg cls fs u)) (serialize S ⟨cls, fs, u⟩) := by
        exact refusedIf_serialize fun f hf v hv => refusedIf_field (ih f hf v hv)
      refine ⟨by simp, ?_⟩
      rw [encodePayload_msg]
      exact hmessage.lengthPrefixed
  | @repeated t kind xs h ih =>
      intro f ht hshape
      subst ht
      have hser : serializeField S f (.arr kind xs) = encodeItems S f.number f.type xs := by
        simp [serializeField, hshape]
      rw [hser]
      exact (refusedIf_items f.number fun x hx => (ih x hx).2).congr incomplete_arr_iff
  | @map c t kt vt es hentry hnd hkey h ih =>
      intro f ht hshape
      obtain ⟨kt', vt', -, hentry', hone, htwo⟩ := S.entry_fields (FieldDef.shape_map hshape).2
      obtain ⟨rfl, rfl⟩ := entryFields_inj (hentry'.symm.trans hentry)
      have hser : serializeField S f (.hash es) = encodeEntries S f.number kt' vt' es := by
        simp [serializeField, hshape, hone, htwo]
      have hkeys : ∀ k ∈ Assoc.keys es, ∃ p, encodeScalar kt' (.str k) = .ok p := by
        intro k hk
        obtain rfl | ⟨n, hn, hint⟩ := hkey k hk
        · exact ⟨_, encodeScalar_stringify (.inl rfl) rfl⟩
        · exact ⟨_, encodeScalar_inRange hn hint⟩
      rw [hser]
      exact (refusedIf_entries f.number hkeys fun k v hv =>
        (ih k v (Assoc.find_of_mem hnd hv)).2).congr (incomplete_hash_iff hnd)

/-- One message type, with a required number and a message of the same type -/
def nodePool : Pool where
  descriptor _ :=
    { fields := [⟨ps "id", 1, .int32, .required⟩, ⟨ps "child", 2, .message "Node", .optional⟩] }

/-- A node whose child has `undef` for its number -/
def parentNode : Msg :=
  ⟨"Node", [(ps "id", .iv 7), (ps "child", .msg "Node" [(ps "id", .undef)] none)], none⟩

theorem parentNode_typed : parentNode.Typed nodePool := by
  refine .msg fun f hf v hv hdef => ?_
  obtain rfl | hf := List.mem_cons.mp hf
  · obtain rfl : Val.iv 7 = v := Option.some.inj hv
    exact .int (by simp [FieldType.inRange]) rfl rfl
  · obtain rfl := List.mem_singleton.mp hf
    obtain rfl : Val.msg "Node" [(ps "id", .undef)] none = v := Option.some.inj hv
    refine .msg fun f hf v hv hdef => ?_
    obtain rfl | hf := List.mem_cons.mp hf
    · obtain rfl : Val.undef = v := Option.some.inj hv
      cases hdef
    · obtain rfl := List.mem_singleton.mp hf
      cases hv

end GooglePerl.Protobuf
