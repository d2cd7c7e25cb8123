import GooglePerl.Protobuf.Occurs
import GooglePerl.Protobuf.Scalars

/-!
Messages as `parse` leaves them, and which inputs it accepts.

Without any assumption on the wire types a parsed message still has the shape
of its descriptor: `Parsed` describes it, with any scalar in place of a value.
An input is accepted exactly when it can be read to its end (`Reads`) and no map
field occurs with a wire type that does not give a message (`parse_accepts_iff`).
-/

namespace GooglePerl.Protobuf

open GooglePerl.Lib

def Val.IsScalar : Val → Prop
  | .undef | .iv _ | .big _ | .nv _ | .str _ => True
  | .arr _ _ | .hash _ | .msg _ _ _ => False

def Val.HasText (v : Val) : Prop := ∃ s, v.stringify = .ok s

inductive Parsed (S : Pool) : Shape → FieldType → Val → Prop where
  | scalar {t : FieldType} {v : Val} (h : v.IsScalar) (htext : t.isKey = true → v.HasText) :
      Parsed S .singular t v
  | msg {cls : String} {fs : List (PerlStr × Val)} {u : Option PerlStr}
      (hnd : (Assoc.keys fs).Nodup)
      (hknown : ∀ name ∈ Assoc.keys fs, (S.descriptor cls).findFieldByName name ≠ none)
      (hfield : ∀ f ∈ (S.descriptor cls).fields, ∀ v, Assoc.find fs f.name = some v →
        Parsed S (f.shape S) f.type v) :
      Parsed S .singular (.message cls) (.msg cls fs u)
  | repeated {t : FieldType} {xs : List Val} (hne : xs ≠ [])
      (h : ∀ x ∈ xs, Parsed S .singular t x) :
      Parsed S .repeated t (.arr .blessed xs)
  | map {c : String} {t kt vt : FieldType} {es : List (PerlStr × Val)}
      (hentry : (S.descriptor c).fields = entryFields kt vt) (hne : es ≠ [])
      (hnd : (Assoc.keys es).Nodup)
      (h : ∀ k v, Assoc.find es k = some v → Parsed S .singular vt v) :
      Parsed S (.map c) t (.hash es)

def Msg.Parsed (S : Pool) (m : Msg) : Prop :=
  Protobuf.Parsed S .singular (.message m.cls) m.toVal

variable {S : Pool}

theorem Msg.Parsed.inv {m : Msg} (h : m.Parsed S) :
    (Assoc.keys m.fields).Nodup ∧
      (∀ name ∈ Assoc.keys m.fields, (S.descriptor m.cls).findFieldByName name ≠ none) ∧
      ∀ f ∈ (S.descriptor m.cls).fields, ∀ v, Assoc.find m.fields f.name = some v →
        Protobuf.Parsed S (f.shape S) f.type v := by
  obtain ⟨cls, fs, u⟩ := m
  cases h with
  | scalar hscalar _ => exact hscalar.elim
  | msg hnd hknown hfield => exact ⟨hnd, hknown, hfield⟩

theorem Msg.create_parsed (cls : String) : (create cls).Parsed S :=
  .msg List.nodup_nil (fun _ h => by cases h) (fun _ _ _ h => by cases h)

/-! ### Decoding -/

theorem Val.IsNum.isScalar {n : ℤ} {v : Val} (h : v.IsNum n) : v.IsScalar := by
  rcases h with rfl | rfl <;> trivial

/-- What `_decode_field` yields: a scalar, or a sub-message that was parsed. -/
theorem decodeField_cases {wire : ℕ} {t : FieldType} {data rest : PerlStr} {v : Val}
    (h : decodeField (parse S) wire t data = .ok (v, rest)) :
    (v.IsScalar ∧ (t.isKey = true → v.HasText)) ∨
      ∃ c len r inner, t = .message c ∧ wire = 2 ∧ decodeVarint data = .ok (len, r) ∧
        len ≤ r.length ∧ parse S c (r.take len) = .ok inner ∧ v = inner.toVal ∧
        rest = r.drop len := by
  cases decodeField_eq_ok.mp h with
  | @varint raw =>
      have hnum := varintValue_isNum t raw
      exact .inl ⟨hnum.isScalar, fun _ => ⟨_, hnum.stringify⟩⟩
  | fixed64 =>
      left
      cases t with
      | double => exact ⟨trivial, by simp [FieldType.isKey]⟩
      | sfixed64 =>
          simp only [fixed64Value]
          split <;> exact ⟨trivial, fun _ => ⟨_, rfl⟩⟩
      | _ => exact ⟨trivial, fun _ => ⟨_, rfl⟩⟩
  | message ht hread hle hinner =>
      exact .inr ⟨_, _, _, _, ht, rfl, hread, hle, hinner, rfl, rfl⟩
  | text => exact .inl ⟨trivial, fun _ => ⟨_, rfl⟩⟩
  | fixed32 =>
      left
      cases t with
      | float => exact ⟨trivial, by simp [FieldType.isKey]⟩
      | _ => exact ⟨trivial, fun _ => ⟨_, rfl⟩⟩
  | other => exact .inl ⟨trivial, fun _ => ⟨_, rfl⟩⟩

/-! ### Storing -/

theorem Parsed.repeated_inv {t : FieldType} {v : Val} (h : Parsed S .repeated t v) :
    ∃ xs, v = .arr .blessed xs ∧ xs ≠ [] ∧ ∀ x ∈ xs, Parsed S .singular t x := by
  cases h with
  | @repeated _ xs hne h => exact ⟨xs, rfl, hne, h⟩

theorem Parsed.map_inv {c : String} {t : FieldType} {v : Val} (h : Parsed S (.map c) t v) :
    ∃ kt vt es, v = .hash es ∧ (S.descriptor c).fields = entryFields kt vt ∧ es ≠ [] ∧
      (Assoc.keys es).Nodup ∧ ∀ k x, Assoc.find es k = some x → Parsed S .singular vt x := by
  cases h with
  | @map _ _ kt vt es hentry hne hnd h => exact ⟨kt, vt, es, rfl, hentry, hne, hnd, h⟩

theorem defaultValue_isScalar (t : FieldType) : (defaultValue t).IsScalar := by
  cases t <;> trivial

theorem defaultValue_hasText {t : FieldType} (h : t.isKey = true) : (defaultValue t).HasText := by
  cases t <;> simp [FieldType.isKey] at h <;> exact ⟨_, rfl⟩

/-- The key or the value of a parsed entry, read or defaulted. -/
theorem Msg.Parsed.part {m : Msg} (h : m.Parsed S) {f : FieldDef}
    (hf : f ∈ (S.descriptor m.cls).fields) (hopt : f.label = .optional) :
    Protobuf.Parsed S .singular f.type (get S m f.name).1 := by
  have hshape : f.shape S = .singular := FieldDef.shape_singular_of_optional hopt
  unfold get
  cases hv : Assoc.find m.fields f.name with
  | some v =>
      have hfield := h.inv.2.2 f hf v hv
      rwa [hshape] at hfield
  | none =>
      rw [MessageDef.findFieldByName_eq_some.mpr ⟨hf, rfl⟩]
      simp only [hshape]
      exact .scalar (defaultValue_isScalar _) defaultValue_hasText

theorem Parsed.hasText {t : FieldType} {v : Val} (h : Parsed S .singular t v)
    (ht : t.isKey = true) : v.HasText := by
  cases h with
  | scalar _ htext => exact htext ht
  | msg => simp [FieldType.isKey] at ht

def itemsOf : Option Val → List Val
  | some (.arr _ xs) => xs
  | _ => []

def entriesOf : Option Val → List (PerlStr × Val)
  | some (.hash es) => es
  | _ => []

@[simp] theorem itemsOf_none : itemsOf none = [] := rfl
@[simp] theorem itemsOf_arr (kind : ArrKind) (xs : List Val) :
    itemsOf (some (.arr kind xs)) = xs := rfl
@[simp] theorem entriesOf_none : entriesOf none = [] := rfl
@[simp] theorem entriesOf_hash (es : List (PerlStr × Val)) :
    entriesOf (some (.hash es)) = es := rfl

/-- A repeated field after an item is stored. -/
theorem storedValue_items {f : FieldDef} {old : Option Val} (hshape : f.shape S = .repeated)
    (hold : ∀ y, old = some y → Parsed S .repeated f.type y) (v : Val) :
    storedValue S f v old = .ok (.arr .blessed (itemsOf old ++ [v])) := by
  simp only [storedValue, hshape]
  cases old with
  | none => rfl
  | some y =>
      obtain ⟨xs, rfl, -, -⟩ := (hold y rfl).repeated_inv
      rfl

/-- A map field after an entry message is stored. -/
theorem storedValue_entry {f : FieldDef} {c cls : String} {fs : List (PerlStr × Val)}
    {u : Option PerlStr} {k : PerlStr} {old : Option Val} (hshape : f.shape S = .map c)
    (hk : (get S ⟨cls, fs, u⟩ (ps "key")).1.stringify = .ok k)
    (hold : ∀ y, old = some y → Parsed S (.map c) f.type y) :
    storedValue S f (.msg cls fs u) old =
      .ok (.hash (Assoc.store (entriesOf old) k (get S ⟨cls, fs, u⟩ (ps "value")).1)) := by
  simp only [storedValue, hshape, storeEntry, hk, ok_bind]
  cases old with
  | none => rfl
  | some y =>
      obtain ⟨_, _, es, rfl, -⟩ := (hold y rfl).map_inv
      rfl

/-- Which key gets which value does not depend on what the field held. -/
theorem storedValue_entries {f : FieldDef} {c : String} {fs : List (PerlStr × Val)}
    {u : Option PerlStr} (hshape : f.shape S = .map c) (hv : Msg.Parsed S ⟨c, fs, u⟩)
    {kt vt : FieldType} (hentry : (S.descriptor c).fields = entryFields kt vt) :
    ∃ k w, Parsed S .singular vt w ∧ ∀ old, (∀ y, old = some y → Parsed S (.map c) f.type y) →
      storedValue S f (.msg c fs u) old = .ok (.hash (Assoc.store (entriesOf old) k w)) := by
  obtain ⟨kt', vt', hkt, hentry', hone, htwo⟩ := S.entry_fields (FieldDef.shape_map hshape).2
  obtain ⟨rfl, rfl⟩ := entryFields_inj (hentry'.symm.trans hentry)
  have hkey := hv.part (MessageDef.findFieldByNumber_eq_some.mp hone).1 rfl
  have hvalue := hv.part (MessageDef.findFieldByNumber_eq_some.mp htwo).1 rfl
  obtain ⟨k, hk⟩ := hkey.hasText hkt
  exact ⟨k, _, hvalue, fun old hold => storedValue_entry hshape hk hold⟩

/-- Storing in a field that holds what a parser leaves there: it fails only for a
map field and a value that is not an entry message. -/
theorem storedValue_spec {f : FieldDef} {v : Val} {old : Option Val}
    (hv : Parsed S .singular f.type v)
    (hold : ∀ y, old = some y → Parsed S (f.shape S) f.type y) :
    (∃ x, storedValue S f v old = .ok x ∧ Parsed S (f.shape S) f.type x) ∨
      ((∃ c, f.shape S = .map c) ∧ v.IsScalar ∧ ∃ e, storedValue S f v old = .error e) := by
  cases hshape : f.shape S with
  | singular => exact .inl ⟨v, by simp [storedValue, hshape], hv⟩
  | repeated =>
      rw [hshape] at hold
      refine .inl ⟨_, storedValue_items hshape hold v, .repeated (by simp) ?_⟩
      intro x hx
      rcases List.mem_append.mp hx with hx | hx
      · cases old with
        | none => cases hx
        | some y =>
            obtain ⟨xs, rfl, -, hxs⟩ := (hold y rfl).repeated_inv
            exact hxs x hx
      · obtain rfl := List.mem_singleton.mp hx
        exact hv
  | map c =>
      obtain ⟨htype, hmap⟩ := FieldDef.shape_map hshape
      rw [hshape] at hold
      rw [htype] at hv
      cases hv with
      | scalar hscalar _ =>
          -- an entry is taken for a message: a scalar has no fields
          refine .inr ⟨⟨c, rfl⟩, hscalar, ?_⟩
          simp only [storedValue, hshape]
          cases v <;> first
            | exact hscalar.elim
            | exact ⟨_, rfl⟩
      | @msg _ fs u hnd hknown hfield =>
          obtain ⟨kt, vt, -, hentry, -⟩ := S.entry_fields hmap
          obtain ⟨k, w, hw, hstored⟩ :=
            storedValue_entries (u := u) hshape (.msg hnd hknown hfield) hentry
          have hes : (Assoc.keys (entriesOf old)).Nodup ∧
              ∀ k x, Assoc.find (entriesOf old) k = some x → Parsed S .singular vt x := by
            cases old with
            | none => exact ⟨List.nodup_nil, fun _ _ h => by cases h⟩
            | some y =>
                obtain ⟨kt', vt', es, rfl, hentry', -, hndes, hes⟩ := (hold y rfl).map_inv
                obtain ⟨-, rfl⟩ := entryFields_inj (hentry'.symm.trans hentry)
                exact ⟨hndes, hes⟩
          refine .inl ⟨_, hstored old hold, .map hentry ?_ (Assoc.nodup_keys_store hes.1 _ _) ?_⟩
          · obtain ⟨e, es', he⟩ := Assoc.store_ne_nil (entriesOf old) k w
            simp [he]
          · intro k' x hx
            rw [Assoc.find_store] at hx
            split at hx
            · obtain rfl := Option.some.inj hx
              exact hw
            · exact hes.2 k' x hx

/-! ### Runs -/

/-- What is decoded at some turn of a run is as a parser leaves it, if that holds
of the sub-messages. -/
theorem decodeField_parsed {wire : ℕ} {t : FieldType} {data rest : PerlStr} {v : Val}
    (h : decodeField (parse S) wire t data = .ok (v, rest))
    (hsub : ∀ c bytes inner, bytes.length < data.length → parse S c bytes = .ok inner →
      inner.cls = c ∧ inner.Parsed S) : Parsed S .singular t v := by
  rcases decodeField_cases h with
    ⟨hscalar, htext⟩ | ⟨c, len, r, inner, rfl, -, hread, hle, hinner, rfl, -⟩
  · exact .scalar hscalar htext
  · have hlen := decodeVarint_length hread
    obtain ⟨rfl, hparsed⟩ := hsub c _ inner (by simp; omega) hinner
    exact hparsed

theorem Msg.Parsed.put {m : Msg} (h : m.Parsed S) {f : FieldDef}
    (hf : f ∈ (S.descriptor m.cls).fields) {x : Val} (hx : Protobuf.Parsed S (f.shape S) f.type x) :
    (m.put f.name x).Parsed S := by
  obtain ⟨hnd, hknown, hfield⟩ := h.inv
  refine .msg (Assoc.nodup_keys_store hnd _ _) ?_ ?_
  · intro name hname
    rcases Assoc.mem_keys_store.mp hname with rfl | hname
    · rw [Msg.put_cls, MessageDef.findFieldByName_eq_some.mpr ⟨hf, rfl⟩]
      simp
    · exact hknown name hname
  · intro g hg y hy
    rw [Msg.put_fields, Assoc.find_store] at hy
    split at hy
    · rename_i hname
      obtain rfl := MessageDef.eq_of_name_eq hg hf hname
      obtain rfl := Option.some.inj hy
      exact hx
    · exact hfield g hg y hy

/-- One turn, given that the sub-messages are as a parser leaves them. -/
theorem parseStep_parsed_of_sub {data rest : PerlStr} {m m' : Msg} (hm : m.Parsed S)
    (h : parseStep S (parse S) data m = .ok (m', rest))
    (hsub : ∀ c bytes inner, bytes.length < data.length → parse S c bytes = .ok inner →
      inner.cls = c ∧ inner.Parsed S) : m'.Parsed S := by
  obtain ⟨tagWire, afterTag, hread, hcase⟩ := parseStep_cases h
  rcases hcase with ⟨-, -, rfl⟩ | ⟨f, v, hfind, hdec, hstore⟩
  · obtain ⟨hnd, hknown, hfield⟩ := hm.inv
    exact .msg hnd hknown hfield
  · obtain ⟨x, hx, rfl⟩ := map_eq_ok.mp hstore
    have hf := (MessageDef.findFieldByNumber_eq_some.mp hfind).1
    have hafter := decodeVarint_length hread
    have hv := decodeField_parsed hdec fun c bytes inner hshort hinner =>
      hsub c bytes inner (by omega) hinner
    rcases storedValue_spec hv (hm.inv.2.2 f hf) with ⟨x', hx', hparsed⟩ | ⟨-, -, e, he⟩
    · obtain rfl := Except.ok.inj (hx.symm.trans hx')
      exact hm.put hf hparsed
    · cases hx.symm.trans he

theorem parseInto_parsed {data : PerlStr} {m m' : Msg} (hm : m.Parsed S)
    (h : parseInto S data m = .ok m') : m'.Parsed S := by
  induction hn : data.length using Nat.strong_induction_on generalizing data m m' with
  | _ n ih =>
      subst hn
      by_cases hne : data = []
      · subst hne
        rw [parseInto_nil] at h
        exact Except.ok.inj h ▸ hm
      rw [parseInto_cons m hne] at h
      split at h
      · cases h
      rename_i m₁ rest hstep
      refine ih rest.length (parseStep_length hstep) ?_ h rfl
      refine parseStep_parsed_of_sub hm hstep fun c bytes inner hshort hinner => ?_
      rw [parse_eq_ok] at hinner
      exact ⟨parseInto_cls hinner, ih bytes.length hshort (Msg.create_parsed c) hinner rfl⟩

theorem parse_parsed {cls : String} {data : PerlStr} {m : Msg} (h : parse S cls data = .ok m) :
    m.cls = cls ∧ m.Parsed S := by
  rw [parse_eq_ok] at h
  exact ⟨parseInto_cls h, parseInto_parsed (Msg.create_parsed cls) h⟩

theorem parseStep_parsed {data rest : PerlStr} {m m' : Msg} (hm : m.Parsed S)
    (h : parseStep S (parse S) data m = .ok (m', rest)) : m'.Parsed S :=
  parseStep_parsed_of_sub hm h fun _ _ _ _ hinner => parse_parsed hinner

/-! ### Acceptance -/

/-- The input can be read to its end: no tag, length or payload is cut off, at
any depth. -/
inductive Reads (S : Pool) : String → PerlStr → Prop where
  | nil (cls : String) : Reads S cls []
  | unknown {cls : String} {data afterTag rest : PerlStr} {tagWire : ℕ}
      (hread : decodeVarint data = .ok (tagWire, afterTag))
      (hfind : (S.descriptor cls).findFieldByNumber (tagWire >>> 3) = none)
      (hskip : skipField afterTag (tagWire &&& 7) = .ok rest) (htail : Reads S cls rest) :
      Reads S cls data
  | known {cls : String} {data afterTag rest : PerlStr} {tagWire : ℕ} {f : FieldDef}
      (hread : decodeVarint data = .ok (tagWire, afterTag))
      (hfind : (S.descriptor cls).findFieldByNumber (tagWire >>> 3) = some f)
      (hplain : tagWire &&& 7 ≠ 2 ∨ ∀ c, f.type ≠ .message c)
      (hpass : passPayload afterTag (tagWire &&& 7) = .ok rest) (htail : Reads S cls rest) :
      Reads S cls data
  | sub {cls c : String} {data afterTag r : PerlStr} {tagWire len : ℕ} {f : FieldDef}
      (hread : decodeVarint data = .ok (tagWire, afterTag))
      (hfind : (S.descriptor cls).findFieldByNumber (tagWire >>> 3) = some f)
      (hwire : tagWire &&& 7 = 2) (htype : f.type = .message c)
      (hlen : decodeVarint afterTag = .ok (len, r)) (hle : len ≤ r.length)
      (hsub : Reads S c (r.take len)) (htail : Reads S cls (r.drop len)) : Reads S cls data

/-- Every map field occurs length-delimited. -/
def MapsDelimited (S : Pool) (cls : String) (data : PerlStr) : Prop :=
  ∀ f wire, Occurs S cls data f wire → ∀ c, f.shape S = .map c → wire = 2

theorem decodeField_of_pass (parseSub : String → PerlStr → Except Die Msg) {wire : ℕ}
    {t : FieldType} {data rest : PerlStr} (hplain : wire ≠ 2 ∨ ∀ c, t ≠ .message c)
    (h : passPayload data wire = .ok rest) :
    ∃ v, decodeField parseSub wire t data = .ok (v, rest) := by
  simp only [decodeField_eq_ok]
  by_cases hwire : wire = 0 ∨ wire = 1 ∨ wire = 2 ∨ wire = 5
  · have hskip : skipField data wire = .ok rest := by
      rcases hwire with rfl | rfl | rfl | rfl <;> exact h
    cases skipField_eq_ok.mp hskip with
    | varint hread => exact ⟨_, .varint hread⟩
    | fixed64 hlen => exact ⟨_, .fixed64 hlen⟩
    | delimited hread hle => exact ⟨_, .text (hplain.resolve_left (by simp)) hread hle⟩
    | fixed32 hlen => exact ⟨_, .fixed32 hlen⟩
  · have hrest : passPayload data wire = .ok data := by
      unfold passPayload
      split <;> simp_all
    obtain rfl := Except.ok.inj (h.symm.trans hrest)
    exact ⟨.undef, .other (by omega) (by omega) (by omega) (by omega)⟩

/-- A value that is not a sub-message cannot be stored in a map field. -/
theorem storeField_map_scalar {f : FieldDef} {v : Val} {m m' : Msg} {c : String}
    (hshape : f.shape S = .map c) (h : storeField S f v m = .ok m') : ¬ v.IsScalar := by
  intro hscalar
  obtain ⟨x, hx, -⟩ := map_eq_ok.mp h
  simp only [storedValue, hshape] at hx
  cases v <;> first
    | exact hscalar.elim
    | cases hx

theorem reads_of_parseInto {data : PerlStr} {m m' : Msg} (h : parseInto S data m = .ok m') :
    Reads S m.cls data ∧ MapsDelimited S m.cls data := by
  -- by length, as the parser goes down into submessages
  induction hn : data.length using Nat.strong_induction_on generalizing data m m' with
  | _ n ih =>
      subst hn
      by_cases hne : data = []
      · subst hne
        refine ⟨.nil _, fun g w hocc => ?_⟩
        cases hocc with
        | here hread | afterUnknown hread | afterKnown hread | inside hread => cases hread
      rw [parseInto_cons m hne] at h
      split at h
      · cases h
      rename_i m₁ rest hstep
      obtain ⟨hreads, hmaps⟩ := ih rest.length (parseStep_length hstep) h rfl
      rw [parseStep_cls hstep] at hreads hmaps
      obtain ⟨tagWire, afterTag, hread, hcase⟩ := parseStep_cases hstep
      have hafter := decodeVarint_length hread
      rcases hcase with ⟨hfind, hskip, -⟩ | ⟨f, v, hfind, hdec, hstore⟩
      · refine ⟨.unknown hread hfind hskip hreads, fun g w hocc => ?_⟩
        obtain ⟨rest', hskip', hlater⟩ := hocc.unknown_inv hread hfind
        obtain rfl := Except.ok.inj (hskip.symm.trans hskip')
        exact hmaps g w hlater
      · have hpass := decodeField_pass hdec
        have hlater : ∀ {g w rest'}, passPayload afterTag (tagWire &&& 7) = .ok rest' →
            Occurs S m.cls rest' g w → ∀ c, g.shape S = .map c → w = 2 := by
          intro g w rest' hpass' hocc
          obtain rfl := Except.ok.inj (hpass.symm.trans hpass')
          exact hmaps g w hocc
        rcases decodeField_cases hdec with
          ⟨hscalar, -⟩ | ⟨c, len, r, inner, htype, hwire, hlen, hle, hinner, rfl, rfl⟩
        · -- a scalar: it cannot be an entry of a map, since storing it there fails
          have hplain : tagWire &&& 7 ≠ 2 ∨ ∀ c, f.type ≠ .message c := by
            by_contra hcontra
            push Not at hcontra
            obtain ⟨hwire, c, htype⟩ := hcontra
            rw [hwire, htype] at hdec
            obtain ⟨len, r, inner, -, -, -, rfl, -⟩ := decodeField_message_inv hdec
            exact hscalar
          refine ⟨.known hread hfind hplain hpass hreads, fun g w hocc => ?_⟩
          rcases hocc.known_inv hread hfind with
            ⟨rfl, rfl⟩ | ⟨rest', hpass', hocc⟩ | ⟨c, len, r, hwire, htype, -⟩
          · intro c hshape
            exact absurd hscalar (storeField_map_scalar hshape hstore)
          · exact hlater hpass' hocc
          · rcases hplain with hne | hne
            · exact absurd hwire hne
            · exact absurd htype (hne c)
        · -- a submessage: occurrences inside it are those of its own octets
          have hlt := decodeVarint_length hlen
          rw [parse_eq_ok] at hinner
          obtain ⟨hsubReads, hsubMaps⟩ := ih (r.take len).length (by simp; omega) hinner rfl
          refine ⟨.sub hread hfind hwire htype hlen hle hsubReads hreads, fun g w hocc => ?_⟩
          rcases hocc.known_inv hread hfind with
            ⟨rfl, rfl⟩ | ⟨rest', hpass', hocc⟩ | ⟨c', len', r', -, htype', hlen', -, hocc⟩
          · intro c hshape
            exact hwire
          · exact hlater hpass' hocc
          · obtain rfl := FieldType.message.inj (htype.symm.trans htype')
            obtain ⟨rfl, rfl⟩ := Prod.mk.inj (Except.ok.inj (hlen.symm.trans hlen'))
            exact hsubMaps g w hocc

theorem Reads.parseInto {cls : String} {data : PerlStr} (h : Reads S cls data)
    (hmaps : MapsDelimited S cls data) {m : Msg} (hcls : m.cls = cls) (hm : m.Parsed S) :
    ∃ m', Protobuf.parseInto S data m = .ok m' := by
  induction h generalizing m with
  | nil cls => exact ⟨m, parseInto_nil m⟩
  | @unknown cls data afterTag rest tagWire hread hfind hskip _ ih =>
      subst hcls
      have hstep := parseStep_unknown (parse S) hread hfind hskip
      obtain ⟨hnd, hknown, hfield⟩ := hm.inv
      obtain ⟨m', hm'⟩ := ih (fun g w hocc => hmaps g w (.afterUnknown hread hfind hskip hocc))
        (m := m.keepUnknown (data.take (data.length - rest.length))) rfl
        (.msg hnd hknown hfield)
      exact ⟨m', (parseInto_step hstep).trans hm'⟩
  | @known cls data afterTag rest tagWire f hread hfind hplain hpass _ ih =>
      subst hcls
      have hf := (MessageDef.findFieldByNumber_eq_some.mp hfind).1
      obtain ⟨v, hdec⟩ := decodeField_of_pass (parse S) hplain hpass
      have hv : Parsed S .singular f.type v := by
        refine decodeField_parsed hdec fun c bytes inner _ hinner => ?_
        exact parse_parsed hinner
      rcases storedValue_spec hv (hm.inv.2.2 f hf) with ⟨x, hx, hparsed⟩ | ⟨⟨c, hshape⟩, -, -⟩
      · have hstore : storeField S f v m = .ok (m.put f.name x) := by
          simp [storeField, hx, Except.map]
        obtain ⟨m', hm'⟩ := ih (fun g w hocc => hmaps g w (.afterKnown hread hfind hpass hocc))
          (m := m.put f.name x) rfl (hm.put hf hparsed)
        exact ⟨m', (parseInto_step (parseStep_known hread hfind hdec hstore)).trans hm'⟩
      -- a map field that is not delimited, which `hmaps` rules out
      · have hwire := hmaps f _ (.here hread hfind) c hshape
        rcases hplain with hne | hne
        · exact absurd hwire hne
        · exact absurd (FieldDef.shape_map hshape).1 (hne c)
  | @sub cls c data afterTag r tagWire len f hread hfind hwire htype hlen hle _ _ ihsub ih =>
      subst hcls
      have hf := (MessageDef.findFieldByNumber_eq_some.mp hfind).1
      obtain ⟨inner, hinner⟩ := ihsub
        (fun g w hocc => hmaps g w (.inside hread hfind hwire htype hlen hle hocc))
        (m := .create c) rfl (Msg.create_parsed c)
      rw [← parse_eq_ok] at hinner
      obtain ⟨hinnerCls, hinnerParsed⟩ := parse_parsed hinner
      subst hinnerCls
      have hdec : decodeField (parse S) (tagWire &&& 7) f.type afterTag =
          .ok (inner.toVal, r.drop len) := by
        rw [hwire, htype]
        simp [decodeField, hlen, Nat.not_lt.mpr hle, hinner]
      have hv : Parsed S .singular f.type inner.toVal := htype ▸ hinnerParsed
      rcases storedValue_spec hv (hm.inv.2.2 f hf) with ⟨x, hx, hparsed⟩ | ⟨-, hscalar, -⟩
      · have hstore : storeField S f inner.toVal m = .ok (m.put f.name x) := by
          simp [storeField, hx, Except.map]
        obtain ⟨m', hm'⟩ := ih
          (fun g w hocc => hmaps g w (.afterKnown hread hfind (decodeField_pass hdec) hocc))
          (m := m.put f.name x) rfl (hm.put hf hparsed)
        exact ⟨m', (parseInto_step (parseStep_known hread hfind hdec hstore)).trans hm'⟩
      · exact hscalar.elim

/-- The inputs that `parse` accepts. -/
theorem parse_accepts_iff {cls : String} {data : PerlStr} :
    (∃ m, parse S cls data = .ok m) ↔ Reads S cls data ∧ MapsDelimited S cls data := by
  constructor
  · rintro ⟨m, h⟩
    exact reads_of_parseInto (parse_eq_ok.mp h)
  · rintro ⟨hreads, hmaps⟩
    obtain ⟨m, hm⟩ := hreads.parseInto hmaps (m := .create cls) rfl (Msg.create_parsed cls)
    exact ⟨m, parse_eq_ok.mpr hm⟩

end GooglePerl.Protobuf
