import GooglePerl.Protobuf.Accepted
import GooglePerl.Protobuf.RoundTrip
import GooglePerl.Protobuf.WireRun

/-!
Passing a message on without knowing all of its fields.

A program with the descriptors of `S` parses what a program with those of a
larger `S'` wrote, and serializes it again. Turn by turn of the two parsers,
what the first one holds is carried (`Carries`) to what the second one holds:
a field that `S` has is stored on both sides, any other field is kept among the
unknown ones and read from there by `S'` (`Seen`).
-/

namespace GooglePerl.Protobuf

open GooglePerl.Lib

variable {S S' : Pool}

/-! ### Carrying what is stored -/

/-- The text of a key is the same on both sides, and survives. -/
theorem Carries.key {t : FieldType} {v v' : Val} (h : Carries S S' .singular t v v')
    (ht : t.isKey = true) :
    ∃ k, v.stringify = .ok k ∧ v'.stringify = .ok k ∧ t.KeyRereads k := by
  cases h with
  | int h hv hv' => exact ⟨_, hv.stringify, hv'.stringify, .inr ⟨_, h, rfl⟩⟩
  | float h => rcases h with ⟨rfl, -⟩ | ⟨rfl, -⟩ <;> simp [FieldType.isKey] at ht
  | @text _ s h =>
      rcases h with rfl | rfl
      · exact ⟨s, rfl, rfl, .inl rfl⟩
      · simp [FieldType.isKey] at ht
  | msg => simp [FieldType.isKey] at ht

/-- An entry message with its key and its value. -/
def Val.HasParts : Val → Prop
  | .msg _ fs _ => (Assoc.find fs (ps "key")).isSome ∧ (Assoc.find fs (ps "value")).isSome
  | _ => False

/-- Which key and value a carried entry gives. -/
theorem Carries.entry {c : String} {kt vt : FieldType}
    (hentry : (S.descriptor c).fields = entryFields kt vt) (hkt : kt.isKey = true) {v v' : Val}
    (h : Carries S S' .singular (.message c) v v') (hparts : v'.HasParts) :
    ∃ fs u fs' u' k w w', v = .msg c fs u ∧ v' = .msg c fs' u' ∧
      (get S ⟨c, fs, u⟩ (ps "key")).1.stringify = .ok k ∧
      (get S' ⟨c, fs', u'⟩ (ps "key")).1.stringify = .ok k ∧
      (get S ⟨c, fs, u⟩ (ps "value")).1 = w ∧ (get S' ⟨c, fs', u'⟩ (ps "value")).1 = w' ∧
      kt.KeyRereads k ∧ Carries S S' .singular vt w w' := by
  cases h with
  | int h => exact h.elim
  | float h => rcases h with ⟨h, -⟩ | ⟨h, -⟩ <;> cases h
  | text h => rcases h with h | h <;> cases h
  | @msg _ fs fs' u u' extra hset hfield hunknown hextra hnew hrest =>
      have hkeyMem : (⟨ps "key", 1, kt, .optional⟩ : FieldDef) ∈ (S.descriptor c).fields := by
        simp [hentry, entryFields]
      have hvalueMem : (⟨ps "value", 2, vt, .optional⟩ : FieldDef) ∈ (S.descriptor c).fields := by
        simp [hentry, entryFields]
      obtain ⟨key', hkey'⟩ := Option.isSome_iff_exists.mp hparts.1
      obtain ⟨w', hw'⟩ := Option.isSome_iff_exists.mp hparts.2
      obtain ⟨key, hkey⟩ : ∃ key, Assoc.find fs (ps "key") = some key := by
        rw [← Option.isSome_iff_exists, ← hset _ hkeyMem]
        exact hparts.1
      obtain ⟨w, hw⟩ : ∃ w, Assoc.find fs (ps "value") = some w := by
        rw [← Option.isSome_iff_exists, ← hset _ hvalueMem]
        exact hparts.2
      obtain ⟨k, hk, hk', hrereads⟩ := (hfield _ hkeyMem key key' hkey hkey').key hkt
      refine ⟨fs, u, fs', u', k, w, w', rfl, rfl, ?_, ?_, ?_, ?_, hrereads,
        hfield _ hvalueMem w w' hw hw'⟩ <;> simp [get, *]

theorem carries_itemsOf {t : FieldType} {old old' : Option Val}
    (hset : old'.isSome = old.isSome)
    (h : ∀ y y', old = some y → old' = some y' → Carries S S' .repeated t y y') :
    (itemsOf old).length = (itemsOf old').length ∧
      ∀ x x', (x, x') ∈ (itemsOf old).zip (itemsOf old') →
        Carries S S' .singular t x x' := by
  cases old with
  | none =>
      cases old' with
      | none => exact ⟨rfl, fun _ _ h => by cases h⟩
      | some y' => cases hset
  | some y =>
      cases old' with
      | none => cases hset
      | some y' =>
          cases h y y' rfl rfl with
          | repeated hlen hitems => exact ⟨hlen, hitems⟩

/-- The entries of a carried map field, with the types of the entry message. -/
theorem carries_entriesOf {c : String} {t kt vt : FieldType}
    (hentry : (S.descriptor c).fields = entryFields kt vt) {old old' : Option Val}
    (hset : old'.isSome = old.isSome)
    (h : ∀ y y', old = some y → old' = some y' → Carries S S' (.map c) t y y') :
    (Assoc.keys (entriesOf old)).Nodup ∧
      (∀ k, (Assoc.find (entriesOf old') k).isSome = (Assoc.find (entriesOf old) k).isSome) ∧
      (∀ k ∈ Assoc.keys (entriesOf old), kt.KeyRereads k) ∧
      ∀ k v v', Assoc.find (entriesOf old) k = some v → Assoc.find (entriesOf old') k = some v' →
        Carries S S' .singular vt v v' := by
  cases old with
  | none =>
      cases old' with
      | none => simp [Assoc.keys]
      | some y' => cases hset
  | some y =>
      cases old' with
      | none => cases hset
      | some y' =>
          cases h y y' rfl rfl with
          | @map _ _ kt' vt' es es' hentry' hnd hsome hkey hvalue =>
              obtain ⟨rfl, rfl⟩ := entryFields_inj (hentry'.symm.trans hentry)
              exact ⟨hnd, hsome, hkey, hvalue⟩

/-- One more carried value, stored on both sides. -/
theorem Carries.stored (hext : Extends S S') {f : FieldDef} {v v' : Val} {old old' : Option Val}
    (h : Carries S S' .singular f.type v v')
    (hparts : ∀ c, f.shape S = .map c → v'.HasParts)
    (hold : ∀ y, old = some y → Parsed S (f.shape S) f.type y)
    (hold' : ∀ y, old' = some y → Parsed S' (f.shape S) f.type y)
    (hset : old'.isSome = old.isSome)
    (hcarries : ∀ y y', old = some y → old' = some y' → Carries S S' (f.shape S) f.type y y') :
    ∃ z z', storedValue S f v old = .ok z ∧ storedValue S' f v' old' = .ok z' ∧
      Carries S S' (f.shape S) f.type z z' := by
  have hshape' := hext.shape f
  cases hshape : f.shape S with
  | singular =>
      rw [hshape] at hshape'
      exact ⟨v, v', by simp [storedValue, hshape], by simp [storedValue, hshape'], h⟩
  | repeated =>
      rw [hshape] at hshape' hold hold' hcarries
      refine ⟨_, _, storedValue_items hshape hold v, storedValue_items hshape' hold' v', ?_⟩
      obtain ⟨hlen, hitems⟩ := carries_itemsOf hset hcarries
      refine .repeated (by simp [hlen]) fun x x' hx => ?_
      rw [List.zip_append hlen] at hx
      rcases List.mem_append.mp hx with hx | hx
      · exact hitems x x' hx
      · obtain ⟨rfl, rfl⟩ : x = v ∧ x' = v' := by simpa using hx
        exact h
  | map c =>
      rw [hshape] at hshape' hold hold' hcarries
      obtain ⟨htype, hmap⟩ := FieldDef.shape_map hshape
      obtain ⟨kt, vt, hkt, hentry, -⟩ := S.entry_fields hmap
      rw [htype] at h
      -- the same key in both pools, with values that carry each other
      obtain ⟨fs, u, fs', u', k, w, w', rfl, rfl, hk, hk', rfl, rfl, hrereads, hvalue⟩ :=
        h.entry hentry hkt (hparts c hshape)
      obtain ⟨hnd, hsome, hkeys, hvalues⟩ := carries_entriesOf hentry hset hcarries
      refine ⟨_, _, storedValue_entry hshape hk hold, storedValue_entry hshape' hk' hold', ?_⟩
      refine .map hentry (Assoc.nodup_keys_store hnd _ _) ?_ ?_ ?_
      · intro k'
        simp only [Assoc.find_store]
        split
        · rfl
        · exact hsome k'
      · intro k' hk'
        rcases Assoc.mem_keys_store.mp hk' with rfl | hk'
        · exact hrereads
        · exact hkeys k' hk'
      · intro k' x x' hx hx'
        rw [Assoc.find_store] at hx hx'
        split at hx
        · rename_i heq
          rw [if_pos heq] at hx'
          obtain rfl := Option.some.inj hx
          obtain rfl := Option.some.inj hx'
          exact hvalue
        · rename_i hne
          rw [if_neg hne] at hx'
          exact hvalues k' x x' hx hx'

/-! ### Two parsers at the same place -/

/-- What a parser with `S` and a parser with `S'` hold after the same input. -/
structure Seen (S S' : Pool) (m m' : Msg) : Prop where
  cls : m'.cls = m.cls
  parsed : m.Parsed S
  parsed' : m'.Parsed S'
  set : ∀ f ∈ (S.descriptor m.cls).fields,
    (Assoc.find m'.fields f.name).isSome = (Assoc.find m.fields f.name).isSome
  field : ∀ f ∈ (S.descriptor m.cls).fields, ∀ v v', Assoc.find m.fields f.name = some v →
    Assoc.find m'.fields f.name = some v' → Carries S S' (f.shape S) f.type v v'
  unknown : UnknownFields (S.descriptor m.cls) (m.unknown.getD [])
  extra : ∃ extra, parse S' m.cls (m.unknown.getD []) = .ok extra ∧
    AgreeOutside (S.descriptor m.cls) extra m'

theorem Seen.create (cls : String) : Seen S S' (.create cls) (.create cls) where
  cls := rfl
  parsed := Msg.create_parsed cls
  parsed' := Msg.create_parsed cls
  set _ _ := rfl
  field _ _ _ _ h := by cases h
  unknown := .nil
  extra := ⟨.create cls, rfl, rfl, rfl, fun _ _ => rfl⟩

theorem Seen.carries {m m' : Msg} (h : Seen S S' m m') :
    Carries S S' .singular (.message m.cls) m.toVal m'.toVal := by
  obtain ⟨extra, hextra, hout⟩ := h.extra
  have hval : m'.toVal = .msg m.cls m'.fields m'.unknown := by
    rw [Msg.toVal, h.cls]
  rw [hval]
  refine .msg h.set h.field h.unknown hextra ?_ (by rw [hout.unknown])
  intro name hname
  rw [fieldContent_eq, fieldContent_eq, hout.fields name hname]

/-- A field that only `S'` has is kept as it is, and read from there. -/
theorem Seen.skip (hext : Extends S S') {m m' m₁' : Msg} (h : Seen S S' m m')
    {data afterTag rest : PerlStr} {tagWire : ℕ}
    (hread : decodeVarint data = .ok (tagWire, afterTag))
    (hnew : (S.descriptor m.cls).findFieldByNumber (tagWire >>> 3) = none)
    (hskip : skipField afterTag (tagWire &&& 7) = .ok rest)
    (hstep : parseStep S' (parse S') data m' = .ok (m₁', rest)) :
    ∃ m₁, parseStep S (parse S) data m = .ok (m₁, rest) ∧ Seen S S' m₁ m₁' := by
  refine ⟨_, parseStep_unknown (parse S) hread hnew hskip, ?_⟩
  have hsub : ∀ f ∈ (S.descriptor m.cls).fields, f ∈ (S'.descriptor m'.cls).fields := by
    rw [h.cls]
    exact hext.fields m.cls
  have hunknown := UnknownFields.single hread hnew hskip
  obtain ⟨-, m₂, hstep₂, -, hinside⟩ :=
    parseStep_outside hsub hread hnew hskip hstep ⟨rfl, rfl, fun _ _ => rfl⟩
  obtain ⟨rfl, -⟩ := Prod.mk.inj (Except.ok.inj (hstep.symm.trans hstep₂))
  obtain ⟨hnd, hknown, hfield⟩ := h.parsed.inv
  -- the bytes kept are what the larger parser reads at this turn
  obtain ⟨used, rfl, hused⟩ := parseStep_split hstep
  obtain ⟨extra, hextra, hout⟩ := h.extra
  rw [take_length_sub] at hunknown ⊢
  have hin : ∀ f ∈ (S.descriptor m.cls).fields,
      Assoc.find m₁'.fields f.name = Assoc.find m'.fields f.name := fun f hf =>
    hinside f.name (by simp [MessageDef.findFieldByName_eq_some.mpr ⟨hf, rfl⟩])
  obtain ⟨extra', hextra', hout'⟩ : ∃ extra', parseInto S' used extra = .ok extra' ∧
      AgreeOutside (S.descriptor m.cls) extra' m₁' := by
    have hrun : parseInto S' used m' = .ok m₁' := (parseInto_step hused).trans (parseInto_nil _)
    obtain ⟨extra', hextra', hag, -⟩ := parseInto_outside hunknown hsub hrun hout
    exact ⟨extra', hextra', hag⟩
  refine ⟨(parseStep_cls hstep).trans h.cls, .msg hnd hknown hfield,
    parseStep_parsed h.parsed' hstep, ?_, ?_, ?_, ?_⟩
  · intro f hf
    rw [hin f hf]
    exact h.set f hf
  · intro f hf v v' hv hv'
    rw [hin f hf] at hv'
    exact h.field f hf v v' hv hv'
  · exact h.unknown.append hunknown
  · refine ⟨extra', ?_, hout'⟩
    rw [parse_eq_ok] at hextra ⊢
    exact (parseInto_append hextra used).trans hextra'

/-- A field that both have is stored on both sides. -/
theorem Seen.store (hext : Extends S S') {m m' : Msg} (h : Seen S S' m m') {f : FieldDef}
    (hf : f ∈ (S.descriptor m.cls).fields) {v v' : Val} (hv : Parsed S .singular f.type v)
    (hv' : Parsed S' .singular f.type v') (hcarries : Carries S S' .singular f.type v v')
    (hparts : ∀ c, f.shape S = .map c → v'.HasParts) :
    ∃ m₁ m₁', storeField S f v m = .ok m₁ ∧ storeField S' f v' m' = .ok m₁' ∧
      Seen S S' m₁ m₁' := by
  have hf' : f ∈ (S'.descriptor m'.cls).fields := h.cls ▸ hext.fields m.cls f hf
  have hold := h.parsed.inv.2.2 f hf
  have hold' := h.parsed'.inv.2.2 f hf'
  obtain ⟨z, z', hz, hz', hstored⟩ := hcarries.stored hext hparts hold (hext.shape f ▸ hold')
    (h.set f hf) (h.field f hf)
  -- what is stored is as a parser stores it
  have hzp : Parsed S (f.shape S) f.type z := by
    rcases storedValue_spec hv hold with ⟨x, hx, hparsed⟩ | ⟨-, -, e, he⟩
    · exact Except.ok.inj (hz.symm.trans hx) ▸ hparsed
    · cases hz.symm.trans he
  have hzp' : Parsed S' (f.shape S') f.type z' := by
    rcases storedValue_spec hv' hold' with ⟨x, hx, hparsed⟩ | ⟨-, -, e, he⟩
    · exact Except.ok.inj (hz'.symm.trans hx) ▸ hparsed
    · cases hz'.symm.trans he
  refine ⟨m.put f.name z, m'.put f.name z', by simp [storeField, hz, Except.map],
    by simp [storeField, hz', Except.map], h.cls, h.parsed.put hf hzp, h.parsed'.put hf' hzp', ?_,
    ?_, h.unknown, ?_⟩
  · intro g hg
    simp only [Msg.put_fields, Assoc.find_store]
    split
    · rfl
    · exact h.set g hg
  · intro g hg x x' hx hx'
    rw [Msg.put_fields, Assoc.find_store] at hx hx'
    by_cases hname : g.name = f.name
    · obtain rfl := MessageDef.eq_of_name_eq hg hf hname
      rw [if_pos rfl] at hx hx'
      obtain rfl := Option.some.inj hx
      obtain rfl := Option.some.inj hx'
      exact hstored
    · rw [if_neg hname] at hx hx'
      exact h.field g hg x x' hx hx'
  · obtain ⟨extra, hextra, hout⟩ := h.extra
    refine ⟨extra, hextra, hout.cls, hout.unknown, ?_⟩
    intro name hname
    have hne : name ≠ f.name := by
      rintro rfl
      exact MessageDef.findFieldByName_eq_none.mp hname f hf rfl
    rw [Msg.put_fields, Assoc.find_store_of_ne _ _ hne]
    exact hout.fields name hname

/-! ### What may stand in the input -/

/-- Every varint is the one of a number in the range of its type, and every map
entry has its key and its value. -/
def canonicalWire : WireRule where
  varint t raw := ∃ n, t.inRange n ∧ raw = t.canonical n
  entry inner := (Assoc.find inner.fields (ps "key")).isSome ∧
    (Assoc.find inner.fields (ps "value")).isSome

theorem FieldType.rereads_canonical {t : FieldType} {n : ℤ} (hwire : t.wire = 0)
    (h : t.inRange n) : t.rereads (storedInt t (t.canonical n)) := by
  have hsame : storedInt t (t.canonical n) = n → (∀ e, t ≠ .enum e) →
      t.rereads (storedInt t (t.canonical n)) := by
    intro heq hne
    rw [heq]
    exact rereads_of_inRange h fun e he => absurd he (hne e)
  cases t with
  | sint32 => exact hsame (decodeZigzag32_zigzag h.1 h.2) (by simp)
  | sint64 =>
      refine hsame ?_ (by simp)
      simp only [canonical, storedInt]
      rw [decodeZigzag64_eq, Int.toNat_of_nonneg (zigzag_nonneg n), unzigzag_zigzag]
  | int32 =>
      refine hsame ?_ (by simp)
      have hcanonical : int32.canonical n = (n % 2 ^ 64).toNat := rfl
      simp only [inRange] at h
      simp only [storedInt]
      split <;> omega
  | int64 =>
      refine hsame ?_ (by simp)
      have hcanonical : int64.canonical n = (n % 2 ^ 64).toNat := rfl
      simp only [inRange] at h
      simp only [storedInt]
      split <;> omega
  | uint32 | uint64 | bool | enum e =>
      simp only [inRange, canonical, storedInt, rereads] at *
      omega
  | _ => simp [wire] at hwire

/-- A scalar that is there, and is no varint that would be lost, is carried. -/
theorem Traced.Typed.carries {S₀ : Pool} {t : FieldType} {x : Traced}
    (h : x.Typed S₀ .singular t) (ht : ∀ c, t ≠ .message c)
    (hraw : ∀ raw, x = .varint t raw → t.rereads (storedInt t raw)) (hundef : x.erase ≠ .undef) :
    Carries S S' .singular t x.erase x.erase := by
  cases h with
  | @varint _ raw hwire _ =>
      have hnum : (Traced.varint t raw).erase.IsNum (storedInt t raw) := by
        rw [Traced.erase]
        exact varintValue_isNum t raw
      exact .int (hraw raw rfl) hnum hnum
  | @fixed64 _ bytes hwire hlen ho =>
      rw [Traced.erase]
      rcases fixed64Value_cases hwire hlen ho with ⟨rfl, hval⟩ | ⟨n, hn, hnum⟩
      · rw [hval]
        exact .float (.inl ⟨rfl, hlen⟩)
      · exact .int hn hnum hnum
  | @fixed32 _ bytes hwire hlen ho =>
      rw [Traced.erase]
      rcases fixed32Value_cases hwire hlen ho with ⟨rfl, hval⟩ | ⟨n, hn, hnum⟩
      · rw [hval]
        exact .float (.inr ⟨rfl, hlen⟩)
      · exact .int hn hnum hnum
  | text htext =>
      rw [Traced.erase]
      exact .text htext
  | default =>
      rw [Traced.erase] at hundef ⊢
      cases t with
      | double => exact .float (.inl ⟨rfl, rfl⟩)
      | float => exact .float (.inr ⟨rfl, rfl⟩)
      | string => exact .text (.inl rfl)
      | bytes => exact .text (.inr rfl)
      | message c => exact absurd rfl (ht c)
      | fixed64 => exact absurd rfl hundef
      | _ => exact .int (n := 0) (by simp [FieldType.rereads]) (.inl rfl) (.inl rfl)
  | msg => exact absurd rfl (ht _)

theorem readScalar_ne_undef {t : FieldType} {data rest : PerlStr} {x : Traced}
    (h : readScalar t data = some (x, rest)) : x.erase ≠ .undef := by
  unfold readScalar at h
  split at h
  · split at h
    · rename_i raw _ _
      obtain ⟨rfl, -⟩ := Prod.mk.inj (Option.some.inj h)
      rw [Traced.erase]
      rcases varintValue_isNum t raw with hnum | hnum <;> simp [hnum]
    · cases h
  · split at h
    · cases h
    · obtain ⟨rfl, -⟩ := Prod.mk.inj (Option.some.inj h)
      rw [Traced.erase]
      unfold fixed64Value
      split
      · simp
      · split <;> simp
      · simp
  · split at h
    · cases h
    · split at h
      · split at h
        · cases h
        · obtain ⟨rfl, -⟩ := Prod.mk.inj (Option.some.inj h)
          simp [Traced.erase]
      · cases h
  · split at h
    · cases h
    · obtain ⟨rfl, -⟩ := Prod.mk.inj (Option.some.inj h)
      rw [Traced.erase]
      unfold fixed32Value
      split <;> simp

/-! ### The run -/

theorem Extends.find_none (hext : Extends S S') {c : String} {n : ℕ}
    (h : (S'.descriptor c).findFieldByNumber n = none) :
    (S.descriptor c).findFieldByNumber n = none := by
  rw [MessageDef.findFieldByNumber_eq_none] at h ⊢
  exact fun f hf => h f (hext.fields c f hf)

/-- A number that `S'` has is of the same field in `S`, or of none. -/
theorem Extends.find_cases (hext : Extends S S') {c : String} {n : ℕ} {f : FieldDef}
    (h : (S'.descriptor c).findFieldByNumber n = some f) :
    (S.descriptor c).findFieldByNumber n = some f ∨
      (S.descriptor c).findFieldByNumber n = none := by
  cases hfind : (S.descriptor c).findFieldByNumber n with
  | none => exact .inr rfl
  | some g =>
      obtain ⟨hg, hnum⟩ := MessageDef.findFieldByNumber_eq_some.mp hfind
      have hg' := MessageDef.findFieldByNumber_eq_some.mpr ⟨hext.fields c g hg, hnum⟩
      exact .inl (hg'.symm.trans h)

theorem TracedMsg.hasParts {m : TracedMsg} (h : canonicalWire.entry m) :
    m.toTraced.erase.HasParts := by
  obtain ⟨hkey, hvalue⟩ := h
  rw [TracedMsg.erase_toTraced]
  simpa [Val.HasParts, Msg.toVal, TracedMsg.erase, find_eraseEntries] using ⟨hkey, hvalue⟩

theorem FieldType.wire_cases (t : FieldType) :
    t.wire = 0 ∨ t.wire = 1 ∨ t.wire = 2 ∨ t.wire = 5 := by
  cases t <;> simp [wire]

/-- One turn at a field that `S'` has. -/
theorem Seen.known (hext : Extends S S') {m : Msg} {m' : TracedMsg} (h : Seen S S' m m'.erase)
    {data afterTag rest : PerlStr} {tagWire : ℕ} {f : FieldDef} {v : Val} {x : Traced}
    (hread : decodeVarint data = .ok (tagWire, afterTag))
    (hfind : (S'.descriptor m'.cls).findFieldByNumber (tagWire >>> 3) = some f)
    (hwire : tagWire &&& 7 = f.type.wire)
    (hdec : decodeField (parse S) (tagWire &&& 7) f.type afterTag = .ok (v, rest))
    (hdec' : decodeField (parse S') (tagWire &&& 7) f.type afterTag = .ok (x.erase, rest))
    (hstore : storeField S' f x.erase m'.erase = .ok (m'.store S' f x).erase)
    (hcarries : Carries S S' .singular f.type v x.erase)
    (hparts : ∀ c, f.shape S' = .map c → x.erase.HasParts) :
    ∃ m₁, parseStep S (parse S) data m = .ok (m₁, rest) ∧
      Seen S S' m₁ (m'.store S' f x).erase := by
  have hfind' : (S'.descriptor m.cls).findFieldByNumber (tagWire >>> 3) = some f := h.cls ▸ hfind
  have hstep := parseStep_known (m := m'.erase) hread hfind hdec' hstore
  rcases hext.find_cases hfind' with hold | hnew
  · obtain ⟨m₁, m₁', hm₁, hm₁', hseen⟩ :=
      h.store hext (MessageDef.findFieldByNumber_eq_some.mp hold).1
        (decodeField_parsed hdec fun _ _ _ _ hinner => parse_parsed hinner)
        (decodeField_parsed hdec' fun _ _ _ _ hinner => parse_parsed hinner) hcarries
        (fun c hshape => hparts c ((hext.shape f).trans hshape))
    obtain rfl := Except.ok.inj (hstore.symm.trans hm₁')
    exact ⟨m₁, parseStep_known hread hold hdec hm₁, hseen⟩
  · have hskip := decodeField_skip hdec' (hwire ▸ f.type.wire_cases)
    exact h.skip hext hread hnew hskip hstep

/-- Both parsers run over the same input, and stay at the same place. -/
theorem WireRun.seen (hext : Extends S S') {data : PerlStr} {m' m₁' : TracedMsg}
    (h : WireRun canonicalWire S' data m' m₁') (ho : IsOctets data) {m : Msg}
    (hm' : m'.Typed S') (hseen : Seen S S' m m'.erase) :
    ∃ m₁, parseInto S data m = .ok m₁ ∧ Seen S S' m₁ m₁'.erase := by
  induction h generalizing m with
  | nil m' => exact ⟨m, parseInto_nil m, hseen⟩
  | @unknown data afterTag rest tagWire m' m₁' hread hfind hskip _ ih =>
      -- unknown to the newer program, so to the older one too
      have hcls : m'.cls = m.cls := hseen.cls
      have hnew := hext.find_none (hcls ▸ hfind)
      have hstep := parseStep_unknown (Protobuf.parse S') (m := m'.erase) hread hfind hskip
      obtain ⟨m₁, hstep₁, hseen₁⟩ := hseen.skip hext hread hnew hskip hstep
      obtain ⟨used, hdata, -⟩ := parseStep_ok hstep
      obtain ⟨m₂, hrun, hseen₂⟩ := ih (by rw [hdata] at ho; exact ho.of_append.2)
        (hm'.keepUnknown (UnknownFields.single hread hfind hskip)) hseen₁
      exact ⟨m₂, (parseInto_step hstep₁).trans hrun, hseen₂⟩
  | @scalar data afterTag rest tagWire f x m' m₁' hread hfind hwire hscalar hrule _ ih =>
      -- both decode the same scalar, and the older one may keep it as unknown
      obtain ⟨hx, hne, hrest, hdec⟩ := readScalar_spec (S := S') hscalar (ho.afterVarint hread)
      have hf := (MessageDef.findFieldByNumber_eq_some.mp hfind).1
      obtain ⟨hm₁', hstore⟩ := hm'.store hf hx fun c hc => absurd hc (hne c)
      have hcarries : Carries S S' .singular f.type x.erase x.erase := by
        refine hx.carries hne (fun raw hraw => ?_) (readScalar_ne_undef hscalar)
        obtain ⟨n, hn, rfl⟩ := hrule raw hraw
        exact FieldType.rereads_canonical (hraw ▸ hx).varint_inv.2.1 hn
      obtain ⟨m₁, hstep₁, hseen₁⟩ := hseen.known hext hread hfind hwire
        (hwire ▸ hdec (Protobuf.parse S)) (hwire ▸ hdec (Protobuf.parse S')) hstore hcarries
        (fun c hshape => absurd (FieldDef.shape_map hshape).1 (hne c))
      obtain ⟨m₂, hrun, hseen₂⟩ := ih hrest hm₁' hseen₁
      exact ⟨m₂, (parseInto_step hstep₁).trans hrun, hseen₂⟩
  | @sub data afterTag r tagWire len f c inner m' m₁' hread hfind hwire htype hlen hle hsub hrule _
      ihsub ih =>
      -- the two runs inside the submessage first, then the field that holds it
      have hr := (ho.afterVarint hread).afterVarint hlen
      have hf := (MessageDef.findFieldByNumber_eq_some.mp hfind).1
      obtain ⟨hinner, hinnerCls, hsubRun⟩ := hsub.spec (hr.take len) (TracedMsg.create_typed c)
      obtain rfl : inner.cls = c := hinnerCls
      obtain ⟨inner₁, hrun₁, hinnerSeen⟩ := ihsub (hr.take len) (TracedMsg.create_typed inner.cls)
        (m := .create inner.cls) (TracedMsg.erase_create inner.cls ▸ Seen.create inner.cls)
      have hwire' : tagWire &&& 7 = f.type.wire := by rw [hwire, htype]; rfl
      have hdec : decodeField (Protobuf.parse S) (tagWire &&& 7) f.type afterTag =
          .ok (inner₁.toVal, r.drop len) := by
        have hparse : Protobuf.parse S inner.cls (r.take len) = .ok inner₁ := parse_eq_ok.mpr hrun₁
        rw [hwire, htype]
        simp [decodeField, hlen, Nat.not_lt.mpr hle, hparse]
      have hdec' : decodeField (Protobuf.parse S') (tagWire &&& 7) f.type afterTag =
          .ok (inner.toTraced.erase, r.drop len) := by
        rw [hwire, htype]
        exact decodeField_sub hlen hle hsubRun
      obtain ⟨hm₁', hstore⟩ := hm'.store (x := inner.toTraced) hf (htype ▸ hinner) (by
        intro c' hc'
        obtain rfl : inner.cls = c' := FieldType.message.inj (htype.symm.trans hc')
        exact ⟨inner.fields, inner.unknown, rfl⟩)
      have hcarries : Carries S S' .singular f.type inner₁.toVal inner.toTraced.erase := by
        rw [TracedMsg.erase_toTraced, htype, show inner.cls = inner₁.cls from hinnerSeen.cls]
        exact hinnerSeen.carries
      obtain ⟨m₁, hstep₁, hseen₁⟩ := hseen.known hext hread hfind hwire' hdec hdec' hstore hcarries
        (fun c hshape => TracedMsg.hasParts (hrule (by
          obtain rfl := FieldType.message.inj (htype.symm.trans (FieldDef.shape_map hshape).1)
          exact hshape)))
      obtain ⟨m₂, hrun, hseen₂⟩ := ih (hr.drop len) hm₁' hseen₁
      exact ⟨m₂, (parseInto_step hstep₁).trans hrun, hseen₂⟩

/-- The types of `hardening.proto` before `rep_simple` was added. -/
def older : Pool where
  descriptor cls :=
    if cls = "Simple" then simpleDef
    else if cls = "Complex.MapSimpleEntry" then mapSimpleEntryDef
    else
      { fields := [⟨ps "simple", 1, .message "Simple", .optional⟩,
          ⟨ps "map_simple", 3, .message "Complex.MapSimpleEntry", .repeated⟩] }

theorem older_extends : Extends older hardening := by
  have hother : ∀ c, c = "Simple" ∨ c = "Complex.MapSimpleEntry" ∨
      ((hardening.descriptor c).mapEntry = false ∧ (older.descriptor c).mapEntry = false ∧
        ∀ f ∈ (older.descriptor c).fields, f ∈ (hardening.descriptor c).fields) := by
    intro c
    by_cases hsimple : c = "Simple"
    · exact .inl hsimple
    by_cases hentry : c = "Complex.MapSimpleEntry"
    · exact .inr (.inl hentry)
    refine .inr (.inr ?_)
    simp [older, hardening, hsimple, hentry]
  refine ⟨fun c => ?_, fun c => ?_, fun c hc => ?_⟩ <;>
    rcases hother c with rfl | rfl | ⟨hnew, hold, hfields⟩
  · simp [older, hardening]
  · simp [older, hardening]
  · exact hfields
  · simp [older, hardening]
  · simp [older, hardening]
  · rw [hnew, hold]
  · simp [older, hardening]
  · simp [older, hardening]
  · rw [hold] at hc
    cases hc

/-- A `Complex` with a named sub-message and an item the older program does not know. -/
def newerBytes : PerlStr := [10, 3, 10, 1, 115, 18, 0]

theorem newerBytes_run : ∃ T, WireRun canonicalWire hardening newerBytes (.create "Complex") T := by
  have hsimple : WireRun canonicalWire hardening [10, 1, 115] (.create "Simple") _ :=
    .scalar (show decodeVarint [10, 1, 115] = .ok (10, [1, 115]) from rfl)
      (f := ⟨ps "name", 1, .string, .optional⟩) rfl rfl
      (show readScalar .string [1, 115] = some (.other (.str (ps "s")), []) from rfl)
      (fun _ h => by cases h) (.nil _)
  have hitem : ∀ m : TracedMsg, m.cls = "Complex" → WireRun canonicalWire hardening [18, 0] m
      (m.store hardening ⟨ps "rep_simple", 2, .message "Simple", .repeated⟩
        (TracedMsg.create "Simple").toTraced) := by
    intro m hcls
    exact .sub (show decodeVarint [18, 0] = .ok (18, [0]) from rfl) (hcls ▸ rfl) rfl rfl
      (show decodeVarint [0] = .ok (0, []) from rfl) (by decide)
      (.nil _) (fun h => by cases h) (.nil _)
  exact ⟨_, .sub (show decodeVarint newerBytes = .ok (10, [3, 10, 1, 115, 18, 0]) from rfl)
    (f := ⟨ps "simple", 1, .message "Simple", .optional⟩) rfl rfl rfl
    (show decodeVarint [3, 10, 1, 115, 18, 0] = .ok (3, [10, 1, 115, 18, 0]) from rfl) (by decide)
    hsimple (fun h => by cases h) (hitem _ rfl)⟩

/-- A message type with a required field. -/
def requiredPool : Pool where
  descriptor _ := { fields := [⟨ps "id", 1, .int32, .required⟩] }

end GooglePerl.Protobuf
