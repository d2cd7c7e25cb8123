import GooglePerl.Protobuf.Scalars
import GooglePerl.Protobuf.UnknownFields

/-!
Messages with their varints kept.

A `Traced` message is what the parser builds, except that each value that came
out of a varint still is the varint. Erasing the trace gives the value. Storing
in a traced message follows `parse_into`, and erasing commutes with it
(`storedValue_erase`).
-/

namespace GooglePerl.Protobuf

open GooglePerl.Lib

inductive Traced where
  /-- what is stored for a varint read as type `t` -/
  | varint (t : FieldType) (raw : ℕ)
  | other (v : Val)
  | arr (items : List Traced)
  /-- a map entry: the hash holds the value, under the text of the key -/
  | entry (key value : Traced)
  | map (entries : List (PerlStr × Traced))
  | msg (cls : String) (fields : List (PerlStr × Traced)) (unknown : Option PerlStr)

mutual

def Traced.erase : Traced → Val
  | .varint t raw => varintValue t raw
  | .other v => v
  | .arr items => .arr .blessed (eraseList items)
  | .entry _ value => value.erase
  | .map entries => .hash (eraseEntries entries)
  | .msg cls fields unknown => .msg cls (eraseEntries fields) unknown

def eraseList : List Traced → List Val
  | [] => []
  | x :: xs => x.erase :: eraseList xs

def eraseEntries : List (PerlStr × Traced) → List (PerlStr × Val)
  | [] => []
  | (k, x) :: es => (k, x.erase) :: eraseEntries es

end

theorem eraseList_eq_map (xs : List Traced) : eraseList xs = xs.map Traced.erase := by
  induction xs with
  | nil => rfl
  | cons x xs ih => simp [eraseList, ih]

theorem eraseEntries_eq_map (es : List (PerlStr × Traced)) :
    eraseEntries es = es.map fun p => (p.1, p.2.erase) := by
  induction es with
  | nil => rfl
  | cons p es ih =>
      obtain ⟨k, x⟩ := p
      simp [eraseEntries, ih]

theorem find_eraseEntries (es : List (PerlStr × Traced)) (k : PerlStr) :
    Assoc.find (eraseEntries es) k = (Assoc.find es k).map Traced.erase := by
  rw [eraseEntries_eq_map, Assoc.find_map]

theorem eraseEntries_store (es : List (PerlStr × Traced)) (k : PerlStr) (x : Traced) :
    eraseEntries (Assoc.store es k x) = Assoc.store (eraseEntries es) k x.erase := by
  induction es with
  | nil => simp [Assoc.store, eraseEntries]
  | cons p es ih =>
      obtain ⟨k', x'⟩ := p
      simp only [Assoc.store, eraseEntries]
      split
      · rw [eraseEntries]
      · rw [eraseEntries, ih]

theorem keys_eraseEntries (es : List (PerlStr × Traced)) :
    Assoc.keys (eraseEntries es) = Assoc.keys es := by
  simp [eraseEntries_eq_map, Assoc.keys, Function.comp_def]

/-- A message on its own, traced. -/
structure TracedMsg where
  cls : String
  fields : List (PerlStr × Traced)
  unknown : Option PerlStr

namespace TracedMsg

def create (cls : String) : TracedMsg := ⟨cls, [], none⟩

def toTraced (m : TracedMsg) : Traced := .msg m.cls m.fields m.unknown

def erase (m : TracedMsg) : Msg := ⟨m.cls, eraseEntries m.fields, m.unknown⟩

theorem erase_toTraced (m : TracedMsg) : m.toTraced.erase = m.erase.toVal := by
  rw [toTraced, Traced.erase]
  rfl

theorem erase_create (cls : String) : (create cls).erase = Msg.create cls := by
  simp [create, erase, eraseEntries, Msg.create]

end TracedMsg

/-- The text under which an entry with this key is stored. -/
def Traced.text (x : Traced) : PerlStr :=
  match x.erase.stringify with
  | .ok s => s
  | .error _ => []

/-- The key or the value of an entry message: what was read, or the default. -/
def TracedMsg.part (S : Pool) (m : TracedMsg) (name : PerlStr) : Traced :=
  (Assoc.find m.fields name).getD (.other (get S (.create m.cls) name).1)

def Traced.items : Traced → List Traced
  | .arr xs => xs
  | _ => []

def Traced.entries : Traced → List (PerlStr × Traced)
  | .map es => es
  | _ => []

/-- What a field holds after a value is stored. -/
def Traced.stored (S : Pool) (f : FieldDef) (x : Traced) (old : Option Traced) : Traced :=
  match f.shape S with
  | .singular => x
  | .repeated => .arr ((old.map Traced.items).getD [] ++ [x])
  | .map _ =>
      match x with
      | .msg cls fields unknown =>
          let key := TracedMsg.part S ⟨cls, fields, unknown⟩ (ps "key")
          let value := TracedMsg.part S ⟨cls, fields, unknown⟩ (ps "value")
          .map (Assoc.store ((old.map Traced.entries).getD []) key.text (.entry key value))
      | x => x

def TracedMsg.store (S : Pool) (m : TracedMsg) (f : FieldDef) (x : Traced) : TracedMsg :=
  { m with fields := Assoc.store m.fields f.name (x.stored S f (Assoc.find m.fields f.name)) }

@[simp] theorem TracedMsg.store_cls (S : Pool) (m : TracedMsg) (f : FieldDef) (x : Traced) :
    (m.store S f x).cls = m.cls := rfl

theorem TracedMsg.store_fields (S : Pool) (m : TracedMsg) (f : FieldDef) (x : Traced) :
    (m.store S f x).fields =
      Assoc.store m.fields f.name (x.stored S f (Assoc.find m.fields f.name)) := rfl

def TracedMsg.keepUnknown (m : TracedMsg) (raw : PerlStr) : TracedMsg :=
  { m with unknown := some (m.unknown.getD [] ++ raw) }

/-! ### What a trace looks like -/

/-- The traces of fields of each shape and type. A default stands for the key or
the value that a map entry does not have. -/
inductive Traced.Typed (S : Pool) : Shape → FieldType → Traced → Prop where
  | varint {t : FieldType} {raw : ℕ} (ht : t.wire = 0) (hraw : raw < 2 ^ 70) :
      Typed S .singular t (.varint t raw)
  | fixed64 {t : FieldType} {bytes : PerlStr} (ht : t.wire = 1) (hlen : bytes.length = 8)
      (ho : IsOctets bytes) : Typed S .singular t (.other (fixed64Value t bytes))
  | fixed32 {t : FieldType} {bytes : PerlStr} (ht : t.wire = 5) (hlen : bytes.length = 4)
      (ho : IsOctets bytes) : Typed S .singular t (.other (fixed32Value t bytes))
  | text {t : FieldType} {s : PerlStr} (ht : t = .string ∨ t = .bytes) :
      Typed S .singular t (.other (.str s))
  | default (t : FieldType) : Typed S .singular t (.other (defaultValue t))
  | msg {cls : String} {fs : List (PerlStr × Traced)} {u : Option PerlStr}
      (hnd : (Assoc.keys fs).Nodup)
      (hknown : ∀ name ∈ Assoc.keys fs, (S.descriptor cls).findFieldByName name ≠ none)
      (hfield : ∀ f ∈ (S.descriptor cls).fields, ∀ x, Assoc.find fs f.name = some x →
        Typed S (f.shape S) f.type x)
      (hunknown : UnknownFields (S.descriptor cls) (u.getD [])) :
      Typed S .singular (.message cls) (.msg cls fs u)
  | repeated {t : FieldType} {xs : List Traced} (h : ∀ x ∈ xs, Typed S .singular t x) :
      Typed S .repeated t (.arr xs)
  | map {c : String} {t kt vt : FieldType} {es : List (PerlStr × Traced)}
      (hentry : (S.descriptor c).fields = entryFields kt vt) (hnd : (Assoc.keys es).Nodup)
      (hpart : ∀ k x, Assoc.find es k = some x → ∃ key value, x = .entry key value ∧ key.text = k)
      (hkey : ∀ k key value, Assoc.find es k = some (.entry key value) → Typed S .singular kt key)
      (hvalue : ∀ k key value, Assoc.find es k = some (.entry key value) →
        Typed S .singular vt value) :
      Typed S (.map c) t (.map es)

def TracedMsg.Typed (S : Pool) (m : TracedMsg) : Prop :=
  m.toTraced.Typed S .singular (.message m.cls)

variable {S : Pool}

/-- The parts of a well-formed message. -/
theorem TracedMsg.Typed.inv {m : TracedMsg} (h : m.Typed S) :
    (Assoc.keys m.fields).Nodup ∧
      (∀ name ∈ Assoc.keys m.fields, (S.descriptor m.cls).findFieldByName name ≠ none) ∧
      (∀ f ∈ (S.descriptor m.cls).fields, ∀ x, Assoc.find m.fields f.name = some x →
        x.Typed S (f.shape S) f.type) ∧
      UnknownFields (S.descriptor m.cls) (m.unknown.getD []) := by
  obtain ⟨cls, fs, u⟩ := m
  cases h with
  | msg hnd hknown hfield hunknown => exact ⟨hnd, hknown, hfield, hunknown⟩

theorem TracedMsg.create_typed (cls : String) : (create cls).Typed S :=
  .msg List.nodup_nil (fun _ h => by cases h) (fun _ _ _ h => by cases h) .nil

theorem Traced.Typed.varint_inv {t t' : FieldType} {raw : ℕ}
    (h : (Traced.varint t' raw).Typed S .singular t) : t' = t ∧ t.wire = 0 ∧ raw < 2 ^ 70 := by
  cases h with
  | varint ht hraw => exact ⟨rfl, ht, hraw⟩

/-- The key or value of an entry, read or defaulted. -/
theorem TracedMsg.Typed.part {m : TracedMsg} (h : m.Typed S) {f : FieldDef}
    (hf : f ∈ (S.descriptor m.cls).fields) (hopt : f.label = .optional) :
    (m.part S f.name).Typed S .singular f.type := by
  have hshape : f.shape S = .singular := FieldDef.shape_singular_of_optional hopt
  unfold TracedMsg.part
  cases hx : Assoc.find m.fields f.name with
  | some x =>
      have hfield := h.inv.2.2.1 f hf x hx
      rwa [hshape] at hfield
  | none =>
      have hfind : (S.descriptor m.cls).findFieldByName f.name = some f :=
        MessageDef.findFieldByName_eq_some.mpr ⟨hf, rfl⟩
      have hget : (get S (.create m.cls) f.name).1 = defaultValue f.type := by
        simp [get, hfind, hshape]
      rw [Option.getD_none, hget]
      exact .default f.type

/-- The type of a map key is none of those that have no text. -/
theorem Traced.Typed.text_eq {kt : FieldType} {key : Traced} (h : key.Typed S .singular kt)
    (hkt : kt.isKey = true) : key.erase.stringify = .ok key.text := by
  have htext : ∀ s, key.erase.stringify = .ok s → key.erase.stringify = .ok key.text := by
    intro s hs
    simp [Traced.text, hs]
  have hnum : ∀ n, key.erase.IsNum n → key.erase.stringify = .ok key.text :=
    fun n hn => htext _ hn.stringify
  cases h with
  | @varint _ raw ht _ =>
      refine hnum (storedInt kt raw) ?_
      rw [Traced.erase]
      exact varintValue_isNum kt raw
  | fixed64 ht hlen ho =>
      rcases fixed64Value_cases ht hlen ho with ⟨rfl, -⟩ | ⟨n, -, hn⟩
      · simp [FieldType.isKey] at hkt
      · exact hnum n (by rwa [Traced.erase])
  | fixed32 ht hlen ho =>
      rcases fixed32Value_cases ht hlen ho with ⟨rfl, -⟩ | ⟨n, -, hn⟩
      · simp [FieldType.isKey] at hkt
      · exact hnum n (by rwa [Traced.erase])
  | @text _ s _ => exact htext s (by rw [Traced.erase]; rfl)
  | default =>
      cases kt <;> simp [FieldType.isKey] at hkt <;>
        simp [Traced.text, Traced.erase, defaultValue, Val.stringify]
  | msg => simp [FieldType.isKey] at hkt

/-! ### Storing -/

theorem Traced.Typed.repeated_inv {t : FieldType} {x : Traced} (h : x.Typed S .repeated t) :
    ∃ xs, x = .arr xs ∧ ∀ y ∈ xs, y.Typed S .singular t := by
  cases h with
  | @repeated _ xs h => exact ⟨xs, rfl, h⟩

theorem Traced.Typed.map_inv {c : String} {t : FieldType} {x : Traced}
    (h : x.Typed S (.map c) t) :
    ∃ kt vt es, x = .map es ∧ (S.descriptor c).fields = entryFields kt vt ∧ (Assoc.keys es).Nodup ∧
      ∀ k y, Assoc.find es k = some y → ∃ key value, y = .entry key value ∧ key.text = k ∧
        key.Typed S .singular kt ∧ value.Typed S .singular vt := by
  cases h with
  | @map _ _ kt vt es hentry hnd hpart hkey hvalue =>
      refine ⟨kt, vt, es, rfl, hentry, hnd, ?_⟩
      intro k y hy
      obtain ⟨key, value, rfl, htext⟩ := hpart k y hy
      exact ⟨key, value, rfl, htext, hkey k key value hy, hvalue k key value hy⟩

/-- A stored value has the shape of its field, if what was stored before has. -/
theorem Traced.Typed.stored {f : FieldDef} {x : Traced} {old : Option Traced}
    (hx : x.Typed S .singular f.type)
    (hmsg : ∀ c, f.type = .message c → ∃ fs u, x = .msg c fs u)
    (hold : ∀ y, old = some y → y.Typed S (f.shape S) f.type) :
    (x.stored S f old).Typed S (f.shape S) f.type := by
  cases hshape : f.shape S with
  | singular => simpa [Traced.stored, hshape] using hx
  | repeated =>
      simp only [Traced.stored, hshape]
      -- the elements so far, and one more
      have hitems : ∀ y ∈ (old.map Traced.items).getD [], y.Typed S .singular f.type := by
        intro y hy
        cases old with
        | none => cases hy
        | some z =>
            have hz := hold z rfl
            rw [hshape] at hz
            obtain ⟨xs, rfl, hxs⟩ := hz.repeated_inv
            exact hxs y hy
      refine .repeated ?_
      intro y hy
      rcases List.mem_append.mp hy with hy | hy
      · exact hitems y hy
      · obtain rfl := List.mem_singleton.mp hy
        exact hx
  | map c =>
      obtain ⟨htype, hmap⟩ := FieldDef.shape_map hshape
      obtain ⟨fs, u, rfl⟩ := hmsg c htype
      obtain ⟨kt, vt, hkt, hentry, hone, htwo⟩ := S.entry_fields hmap
      -- the entry message has its key and its value as its two parts
      have hinner : TracedMsg.Typed S ⟨c, fs, u⟩ := by rwa [htype] at hx
      have hkey := hinner.part (MessageDef.findFieldByNumber_eq_some.mp hone).1 rfl
      have hvalue := hinner.part (MessageDef.findFieldByNumber_eq_some.mp htwo).1 rfl
      have hes : (Assoc.keys ((old.map Traced.entries).getD [])).Nodup ∧
          ∀ k y, Assoc.find ((old.map Traced.entries).getD []) k = some y →
            ∃ key value, y = .entry key value ∧ key.text = k ∧ key.Typed S .singular kt ∧
              value.Typed S .singular vt := by
        cases old with
        | none => exact ⟨List.nodup_nil, fun _ _ hy => by cases hy⟩
        | some z =>
            have hz := hold z rfl
            rw [hshape] at hz
            obtain ⟨kt', vt', es, rfl, hentry', hnd, hes⟩ := hz.map_inv
            obtain ⟨hk, hv⟩ := entryFields_inj (hentry'.symm.trans hentry)
            subst hk hv
            exact ⟨hnd, hes⟩
      -- the new entry replaces the one under its key, the others stay
      have hall : ∀ k y, Assoc.find (Assoc.store ((old.map Traced.entries).getD [])
          (TracedMsg.part S ⟨c, fs, u⟩ (ps "key")).text
          (.entry (TracedMsg.part S ⟨c, fs, u⟩ (ps "key"))
            (TracedMsg.part S ⟨c, fs, u⟩ (ps "value")))) k = some y →
          ∃ key value, y = .entry key value ∧ key.text = k ∧ key.Typed S .singular kt ∧
            value.Typed S .singular vt := by
        intro k y hy
        rw [Assoc.find_store] at hy
        split at hy
        · rename_i hk
          obtain rfl := Option.some.inj hy
          exact ⟨_, _, rfl, hk.symm, hkey, hvalue⟩
        · exact hes.2 k y hy
      simp only [Traced.stored, hshape]
      refine .map hentry (Assoc.nodup_keys_store hes.1 _ _) ?_ ?_ ?_
      · intro k y hy
        obtain ⟨key, value, rfl, htext, -⟩ := hall k y hy
        exact ⟨key, value, rfl, htext⟩
      · intro k key value hy
        obtain ⟨key', value', heq, -, hk, -⟩ := hall k _ hy
        obtain ⟨rfl, rfl⟩ := Traced.entry.inj heq
        exact hk
      · intro k key value hy
        obtain ⟨key', value', heq, -, -, hv⟩ := hall k _ hy
        obtain ⟨rfl, rfl⟩ := Traced.entry.inj heq
        exact hv

theorem get_erase (S : Pool) (m : TracedMsg) (name : PerlStr) :
    (get S m.erase name).1 = (m.part S name).erase := by
  unfold get TracedMsg.part
  simp only [TracedMsg.erase, find_eraseEntries]
  cases Assoc.find m.fields name with
  | some x => rfl
  | none => simp only [Option.map_none, Option.getD_none, Traced.erase, get, Msg.create,
      Assoc.find_nil]; split <;> [rfl; (split <;> rfl)]

/-- Storing a traced value is storing the value. -/
theorem storedValue_erase {f : FieldDef} {x : Traced} {old : Option Traced}
    (hx : x.Typed S .singular f.type)
    (hmsg : ∀ c, f.type = .message c → ∃ fs u, x = .msg c fs u)
    (hold : ∀ y, old = some y → y.Typed S (f.shape S) f.type) :
    storedValue S f x.erase (old.map Traced.erase) = .ok (x.stored S f old).erase := by
  cases hshape : f.shape S with
  | singular => simp [storedValue, Traced.stored, hshape]
  | repeated =>
      simp only [storedValue, Traced.stored, hshape, Traced.erase, eraseList_eq_map]
      cases old with
      | none => rfl
      | some z =>
          have hz := hold z rfl
          rw [hshape] at hz
          obtain ⟨xs, rfl, -⟩ := hz.repeated_inv
          simp only [Option.map_some, Option.getD_some, Traced.erase, Traced.items,
            eraseList_eq_map, List.map_append]
          rfl
  | map c =>
      obtain ⟨htype, hmap⟩ := FieldDef.shape_map hshape
      obtain ⟨fs, u, rfl⟩ := hmsg c htype
      obtain ⟨kt, vt, hkt, hentry, hone, htwo⟩ := S.entry_fields hmap
      have hinner : TracedMsg.Typed S ⟨c, fs, u⟩ := by rwa [htype] at hx
      have hkey := (hinner.part (MessageDef.findFieldByNumber_eq_some.mp hone).1 rfl).text_eq hkt
      have hgetK := get_erase S ⟨c, fs, u⟩ (ps "key")
      have hgetV := get_erase S ⟨c, fs, u⟩ (ps "value")
      simp only [TracedMsg.erase] at hgetK hgetV
      simp only [storedValue, Traced.stored, hshape, Traced.erase, storeEntry, hgetK, hgetV, hkey,
        ok_bind, eraseEntries_store]
      cases old with
      | none => rfl
      | some z =>
          have hz := hold z rfl
          rw [hshape] at hz
          obtain ⟨kt', vt', es, rfl, -⟩ := hz.map_inv
          simp only [Option.map_some, Option.getD_some, Traced.erase, Traced.entries]
          rfl

/-- The two things a run needs to know about each turn that stores a value. -/
theorem TracedMsg.Typed.store {m : TracedMsg} (h : m.Typed S) {f : FieldDef}
    (hf : f ∈ (S.descriptor m.cls).fields) {x : Traced} (hx : x.Typed S .singular f.type)
    (hmsg : ∀ c, f.type = .message c → ∃ fs u, x = .msg c fs u) :
    (m.store S f x).Typed S ∧ storeField S f x.erase m.erase = .ok (m.store S f x).erase := by
  obtain ⟨hnd, hknown, hfield, hunknown⟩ := h.inv
  have hold : ∀ y, Assoc.find m.fields f.name = some y → y.Typed S (f.shape S) f.type :=
    hfield f hf
  constructor
  · refine .msg (Assoc.nodup_keys_store hnd _ _) ?_ ?_ hunknown
    · intro name hname
      rw [store_fields] at hname
      rcases Assoc.mem_keys_store.mp hname with rfl | hname
      · rw [store_cls, MessageDef.findFieldByName_eq_some.mpr ⟨hf, rfl⟩]
        simp
      · exact hknown name hname
    · intro g hg y hy
      rw [store_fields, Assoc.find_store] at hy
      split at hy
      · rename_i hname
        obtain rfl := MessageDef.eq_of_name_eq hg hf hname
        obtain rfl := Option.some.inj hy
        exact hx.stored hmsg hold
      · exact hfield g hg y hy
  · rw [storeField]
    simp only [TracedMsg.erase, find_eraseEntries]
    rw [storedValue_erase hx hmsg hold]
    simp [Except.map, TracedMsg.store, Msg.put, eraseEntries_store]

theorem TracedMsg.Typed.keepUnknown {m : TracedMsg} (h : m.Typed S) {raw : PerlStr}
    (hraw : UnknownFields (S.descriptor m.cls) raw) : (m.keepUnknown raw).Typed S := by
  obtain ⟨hnd, hknown, hfield, hunknown⟩ := h.inv
  exact .msg hnd hknown hfield (hunknown.append hraw)

end GooglePerl.Protobuf
