import GooglePerl.Lib.Utf8
import GooglePerl.Protobuf.RoundTrip

/-!
The encoding that the format asks for, and what `serialize` writes.

`reference S m` is the encoding of a message by the rules of the format: fields
in schema order, texts in UTF-8, every length in octets. `serialize` counts and
writes characters. The two are compared through `Outcome`: where a text is not
ASCII, `serialize` writes fewer characters than the format asks for octets, and
the lengths around it do not make up for that.
-/

namespace GooglePerl.Protobuf

open GooglePerl.Lib

/-! ### The reference encoding -/

namespace Reference

def int (t : FieldType) (n : ℤ) : PerlStr :=
  match t with
  | .fixed64 | .sfixed64 => leBytes 8 (n % 2 ^ 64).toNat
  | .fixed32 | .sfixed32 => leBytes 4 (n % 2 ^ 32).toNat
  | t => leb128 (t.canonical n)

def text (t : FieldType) (s : PerlStr) : PerlStr :=
  let octets := if t = .string then utf8Text s else s
  leb128 octets.length ++ octets

def scalar (t : FieldType) : Val → PerlStr
  | .iv n | .big n => int t n
  | .nv p => p
  | .str s => text t s
  | _ => []

/-- A map key, stored as its text. -/
def key (t : FieldType) (k : PerlStr) : PerlStr :=
  if t = .string then text t k else int t ((readDecimal k).getD 0)

/-- The fields of a message in schema order, then its unknown fields. -/
def message (d : MessageDef) (chunks : List (PerlStr × PerlStr)) (unknown : Option PerlStr) :
    PerlStr :=
  (d.fields.flatMap fun f => (Assoc.find chunks f.name).getD []) ++ unknown.getD []

mutual

def payload (S : Pool) (t : FieldType) : Val → PerlStr
  | .msg cls fields unknown =>
      let inner := message (S.descriptor cls) (chunks S (S.descriptor cls) fields) unknown
      leb128 inner.length ++ inner
  | v => scalar t v

def items (S : Pool) (number : ℕ) (t : FieldType) : List Val → PerlStr
  | [] => []
  | x :: xs => (tagBytes number t.wire ++ payload S t x) ++ items S number t xs

def entries (S : Pool) (number : ℕ) (kt vt : FieldType) : List (PerlStr × Val) → PerlStr
  | [] => []
  | (k, v) :: es =>
      let entry := (tagBytes 1 kt.wire ++ key kt k) ++ (tagBytes 2 vt.wire ++ payload S vt v)
      (tagBytes number 2 ++ (leb128 entry.length ++ entry)) ++ entries S number kt vt es

/-- The encoding of every stored value, under its name. -/
def chunks (S : Pool) (d : MessageDef) : List (PerlStr × Val) → List (PerlStr × PerlStr)
  | [] => []
  | (name, v) :: fields =>
      (name,
        match d.findFieldByName name with
        | none => []
        | some f =>
            match f.shape S, v with
            | .repeated, .arr _ xs => items S f.number f.type xs
            | .map c, .hash es =>
                match (S.descriptor c).fields with
                | [k, v] => entries S f.number k.type v.type es
                | _ => []
            | _, v => tagBytes f.number f.type.wire ++ payload S f.type v) ::
      chunks S d fields

end

/-- One field that is set. -/
def field (S : Pool) (f : FieldDef) (v : Val) : PerlStr :=
  match f.shape S, v with
  | .repeated, .arr _ xs => items S f.number f.type xs
  | .map c, .hash es =>
      match (S.descriptor c).fields with
      | [k, v] => entries S f.number k.type v.type es
      | _ => []
  | _, v => tagBytes f.number f.type.wire ++ payload S f.type v

end Reference

def reference (S : Pool) (m : Msg) : PerlStr :=
  Reference.message (S.descriptor m.cls) (Reference.chunks S (S.descriptor m.cls) m.fields)
    m.unknown

theorem Reference.find_chunks (S : Pool) (d : MessageDef) (fields : List (PerlStr × Val))
    {f : FieldDef} (hf : f ∈ d.fields) :
    Assoc.find (chunks S d fields) f.name = (Assoc.find fields f.name).map (field S f) := by
  induction fields with
  | nil => simp [chunks]
  | cons p fields ih =>
      obtain ⟨name, v⟩ := p
      rw [chunks, Assoc.find_cons, Assoc.find_cons, ih]
      split
      · rename_i hname
        subst hname
        rw [MessageDef.findFieldByName_eq_some.mpr ⟨hf, rfl⟩]
        rfl
      · rfl

/-- The fields in schema order, each looked up in the message. -/
theorem Reference.message_eq (S : Pool) (d : MessageDef) (fields : List (PerlStr × Val))
    (unknown : Option PerlStr) :
    message d (chunks S d fields) unknown =
      (d.fields.flatMap fun f => ((Assoc.find fields f.name).map (field S f)).getD []) ++
        unknown.getD [] := by
  rw [message, List.flatMap_congr fun f hf => by rw [find_chunks S d fields hf]]

/-! ### Comparing the two -/

theorem IsOctets.append {a b : PerlStr} (ha : IsOctets a) (hb : IsOctets b) :
    IsOctets (a ++ b) := by
  intro c hc
  rcases List.mem_append.mp hc with hc | hc
  · exact ha c hc
  · exact hb c hc

/-- A computation that dies if `bad`, writes fewer characters than `ref` has octets
if `wide`, and otherwise writes `ref`. -/
structure Outcome (bad wide : Prop) (r : Except Die PerlStr) (ref : PerlStr) : Prop where
  dies : bad → ∃ e, r = .error e
  writes : ¬ bad → ∃ p, r = .ok p ∧ (wide → p.length < ref.length) ∧ (¬ wide → p = ref)
  octets : IsOctets ref

namespace Outcome

variable {bad bad' wide wide' : Prop} {r r' : Except Die PerlStr} {ref ref' : PerlStr}

theorem congr (h : Outcome bad wide r ref) (hbad : bad' ↔ bad) (hwide : wide' ↔ wide) :
    Outcome bad' wide' r ref := by
  rwa [propext hbad, propext hwide]

theorem ok (h : r = .ok ref) (ho : IsOctets ref) : Outcome False False r ref :=
  ⟨False.elim, fun _ => ⟨ref, h, False.elim, fun _ => rfl⟩, ho⟩

theorem length_le (h : Outcome bad wide r ref) {p : PerlStr} (hp : r = .ok p) :
    p.length ≤ ref.length := by
  by_cases hbad : bad
  · obtain ⟨e, he⟩ := h.dies hbad
    cases he.symm.trans hp
  · obtain ⟨q, hq, hlt, heq⟩ := h.writes hbad
    obtain rfl := Except.ok.inj (hq.symm.trans hp)
    by_cases hwide : wide
    · exact (hlt hwide).le
    · rw [heq hwide]

/-- Only without either does the computation write the reference. -/
theorem eq_ok_iff (h : Outcome bad wide r ref) : r = .ok ref ↔ ¬ bad ∧ ¬ wide := by
  constructor
  · intro hr
    have hbad : ¬ bad := by
      intro hbad
      obtain ⟨e, he⟩ := h.dies hbad
      cases he.symm.trans hr
    refine ⟨hbad, fun hwide => ?_⟩
    obtain ⟨p, hp, hlt, -⟩ := h.writes hbad
    obtain rfl := Except.ok.inj (hp.symm.trans hr)
    exact (hlt hwide).false
  · rintro ⟨hbad, hwide⟩
    obtain ⟨p, hp, -, heq⟩ := h.writes hbad
    rw [hp, heq hwide]

theorem append (h : Outcome bad wide r ref) (h' : Outcome bad' wide' r' ref') :
    Outcome (bad ∨ bad') (wide ∨ wide') (do let a ← r; let b ← r'; return a ++ b)
      (ref ++ ref') := by
  refine ⟨?_, ?_, h.octets.append h'.octets⟩
  · intro hor
    by_cases hbad : bad
    · obtain ⟨e, he⟩ := h.dies hbad
      exact ⟨e, by rw [he]; rfl⟩
    · obtain ⟨p, hp, -⟩ := h.writes hbad
      obtain ⟨e, he⟩ := h'.dies (hor.resolve_left hbad)
      exact ⟨e, by rw [hp, he]; rfl⟩
  · intro hnor
    obtain ⟨p, hp, hlt, heq⟩ := h.writes fun hb => hnor (.inl hb)
    obtain ⟨p', hp', hlt', heq'⟩ := h'.writes fun hb => hnor (.inr hb)
    have hle := h.length_le hp
    have hle' := h'.length_le hp'
    refine ⟨p ++ p', by rw [hp, hp']; rfl, ?_, ?_⟩
    · rw [List.length_append, List.length_append]
      rintro (hw | hw)
      · have := hlt hw
        omega
      · have := hlt' hw
        omega
    · intro hw
      rw [heq fun h => hw (.inl h), heq' fun h => hw (.inr h)]

theorem map (h : Outcome bad wide r ref) {g : PerlStr → PerlStr}
    (hg : ∀ p, p.length < ref.length → (g p).length < (g ref).length) (ho : IsOctets (g ref)) :
    Outcome bad wide (r.map g) (g ref) := by
  refine ⟨?_, ?_, ho⟩
  · intro hbad
    obtain ⟨e, he⟩ := h.dies hbad
    exact ⟨e, by rw [he]; rfl⟩
  · intro hbad
    obtain ⟨p, hp, hlt, heq⟩ := h.writes hbad
    exact ⟨g p, by rw [hp]; rfl, fun hw => hg p (hlt hw), fun hw => by rw [heq hw]⟩

theorem tagged (h : Outcome bad wide r ref) (number : ℕ) {wire : ℕ} (hwire : wire < 8) :
    Outcome bad wide (Protobuf.tagged number wire r) (tagBytes number wire ++ ref) := by
  rw [tagged_eq hwire]
  exact h.map (fun p hp => by simpa using hp) (IsOctets.append (leb128_lt _) h.octets)

theorem lengthPrefixed (h : Outcome bad wide r ref) :
    Outcome bad wide (r >>= Protobuf.lengthPrefixed) (leb128 ref.length ++ ref) := by
  have hbind : r >>= Protobuf.lengthPrefixed = r.map fun p => leb128 p.length ++ p := by
    cases r with
    | error e => rfl
    | ok p => exact lengthPrefixed_eq p
  rw [hbind]
  refine h.map (g := fun p => leb128 p.length ++ p) (fun p hp => ?_)
    (IsOctets.append (leb128_lt _) h.octets)
  have hmono := leb128_length_mono hp.le
  simp only [List.length_append]
  omega

end Outcome

/-! ### Well-typed messages -/

/-- Integers in the range of their type, any code points in a text, octets in a
bytes field and in the unknown fields. -/
def unicodeLegal : Legality where
  int t n := t.inRange n
  text t s := if t = .string then ∀ c ∈ s, c < 0x110000 else IsOctets s
  message _ _ u := IsOctets (u.getD [])

/-- Some text in a string field or a map key, at any depth, is not ASCII. -/
inductive Wide (S : Pool) : Shape → FieldType → Val → Prop where
  | text {s : PerlStr} (h : ¬ IsAscii s) : Wide S .singular .string (.str s)
  | field {c cls : String} {fs : List (PerlStr × Val)} {u : Option PerlStr} {f : FieldDef} {v : Val}
      (hf : f ∈ (S.descriptor cls).fields) (hv : Assoc.find fs f.name = some v)
      (h : Wide S (f.shape S) f.type v) : Wide S .singular (.message c) (.msg cls fs u)
  | item {t : FieldType} {kind : ArrKind} {xs : List Val} {x : Val} (hx : x ∈ xs)
      (h : Wide S .singular t x) : Wide S .repeated t (.arr kind xs)
  | key {c : String} {t vt : FieldType} {es : List (PerlStr × Val)} {k : PerlStr}
      (hentry : (S.descriptor c).fields = entryFields .string vt) (hk : k ∈ Assoc.keys es)
      (h : ¬ IsAscii k) : Wide S (.map c) t (.hash es)
  | value {c : String} {t kt vt : FieldType} {es : List (PerlStr × Val)} {k : PerlStr} {v : Val}
      (hentry : (S.descriptor c).fields = entryFields kt vt) (hv : Assoc.find es k = some v)
      (h : Wide S .singular vt v) : Wide S (.map c) t (.hash es)

variable {S : Pool}

/-- `_encode_field` of an integer writes the octets the format has for it. -/
theorem encodeScalar_inRange {t : FieldType} {n : ℤ} (h : t.inRange n) {v : Val}
    (hv : v.bigInt = .ok (some n)) : encodeScalar t v = .ok (Reference.int t n) := by
  have hvarint : encodeScalar t v = encodeVarint (some (varintNumber t n)) →
      -2 ^ 64 ≤ varintNumber t n → varintOf (varintNumber t n) = t.canonical n →
      Reference.int t n = leb128 (t.canonical n) →
      encodeScalar t v = .ok (Reference.int t n) := by
    intro henc hlo hcanonical hint
    rw [henc, encodeVarint_some hlo, hcanonical, hint]
  cases t with
  | sint32 =>
      refine hvarint (by simp [encodeScalar, hv]) ?_ ?_ rfl <;>
        simp only [varintNumber, encodeZigzag32_eq h.1 h.2]
      · have := zigzag_nonneg n
        omega
      · simp [varintOf, FieldType.canonical, Int.not_lt.mpr (zigzag_nonneg n)]
  | sint64 =>
      refine hvarint (by simp [encodeScalar, hv]) ?_ ?_ rfl <;>
        simp only [varintNumber, encodeZigzag64_eq h.1 h.2]
      · have := zigzag_nonneg n
        omega
      · simp [varintOf, FieldType.canonical, Int.not_lt.mpr (zigzag_nonneg n)]
  | int32 | int64 | uint32 | uint64 | bool | enum e =>
      simp only [FieldType.inRange] at h
      exact hvarint (by simp [encodeScalar, hv]) (by simp only [varintNumber]; omega)
        (varintOf_eq_emod (n := n) (by omega) (by omega)) rfl
  | fixed64 | sfixed64 =>
      simp only [FieldType.inRange] at h
      simp [encodeScalar, hv, encodeFixed64_eq (n := n) (by omega) (by omega), Reference.int]
  | fixed32 | sfixed32 => simp [encodeScalar, hv, encodeFixed32_eq, Reference.int]
  | _ => exact h.elim

theorem Reference.int_octets (t : FieldType) (n : ℤ) : IsOctets (Reference.int t n) := by
  unfold Reference.int
  split
  · exact leBytes_lt _ _
  · exact leBytes_lt _ _
  · exact leBytes_lt _ _
  · exact leBytes_lt _ _
  · exact leb128_lt _

theorem outcome_text {t : FieldType} (ht : t = .string ∨ t = .bytes) {s : PerlStr}
    (hs : unicodeLegal.text t s) :
    Outcome False (t = .string ∧ ¬ IsAscii s) (encodeScalar t (.str s)) (Reference.text t s) := by
  have henc : encodeScalar t (.str s) = .ok (leb128 s.length ++ s) := by
    rcases ht with rfl | rfl <;> simp [encodeScalar, Val.stringify, lengthPrefixed_eq]
  refine ⟨False.elim, fun _ => ⟨_, henc, ?_, ?_⟩, IsOctets.append (leb128_lt _) ?_⟩
  · rintro ⟨rfl, hwide⟩
    have hlt := length_lt_utf8Text hwide
    have hmono := leb128_length_mono hlt.le
    simp only [Reference.text, if_true, List.length_append]
    omega
  · intro hnot
    unfold Reference.text
    split
    · next hstring =>
        have hascii : IsAscii s := by
          by_contra hwide
          exact hnot ⟨hstring, hwide⟩
        rw [utf8Text_of_ascii hascii]
    · rfl
  · unfold unicodeLegal at hs
    split
    · next hstring => exact utf8Text_lt (by simpa [hstring] using hs)
    · next hbytes => simpa [hbytes] using hs

theorem outcome_key {kt : FieldType} {k : PerlStr}
    (h : (kt = .string ∧ unicodeLegal.text kt k) ∨ ∃ n, unicodeLegal.int kt n ∧ k = decimalText n) :
    Outcome False (kt = .string ∧ ¬ IsAscii k) (encodeScalar kt (.str k)) (Reference.key kt k) := by
  rcases h with ⟨rfl, hk⟩ | ⟨n, hn, rfl⟩
  · exact outcome_text (.inl rfl) hk
  · have hne : kt ≠ .string := by
      rintro rfl
      exact hn
    have hkey : Reference.key kt (decimalText n) = Reference.int kt n := by
      simp [Reference.key, hne, readDecimal_decimalText]
    rw [hkey]
    refine (Outcome.ok (encodeScalar_inRange hn ?_) (Reference.int_octets kt n)).congr Iff.rfl
      (by simp [hne])
    simp [Val.bigInt, readDecimal_decimalText]

/-! ### Messages -/

theorem incomplete_msg_iff {cls : String} {fs : List (PerlStr × Val)} {u : Option PerlStr} :
    Incomplete S (.msg cls fs u) ↔ missingRequired (S.descriptor cls) fs ≠ [] ∨
      ∃ f ∈ (S.descriptor cls).fields, ∃ v, Assoc.find fs f.name = some v ∧ Incomplete S v := by
  constructor
  · rintro (h | ⟨hf, hv, h⟩)
    · exact .inl h
    · exact .inr ⟨_, hf, _, hv, h⟩
  · rintro (h | ⟨f, hf, v, hv, h⟩)
    · exact .missing h
    · exact .field hf hv h

theorem wide_msg_iff {c cls : String} {fs : List (PerlStr × Val)} {u : Option PerlStr} :
    Wide S .singular (.message c) (.msg cls fs u) ↔ ∃ f ∈ (S.descriptor cls).fields, ∃ v,
      Assoc.find fs f.name = some v ∧ Wide S (f.shape S) f.type v := by
  constructor
  · intro h
    cases h with
    | field hf hv h => exact ⟨_, hf, _, hv, h⟩
  · rintro ⟨f, hf, v, hv, h⟩
    exact .field hf hv h

theorem mapM_cons_flatten (g : FieldDef → Except Die PerlStr) (f : FieldDef) (fs : List FieldDef) :
    ((f :: fs).mapM g).map List.flatten =
      do let a ← g f; let b ← (fs.mapM g).map List.flatten; return a ++ b := by
  rw [List.mapM_cons]
  cases g f with
  | error e => rfl
  | ok p => cases fs.mapM g <;> rfl

theorem flatten_append_eq (r : Except Die (List PerlStr)) (u : PerlStr) :
    (do let parts ← r; return parts.flatten ++ u) =
      (do let a ← r.map List.flatten; let b ← .ok u; return a ++ b) := by
  cases r <;> rfl

/-- The loop over the descriptor's fields. -/
theorem outcome_fields {fields : List (PerlStr × Val)} {fs : List FieldDef}
    (h : ∀ f ∈ fs, ∀ v, Assoc.find fields f.name = some v →
      Outcome (Incomplete S v) (Wide S (f.shape S) f.type v) (serializeField S f v)
        (Reference.field S f v)) :
    Outcome (∃ f ∈ fs, ∃ v, Assoc.find fields f.name = some v ∧ Incomplete S v)
      (∃ f ∈ fs, ∃ v, Assoc.find fields f.name = some v ∧ Wide S (f.shape S) f.type v)
      ((fs.mapM fun f => ((Assoc.find fields f.name).map (serializeField S f)).getD (.ok [])).map
        List.flatten)
      (fs.flatMap fun f => ((Assoc.find fields f.name).map (Reference.field S f)).getD []) := by
  induction fs with
  | nil => exact (Outcome.ok rfl (by simp [IsOctets])).congr (by simp) (by simp)
  | cons f fs ih =>
      have hfirst : Outcome (∃ v, Assoc.find fields f.name = some v ∧ Incomplete S v)
          (∃ v, Assoc.find fields f.name = some v ∧ Wide S (f.shape S) f.type v)
          (((Assoc.find fields f.name).map (serializeField S f)).getD (.ok []))
          (((Assoc.find fields f.name).map (Reference.field S f)).getD []) := by
        cases hv : Assoc.find fields f.name with
        | none => exact (Outcome.ok rfl (by simp [IsOctets])).congr (by simp) (by simp)
        | some v => exact (h f List.mem_cons_self v hv).congr (by simp) (by simp)
      have hrest := ih fun g hg => h g (List.mem_cons_of_mem _ hg)
      rw [mapM_cons_flatten, List.flatMap_cons]
      exact (hfirst.append hrest).congr (by simp) (by simp)

/-- A whole message. -/
theorem outcome_serialize {c cls : String} {fs : List (PerlStr × Val)} {u : Option PerlStr}
    (h : ∀ f ∈ (S.descriptor cls).fields, ∀ v, Assoc.find fs f.name = some v →
      Outcome (Incomplete S v) (Wide S (f.shape S) f.type v) (serializeField S f v)
        (Reference.field S f v)) (hu : IsOctets (u.getD [])) :
    Outcome (Incomplete S (.msg cls fs u)) (Wide S .singular (.message c) (.msg cls fs u))
      (serialize S ⟨cls, fs, u⟩) (reference S ⟨cls, fs, u⟩) := by
  have hloop := (outcome_fields h).append (Outcome.ok (r := .ok (u.getD [])) rfl hu)
  rw [serialize_eq, reference, Reference.message_eq]
  by_cases hmissing : missingRequired (S.descriptor cls) fs ≠ []
  · rw [if_pos hmissing]
    exact ⟨fun _ => ⟨_, rfl⟩, fun hcomplete => absurd (.missing hmissing) hcomplete, hloop.octets⟩
  · rw [if_neg hmissing]
    rw [flatten_append_eq]
    refine hloop.congr ?_ ?_
    · rw [incomplete_msg_iff]
      simp [hmissing]
    · rw [wide_msg_iff]
      simp

/-! ### Fields -/

/-- The loop over the items of a repeated field. -/
theorem outcome_items {t : FieldType} {xs : List Val} (number : ℕ)
    (h : ∀ x ∈ xs, Outcome (Incomplete S x) (Wide S .singular t x) (encodePayload S t x)
      (Reference.payload S t x)) :
    Outcome (∃ x ∈ xs, Incomplete S x) (∃ x ∈ xs, Wide S .singular t x)
      (encodeItems S number t xs) (Reference.items S number t xs) := by
  induction xs with
  | nil =>
      rw [encodeItems, Reference.items]
      exact (Outcome.ok rfl (by simp [IsOctets])).congr (by simp) (by simp)
  | cons x xs ih =>
      have hfirst := (h x List.mem_cons_self).tagged number t.wire_lt
      have hrest := ih fun y hy => h y (List.mem_cons_of_mem _ hy)
      rw [encodeItems, Reference.items]
      exact (hfirst.append hrest).congr (by simp) (by simp)

theorem exists_entry_cons {P : PerlStr → Val → Prop} {k : PerlStr} {v : Val}
    {es : List (PerlStr × Val)} :
    (∃ k' v', (k', v') ∈ (k, v) :: es ∧ P k' v') ↔ P k v ∨ ∃ k' v', (k', v') ∈ es ∧ P k' v' := by
  constructor
  · rintro ⟨k', v', hmem, hP⟩
    rcases List.mem_cons.mp hmem with heq | hmem
    · obtain ⟨rfl, rfl⟩ := Prod.mk.inj heq
      exact .inl hP
    · exact .inr ⟨k', v', hmem, hP⟩
  · rintro (hP | ⟨k', v', hmem, hP⟩)
    · exact ⟨k, v, List.mem_cons_self, hP⟩
    · exact ⟨k', v', List.mem_cons_of_mem _ hmem, hP⟩

/-- The loop over the entries of a map field. -/
theorem outcome_entries {kt vt : FieldType} {es : List (PerlStr × Val)} (number : ℕ)
    (hkey : ∀ k ∈ Assoc.keys es,
      (kt = .string ∧ unicodeLegal.text kt k) ∨ ∃ n, unicodeLegal.int kt n ∧ k = decimalText n)
    (h : ∀ k v, (k, v) ∈ es → Outcome (Incomplete S v) (Wide S .singular vt v)
      (encodePayload S vt v) (Reference.payload S vt v)) :
    Outcome (∃ k v, (k, v) ∈ es ∧ Incomplete S v)
      (∃ k v, (k, v) ∈ es ∧ ((kt = .string ∧ ¬ IsAscii k) ∨ Wide S .singular vt v))
      (encodeEntries S number kt vt es) (Reference.entries S number kt vt es) := by
  induction es with
  | nil =>
      rw [encodeEntries, Reference.entries]
      exact (Outcome.ok rfl (by simp [IsOctets])).congr (by simp) (by simp)
  | cons p es ih =>
      obtain ⟨k, v⟩ := p
      have hk := (outcome_key (hkey k (by simp [Assoc.keys]))).tagged 1 kt.wire_lt
      have hv := (h k v List.mem_cons_self).tagged 2 vt.wire_lt
      have hfirst := (hk.append hv).lengthPrefixed.tagged number (show 2 < 8 by decide)
      have hrest := ih (fun k' hk' => hkey k' (Assoc.mem_keys_cons.mpr (.inr hk')))
        fun k' v' hmem => h k' v' (List.mem_cons_of_mem _ hmem)
      have henc : encodeEntries S number kt vt ((k, v) :: es) =
          (do
            let a ← tagged number 2 ((do
              let key ← tagged 1 kt.wire (encodeScalar kt (.str k))
              let val ← tagged 2 vt.wire (encodePayload S vt v)
              return key ++ val) >>= lengthPrefixed)
            let b ← encodeEntries S number kt vt es
            return a ++ b) := by
        rw [encodeEntries, tagged_eq (show 2 < 8 by decide)]
        cases tagged 1 kt.wire (encodeScalar kt (.str k)) with
        | error e => rfl
        | ok key =>
            cases tagged 2 vt.wire (encodePayload S vt v) with
            | error e => rfl
            | ok val => rw [ok_bind, ok_bind, tagged_eq (by decide)]; rfl
      rw [henc, Reference.entries]
      refine (hfirst.append hrest).congr ?_ ?_
      · rw [exists_entry_cons]
        simp
      · rw [exists_entry_cons]

theorem incomplete_arr_iff {kind : ArrKind} {xs : List Val} :
    Incomplete S (.arr kind xs) ↔ ∃ x ∈ xs, Incomplete S x := by
  constructor
  · rintro (_ | _ | ⟨hx, h⟩)
    exact ⟨_, hx, h⟩
  · rintro ⟨x, hx, h⟩
    exact .item hx h

theorem wide_arr_iff {t : FieldType} {kind : ArrKind} {xs : List Val} :
    Wide S .repeated t (.arr kind xs) ↔ ∃ x ∈ xs, Wide S .singular t x := by
  constructor
  · intro h
    cases h with
    | item hx h => exact ⟨_, hx, h⟩
  · rintro ⟨x, hx, h⟩
    exact .item hx h

theorem incomplete_hash_iff {es : List (PerlStr × Val)} (hnd : (Assoc.keys es).Nodup) :
    Incomplete S (.hash es) ↔ ∃ k v, (k, v) ∈ es ∧ Incomplete S v := by
  constructor
  · rintro (_ | _ | _ | ⟨hv, h⟩)
    exact ⟨_, _, Assoc.mem_of_find hv, h⟩
  · rintro ⟨k, v, hmem, h⟩
    exact .entry (Assoc.find_of_mem hnd hmem) h

theorem wide_hash_iff {c : String} {t kt vt : FieldType} {es : List (PerlStr × Val)}
    (hentry : (S.descriptor c).fields = entryFields kt vt) (hnd : (Assoc.keys es).Nodup) :
    Wide S (.map c) t (.hash es) ↔
      ∃ k v, (k, v) ∈ es ∧ ((kt = .string ∧ ¬ IsAscii k) ∨ Wide S .singular vt v) := by
  constructor
  · intro h
    cases h with
    | @key _ _ vt' _ k hentry' hk h =>
        obtain ⟨rfl, rfl⟩ := entryFields_inj (hentry'.symm.trans hentry)
        obtain ⟨⟨k', v⟩, hmem, rfl⟩ := List.mem_map.mp hk
        exact ⟨k', v, hmem, .inl ⟨rfl, h⟩⟩
    | @value _ _ kt' vt' _ k v hentry' hv h =>
        obtain ⟨rfl, rfl⟩ := entryFields_inj (hentry'.symm.trans hentry)
        exact ⟨k, v, Assoc.mem_of_find hv, .inr h⟩
  · rintro ⟨k, v, hmem, ⟨rfl, h⟩ | h⟩
    · exact .key hentry (List.mem_map_of_mem (f := Prod.fst) hmem) h
    · exact .value hentry (Assoc.find_of_mem hnd hmem) h

/-- What holds of a well-typed value of each shape, from what holds of the values
inside it. -/
def WrittenAs (S : Pool) : Shape → FieldType → Val → Prop
  | .singular, t, v => v ≠ .undef ∧ Outcome (Incomplete S v) (Wide S .singular t v)
      (encodePayload S t v) (Reference.payload S t v)
  | sh, t, v => ∀ f : FieldDef, f.type = t → f.shape S = sh →
      Outcome (Incomplete S v) (Wide S sh t v) (serializeField S f v) (Reference.field S f v)

theorem WrittenAs.field {f : FieldDef} {v : Val} (h : WrittenAs S (f.shape S) f.type v) :
    Outcome (Incomplete S v) (Wide S (f.shape S) f.type v) (serializeField S f v)
      (Reference.field S f v) := by
  cases hshape : f.shape S with
  | singular =>
      rw [hshape] at h
      have href : Reference.field S f v =
          tagBytes f.number f.type.wire ++ Reference.payload S f.type v := by
        simp [Reference.field, hshape]
      rw [serializeField_singular hshape h.1, href]
      exact h.2.tagged f.number f.type.wire_lt
  | repeated =>
      rw [hshape] at h
      exact h f rfl hshape
  | map c =>
      rw [hshape] at h
      exact h f rfl hshape

theorem Legal.writtenAs {sh : Shape} {t : FieldType} {v : Val} (h : Legal unicodeLegal S sh t v) :
    WrittenAs S sh t v := by
  induction h with
  | @int t n v h hv =>
      have hpayload : Reference.payload S t v = Reference.int t n := by
        rcases hv with rfl | rfl <;> simp [Reference.payload, Reference.scalar]
      have hcomplete : ¬ Incomplete S v := by
        rcases hv with rfl | rfl <;> rintro ⟨⟩
      have hnarrow : ¬ Wide S .singular t v := by
        rcases hv with rfl | rfl <;> rintro ⟨⟩
      refine ⟨by rcases hv with rfl | rfl <;> simp, ?_⟩
      rw [hv.encodePayload, hpayload]
      exact (Outcome.ok (encodeScalar_inRange h hv.bigInt) (Reference.int_octets t n)).congr
        (by simp [hcomplete]) (by simp [hnarrow])
  | @float t p h ho =>
      have hcomplete : ¬ Incomplete S (.nv p) := by rintro ⟨⟩
      have hnarrow : ¬ Wide S .singular t (.nv p) := by rintro ⟨⟩
      have href : Reference.payload S t (.nv p) = p := by
        simp [Reference.payload, Reference.scalar]
      refine ⟨by simp, ?_⟩
      rw [encodePayload, href]
      · exact (Outcome.ok (encodeScalar_float h).1 ho).congr (by simp [hcomplete])
          (by simp [hnarrow])
      · simp
  | @text t s ht h =>
      have hcomplete : ¬ Incomplete S (.str s) := by rintro ⟨⟩
      -- a string is written in characters, so that it goes wrong beyond ASCII
      have hwide : Wide S .singular t (.str s) ↔ t = .string ∧ ¬ IsAscii s := by
        constructor
        · intro hwide
          cases hwide with
          | text hwide => exact ⟨rfl, hwide⟩
        · rintro ⟨rfl, hwide⟩
          exact .text hwide
      refine ⟨by simp, ?_⟩
      rw [encodePayload]
      · simpa [Reference.payload, Reference.scalar] using
          (outcome_text ht h).congr (by simp [hcomplete]) hwide
      · simp
  | @msg cls fs u hnd hknown hfield hmsg ih =>
      have hmessage := outcome_serialize (c := cls) (fun f hf v hv => (ih f hf v hv).field) hmsg
      have href : Reference.payload S (.message cls) (.msg cls fs u) =
          leb128 (reference S ⟨cls, fs, u⟩).length ++ reference S ⟨cls, fs, u⟩ := by
        rw [Reference.payload, reference]
      rw [WrittenAs, encodePayload_msg, href]
      exact ⟨by simp, hmessage.lengthPrefixed⟩
  | @repeated t kind xs h ih =>
      intro f ht hshape
      subst ht
      have hitems := outcome_items (S := S) f.number fun x hx => (ih x hx).2
      have hser : serializeField S f (.arr kind xs) = encodeItems S f.number f.type xs := by
        simp [serializeField, hshape]
      have href : Reference.field S f (.arr kind xs) = Reference.items S f.number f.type xs := by
        simp [Reference.field, hshape]
      rw [hser, href]
      exact hitems.congr incomplete_arr_iff wide_arr_iff
  | @map c t kt vt es hentry hnd hkey h ih =>
      intro f ht hshape
      obtain ⟨kt', vt', -, hentry', hone, htwo⟩ := S.entry_fields (FieldDef.shape_map hshape).2
      obtain ⟨rfl, rfl⟩ := entryFields_inj (hentry'.symm.trans hentry)
      have hentries := outcome_entries (S := S) f.number hkey
        fun k v hmem => (ih k v (Assoc.find_of_mem hnd hmem)).2
      have hser : serializeField S f (.hash es) = encodeEntries S f.number kt' vt' es := by
        simp [serializeField, hshape, hone, htwo]
      have href : Reference.field S f (.hash es) = Reference.entries S f.number kt' vt' es := by
        simp [Reference.field, hshape, hentry, entryFields]
      rw [hser, href]
      exact hentries.congr (incomplete_hash_iff hnd) (wide_hash_iff hentry hnd)

/-- The message type `Simple` on its own, with a name. -/
def simpleMsg (name : PerlStr) : Msg := ⟨"Simple", [(ps "name", .str name)], none⟩

theorem simpleMsg_legal {name : PerlStr} (h : ∀ c ∈ name, c < 0x110000) :
    (simpleMsg name).Legal unicodeLegal hardening := by
  have hknown : ∀ n ∈ [ps "name"], (hardening.descriptor "Simple").findFieldByName n ≠ none := by
    decide
  refine .msg (List.nodup_singleton _) hknown ?_ (by simp [unicodeLegal, simpleMsg, IsOctets])
  intro f hf v hv
  obtain rfl : f = ⟨ps "name", 1, .string, .optional⟩ := List.mem_singleton.mp hf
  obtain rfl : Val.str name = v := Option.some.inj hv
  exact .text (.inl rfl) (by simpa [unicodeLegal] using h)

end GooglePerl.Protobuf
