import GooglePerl.Protobuf.RoundTrip

/-!
`Protobuf::WKT::Any`: a message inside a message.

An `Any` names the type of what is packed into it, and that name is all that `unpack` has to find
the class by. A message packed any number of times over comes out as it was, also when the
outermost `Any` has been on the wire in between (`unpackTimes_packTimes`).
-/

namespace GooglePerl.Wkt

open GooglePerl.Lib GooglePerl.Protobuf

/-! ### The generated pool -/

/-- The fields of `google.protobuf.Any`. -/
def anyFields : List FieldDef :=
  [⟨ps "type_url", 1, .string, .optional⟩, ⟨ps "value", 2, .bytes, .optional⟩]

/-- `generated_pool`: the full names of the message types, with their classes. -/
structure GeneratedPool (S : Pool) where
  types : List (PerlStr × String)
  names_nodup : (Assoc.keys types).Nodup
  classes_nodup : (types.map Prod.snd).Nodup
  /-- full names consist of identifiers and dots -/
  name_legal : ∀ e ∈ types, e.1 ≠ [] ∧ 47 ∉ e.1
  /-- the class of `google.protobuf.Any` -/
  anyClass : String
  any_mem : (ps "google.protobuf.Any", anyClass) ∈ types
  any_fields : (S.descriptor anyClass).fields = anyFields

namespace GeneratedPool

variable {S : Pool} (P : GeneratedPool S)

/-- `$class->descriptor->full_name` -/
def fullName (cls : String) : Except Die PerlStr :=
  match P.types.find? fun e => e.2 == cls with
  | some e => .ok e.1
  | none => .error (.fault (.noMethod "full_name"))

/-- `find_message_by_name`, and the `perl_class_name` of what it finds -/
def findMessageByName (name : PerlStr) : Option String := Assoc.find P.types name

end GeneratedPool

section

variable {S : Pool} (P : GeneratedPool S)

/-- `pack`: the URL is set before the message is serialized. -/
def pack (any msg : Msg) : Except Die Msg := do
  let fullName ← P.fullName msg.cls
  let any ← set S any (ps "type_url") (.str (ps "type.googleapis.com/" ++ fullName))
  let bytes ← serialize S msg
  set S any (ps "value") (.str bytes)

/-- `m{([^/]+)$}` -/
def afterSlash (url : PerlStr) : Option PerlStr :=
  let name := (url.reverse.takeWhile (· ≠ 47)).reverse
  if name = [] then none else some name

/-- `unpack`, with no class expected or a given one -/
def unpack (any : Msg) (expectedClass : Option String) : Except Die Msg := do
  let url ← (get S any (ps "type_url")).1.stringify
  let cls ← match expectedClass.filter fun cls => cls ≠ "" ∧ cls ≠ "0" with
    | some cls => .ok cls
    | none =>
        match (afterSlash url).bind P.findMessageByName with
        | some cls => .ok cls
        | none => .error (.croak (ps "Cannot unpack Any: type " ++ (afterSlash url).getD [] ++
            ps " not found in pool"))
  let bytes ← (get S any (ps "value")).1.stringify
  parse S cls bytes

/-- A message packed into a new `Any`, this into another, and so on. -/
def packTimes (msg : Msg) : ℕ → Except Die Msg
  | 0 => .ok msg
  | n + 1 => packTimes msg n >>= pack P (.create P.anyClass)

def unpackTimes (any : Msg) : ℕ → Except Die Msg
  | 0 => .ok any
  | n + 1 => unpack P any none >>= fun msg => unpackTimes msg n

end

/-! ### Names in URLs -/

theorem afterSlash_url {name : PerlStr} (hne : name ≠ []) (hslash : 47 ∉ name) (host : PerlStr) :
    afterSlash (host ++ 47 :: name) = some name := by
  have hall : ∀ c ∈ name.reverse, decide (c ≠ 47) = true := by
    intro c hc
    rw [decide_eq_true_iff]
    rintro rfl
    exact hslash (List.mem_reverse.mp hc)
  have htake : (host ++ 47 :: name).reverse.takeWhile (· ≠ 47) = name.reverse := by
    rw [List.reverse_append, List.reverse_cons, List.append_assoc, List.takeWhile_append_of_pos hall]
    simp
  rw [afterSlash]
  simp only [htake, List.reverse_reverse, if_neg hne]

section

variable {S : Pool} (P : GeneratedPool S)

theorem GeneratedPool.fullName_of_mem {name : PerlStr} {cls : String} (h : (name, cls) ∈ P.types) :
    P.fullName cls = .ok name := by
  have hfind : P.types.find? (fun e => e.2 == cls) = some (name, cls) := by
    cases hfound : P.types.find? fun e => e.2 == cls with
    | none => exact absurd (List.find?_eq_none.mp hfound _ h) (by simp)
    | some e =>
        have hcls : e.2 = cls := by simpa using List.find?_some hfound
        rw [List.inj_on_of_nodup_map P.classes_nodup (List.mem_of_find?_eq_some hfound) h hcls]
  rw [GeneratedPool.fullName, hfind]

theorem GeneratedPool.findMessageByName_of_mem {name : PerlStr} {cls : String}
    (h : (name, cls) ∈ P.types) : P.findMessageByName name = some cls :=
  Assoc.find_of_mem P.names_nodup h

/-! ### An Any -/

/-- An `Any` with both fields set. -/
def anyOf (url bytes : PerlStr) : Msg where
  cls := P.anyClass
  fields := [(ps "type_url", .str url), (ps "value", .str bytes)]
  unknown := none

/-- A text is stored as it is. -/
theorem set_text {m : Msg} {f : FieldDef} {s : PerlStr}
    (hf : (S.descriptor m.cls).findFieldByName f.name = some f) (hlabel : f.label = .optional)
    (htype : f.type = .string ∨ f.type = .bytes) :
    set S m f.name (.str s) = .ok (m.put f.name (.str s)) := by
  have hshape := FieldDef.shape_singular_of_optional (S := S) hlabel
  rw [Protobuf.set, hf]
  rcases htype with htype | htype <;>
    simp [resolveEnum, cloneForSet, hshape, htype, nativeIfFits]

theorem findFieldByName_any {f : FieldDef} (hf : f ∈ anyFields) :
    (S.descriptor P.anyClass).findFieldByName f.name = some f :=
  MessageDef.findFieldByName_eq_some.mpr ⟨P.any_fields ▸ hf, rfl⟩

/-- What packing makes. -/
theorem pack_create {msg : Msg} {name bytes : PerlStr} (hname : (name, msg.cls) ∈ P.types)
    (hbytes : serialize S msg = .ok bytes) :
    pack P (.create P.anyClass) msg = .ok (anyOf P (ps "type.googleapis.com/" ++ name) bytes) := by
  have hurl := set_text (S := S) (m := .create P.anyClass)
    (f := ⟨ps "type_url", 1, .string, .optional⟩) (s := ps "type.googleapis.com/" ++ name)
    (findFieldByName_any P (by simp [anyFields])) rfl (.inl rfl)
  have hvalue := set_text (S := S)
    (m := (Msg.create P.anyClass).put (ps "type_url") (.str (ps "type.googleapis.com/" ++ name)))
    (f := ⟨ps "value", 2, .bytes, .optional⟩) (s := bytes)
    (findFieldByName_any P (by simp [anyFields])) rfl (.inr rfl)
  rw [pack, P.fullName_of_mem hname, hbytes]
  show (set S _ _ _ >>= fun any => set S any _ _) = _
  rw [hurl]
  exact hvalue

/-- An `Any` travels as it is. -/
theorem anyOf_carries (url bytes : PerlStr) :
    Carries S S .singular (.message P.anyClass) (anyOf P url bytes).toVal
      (anyOf P url bytes).toVal := by
  refine .msg (fun _ _ => rfl) ?_ .nil
    (show parse S P.anyClass [] = .ok (.create P.anyClass) from rfl) ?_ rfl
  · intro f hf v v' hv hv'
    obtain rfl := Option.some.inj (hv.symm.trans hv')
    rw [P.any_fields] at hf
    rcases List.mem_pair.mp hf with rfl | rfl
    · obtain rfl := Option.some.inj hv
      exact .text (.inl rfl)
    · obtain rfl := Option.some.inj hv
      exact .text (.inr rfl)
  · intro name hname
    have hne : ∀ f ∈ anyFields, f.name ≠ name := P.any_fields ▸
      MessageDef.findFieldByName_eq_none.mp hname
    refine fieldContent_of_not_mem fun hmem => ?_
    rcases List.mem_pair.mp hmem with rfl | rfl
    · exact hne ⟨ps "type_url", 1, .string, .optional⟩ (by simp [anyFields]) rfl
    · exact hne ⟨ps "value", 2, .bytes, .optional⟩ (by simp [anyFields]) rfl

theorem anyOf_complete (url bytes : PerlStr) : ¬ Incomplete S (anyOf P url bytes).toVal := by
  have hfields : (S.descriptor (anyOf P url bytes).cls).fields = anyFields := P.any_fields
  rintro (hmissing | ⟨hf, hv, hinner⟩)
  · rw [missingRequired, hfields] at hmissing
    exact hmissing rfl
  · rw [hfields] at hf
    rcases List.mem_pair.mp hf with rfl | rfl
    · obtain rfl := Option.some.inj hv
      cases hinner
    · obtain rfl := Option.some.inj hv
      cases hinner

/-- A text field on the wire. -/
theorem serializeField_text {f : FieldDef} {s : PerlStr} (hlabel : f.label = .optional)
    (htype : f.type = .string ∨ f.type = .bytes) :
    serializeField S f (.str s) =
      .ok (leb128 ((f.number <<< 3) ||| 2) ++ (leb128 s.length ++ s)) := by
  have hshape := FieldDef.shape_singular_of_optional (S := S) hlabel
  have hpayload : encodePayload S f.type (.str s) = .ok (leb128 s.length ++ s) := by
    rcases htype with htype | htype <;>
      simp [htype, encodePayload, encodeScalar, Val.stringify, lengthPrefixed, encodeVarint_nat,
        bind, Except.bind, pure, Except.pure]
  have hwire : f.type.wire = 2 := by rcases htype with htype | htype <;> rw [htype] <;> rfl
  simp only [serializeField, hshape]
  simp [tagged, hpayload, hwire, encodeVarint_nat, bind, Except.bind, pure, Except.pure]

/-- What is packed is part of what is sent. -/
theorem length_le_of_serialize {url bytes outer : PerlStr}
    (h : serialize S (anyOf P url bytes) = .ok outer) : bytes.length ≤ outer.length := by
  have hfields : (S.descriptor (anyOf P url bytes).cls).fields = anyFields := P.any_fields
  have hmissing : missingRequired (S.descriptor (anyOf P url bytes).cls)
      (anyOf P url bytes).fields = [] := by
    rw [missingRequired, hfields]
    rfl
  have hfind : ∀ f ∈ anyFields, ∀ s, Assoc.find (anyOf P url bytes).fields f.name = some (.str s) →
      ((Assoc.find (anyOf P url bytes).fields f.name).map (serializeField S f)).getD (.ok []) =
        .ok (leb128 ((f.number <<< 3) ||| 2) ++ (leb128 s.length ++ s)) := by
    intro f hf s hs
    rw [hs]
    rcases List.mem_pair.mp hf with rfl | rfl
    · exact serializeField_text (f := ⟨ps "type_url", 1, .string, .optional⟩) rfl (.inl rfl)
    · exact serializeField_text (f := ⟨ps "value", 2, .bytes, .optional⟩) rfl (.inr rfl)
  have hurl := hfind ⟨ps "type_url", 1, .string, .optional⟩ (by simp [anyFields]) url rfl
  have hvalue := hfind ⟨ps "value", 2, .bytes, .optional⟩ (by simp [anyFields]) bytes rfl
  have hparts : (anyFields.mapM fun f =>
      ((Assoc.find (anyOf P url bytes).fields f.name).map (serializeField S f)).getD (.ok [])) =
      .ok [leb128 10 ++ (leb128 url.length ++ url), leb128 18 ++ (leb128 bytes.length ++ bytes)] := by
    rw [anyFields, List.mapM_cons, List.mapM_cons, List.mapM_nil, hurl, hvalue]
    rfl
  rw [serialize_eq, hmissing, if_neg (by simp), hfields, hparts] at h
  obtain rfl := Except.ok.inj h
  simp only [List.flatten_cons, List.flatten_nil, List.append_nil, List.length_append]
  omega

/-! ### In and out again -/

theorem content_eq_str {v : Val} {s : PerlStr} : v.content = .str s ↔ v = .str s := by
  constructor
  · intro h
    cases v <;> simp_all [Val.content]
  · rintro rfl
    rw [content_str]

/-- What says the same as an `Any` is unpacked as it is. -/
theorem unpack_of_content {a : Msg} {name bytes : PerlStr} {cls : String}
    (hname : (name, cls) ∈ P.types)
    (ha : a.content = (anyOf P (ps "type.googleapis.com/" ++ name) bytes).content) :
    unpack P a none = parse S cls bytes := by
  have hfield : ∀ (key s : PerlStr),
      Assoc.find (anyOf P (ps "type.googleapis.com/" ++ name) bytes).fields key = some (.str s) →
      (get S a key).1 = .str s := by
    intro key s hs
    rw [Msg.content_eq, Msg.content_eq] at ha
    have hcontent : fieldContent a.fields key = some (.str s) := by
      rw [congrFun (Content.msg.inj ha).2.1 key, fieldContent, hs]
      simp [Val.isEmptyContainer]
    rw [fieldContent] at hcontent
    split at hcontent
    · cases hcontent
    · obtain ⟨v, hv, hvs⟩ := Option.map_eq_some_iff.mp hcontent
      rw [Protobuf.get, hv]
      exact content_eq_str.mp hvs
  have hurl := hfield (ps "type_url") _ rfl
  have hvalue := hfield (ps "value") bytes rfl
  obtain ⟨hne, hslash⟩ := P.name_legal _ hname
  have hslashed : ps "type.googleapis.com/" = ps "type.googleapis.com" ++ [47] := by decide
  have hafter : afterSlash (ps "type.googleapis.com/" ++ name) = some name := by
    rw [hslashed, List.append_assoc]
    exact afterSlash_url hne hslash (ps "type.googleapis.com")
  rw [unpack, hurl, hvalue]
  simp only [Val.stringify, Option.filter, bind, Except.bind]
  rw [hafter]
  simp only [Option.bind, P.findMessageByName_of_mem hname]

/-- A message that can be sent, and from whose copy another can be unpacked. -/
structure Sendable (msg : Msg) (n : ℕ) (any : Msg) : Prop where
  known : ∃ name, (name, any.cls) ∈ P.types
  carries : Carries S S .singular (.message any.cls) any.toVal any.toVal
  complete : ¬ Incomplete S any.toVal
  unpacked : ∀ bytes, serialize S any = .ok bytes → Fits bytes →
    ∀ received : Msg, received.content = any.content →
      ∃ msg', unpackTimes P received n = .ok msg' ∧ msg'.content = msg.content

theorem Sendable.pack {msg any : Msg} {n : ℕ} (h : Sendable P msg n any) :
    ∃ any', Wkt.pack P (.create P.anyClass) any = .ok any' ∧ Sendable P msg (n + 1) any' := by
  obtain ⟨name, hname⟩ := h.known
  obtain ⟨bytes, hbytes, hreread⟩ := h.carries.reread (Extends.refl S) rfl h.complete
  refine ⟨_, pack_create P hname hbytes, ⟨_, P.any_mem⟩, anyOf_carries P _ _, anyOf_complete P _ _,
    fun outer houter hfits received hreceived => ?_⟩
  have hinner : Fits bytes := lt_of_le_of_lt (length_le_of_serialize P houter) hfits
  obtain ⟨any', hparse, hcontent⟩ := hreread hinner
  obtain ⟨msg', hunpack, hmsg⟩ := h.unpacked bytes hbytes hinner any' hcontent
  refine ⟨msg', ?_, hmsg⟩
  rw [unpackTimes, unpack_of_content P hname hreceived, hparse]
  exact hunpack

theorem sendable_packTimes {msg : Msg} {name : PerlStr} (hname : (name, msg.cls) ∈ P.types)
    (hlegal : msg.Legal wireLegal S) (n : ℕ) :
    ∃ any, packTimes P msg n = .ok any ∧ Sendable P msg n any := by
  induction n with
  | zero =>
      refine ⟨msg, rfl, ⟨name, hname⟩, ?_, ?_, fun _ _ _ received h => ⟨received, rfl, h⟩⟩
      · exact Legal.carries (L := wireLegal)
          (fun _ _ hn => FieldType.rereads_of_inRange hn.1 hn.2) (fun _ _ _ hm => hm.2) hlegal
      · exact Legal.complete (L := wireLegal) (fun _ _ _ hm => hm.1) hlegal
  | succ n ih =>
      obtain ⟨any, hpack, hsendable⟩ := ih
      obtain ⟨any', hpack', hsendable'⟩ := hsendable.pack
      refine ⟨any', ?_, hsendable'⟩
      rw [packTimes, hpack]
      exact hpack'

end

def anyDef : MessageDef := { fields := anyFields }

/-- `google.protobuf.Any` beside the `Simple` of the tests. -/
def withAny : Pool where
  descriptor cls := if cls = "Google::Protobuf::Any" then anyDef else simpleDef

def withAnyTypes : GeneratedPool withAny where
  types := [(ps "google.protobuf.Any", "Google::Protobuf::Any"), (ps "pkg.Simple", "Pkg::Simple")]
  names_nodup := by decide
  classes_nodup := by decide
  name_legal := by decide
  anyClass := "Google::Protobuf::Any"
  any_mem := List.mem_cons_self
  any_fields := rfl

/-- A `Simple` with a name. -/
def named : Msg := ⟨"Pkg::Simple", [(ps "name", .str (ps "s"))], none⟩

theorem named_legal : named.Legal wireLegal withAny := by
  have hknown : withAny.descriptor named.cls = simpleDef := rfl
  refine .msg (List.nodup_singleton _) ?_ ?_ ⟨rfl, .nil⟩
  · intro name hname
    rw [List.mem_singleton.mp hname, hknown]
    decide
  · intro f hf v hv
    rw [hknown] at hf
    obtain rfl := List.mem_singleton.mp hf
    obtain rfl := Option.some.inj hv
    exact .text (.inl rfl) (by decide : IsOctets (ps "s"))

end GooglePerl.Wkt
