import GooglePerl.Protobuf.Carry

/-!
Legal messages, and their round trip through `serialize` and `parse`.

`Legal L S shape t v` says that `v` is a well-formed value of a field of the
given shape and type; which integers, texts and unknown bytes are admitted is
a parameter. `wireLegal` admits what the declared types allow, except that enum
numbers are not negative.
-/

namespace GooglePerl.Protobuf

open GooglePerl.Lib

structure Legality where
  int : FieldType → ℤ → Prop
  text : FieldType → PerlStr → Prop
  /-- what a message must satisfy besides having legal values in its fields -/
  message : MessageDef → List (PerlStr × Val) → Option PerlStr → Prop

inductive Legal (L : Legality) (S : Pool) : Shape → FieldType → Val → Prop where
  | int {t : FieldType} {n : ℤ} {v : Val} (h : L.int t n) (hv : v.IsNum n) :
      Legal L S .singular t v
  | float {t : FieldType} {p : PerlStr}
      (h : (t = .double ∧ p.length = 8) ∨ (t = .float ∧ p.length = 4)) (ho : IsOctets p) :
      Legal L S .singular t (.nv p)
  | text {t : FieldType} {s : PerlStr} (ht : t = .string ∨ t = .bytes) (h : L.text t s) :
      Legal L S .singular t (.str s)
  | msg {cls : String} {fs : List (PerlStr × Val)} {u : Option PerlStr}
      (hnd : (Assoc.keys fs).Nodup)
      (hknown : ∀ name ∈ Assoc.keys fs, (S.descriptor cls).findFieldByName name ≠ none)
      (hfield : ∀ f ∈ (S.descriptor cls).fields, ∀ v, Assoc.find fs f.name = some v →
        Legal L S (f.shape S) f.type v)
      (hmsg : L.message (S.descriptor cls) fs u) :
      Legal L S .singular (.message cls) (.msg cls fs u)
  | repeated {t : FieldType} {kind : ArrKind} {xs : List Val}
      (h : ∀ x ∈ xs, Legal L S .singular t x) : Legal L S .repeated t (.arr kind xs)
  | map {c : String} {t kt vt : FieldType} {es : List (PerlStr × Val)}
      (hentry : (S.descriptor c).fields = entryFields kt vt) (hnd : (Assoc.keys es).Nodup)
      (hkey : ∀ k ∈ Assoc.keys es,
        (kt = .string ∧ L.text kt k) ∨ ∃ n, L.int kt n ∧ k = decimalText n)
      (h : ∀ k v, Assoc.find es k = some v → Legal L S .singular vt v) :
      Legal L S (.map c) t (.hash es)

def Msg.Legal (L : Legality) (S : Pool) (m : Msg) : Prop :=
  Protobuf.Legal L S .singular (.message m.cls) m.toVal

/-- Integers in the range of their type and not negative as enum numbers, octet
strings, no required field missing, well-formed unknown bytes. -/
def wireLegal : Legality where
  int t n := t.inRange n ∧ ∀ e, t = .enum e → 0 ≤ n
  text _ s := IsOctets s
  message d fs u := missingRequired d fs = [] ∧ UnknownFields d (u.getD [])

/-- A parser with the sender's own descriptors keeps the unknown bytes. -/
theorem parse_unknownFields {S : Pool} {cls : String} {u : PerlStr}
    (h : UnknownFields (S.descriptor cls) u) :
    ∃ extra, parse S cls u = .ok extra ∧ extra.fields = [] ∧ extra.unknown.getD [] = u := by
  obtain ⟨extra, hrun, -, hfields, hunknown⟩ := parseInto_unknownFields (m := .create cls) h rfl
  exact ⟨extra, parse_eq_ok.mpr hrun, hfields, by simpa using hunknown⟩

theorem fieldContent_of_not_mem {fs : List (PerlStr × Val)} {name : PerlStr}
    (h : name ∉ Assoc.keys fs) : fieldContent fs name = none := by
  rw [fieldContent_eq, Assoc.find_eq_none_iff.mpr h]
  rfl

/-- A legal value arrives as it is. -/
theorem Legal.carries {L : Legality} {S : Pool} (hint : ∀ t n, L.int t n → t.rereads n)
    (hmessage : ∀ d fs u, L.message d fs u → UnknownFields d (u.getD []))
    {sh : Shape} {t : FieldType} {v : Val} (h : Legal L S sh t v) : Carries S S sh t v v := by
  induction h with
  | int h hv => exact .int (hint _ _ h) hv hv
  | float h _ => exact .float h
  | text ht _ => exact .text ht
  | @msg cls fs u hnd hknown hfield hmsg ih =>
      have hunknown := hmessage _ _ _ hmsg
      obtain ⟨extra, hextra, hempty, hrest⟩ := parse_unknownFields hunknown
      refine .msg (fun _ _ => rfl) ?_ hunknown hextra ?_ hrest.symm
      · intro f hf v v' hv hv'
        obtain rfl := Option.some.inj (hv.symm.trans hv')
        exact ih f hf v hv
      · intro name hname
        rw [hempty, fieldContent_of_not_mem fun hmem => hknown name hmem hname]
        rfl
  | @repeated t kind xs h ih =>
      refine .repeated rfl ?_
      intro x x' hx
      obtain ⟨i, hi, heq⟩ := List.mem_iff_getElem.mp hx
      rw [List.getElem_zip] at heq
      obtain ⟨rfl, rfl⟩ := Prod.mk.inj heq
      exact ih _ (List.getElem_mem _)
  | @map c t kt vt es hentry hnd hkey h ih =>
      refine .map hentry hnd (fun _ => rfl) ?_ ?_
      · intro k hk
        rcases hkey k hk with ⟨rfl, -⟩ | ⟨n, hn, rfl⟩
        · exact .inl rfl
        · exact .inr ⟨n, hint _ _ hn, rfl⟩
      · intro k v v' hv hv'
        obtain rfl := Option.some.inj (hv.symm.trans hv')
        exact ih k v hv

theorem Legal.complete {L : Legality} {S : Pool}
    (hmessage : ∀ d fs u, L.message d fs u → missingRequired d fs = [])
    {sh : Shape} {t : FieldType} {v : Val} (h : Legal L S sh t v) : ¬ Incomplete S v := by
  induction h with
  | int _ hv => rcases hv with rfl | rfl <;> rintro ⟨⟩
  | float _ _ => rintro ⟨⟩
  | text _ _ => rintro ⟨⟩
  | msg _ _ _ hmsg ih =>
      rintro (hmissing | ⟨hf, hv, hinner⟩)
      · exact hmissing (hmessage _ _ _ hmsg)
      · exact ih _ hf _ hv hinner
  | repeated _ ih =>
      rintro (_ | _ | ⟨hx, hinner⟩)
      exact ih _ hx hinner
  | map _ _ _ _ ih =>
      rintro (_ | _ | _ | ⟨hv, hinner⟩)
      exact ih _ _ hv hinner

/-- What is legal, and written in numbers that read back, is read back as it is. -/
theorem Msg.Legal.reread {L : Legality} {S : Pool} {m : Msg} (h : m.Legal L S)
    (hint : ∀ t n, L.int t n → t.rereads n)
    (hmessage : ∀ d fs u, L.message d fs u →
      missingRequired d fs = [] ∧ UnknownFields d (u.getD [])) :
    ∃ bytes, serialize S m = .ok bytes ∧
      (Fits bytes → ∃ m', parse S m.cls bytes = .ok m' ∧ m'.content = m.content) :=
  (Legal.carries hint (fun d fs u hm => (hmessage d fs u hm).2) h).reread (Extends.refl S) rfl
    (Legal.complete (fun d fs u hm => (hmessage d fs u hm).1) h)

theorem wireLegal_rereads (t : FieldType) (n : ℤ) (h : wireLegal.int t n) : t.rereads n :=
  FieldType.rereads_of_inRange h.1 h.2

def simpleDef : MessageDef := { fields := [⟨ps "name", 1, .string, .optional⟩] }

def mapSimpleEntryDef : MessageDef where
  fields := entryFields .string (.message "Simple")
  mapEntry := true
  entry_shape := fun _ => ⟨.string, .message "Simple", rfl, rfl⟩

/-- The message types of `t/proto/hardening.proto`. -/
def hardening : Pool where
  descriptor cls :=
    if cls = "Simple" then simpleDef
    else if cls = "Complex.MapSimpleEntry" then mapSimpleEntryDef
    else
      { fields := [⟨ps "simple", 1, .message "Simple", .optional⟩,
          ⟨ps "rep_simple", 2, .message "Simple", .repeated⟩,
          ⟨ps "map_simple", 3, .message "Complex.MapSimpleEntry", .repeated⟩] }

/-- A `Simple` with a name and an unknown varint field 9. -/
def simple (name : PerlStr) : Val := .msg "Simple" [(ps "name", .str name)] (some [72, 1])

/-- A `Complex` with all its fields set. -/
def complex : Msg where
  cls := "Complex"
  fields := [(ps "map_simple", .hash [(ps "k", simple (ps "v")), (ps "j", simple (ps "w"))]),
    (ps "simple", simple (ps "s")), (ps "rep_simple", .arr .blessed [simple [], simple (ps "r")])]
  unknown := none

theorem simple_legal {name : PerlStr} (h : IsOctets name) :
    Legal wireLegal hardening .singular (.message "Simple") (simple name) := by
  have hunknown : UnknownFields (hardening.descriptor "Simple") [72, 1] :=
    .cons (show decodeVarint [72, 1] = .ok (72, [1]) by decide) (by decide)
      (show skipField [1] (72 &&& 7) = .ok [] by decide) .nil
  have hknown : ∀ n ∈ [ps "name"], (hardening.descriptor "Simple").findFieldByName n ≠ none := by
    decide
  refine .msg (List.nodup_singleton _) hknown ?_ ⟨rfl, hunknown⟩
  intro f hf v hv
  obtain rfl : f = ⟨ps "name", 1, .string, .optional⟩ := List.mem_singleton.mp hf
  obtain rfl : Val.str name = v := Option.some.inj hv
  exact .text (.inl rfl) h

theorem complex_legal : complex.Legal wireLegal hardening := by
  refine .msg (by decide) (by decide) ?_ ⟨by decide, .nil⟩
  intro f hf v hv
  rcases List.mem_cons.mp hf with rfl | hf
  · obtain rfl : simple (ps "s") = v := Option.some.inj hv
    exact simple_legal (by decide)
  rcases List.mem_cons.mp hf with rfl | hf
  · obtain rfl : Val.arr .blessed [simple [], simple (ps "r")] = v := Option.some.inj hv
    refine .repeated ?_
    intro x hx
    rcases List.mem_pair.mp hx with rfl | rfl
    · exact simple_legal (by decide)
    · exact simple_legal (by decide)
  · obtain rfl : f = ⟨ps "map_simple", 3, .message "Complex.MapSimpleEntry", .repeated⟩ :=
      List.mem_singleton.mp hf
    obtain rfl : Val.hash [(ps "k", simple (ps "v")), (ps "j", simple (ps "w"))] = v :=
      Option.some.inj hv
    refine .map (show (hardening.descriptor "Complex.MapSimpleEntry").fields =
      entryFields .string (.message "Simple") from rfl) (by decide) ?_ ?_
    · intro k hk
      refine .inl ⟨rfl, ?_⟩
      rcases List.mem_pair.mp hk with rfl | rfl
      · exact (by decide : IsOctets (ps "k"))
      · exact (by decide : IsOctets (ps "j"))
    · intro k v hv
      rcases List.mem_pair.mp (Assoc.mem_of_find hv) with heq | heq
      · obtain ⟨rfl, rfl⟩ := Prod.mk.inj heq
        exact simple_legal (by decide)
      · obtain ⟨rfl, rfl⟩ := Prod.mk.inj heq
        exact simple_legal (by decide)

end GooglePerl.Protobuf
