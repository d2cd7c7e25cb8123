import GooglePerl.Protobuf.Accepted

/-!
Known fields that occur with another wire type than their declared one.

`_decode_field` goes by the wire type alone, so such an occurrence is decoded as
some value and stored. `MismatchSafe` says that it is not: the parse dies, or
every turn of the loop that meets such an occurrence keeps it with the unknown
fields. `mismatchSafe_iff` says for which inputs that is so.
-/

namespace GooglePerl.Protobuf

open GooglePerl.Lib

/-- Neither the declared wire type nor the packed form of a repeated scalar. -/
def FieldDef.Mismatch (f : FieldDef) (wire : ℕ) : Prop :=
  wire ≠ f.type.wire ∧ ¬ (f.label = .repeated ∧ f.type.wire ≠ 2 ∧ wire = 2)

/-- The turns of the loop in parsing `b`, at any depth: the unread characters and
the message they are parsed into. -/
inductive Turn (S : Pool) (cls : String) (b : PerlStr) : PerlStr → Msg → Prop where
  | start : Turn S cls b b (.create cls)
  | next {data rest : PerlStr} {m m' : Msg} (h : Turn S cls b data m)
      (hstep : parseStep S (parse S) data m = .ok (m', rest)) : Turn S cls b rest m'
  | enter {c : String} {data afterTag r : PerlStr} {tagWire len : ℕ} {f : FieldDef} {m : Msg}
      (h : Turn S cls b data m) (hread : decodeVarint data = .ok (tagWire, afterTag))
      (hfind : (S.descriptor m.cls).findFieldByNumber (tagWire >>> 3) = some f)
      (hwire : tagWire &&& 7 = 2) (htype : f.type = .message c)
      (hlen : decodeVarint afterTag = .ok (len, r)) (hle : len ≤ r.length) :
      Turn S cls b (r.take len) (.create c)

/-- The turn keeps the field at hand, tag and payload, with the unknown fields. -/
def Keeps (S : Pool) (data : PerlStr) (m : Msg) : Prop :=
  ∃ tagWire afterTag rest, decodeVarint data = .ok (tagWire, afterTag) ∧
    skipField afterTag (tagWire &&& 7) = .ok rest ∧
    parseStep S (parse S) data m =
      .ok (m.keepUnknown (data.take (data.length - rest.length)), rest)

def MismatchSafe (S : Pool) (cls : String) (b : PerlStr) : Prop :=
  (∃ e, parse S cls b = .error e) ∨
    ∀ data m tagWire afterTag f, Turn S cls b data m →
      decodeVarint data = .ok (tagWire, afterTag) →
      (S.descriptor m.cls).findFieldByNumber (tagWire >>> 3) = some f → f.Mismatch (tagWire &&& 7) →
      Keeps S data m

variable {S : Pool} {cls : String} {b : PerlStr}

/-- The parser keeps no field that it knows. -/
theorem not_keeps_of_known {data afterTag : PerlStr} {m : Msg} {tagWire : ℕ} {f : FieldDef}
    (hread : decodeVarint data = .ok (tagWire, afterTag))
    (hfind : (S.descriptor m.cls).findFieldByNumber (tagWire >>> 3) = some f) :
    ¬ Keeps S data m := by
  rintro ⟨tagWire', afterTag', rest, -, -, hstep⟩
  have hshort := parseStep_length hstep
  obtain ⟨tagWire₁, afterTag₁, hread₁, hcase⟩ := parseStep_cases hstep
  obtain ⟨rfl, rfl⟩ := Prod.mk.inj (Except.ok.inj (hread.symm.trans hread₁))
  rcases hcase with ⟨hnone, -, -⟩ | ⟨g, v, -, -, hstore⟩
  · cases hfind.symm.trans hnone
  · obtain ⟨x, -, hput⟩ := map_eq_ok.mp hstore
    have hunknown := congrArg (fun m : Msg => (m.unknown.getD []).length) hput
    simp only [Msg.put_unknown, Msg.keepUnknown, Option.getD_some, List.length_append,
      List.length_take] at hunknown
    omega

/-- An occurrence in what is still unread is an occurrence in the input. -/
theorem Turn.occurs {data : PerlStr} {m : Msg} (h : Turn S cls b data m) {f : FieldDef} {wire : ℕ}
    (hocc : Occurs S m.cls data f wire) : Occurs S cls b f wire := by
  induction h with
  | start => exact hocc
  | @next data rest m m' _ hstep ih =>
      rw [parseStep_cls hstep] at hocc
      obtain ⟨tagWire, afterTag, hread, ⟨hfind, hskip, -⟩ | ⟨g, v, hfind, hdec, -⟩⟩ :=
        parseStep_cases hstep
      · exact ih (.afterUnknown hread hfind hskip hocc)
      · exact ih (.afterKnown hread hfind (decodeField_pass hdec) hocc)
  | enter _ hread hfind hwire htype hlen hle ih =>
      exact ih (.inside hread hfind hwire htype hlen hle hocc)

/-- In an accepted input every occurrence has its turn. -/
theorem Occurs.turn {c : String} {data : PerlStr} {f : FieldDef} {wire : ℕ}
    (hocc : Occurs S c data f wire) {m m' : Msg} (hc : m.cls = c) (hturn : Turn S cls b data m)
    (hrun : parseInto S data m = .ok m') :
    ∃ data' m₁ tagWire afterTag, Turn S cls b data' m₁ ∧
      decodeVarint data' = .ok (tagWire, afterTag) ∧
      (S.descriptor m₁.cls).findFieldByNumber (tagWire >>> 3) = some f ∧ wire = tagWire &&& 7 := by
  induction hocc generalizing m m' with
  | here hread hfind =>
      subst hc
      exact ⟨_, m, _, _, hturn, hread, hfind, rfl⟩
  | @afterUnknown c data afterTag rest tagWire wire f hread hfind hskip _ ih =>
      subst hc
      have hstep := parseStep_unknown (parse S) hread hfind hskip
      rw [parseInto_step hstep] at hrun
      exact ih (parseStep_cls hstep) (hturn.next hstep) hrun
  | @afterKnown c data afterTag rest tagWire wire f g hread hfind hpass _ ih =>
      subst hc
      obtain ⟨v, rest', m₁, hdec, hstep, hrest⟩ := parseInto_known_inv hread hfind hrun
      obtain rfl := Except.ok.inj ((decodeField_pass hdec).symm.trans hpass)
      exact ih (parseStep_cls hstep) (hturn.next hstep) hrest
  | @inside c c' data afterTag r tagWire len wire f g hread hfind hwire htype hlen hle _ ih =>
      -- the parser reads the sub-message before it stores it, so its bytes are accepted too
      subst hc
      obtain ⟨v, rest, m₁, hdec, -, -⟩ := parseInto_known_inv hread hfind hrun
      rw [hwire, htype] at hdec
      obtain ⟨len', r', inner, hlen', -, hinner, -⟩ := decodeField_message_inv hdec
      obtain ⟨rfl, rfl⟩ := Prod.mk.inj (Except.ok.inj (hlen.symm.trans hlen'))
      exact ih rfl (hturn.enter hread hfind hwire htype hlen hle) (parse_eq_ok.mp hinner)

/-- Mismatches are handled exactly in the inputs that hold none, that cannot be
read to their end, or in which a map field occurs that is not length-delimited:
there the code dies for want of an entry message. -/
theorem mismatchSafe_iff (S : Pool) (cls : String) (b : PerlStr) :
    MismatchSafe S cls b ↔
      ¬ Reads S cls b ∨ ¬ MapsDelimited S cls b ∨
        ∀ f wire, Occurs S cls b f wire → ¬ f.Mismatch wire := by
  constructor
  · intro hsafe
    by_contra hcontra
    push Not at hcontra
    obtain ⟨hreads, hmaps, f, wire, hocc, hmis⟩ := hcontra
    obtain ⟨m, hm⟩ := parse_accepts_iff.mpr ⟨hreads, hmaps⟩
    rcases hsafe with ⟨e, he⟩ | hkeeps
    · cases hm.symm.trans he
    · obtain ⟨data, m₁, tagWire, afterTag, hturn, hread, hfind, rfl⟩ :=
        hocc.turn rfl .start (parse_eq_ok.mp hm)
      exact not_keeps_of_known hread hfind (hkeeps _ _ _ _ _ hturn hread hfind hmis)
  · intro hcond
    cases hparse : parse S cls b with
    | error e => exact .inl ⟨e, hparse⟩
    | ok m =>
        obtain ⟨hreads, hmaps⟩ := parse_accepts_iff.mp ⟨m, hparse⟩
        have hnone := (hcond.resolve_left (not_not_intro hreads)).resolve_left
          (not_not_intro hmaps)
        refine .inr fun data m₁ tagWire afterTag f hturn hread hfind hmis => ?_
        exact absurd hmis (hnone f _ (hturn.occurs (.here hread hfind)))

/-- A message type with one int32 field. -/
def intPool : Pool where
  descriptor _ := { fields := [⟨ps "value", 1, .int32, .optional⟩] }

/-- The three bytes of a one-character string in the int32 field store that string. -/
theorem string_in_int32_field :
    parse intPool "Number" [10, 1, 65] = .ok ⟨"Number", [(ps "value", .str [65])], none⟩ ∧
      ¬ MismatchSafe intPool "Number" [10, 1, 65] := by
  have hparse : parse intPool "Number" [10, 1, 65] =
      .ok ⟨"Number", [(ps "value", .str [65])], none⟩ := rfl
  refine ⟨hparse, ?_⟩
  rintro (⟨e, he⟩ | hkeeps)
  · cases hparse.symm.trans he
  · have hread : decodeVarint [10, 1, 65] = .ok (10, [1, 65]) := rfl
    have hfind : (intPool.descriptor "Number").findFieldByNumber (10 >>> 3) =
        some ⟨ps "value", 1, .int32, .optional⟩ := rfl
    exact not_keeps_of_known hread hfind
      (hkeeps _ _ _ _ _ .start hread hfind ⟨by decide, by simp⟩)

end GooglePerl.Protobuf
