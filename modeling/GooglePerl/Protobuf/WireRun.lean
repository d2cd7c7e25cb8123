import GooglePerl.Protobuf.Occurs
import GooglePerl.Protobuf.Trace

/-!
Runs of the parser on inputs with declared wire types.

Where every field occurs with its declared wire type, the run of the parser can
be described without its failure cases: `WireRun` is that description, and it
builds a traced message. Erasing the trace gives what `parse` returns
(`WireRun.parse`), and every accepted input with declared wire types has a run
(`wireRun_of_parse`).
-/

namespace GooglePerl.Protobuf

open GooglePerl.Lib

/-- Reading a scalar of the declared wire type. -/
def readScalar (t : FieldType) (data : PerlStr) : Option (Traced × PerlStr) :=
  match t.wire with
  | 0 =>
      match decodeVarint data with
      | .ok (raw, rest) => some (.varint t raw, rest)
      | .error _ => none
  | 1 =>
      if data.length < 8 then none
      else some (.other (fixed64Value t (data.take 8)), data.drop 8)
  -- messages are read by their own rule
  | 2 =>
      match t with
      | .message _ => none
      | _ =>
          match decodeVarint data with
          | .ok (len, rest) =>
              if rest.length < len then none
              else some (.other (.str (rest.take len)), rest.drop len)
          | .error _ => none
  | _ =>
      if data.length < 4 then none
      else some (.other (fixed32Value t (data.take 4)), data.drop 4)

/-- What is asked of an input besides its declared wire types: of each varint,
and of each map entry. -/
structure WireRule where
  varint : FieldType → ℕ → Prop
  entry : TracedMsg → Prop

def anyWire : WireRule := ⟨fun _ _ => True, fun _ => True⟩

inductive WireRun (R : WireRule) (S : Pool) : PerlStr → TracedMsg → TracedMsg → Prop where
  | nil (m : TracedMsg) : WireRun R S [] m m
  | unknown {data afterTag rest : PerlStr} {tagWire : ℕ} {m m' : TracedMsg}
      (hread : decodeVarint data = .ok (tagWire, afterTag))
      (hfind : (S.descriptor m.cls).findFieldByNumber (tagWire >>> 3) = none)
      (hskip : skipField afterTag (tagWire &&& 7) = .ok rest)
      (htail : WireRun R S rest (m.keepUnknown (data.take (data.length - rest.length))) m') :
      WireRun R S data m m'
  | scalar {data afterTag rest : PerlStr} {tagWire : ℕ} {f : FieldDef} {x : Traced}
      {m m' : TracedMsg} (hread : decodeVarint data = .ok (tagWire, afterTag))
      (hfind : (S.descriptor m.cls).findFieldByNumber (tagWire >>> 3) = some f)
      (hwire : tagWire &&& 7 = f.type.wire) (hscalar : readScalar f.type afterTag = some (x, rest))
      (hrule : ∀ raw, x = .varint f.type raw → R.varint f.type raw)
      (htail : WireRun R S rest (m.store S f x) m') : WireRun R S data m m'
  | sub {data afterTag r : PerlStr} {tagWire len : ℕ} {f : FieldDef} {c : String}
      {inner m m' : TracedMsg} (hread : decodeVarint data = .ok (tagWire, afterTag))
      (hfind : (S.descriptor m.cls).findFieldByNumber (tagWire >>> 3) = some f)
      (hwire : tagWire &&& 7 = 2) (htype : f.type = .message c)
      (hlen : decodeVarint afterTag = .ok (len, r)) (hle : len ≤ r.length)
      (hsub : WireRun R S (r.take len) (.create c) inner)
      (hrule : f.shape S = .map c → R.entry inner)
      (htail : WireRun R S (r.drop len) (m.store S f inner.toTraced) m') : WireRun R S data m m'

variable {S : Pool}

theorem IsOctets.of_append {a b : PerlStr} (h : IsOctets (a ++ b)) : IsOctets a ∧ IsOctets b :=
  ⟨fun c hc => h c (List.mem_append_left _ hc), fun c hc => h c (List.mem_append_right _ hc)⟩

theorem IsOctets.take {a : PerlStr} (h : IsOctets a) (n : ℕ) : IsOctets (a.take n) :=
  fun c hc => h c (List.mem_of_mem_take hc)

theorem IsOctets.drop {a : PerlStr} (h : IsOctets a) (n : ℕ) : IsOctets (a.drop n) :=
  fun c hc => h c (List.mem_of_mem_drop hc)

theorem IsOctets.afterVarint {data rest : PerlStr} {v : ℕ} (ho : IsOctets data)
    (h : decodeVarint data = .ok (v, rest)) : IsOctets rest := by
  obtain ⟨used, rfl, -⟩ := decodeVarint_ok h
  exact ho.of_append.2

/-- A scalar of the declared wire type, as the parser decodes it. -/
theorem readScalar_spec {t : FieldType} {data rest : PerlStr} {x : Traced}
    (h : readScalar t data = some (x, rest)) (ho : IsOctets data) :
    x.Typed S .singular t ∧ (∀ c, t ≠ .message c) ∧ IsOctets rest ∧
      ∀ parseSub, decodeField parseSub t.wire t data = .ok (x.erase, rest) := by
  -- the types with a varint go alike
  have hvarint : t.wire = 0 → x.Typed S .singular t ∧ (∀ c, t ≠ .message c) ∧ IsOctets rest ∧
      ∀ parseSub, decodeField parseSub t.wire t data = .ok (x.erase, rest) := by
    intro hwire
    simp only [readScalar, hwire] at h
    split at h
    · rename_i raw r hread
      obtain ⟨rfl, rfl⟩ := Prod.mk.inj (Option.some.inj h)
      refine ⟨.varint hwire (decodeVarint_lt hread), ?_, ho.afterVarint hread, ?_⟩
      · rintro c rfl
        simp [FieldType.wire] at hwire
      · intro parseSub
        rw [hwire]
        simp [decodeField, hread, Traced.erase]
    · cases h
  cases t with
  | double | fixed64 | sfixed64 =>
      simp only [readScalar, FieldType.wire] at h
      split at h
      · cases h
      · obtain ⟨rfl, rfl⟩ := Prod.mk.inj (Option.some.inj h)
        refine ⟨.fixed64 rfl (by simp; omega) (ho.take 8), by simp, ho.drop 8, ?_⟩
        intro parseSub
        simp [decodeField, FieldType.wire, Traced.erase]
        omega
  | float | fixed32 | sfixed32 =>
      simp only [readScalar, FieldType.wire] at h
      split at h
      · cases h
      · obtain ⟨rfl, rfl⟩ := Prod.mk.inj (Option.some.inj h)
        refine ⟨.fixed32 rfl (by simp; omega) (ho.take 4), by simp, ho.drop 4, ?_⟩
        intro parseSub
        simp [decodeField, FieldType.wire, Traced.erase]
        omega
  | string | bytes =>
      simp only [readScalar, FieldType.wire] at h
      split at h
      · rename_i len r hread
        split at h
        · cases h
        · rename_i hle
          obtain ⟨rfl, rfl⟩ := Prod.mk.inj (Option.some.inj h)
          refine ⟨.text (by simp), by simp, (ho.afterVarint hread).drop len, ?_⟩
          intro parseSub
          simp [decodeField, FieldType.wire, hread, hle, Traced.erase]
      · cases h
  | message c => simp [readScalar, FieldType.wire] at h
  | _ => exact hvarint rfl

/-- What the parser decodes for a sub-message whose bytes have a run. -/
theorem decodeField_sub {c : String} {data r : PerlStr} {len : ℕ} {inner : TracedMsg}
    (hlen : decodeVarint data = .ok (len, r)) (hle : len ≤ r.length)
    (hrun : parseInto S (r.take len) (TracedMsg.create c).erase = .ok inner.erase) :
    decodeField (parse S) 2 (.message c) data = .ok (inner.toTraced.erase, r.drop len) := by
  have hparse : parse S c (r.take len) = .ok inner.erase := by
    rw [parse_eq_ok, ← TracedMsg.erase_create]
    exact hrun
  rw [TracedMsg.erase_toTraced]
  simp [decodeField, hlen, Nat.not_lt.mpr hle, hparse]

/-- A run keeps the trace well formed, and is the parser's run. -/
theorem WireRun.spec {R : WireRule} {data : PerlStr} {m m' : TracedMsg}
    (h : WireRun R S data m m') (ho : IsOctets data) (hm : m.Typed S) :
    m'.Typed S ∧ m'.cls = m.cls ∧ parseInto S data m.erase = .ok m'.erase := by
  induction h with
  | nil m => exact ⟨hm, rfl, parseInto_nil _⟩
  | @unknown data afterTag rest tagWire m m' hread hfind hskip _ ih =>
      have hstep := parseStep_unknown (parse S) (m := m.erase) hread hfind hskip
      obtain ⟨used, hdata, -⟩ := parseStep_ok hstep
      obtain ⟨htyped, hcls, hrun⟩ := ih (by rw [hdata] at ho; exact ho.of_append.2)
        (hm.keepUnknown (UnknownFields.single hread hfind hskip))
      exact ⟨htyped, hcls, (parseInto_step hstep).trans hrun⟩
  | @scalar data afterTag rest tagWire f x m m' hread hfind hwire hscalar _ _ ih =>
      obtain ⟨hx, hne, hrest, hdec⟩ := readScalar_spec (S := S) hscalar (ho.afterVarint hread)
      have hf := (MessageDef.findFieldByNumber_eq_some.mp hfind).1
      obtain ⟨hm₁, hstore⟩ := hm.store hf hx fun c hc => absurd hc (hne c)
      have hstep := parseStep_known (m := m.erase) hread hfind (hwire ▸ hdec (parse S)) hstore
      obtain ⟨htyped, hcls, hrun⟩ := ih hrest hm₁
      exact ⟨htyped, hcls, (parseInto_step hstep).trans hrun⟩
  | @sub data afterTag r tagWire len f c inner m m' hread hfind hwire htype hlen hle _ _ _ ihsub
      ih =>
      have hr := (ho.afterVarint hread).afterVarint hlen
      have hf := (MessageDef.findFieldByNumber_eq_some.mp hfind).1
      obtain ⟨hinner, hinnerCls, hsubRun⟩ := ihsub (hr.take len) (TracedMsg.create_typed c)
      obtain rfl : inner.cls = c := hinnerCls
      have hdec : decodeField (Protobuf.parse S) (tagWire &&& 7) f.type afterTag =
          .ok (inner.toTraced.erase, r.drop len) := by
        rw [hwire, htype]
        exact decodeField_sub hlen hle hsubRun
      obtain ⟨hm₁, hstore⟩ := hm.store (x := inner.toTraced) hf (htype ▸ hinner) (by
        intro c' hc'
        obtain rfl : inner.cls = c' := FieldType.message.inj (htype.symm.trans hc')
        exact ⟨inner.fields, inner.unknown, rfl⟩)
      have hstep := parseStep_known (m := m.erase) hread hfind hdec hstore
      obtain ⟨htyped, hcls, hrun⟩ := ih (hr.drop len) hm₁
      exact ⟨htyped, hcls, (parseInto_step hstep).trans hrun⟩

theorem WireRun.parse {R : WireRule} {cls : String} {data : PerlStr} {m : TracedMsg}
    (h : WireRun R S data (.create cls) m) (ho : IsOctets data) :
    m.Typed S ∧ m.cls = cls ∧ Protobuf.parse S cls data = .ok m.erase := by
  obtain ⟨htyped, hcls, hrun⟩ := h.spec ho (TracedMsg.create_typed cls)
  rw [TracedMsg.erase_create] at hrun
  exact ⟨htyped, hcls, parse_eq_ok.mpr hrun⟩

/-- Only inputs with declared wire types have runs. -/
theorem WireRun.declaredWires {R : WireRule} {data : PerlStr} {m m' : TracedMsg}
    (h : WireRun R S data m m') (ho : IsOctets data) : DeclaredWires S m.cls data := by
  intro g wire hocc
  induction h with
  | nil m =>
      cases hocc with
      | here hread | afterUnknown hread | afterKnown hread | inside hread => cases hread
  | @unknown data afterTag rest tagWire m m' hread hfind hskip _ ih =>
      obtain ⟨rest', hskip', hlater⟩ := hocc.unknown_inv hread hfind
      obtain rfl := Except.ok.inj (hskip.symm.trans hskip')
      obtain ⟨used, hused, -⟩ := skipField_ok hskip
      have hafter := ho.afterVarint hread
      rw [hused] at hafter
      exact ih hafter.of_append.2 hlater
  | @scalar data afterTag rest tagWire f x m m' hread hfind hwire hscalar _ _ ih =>
      obtain ⟨-, hne, hrest, hdec⟩ := readScalar_spec (S := S) hscalar (ho.afterVarint hread)
      rcases hocc.known_inv hread hfind with
        ⟨rfl, rfl⟩ | ⟨rest', hpass, hlater⟩ | ⟨c, len, r, -, htype, -⟩
      · exact hwire
      · have hpass' := decodeField_pass (hdec (Protobuf.parse S))
        rw [← hwire, hpass] at hpass'
        obtain rfl := Except.ok.inj hpass'
        exact ih hrest hlater
      · exact absurd htype (hne c)
  | @sub data afterTag r tagWire len f c inner m m' hread hfind hwire htype hlen hle hsub _ _ ihsub
      ih =>
      have hr := (ho.afterVarint hread).afterVarint hlen
      have hdec := decodeField_sub hlen hle (hsub.spec (hr.take len) (TracedMsg.create_typed c)).2.2
      rcases hocc.known_inv hread hfind with
        ⟨rfl, rfl⟩ | ⟨rest', hpass, hlater⟩ | ⟨c', len', r', -, htype', hlen', -, hinner⟩
      · rw [hwire, htype]
        rfl
      · have hpass' := decodeField_pass hdec
        rw [← hwire, hpass] at hpass'
        obtain rfl := Except.ok.inj hpass'
        exact ih (hr.drop len) hlater
      · obtain rfl := FieldType.message.inj (htype.symm.trans htype')
        obtain ⟨rfl, rfl⟩ := Prod.mk.inj (Except.ok.inj (hlen.symm.trans hlen'))
        exact ihsub (hr.take len) hinner

/-! ### Every accepted input with declared wire types has a trace -/

theorem readScalar_of_decode {parseSub : String → PerlStr → Except Die Msg} {t : FieldType}
    (ht : ∀ c, t ≠ .message c) {data rest : PerlStr} {v : Val}
    (h : decodeField parseSub t.wire t data = .ok (v, rest)) :
    ∃ x, readScalar t data = some (x, rest) := by
  have hvarint : t.wire = 0 → ∃ x, readScalar t data = some (x, rest) := by
    intro hwire
    rw [hwire] at h
    obtain ⟨⟨raw, r⟩, hread, hval⟩ := bind_eq_ok.mp h
    obtain ⟨-, rfl⟩ := Prod.mk.inj (Except.ok.inj hval)
    exact ⟨.varint t raw, by simp [readScalar, hwire, hread]⟩
  cases t with
  | double | fixed64 | sfixed64 | float | fixed32 | sfixed32 =>
      simp only [decodeField, FieldType.wire] at h
      split at h
      · cases h
      · rename_i hlen
        obtain ⟨-, rfl⟩ := Prod.mk.inj (Except.ok.inj h)
        simp [readScalar, FieldType.wire, hlen]
  | string | bytes =>
      obtain ⟨⟨len, r⟩, hread, hbody⟩ := bind_eq_ok.mp h
      simp only at hbody
      split at hbody
      · cases hbody
      · rename_i hlen
        obtain ⟨-, rfl⟩ := Prod.mk.inj (Except.ok.inj hbody)
        simp [readScalar, FieldType.wire, hread, hlen]
  | message c => exact absurd rfl (ht c)
  | _ => exact hvarint rfl

theorem wireRun_of_parseInto {data : PerlStr} {m : TracedMsg} {m' : Msg} (ho : IsOctets data)
    (hm : m.Typed S) (hwires : DeclaredWires S m.cls data)
    (h : parseInto S data m.erase = .ok m') : ∃ T, WireRun anyWire S data m T := by
  -- by length, since a submessage and what follows a field are shorter than the input
  induction hn : data.length using Nat.strong_induction_on generalizing data m m' with
  | _ n ih =>
      subst hn
      by_cases hne : data = []
      · subst hne
        exact ⟨m, .nil m⟩
      rw [parseInto_cons _ hne] at h
      split at h
      · cases h
      rename_i m₁ rest hstep
      have hshort := parseStep_length hstep
      obtain ⟨tagWire, afterTag, hread, hcase⟩ := parseStep_cases hstep
      rcases hcase with ⟨hfind, hskip, rfl⟩ | ⟨f, v, hfind, hdec, hstore⟩
      · obtain ⟨used, hdata, -⟩ := parseStep_ok hstep
        obtain ⟨T, hT⟩ := ih rest.length hshort (by rw [hdata] at ho; exact ho.of_append.2)
          (hm.keepUnknown (UnknownFields.single hread hfind hskip))
          (fun g w hocc => hwires g w (.afterUnknown hread hfind hskip hocc)) h rfl
        exact ⟨T, .unknown hread hfind hskip hT⟩
      · have hwire : tagWire &&& 7 = f.type.wire := hwires f _ (.here hread hfind)
        have hf := (MessageDef.findFieldByNumber_eq_some.mp hfind).1
        have hrest : DeclaredWires S m.cls rest := fun g w hocc =>
          hwires g w (.afterKnown hread hfind (decodeField_pass hdec) hocc)
        by_cases hmessage : ∃ c, f.type = .message c
        · obtain ⟨c, htype⟩ := hmessage
          -- a submessage: its octets have a run of their own
          have hwire₂ : tagWire &&& 7 = 2 := by rw [hwire, htype]; rfl
          have hdec₂ := hdec
          rw [hwire₂, htype] at hdec₂
          obtain ⟨len, r, inner, hlen, hle, hinner, rfl, rfl⟩ := decodeField_message_inv hdec₂
          have hr := (ho.afterVarint hread).afterVarint hlen
          have hsubShort : (r.take len).length < data.length := by
            have h₁ := decodeVarint_length hread
            have h₂ := decodeVarint_length hlen
            simp only [List.length_take]
            omega
          rw [parse_eq_ok, ← TracedMsg.erase_create] at hinner
          obtain ⟨T, hT⟩ := ih _ hsubShort (hr.take len) (TracedMsg.create_typed c)
            (fun g w hocc => hwires g w (.inside hread hfind hwire₂ htype hlen hle hocc)) hinner rfl
          obtain ⟨hTtyped, hTcls, hTrun⟩ := hT.spec (hr.take len) (TracedMsg.create_typed c)
          obtain rfl := Except.ok.inj (hinner.symm.trans hTrun)
          obtain rfl : T.cls = c := hTcls
          obtain ⟨hm₁, hstore'⟩ := hm.store (x := T.toTraced) hf (htype ▸ hTtyped) (by
            intro c' hc'
            obtain rfl : T.cls = c' := FieldType.message.inj (htype.symm.trans hc')
            exact ⟨T.fields, T.unknown, rfl⟩)
          rw [TracedMsg.erase_toTraced] at hstore'
          obtain rfl := Except.ok.inj (hstore.symm.trans hstore')
          obtain ⟨T', hT'⟩ := ih _ hshort (hr.drop len) hm₁ hrest h rfl
          exact ⟨T', .sub hread hfind hwire₂ htype hlen hle hT (fun _ => trivial) hT'⟩
        · have hne : ∀ c, f.type ≠ .message c := fun c hc => hmessage ⟨c, hc⟩
          -- a scalar: `readScalar` gives what was decoded
          rw [hwire] at hdec
          obtain ⟨x, hx⟩ := readScalar_of_decode hne hdec
          obtain ⟨hxtyped, -, horest, hxdec⟩ := readScalar_spec (S := S) hx (ho.afterVarint hread)
          obtain ⟨rfl, -⟩ := Prod.mk.inj (Except.ok.inj ((hdec.symm.trans (hxdec (parse S)))))
          obtain ⟨hm₁, hstore'⟩ := hm.store hf hxtyped fun c hc => absurd hc (hne c)
          obtain rfl := Except.ok.inj (hstore.symm.trans hstore')
          obtain ⟨T', hT'⟩ := ih _ hshort horest hm₁ hrest h rfl
          exact ⟨T', .scalar hread hfind hwire hx (fun _ _ => trivial) hT'⟩

theorem wireRun_of_parse {cls : String} {data : PerlStr} {m : Msg} (ho : IsOctets data)
    (hwires : DeclaredWires S cls data) (h : parse S cls data = .ok m) :
    ∃ T, WireRun anyWire S data (.create cls) T ∧ T.Typed S ∧ T.cls = cls ∧ T.erase = m := by
  have hinto := parse_eq_ok.mp h
  rw [← TracedMsg.erase_create] at hinto
  obtain ⟨T, hT⟩ := wireRun_of_parseInto ho (TracedMsg.create_typed cls) hwires hinto
  obtain ⟨htyped, hcls, hparse⟩ := hT.parse ho
  exact ⟨T, hT, htyped, hcls, Except.ok.inj (hparse.symm.trans h)⟩

end GooglePerl.Protobuf
