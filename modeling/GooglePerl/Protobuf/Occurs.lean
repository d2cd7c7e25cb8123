import GooglePerl.Protobuf.UnknownFields

/-!
The fields an input holds.

`Occurs S cls b f w` says that parsing `b` comes across field `f` with wire
type `w`, at any depth. It is a matter of reading tags and passing over
payloads, whatever is done with the values.
-/

namespace GooglePerl.Protobuf

open GooglePerl.Lib

/-- What `_decode_field` passes over: like `_skip_field`, but nothing at all for
group and reserved wire types. -/
def passPayload (data : PerlStr) (wire : ℕ) : Except Die PerlStr :=
  match wire with
  | 0 | 1 | 2 | 5 => skipField data wire
  | _ => .ok data

inductive Occurs (S : Pool) : String → PerlStr → FieldDef → ℕ → Prop where
  | here {cls : String} {data afterTag : PerlStr} {tagWire : ℕ} {f : FieldDef}
      (hread : decodeVarint data = .ok (tagWire, afterTag))
      (hfind : (S.descriptor cls).findFieldByNumber (tagWire >>> 3) = some f) :
      Occurs S cls data f (tagWire &&& 7)
  | afterUnknown {cls : String} {data afterTag rest : PerlStr} {tagWire wire : ℕ} {f : FieldDef}
      (hread : decodeVarint data = .ok (tagWire, afterTag))
      (hfind : (S.descriptor cls).findFieldByNumber (tagWire >>> 3) = none)
      (hskip : skipField afterTag (tagWire &&& 7) = .ok rest) (h : Occurs S cls rest f wire) :
      Occurs S cls data f wire
  | afterKnown {cls : String} {data afterTag rest : PerlStr} {tagWire wire : ℕ} {f g : FieldDef}
      (hread : decodeVarint data = .ok (tagWire, afterTag))
      (hfind : (S.descriptor cls).findFieldByNumber (tagWire >>> 3) = some g)
      (hpass : passPayload afterTag (tagWire &&& 7) = .ok rest)
      (h : Occurs S cls rest f wire) : Occurs S cls data f wire
  | inside {cls c : String} {data afterTag r : PerlStr} {tagWire len wire : ℕ} {f g : FieldDef}
      (hread : decodeVarint data = .ok (tagWire, afterTag))
      (hfind : (S.descriptor cls).findFieldByNumber (tagWire >>> 3) = some g)
      (hwire : tagWire &&& 7 = 2) (htype : g.type = .message c)
      (hlen : decodeVarint afterTag = .ok (len, r)) (hle : len ≤ r.length)
      (h : Occurs S c (r.take len) f wire) : Occurs S cls data f wire

theorem decodeField_pass {parseSub : String → PerlStr → Except Die Msg} {wire : ℕ} {t : FieldType}
    {data rest : PerlStr} {v : Val} (h : decodeField parseSub wire t data = .ok (v, rest)) :
    passPayload data wire = .ok rest := by
  unfold passPayload
  split
  · exact decodeField_skip h (by simp)
  · exact decodeField_skip h (by simp)
  · exact decodeField_skip h (by simp)
  · exact decodeField_skip h (by simp)
  · rename_i h0 h1 h2 h5
    cases decodeField_eq_ok.mp h with
    | varint => exact absurd rfl h0
    | fixed64 => exact absurd rfl h1
    | message | text => exact absurd rfl h2
    | fixed32 => exact absurd rfl h5
    | other => rfl

/-- Where an occurrence is, seen from a tag the descriptor does not have. -/
theorem Occurs.unknown_inv {S : Pool} {cls : String} {data afterTag : PerlStr} {tagWire wire : ℕ}
    {f : FieldDef} (hread : decodeVarint data = .ok (tagWire, afterTag))
    (hfind : (S.descriptor cls).findFieldByNumber (tagWire >>> 3) = none)
    (h : Occurs S cls data f wire) :
    ∃ rest, skipField afterTag (tagWire &&& 7) = .ok rest ∧ Occurs S cls rest f wire := by
  cases h with
  | here hread' hfind' | afterKnown hread' hfind' | inside hread' hfind' =>
      obtain ⟨rfl, rfl⟩ := Prod.mk.inj (Except.ok.inj (hread.symm.trans hread'))
      cases hfind.symm.trans hfind'
  | afterUnknown hread' _ hskip hlater =>
      obtain ⟨rfl, rfl⟩ := Prod.mk.inj (Except.ok.inj (hread.symm.trans hread'))
      exact ⟨_, hskip, hlater⟩

/-- Where an occurrence is, seen from the tag of a known field. -/
theorem Occurs.known_inv {S : Pool} {cls : String} {data afterTag : PerlStr} {tagWire wire : ℕ}
    {f g : FieldDef} (hread : decodeVarint data = .ok (tagWire, afterTag))
    (hfind : (S.descriptor cls).findFieldByNumber (tagWire >>> 3) = some g)
    (h : Occurs S cls data f wire) :
    (f = g ∧ wire = tagWire &&& 7) ∨
      (∃ rest, passPayload afterTag (tagWire &&& 7) = .ok rest ∧ Occurs S cls rest f wire) ∨
      ∃ c len r, tagWire &&& 7 = 2 ∧ g.type = .message c ∧ decodeVarint afterTag = .ok (len, r) ∧
        len ≤ r.length ∧ Occurs S c (r.take len) f wire := by
  cases h with
  | here hread' hfind' =>
      obtain ⟨rfl, rfl⟩ := Prod.mk.inj (Except.ok.inj (hread.symm.trans hread'))
      exact .inl ⟨Option.some.inj (hfind'.symm.trans hfind), rfl⟩
  | afterUnknown hread' hfind' =>
      obtain ⟨rfl, rfl⟩ := Prod.mk.inj (Except.ok.inj (hread.symm.trans hread'))
      cases hfind.symm.trans hfind'
  | afterKnown hread' _ hpass hlater =>
      obtain ⟨rfl, rfl⟩ := Prod.mk.inj (Except.ok.inj (hread.symm.trans hread'))
      exact .inr (.inl ⟨_, hpass, hlater⟩)
  | inside hread' hfind' hwire htype hlen hle hinner =>
      obtain ⟨rfl, rfl⟩ := Prod.mk.inj (Except.ok.inj (hread.symm.trans hread'))
      obtain rfl := Option.some.inj (hfind.symm.trans hfind')
      exact .inr (.inr ⟨_, _, _, hwire, htype, hlen, hle, hinner⟩)

/-- Each known field occurs with its declared wire type. -/
def DeclaredWires (S : Pool) (cls : String) (data : PerlStr) : Prop :=
  ∀ f wire, Occurs S cls data f wire → wire = f.type.wire

end GooglePerl.Protobuf
