import GooglePerl.Protobuf.Forward
import GooglePerl.Protobuf.VarintMeaning

/-!
Serializing what was parsed.

A value that `parse` stored can be written and read again unless it came from a
varint too long for the way back, or is the `undef` that stands for the missing
value of a map entry (`_default_value` knows none for messages and FIXED64).
Where no such value is left in the result, `serialize` does not die and `parse`
gives the same again (`reserialize`).
-/

namespace GooglePerl.Protobuf

open GooglePerl.Lib

/-- The varints whose stored number is written and read as itself. -/
def FieldType.returns (t : FieldType) (raw : ℕ) : Prop :=
  match t with
  | .int32 => raw < 2 ^ 64 + 2 ^ 31
  | .int64 => raw < 2 ^ 64 + 2 ^ 63
  | .sint64 => raw < 2 ^ 64
  | _ => True

theorem packLong_inRange (v : ℤ) : -2 ^ 31 ≤ packLong v ∧ packLong v < 2 ^ 31 := by
  have hle : -(((2 ^ 32 : ℕ) : ℤ) / 2) ≤ Int.bmod v (2 ^ 32) := Int.le_bmod (by decide)
  have hlt : Int.bmod v (2 ^ 32) < (((2 ^ 32 : ℕ) : ℤ) + 1) / 2 := Int.bmod_lt (by decide)
  unfold packLong
  split
  · omega
  · split <;> omega

theorem FieldType.rereads_storedInt_iff {t : FieldType} (ht : t.wire = 0) {raw : ℕ}
    (hraw : raw < 2 ^ 70) : t.rereads (storedInt t raw) ↔ t.returns raw := by
  cases t with
  | int32 | int64 =>
      simp only [rereads, storedInt, returns]
      split <;> omega
  | sint64 =>
      simp only [rereads, storedInt, returns, decodeZigzag64_eq, unzigzag]
      split <;> omega
  | sint32 =>
      simp only [rereads, storedInt, returns, iff_true]
      exact packLong_inRange (decodeZigzag64 raw)
  | uint32 | uint64 | bool | enum e =>
      simp only [rereads, storedInt, returns, iff_true]
      omega
  | _ => simp [wire] at ht

/-- Each scalar left in the trace can be written and read again. -/
structure Traced.Returns (T : Traced) : Prop where
  varint : ∀ t raw, Leaf (.varint t raw) T → t.returns raw
  other : ¬ Leaf (.other .undef) T

theorem Traced.Returns.part {T x : Traced} (h : T.Returns) (hleaf : ∀ y, Leaf y x → Leaf y T) :
    x.Returns :=
  ⟨fun t raw hx => h.varint t raw (hleaf _ hx), fun hx => h.other (hleaf _ hx)⟩

/-- A scalar of a trace that returns. -/
theorem Traced.Typed.carries_scalar {S : Pool} {t : FieldType} {x : Traced}
    (h : x.Typed S .singular t) (ht : ∀ c, t ≠ .message c) (hret : x.Returns) :
    Carries S S .singular t x.erase x.erase := by
  refine h.carries ht ?_ ?_
  · rintro raw rfl
    obtain ⟨-, hwire, hlt⟩ := h.varint_inv
    exact (FieldType.rereads_storedInt_iff hwire hlt).mpr (hret.varint t raw (.varint t raw))
  · intro hundef
    cases x with
    | varint t' raw =>
        rw [Traced.erase] at hundef
        rcases varintValue_isNum t' raw with hnum | hnum <;> simp [hnum] at hundef
    | other v =>
        rw [Traced.erase] at hundef
        subst hundef
        exact hret.other (.other .undef)
    | entry key value => cases h
    | _ => simp [Traced.erase] at hundef

/-- The text of a key that returns survives. -/
theorem Traced.Typed.key_rereads {S : Pool} {kt : FieldType} {key : Traced}
    (h : key.Typed S .singular kt) (hkt : kt.isKey = true) (hret : key.Returns) :
    kt.KeyRereads key.text := by
  have hne : ∀ c, kt ≠ .message c := by
    rintro c rfl
    cases hkt
  obtain ⟨k, hk, -, hrereads⟩ := (h.carries_scalar hne hret).key hkt
  have htext := h.text_eq hkt
  rw [hk] at htext
  rwa [← Except.ok.inj htext]

theorem Traced.Typed.carries_self {S : Pool} {sh : Shape} {t : FieldType} {T : Traced}
    (h : T.Typed S sh t) (hmap : ∀ c, sh = .map c → (S.descriptor c).mapEntry = true)
    (hret : T.Returns) : Carries S S sh t T.erase T.erase := by
  induction h with
  | varint ht hraw =>
      refine (Traced.Typed.varint ht hraw).carries_scalar ?_ hret
      rintro c rfl
      simp [FieldType.wire] at ht
  | fixed64 ht hlen ho =>
      refine (Traced.Typed.fixed64 ht hlen ho).carries_scalar ?_ hret
      rintro c rfl
      simp [FieldType.wire] at ht
  | fixed32 ht hlen ho =>
      refine (Traced.Typed.fixed32 ht hlen ho).carries_scalar ?_ hret
      rintro c rfl
      simp [FieldType.wire] at ht
  | text ht =>
      refine (Traced.Typed.text ht).carries_scalar ?_ hret
      rintro c rfl
      simp at ht
  | default t =>
      refine (Traced.Typed.default t).carries_scalar ?_ hret
      -- a message has no default, and `undef` does not return
      rintro c rfl
      exact hret.other (.other .undef)
  | @msg cls fs u hnd hknown hfield hunknown ih =>
      obtain ⟨extra, hextra, hempty, hrest⟩ := parse_unknownFields hunknown
      rw [Traced.erase]
      refine .msg (fun _ _ => rfl) ?_ hunknown hextra ?_ hrest.symm
      · intro f hf v v' hv hv'
        obtain rfl := Option.some.inj (hv.symm.trans hv')
        rw [find_eraseEntries] at hv
        obtain ⟨x, hx, rfl⟩ := Option.map_eq_some_iff.mp hv
        exact ih f hf x hx (fun c hshape => (FieldDef.shape_map hshape).2)
          (hret.part fun y hy => .field hx hy)
      · intro name hname
        rw [hempty, fieldContent_of_not_mem fun hmem => hknown name (by
          rwa [keys_eraseEntries] at hmem) hname]
        rfl
  | @repeated t xs h ih =>
      rw [Traced.erase, eraseList_eq_map]
      refine .repeated rfl ?_
      intro v v' hv
      obtain ⟨i, hi, heq⟩ := List.mem_iff_getElem.mp hv
      rw [List.getElem_zip] at heq
      obtain ⟨rfl, rfl⟩ := Prod.mk.inj heq
      rw [List.getElem_map]
      exact ih _ (List.getElem_mem _) (by simp)
        (hret.part fun y hy => .item (List.getElem_mem _) hy)
  | @map c t kt vt es hentry hnd hpart hkey hvalue ihkey ihvalue =>
      rw [Traced.erase]
      have hfound : ∀ k v, Assoc.find (eraseEntries es) k = some v →
          ∃ key value, Assoc.find es k = some (.entry key value) ∧ key.text = k ∧
            value.erase = v := by
        intro k v hv
        rw [find_eraseEntries] at hv
        obtain ⟨x, hx, rfl⟩ := Option.map_eq_some_iff.mp hv
        obtain ⟨key, value, rfl, htext⟩ := hpart k x hx
        exact ⟨key, value, hx, htext, by rw [Traced.erase]⟩
      have hkt : kt.isKey = true := by
        obtain ⟨kt', vt', hkt, hentry', -⟩ := S.entry_fields (hmap c rfl)
        obtain ⟨rfl, -⟩ := entryFields_inj (hentry'.symm.trans hentry)
        exact hkt
      refine .map hentry (by rwa [keys_eraseEntries]) (fun _ => rfl) ?_ ?_
      · intro k hk
        obtain ⟨v, hv⟩ := Option.ne_none_iff_exists'.mp
          (fun hnone => Assoc.find_eq_none_iff.mp hnone hk)
        obtain ⟨key, value, hx, rfl, -⟩ := hfound k v hv
        exact (hkey _ key value hx).key_rereads hkt (hret.part fun y hy => .entry hx (.key hy))
      · intro k v v' hv hv'
        obtain rfl := Option.some.inj (hv.symm.trans hv')
        obtain ⟨key, value, hx, -, rfl⟩ := hfound k v hv
        exact ihvalue k key value hx (by simp) (hret.part fun y hy => .entry hx (.value hy))

/-- The values that are left in the result of parsing can be written and read
again. -/
def ReturnsAll (S : Pool) (cls : String) (b : PerlStr) : Prop :=
  ∃ T, WireRun anyWire S b (.create cls) T ∧ T.toTraced.Returns

theorem not_incomplete {S : Pool}
    (hoptional : ∀ c, ∀ f ∈ (S.descriptor c).fields, f.label ≠ .required) (v : Val) :
    ¬ Incomplete S v := by
  intro h
  induction h with
  | @missing cls fs u hmissing =>
      refine hmissing ?_
      rw [missingRequired, List.map_eq_nil_iff, List.filter_eq_nil_iff]
      intro f hf
      simp [hoptional cls f hf]
  | field _ _ _ ih => exact ih
  | item _ _ ih => exact ih
  | entry _ _ ih => exact ih

/-- An entry of `map_simple` with an empty `Simple` and no key. -/
def keylessEntry : TracedMsg :=
  (TracedMsg.create "Complex.MapSimpleEntry").store hardening
    ⟨ps "value", 2, .message "Simple", .optional⟩ (.msg "Simple" [] none)

def keyless : TracedMsg :=
  (TracedMsg.create "Complex").store hardening
    ⟨ps "map_simple", 3, .message "Complex.MapSimpleEntry", .repeated⟩ keylessEntry.toTraced

theorem keyless_run : WireRun anyWire hardening [26, 2, 18, 0] (.create "Complex") keyless := by
  have hvalue : WireRun anyWire hardening [18, 0] (.create "Complex.MapSimpleEntry")
      keylessEntry :=
    .sub (show decodeVarint [18, 0] = .ok (18, [0]) from rfl) (c := "Simple")
      (f := ⟨ps "value", 2, .message "Simple", .optional⟩) rfl rfl rfl
      (show decodeVarint [0] = .ok (0, []) from rfl) (by simp) (.nil (.create "Simple"))
      (fun _ => trivial) (.nil _)
  exact .sub (show decodeVarint [26, 2, 18, 0] = .ok (26, [2, 18, 0]) from rfl)
    (c := "Complex.MapSimpleEntry")
    (f := ⟨ps "map_simple", 3, .message "Complex.MapSimpleEntry", .repeated⟩) rfl rfl rfl
    (show decodeVarint [2, 18, 0] = .ok (2, [18, 0]) from rfl) (by simp) hvalue
    (fun _ => trivial) (.nil _)

theorem hardening_optional (c : String) :
    ∀ f ∈ (hardening.descriptor c).fields, f.label ≠ .required := by
  simp only [hardening]
  split
  · decide
  · split <;> decide

theorem keyless_returns : keyless.toTraced.Returns := by
  have hfields : keyless.fields = [(ps "map_simple",
      .map [([], .entry (.other (.str [])) (.msg "Simple" [] none))])] := rfl
  have hleaf : ∀ x, Traced.Leaf x keyless.toTraced → x = .other (.str []) := by
    intro x hx
    rw [TracedMsg.toTraced, hfields] at hx
    cases hx with
    | field hy hx =>
        obtain ⟨-, rfl⟩ := Prod.mk.inj (List.mem_singleton.mp (Assoc.mem_of_find hy))
        cases hx with
        | entry hy hx =>
            obtain ⟨-, rfl⟩ := Prod.mk.inj (List.mem_singleton.mp (Assoc.mem_of_find hy))
            cases hx with
            | key hx =>
                cases hx
                rfl
            | value hx =>
                cases hx with
                | field hy _ => cases hy
  exact ⟨fun t raw hx => (by cases hleaf _ hx), fun hx => (by cases hleaf _ hx)⟩

end GooglePerl.Protobuf
