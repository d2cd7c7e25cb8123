import GooglePerl.Lib.Except
import GooglePerl.Protobuf.Parse

/-!
The fields of the wire format, as it is documented: a tag and a payload, where
the payload of a group is again fields, up to a tag that ends the group.

A varint has at most ten characters, and its low 64 bits count. What a text
begins with is one field at most, so a text is its fields and a tail with which
no field begins (`Splits`) in one way; `exists_splits` says that it always is.
-/

namespace GooglePerl.Protobuf

open GooglePerl.Lib

/-! ### Varints -/

/-- Characters with the continuation bit, and a last one without. -/
def isGroups : PerlStr → Bool
  | [] => false
  | b :: s => if b &&& 128 = 0 then s.isEmpty else isGroups s

/-- The seven-bit groups, the lowest first. -/
def groupsValue : PerlStr → ℕ
  | [] => 0
  | b :: s => (b &&& 127) + 128 * groupsValue s

structure IsVarint (s : PerlStr) : Prop where
  groups : isGroups s = true
  length : s.length ≤ 10

/-! ### Fields -/

structure WireField where
  tag : PerlStr
  payload : PerlStr
  deriving DecidableEq

namespace WireField

def bytes (f : WireField) : PerlStr := f.tag ++ f.payload

end WireField

/-- The number and the wire type of a tag. -/
def tagNumber (tag : PerlStr) : ℕ := groupsValue tag % 2 ^ 64 / 8

def tagWire (tag : PerlStr) : ℕ := groupsValue tag % 8

/-- A payload that is no group. -/
def PlainPayload (wire : ℕ) (payload : PerlStr) : Prop :=
  match wire with
  | 0 => IsVarint payload
  | 1 => payload.length = 8
  | 2 => ∃ len body, payload = len ++ body ∧ IsVarint len ∧
      body.length = groupsValue len % 2 ^ 64
  | 5 => payload.length = 4
  | _ => False

inductive WellFormed : WireField → Prop where
  | plain {tag payload : PerlStr} (htag : IsVarint tag)
      (hpayload : PlainPayload (tagWire tag) payload) : WellFormed ⟨tag, payload⟩
  | group {tag stop : PerlStr} {fields : List WireField} (htag : IsVarint tag)
      (hwire : tagWire tag = 3) (hfields : ∀ f ∈ fields, WellFormed f) (hstop : IsVarint stop)
      (hend : tagWire stop = 4) (hnumber : tagNumber stop = tagNumber tag) :
      WellFormed ⟨tag, fields.flatMap WireField.bytes ++ stop⟩

/-- A text, its well-formed fields and what is left. -/
structure Splits (data : PerlStr) (fields : List WireField) (tail : PerlStr) : Prop where
  data : data = fields.flatMap WireField.bytes ++ tail
  wellFormed : ∀ f ∈ fields, WellFormed f
  tail : ∀ f, WellFormed f → ¬ f.bytes <+: tail

theorem IsVarint.ne_nil {s : PerlStr} (h : IsVarint s) : s ≠ [] := by
  rintro rfl
  exact Bool.false_ne_true h.groups

theorem WellFormed.varint {f : WireField} (h : WellFormed f) : IsVarint f.tag := by
  cases h with
  | plain htag _ => exact htag
  | group htag _ _ _ _ _ => exact htag

theorem WellFormed.emptyGroup {tag stop : PerlStr} (htag : IsVarint tag) (hwire : tagWire tag = 3)
    (hstop : IsVarint stop) (hend : tagWire stop = 4) (hnumber : tagNumber stop = tagNumber tag) :
    WellFormed ⟨tag, stop⟩ := by
  have hfields : ∀ f ∈ ([] : List WireField), WellFormed f := by simp
  exact .group htag hwire hfields hstop hend hnumber

theorem WellFormed.length_pos {f : WireField} (h : WellFormed f) : 0 < f.bytes.length := by
  have hne := List.length_pos_iff.mpr h.varint.ne_nil
  rw [WireField.bytes, List.length_append]
  omega

theorem exists_splits (data : PerlStr) : ∃ fields tail, Splits data fields tail := by
  induction hn : data.length using Nat.strong_induction_on generalizing data with
  | _ n ih =>
      by_cases hfield : ∃ f, WellFormed f ∧ f.bytes <+: data
      · obtain ⟨f, hf, rest, rfl⟩ := hfield
        have hpos := hf.length_pos
        rw [List.length_append] at hn
        obtain ⟨fields, tail, hsplits⟩ := ih rest.length (by omega) rest rfl
        refine ⟨f :: fields, tail, ?_, ?_, hsplits.tail⟩
        · rw [List.flatMap_cons, List.append_assoc, ← hsplits.data]
        · intro g hg
          rcases List.mem_cons.mp hg with rfl | hg
          · exact hf
          · exact hsplits.wellFormed g hg
      · push Not at hfield
        exact ⟨[], data, rfl, by simp, hfield⟩

theorem splits_of_wellFormed {fields : List WireField} (h : ∀ f ∈ fields, WellFormed f) :
    Splits (fields.flatMap WireField.bytes) fields [] := by
  refine ⟨(List.append_nil _).symm, h, fun f hf hstart => ?_⟩
  have hpos := hf.length_pos
  rw [List.prefix_nil.mp hstart] at hpos
  exact absurd hpos (Nat.lt_irrefl 0)

/-! ### Reading varints -/

theorem groupsValue_cons_shiftLeft (b : ℕ) (s : PerlStr) (shift : ℕ) :
    groupsValue (b :: s) <<< shift = (b &&& 127) <<< shift ||| groupsValue s <<< (shift + 7) := by
  have hlow : b &&& 127 < 2 ^ 7 := by
    rw [and_127]
    exact Nat.mod_lt _ (by decide)
  have hvalue : groupsValue (b :: s) = (b &&& 127) ||| groupsValue s <<< 7 := by
    rw [or_shiftLeft_of_lt hlow, groupsValue, Nat.mul_comm]
    rfl
  rw [hvalue, Nat.shiftLeft_or_distrib, ← Nat.shiftLeft_add, Nat.add_comm 7]

/-- The loop of `_decode_varint` reads groups, and ten at most. -/
theorem decodeVarintLoop_eq_ok_iff {data rest : PerlStr} {val shift v : ℕ} (hshift : shift < 70) :
    decodeVarintLoop val shift data = .ok (v, rest) ↔
      ∃ s, data = s ++ rest ∧ isGroups s = true ∧ shift + 7 * s.length < 77 ∧
        v = val ||| groupsValue s <<< shift := by
  induction data generalizing val shift with
  | nil =>
      constructor
      · intro h
        cases h
      · rintro ⟨s, hs, hgroups, -⟩
        obtain ⟨rfl, -⟩ := List.append_eq_nil_iff.mp hs.symm
        cases hgroups
  | cons b data ih =>
      rw [decodeVarintLoop]
      -- the last octet of a varint has its highest bit clear
      by_cases hlast : b &&& 128 = 0
      · simp only [if_pos hlast, Except.ok.injEq, Prod.mk.injEq]
        constructor
        · rintro ⟨rfl, rfl⟩
          refine ⟨[b], rfl, by simp [isGroups, hlast], by simp; omega, ?_⟩
          rw [groupsValue_cons_shiftLeft, groupsValue]
          simp
        · rintro ⟨s, hs, hgroups, -, rfl⟩
          cases s with
          | nil => cases hgroups
          | cons c s =>
              obtain ⟨rfl, hdata⟩ : b = c ∧ data = s ++ rest := by simpa using hs
              simp only [isGroups, if_pos hlast, List.isEmpty_iff] at hgroups
              subst hgroups
              refine ⟨?_, hdata⟩
              rw [groupsValue_cons_shiftLeft, groupsValue]
              simp
      · simp only [if_neg hlast]
        split
        -- an eleventh octet is refused
        · rename_i hend
          constructor
          · intro h
            cases h
          · rintro ⟨s, hs, hgroups, hlength, -⟩
            cases s with
            | nil => cases hgroups
            | cons c s =>
                cases s with
                | nil =>
                    obtain ⟨rfl, -⟩ := List.cons.inj hs
                    simp [isGroups, hlast] at hgroups
                | cons d s =>
                    simp only [List.length_cons] at hlength
                    omega
        · rename_i hend
          rw [ih (by omega)]
          constructor
          · rintro ⟨s, rfl, hgroups, hlength, rfl⟩
            refine ⟨b :: s, rfl, by simpa [isGroups, hlast] using hgroups, ?_, ?_⟩
            · simp only [List.length_cons]
              omega
            · rw [groupsValue_cons_shiftLeft, Nat.or_assoc]
          · rintro ⟨s, hs, hgroups, hlength, rfl⟩
            cases s with
            | nil => cases hgroups
            | cons c s =>
                obtain ⟨rfl, rfl⟩ := List.cons.inj hs
                refine ⟨s, rfl, by simpa [isGroups, hlast] using hgroups, ?_, ?_⟩
                · simp only [List.length_cons] at hlength
                  omega
                · rw [groupsValue_cons_shiftLeft, Nat.or_assoc]

theorem decodeVarint_eq_ok_iff {data rest : PerlStr} {v : ℕ} :
    decodeVarint data = .ok (v, rest) ↔ ∃ s, data = s ++ rest ∧ IsVarint s ∧ v = groupsValue s := by
  rw [decodeVarint, decodeVarintLoop_eq_ok_iff (by omega)]
  constructor
  · rintro ⟨s, hs, hgroups, hlength, hv⟩
    exact ⟨s, hs, ⟨hgroups, by omega⟩, by simpa using hv⟩
  · rintro ⟨s, hs, hvarint, hv⟩
    exact ⟨s, hs, hvarint.groups, by have := hvarint.length; omega, by simpa using hv⟩

theorem decodeVarint_append_of_isVarint {s : PerlStr} (h : IsVarint s) (rest : PerlStr) :
    decodeVarint (s ++ rest) = .ok (groupsValue s, rest) :=
  decodeVarint_eq_ok_iff.mpr ⟨s, rfl, h, rfl⟩

/-- A text begins with one varint. -/
theorem IsVarint.append_inj {s s' rest rest' : PerlStr} (h : IsVarint s) (h' : IsVarint s')
    (heq : s ++ rest = s' ++ rest') : s = s' ∧ rest = rest' := by
  have hread := decodeVarint_append_of_isVarint h rest
  rw [heq, decodeVarint_append_of_isVarint h' rest'] at hread
  obtain rfl := (Prod.mk.inj (Except.ok.inj hread)).2
  exact ⟨List.append_cancel_right heq, rfl⟩

/-! ### Payloads -/

/-- A payload whose length is written in 64 bits. -/
def ProperPayload (wire : ℕ) (payload : PerlStr) : Prop :=
  match wire with
  | 2 => ∃ len body, payload = len ++ body ∧ IsVarint len ∧ body.length = groupsValue len
  | _ => PlainPayload wire payload

theorem ProperPayload.plain {wire : ℕ} {payload : PerlStr} (h : ProperPayload wire payload)
    (hsize : payload.length < 2 ^ 64) : PlainPayload wire payload := by
  unfold ProperPayload at h
  split at h
  · obtain ⟨len, body, rfl, hlen, hbody⟩ := h
    rw [List.length_append] at hsize
    exact ⟨len, body, rfl, hlen, by rw [Nat.mod_eq_of_lt (by omega), hbody]⟩
  · exact h

theorem drop_eq_iff {data rest : PerlStr} {n : ℕ} :
    (¬ data.length < n ∧ data.drop n = rest) ↔
      ∃ payload, data = payload ++ rest ∧ payload.length = n := by
  constructor
  · rintro ⟨hle, rfl⟩
    exact ⟨data.take n, (List.take_append_drop n data).symm, by simpa using hle⟩
  · rintro ⟨payload, rfl, rfl⟩
    exact ⟨by simp, by simp⟩

theorem ite_error_eq_ok_iff {p : Prop} [Decidable p] {x rest : PerlStr} :
    (if p then Except.error malformed else Except.ok x) = Except.ok rest ↔ ¬ p ∧ x = rest := by
  by_cases h : p <;> simp [h]

/-- `_skip_field` takes a payload away. -/
theorem skipField_eq_ok_iff {data rest : PerlStr} {wire : ℕ} :
    skipField data wire = .ok rest ↔
      ∃ payload, data = payload ++ rest ∧ ProperPayload wire payload := by
  unfold skipField
  split
  · constructor
    · intro h
      obtain ⟨⟨v, r⟩, hread, rfl⟩ := map_eq_ok.mp h
      obtain ⟨s, rfl, hs, -⟩ := decodeVarint_eq_ok_iff.mp hread
      exact ⟨s, rfl, hs⟩
    · rintro ⟨payload, rfl, hpayload⟩
      rw [decodeVarint_append_of_isVarint hpayload]
      rfl
  · exact ite_error_eq_ok_iff.trans drop_eq_iff
  · constructor
    · intro h
      obtain ⟨⟨len, r⟩, hread, h⟩ := bind_eq_ok.mp h
      obtain ⟨s, rfl, hs, rfl⟩ := decodeVarint_eq_ok_iff.mp hread
      obtain ⟨body, rfl, hbody⟩ := drop_eq_iff.mp (ite_error_eq_ok_iff.mp h)
      exact ⟨s ++ body, by simp, s, body, rfl, hs, hbody⟩
    · rintro ⟨payload, rfl, len, body, rfl, hlen, hbody⟩
      rw [List.append_assoc, decodeVarint_append_of_isVarint hlen, ok_bind]
      exact ite_error_eq_ok_iff.mpr (drop_eq_iff.mpr ⟨body, rfl, hbody⟩)
  · exact ite_error_eq_ok_iff.trans drop_eq_iff
  · rename_i h0 h1 h2 h5
    have hnone : ∀ payload, ¬ ProperPayload wire payload := by
      intro payload hpayload
      unfold ProperPayload PlainPayload at hpayload
      split at hpayload
      · exact h2 rfl
      · split at hpayload
        · exact h0 rfl
        · exact h1 rfl
        · exact h2 rfl
        · exact h5 rfl
        · exact hpayload
    simp [hnone]

theorem skipField_of_proper {wire : ℕ} {payload : PerlStr} (h : ProperPayload wire payload)
    (rest : PerlStr) : skipField (payload ++ rest) wire = .ok rest :=
  skipField_eq_ok_iff.mpr ⟨payload, rfl, h⟩

/-- A text begins with one payload of a wire type. -/
theorem PlainPayload.append_inj {wire : ℕ} {payload payload' rest rest' : PerlStr}
    (h : PlainPayload wire payload) (h' : PlainPayload wire payload')
    (heq : payload ++ rest = payload' ++ rest') : payload = payload' ∧ rest = rest' := by
  unfold PlainPayload at h h'
  split at h
  · exact IsVarint.append_inj h h' heq
  · exact List.append_inj heq (h.trans h'.symm)
  · obtain ⟨len, body, rfl, hlen, hbody⟩ := h
    obtain ⟨len', body', rfl, hlen', hbody'⟩ := h'
    rw [List.append_assoc, List.append_assoc] at heq
    obtain ⟨rfl, hrest⟩ := hlen.append_inj hlen' heq
    obtain ⟨rfl, rfl⟩ := List.append_inj hrest (hbody.trans hbody'.symm)
    exact ⟨rfl, rfl⟩
  · exact List.append_inj heq (h.trans h'.symm)
  · exact h.elim

/-! ### Fields that are no groups -/

/-- A field that is no group. -/
structure Plain (f : WireField) : Prop where
  tag : IsVarint f.tag
  payload : PlainPayload (tagWire f.tag) f.payload

/-- One that `_skip_field` can skip. -/
structure Proper (f : WireField) : Prop where
  tag : IsVarint f.tag
  payload : ProperPayload (tagWire f.tag) f.payload

theorem Plain.wellFormed {f : WireField} (h : Plain f) : WellFormed f := .plain h.tag h.payload

theorem Plain.wire_ne {f : WireField} (h : Plain f) : tagWire f.tag ≠ 3 := by
  intro hwire
  have hpayload := h.payload
  rw [hwire] at hpayload
  exact hpayload

theorem WellFormed.plain_iff {f : WireField} (h : WellFormed f) : Plain f ↔ tagWire f.tag ≠ 3 := by
  refine ⟨Plain.wire_ne, fun hwire => ?_⟩
  cases h with
  | plain htag hpayload => exact ⟨htag, hpayload⟩
  | group _ hgroup _ _ _ _ => exact absurd hgroup hwire

theorem Proper.plain {f : WireField} (h : Proper f) (hsize : f.bytes.length < 2 ^ 64) :
    Plain f := by
  rw [WireField.bytes, List.length_append] at hsize
  exact ⟨h.tag, h.payload.plain (by omega)⟩

/-- A plain field that begins where a well-formed one does is that one. -/
theorem Plain.eq_of_isPrefix {f g : WireField} {rest : PerlStr} (hf : Plain f) (hg : WellFormed g)
    (h : f.bytes <+: g.bytes ++ rest) : f = g := by
  obtain ⟨rest', heq⟩ := h
  rw [WireField.bytes, WireField.bytes, List.append_assoc, List.append_assoc] at heq
  obtain ⟨htag, hrest⟩ := hf.tag.append_inj hg.varint heq
  have hplain : Plain g := hg.plain_iff.mpr (htag ▸ hf.wire_ne)
  have hpayload := hplain.payload
  rw [← htag] at hpayload
  obtain ⟨hsame, -⟩ := PlainPayload.append_inj hf.payload hpayload hrest
  cases f
  cases g
  exact congrArg₂ WireField.mk htag hsame

theorem and_seven (n : ℕ) : n &&& 7 = n % 8 := Nat.and_two_pow_sub_one_eq_mod n 3

theorem shiftRight_three (n : ℕ) : n >>> 3 = n / 8 := Nat.shiftRight_eq_div_pow n 3

theorem take_bytes (f : WireField) (rest : PerlStr) :
    (f.bytes ++ rest).take ((f.bytes ++ rest).length - rest.length) = f.bytes := by
  rw [List.length_append, Nat.add_sub_cancel, List.take_left]

end GooglePerl.Protobuf
