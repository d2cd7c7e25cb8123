import GooglePerl.Protobuf.WireRun
import GooglePerl.Protobuf.Serialize

/-!
What the stored number is and what the varint means.

`FieldType.meaning` is the protobuf reading of a varint: 64 bits of it for the
64-bit types, 32 bits for the others, signed or zigzag as declared, and a truth
value for a bool. `_decode_field` keeps up to 70 bits and has one rule for each
type; `storedInt_eq_meaning_iff` says for each type which varints it reads as
they are meant.
-/

namespace GooglePerl.Protobuf

open GooglePerl.Lib

/-- The low `w` bits as a signed number. -/
def lowSigned (w raw : ℕ) : ℤ := Int.bmod raw (2 ^ w)

def FieldType.meaning (t : FieldType) (raw : ℕ) : ℤ :=
  match t with
  | .int32 | .enum _ => lowSigned 32 raw
  | .uint32 => raw % 2 ^ 32
  | .bool => if raw % 2 ^ 64 = 0 then 0 else 1
  | .int64 => lowSigned 64 raw
  | .sint32 => unzigzag (raw % 2 ^ 32)
  | .sint64 => unzigzag (raw % 2 ^ 64)
  | _ => raw % 2 ^ 64

/-- The varints that are read as they are meant. -/
def FieldType.plain (t : FieldType) (raw : ℕ) : Prop :=
  match t with
  | .int32 => raw < 2 ^ 31 ∨ (2 ^ 64 - 2 ^ 31 ≤ raw ∧ raw < 2 ^ 64 + 2 ^ 31)
  | .enum _ => raw < 2 ^ 31
  | .uint32 => raw < 2 ^ 32
  | .bool => raw = 0 ∨ raw = 1
  | .int64 => raw < 2 ^ 64 + 2 ^ 63
  | .sint32 => raw / 2 ^ 32 % 2 = 0 ∧ (raw < 2 ^ 64 ∨ (raw < 2 ^ 65 ∧ raw % 2 = 0))
  | _ => raw < 2 ^ 64

theorem bmod_32 (n : ℤ) : Int.bmod n (2 ^ 32) =
    n % 4294967296 - if 2147483648 ≤ n % 4294967296 then 4294967296 else 0 := by
  rw [Int.bmod_eq_emod]
  norm_num

theorem bmod_64 (n : ℤ) : Int.bmod n (2 ^ 64) = n % 18446744073709551616 -
    if 9223372036854775808 ≤ n % 18446744073709551616 then 18446744073709551616 else 0 := by
  rw [Int.bmod_eq_emod]
  norm_num

theorem decodeZigzag32_eq_iff (raw : ℕ) :
    decodeZigzag32 raw = unzigzag (raw % 2 ^ 32) ↔
      raw / 2 ^ 32 % 2 = 0 ∧ (raw < 2 ^ 64 ∨ (raw < 2 ^ 65 ∧ raw % 2 = 0)) := by
  rw [decodeZigzag32, decodeZigzag64_eq]
  unfold packLong
  rw [bmod_32]
  rcases Nat.mod_two_eq_zero_or_one raw with heven | hodd
  · have hraw : unzigzag (raw : ℤ) = raw / 2 := by
      rw [unzigzag, if_pos (by omega)]
    have hlow : unzigzag ((raw : ℤ) % 2 ^ 32) = raw % 2 ^ 32 / 2 := by
      rw [unzigzag, if_pos (by omega)]
    rw [hraw, hlow]
    split
    · omega
    · split
      · omega
      · split <;> omega
  · have hraw : unzigzag (raw : ℤ) = -(raw / 2) - 1 := by
      rw [unzigzag, if_neg (by omega)]
    have hlow : unzigzag ((raw : ℤ) % 2 ^ 32) = -(raw % 2 ^ 32 / 2) - 1 := by
      rw [unzigzag, if_neg (by omega)]
    rw [hraw, hlow]
    split
    · omega
    · split
      · omega
      · split <;> omega

theorem decodeZigzag64_eq_iff (raw : ℕ) :
    decodeZigzag64 raw = unzigzag (raw % 2 ^ 64) ↔ raw < 2 ^ 64 := by
  rw [decodeZigzag64_eq]
  constructor
  · intro h
    have hz := congrArg zigzag h
    rw [zigzag_unzigzag (by omega), zigzag_unzigzag (by omega)] at hz
    omega
  · intro h
    rw [Int.emod_eq_of_lt (by omega) (by omega)]

/-- For which varints the stored number is the meant one. -/
theorem storedInt_eq_meaning_iff {t : FieldType} (ht : t.wire = 0) (raw : ℕ) :
    storedInt t raw = t.meaning raw ↔ t.plain raw := by
  cases t with
  | sint32 => exact decodeZigzag32_eq_iff raw
  | sint64 => exact decodeZigzag64_eq_iff raw
  | int32 =>
      simp only [storedInt, FieldType.meaning, FieldType.plain, lowSigned, bmod_32]
      split <;> split <;> omega
  | int64 =>
      simp only [storedInt, FieldType.meaning, FieldType.plain, lowSigned, bmod_64]
      split <;> split <;> omega
  | enum e =>
      simp only [storedInt, FieldType.meaning, FieldType.plain, lowSigned, bmod_32]
      split <;> omega
  | bool =>
      simp only [storedInt, FieldType.meaning, FieldType.plain]
      split <;> omega
  | uint32 | uint64 =>
      simp only [storedInt, FieldType.meaning, FieldType.plain]
      omega
  | _ => simp [FieldType.wire] at ht

theorem FieldType.meaning_inRange {t : FieldType} (ht : t.wire = 0) (raw : ℕ) :
    t.inRange (t.meaning raw) := by
  cases t with
  | sint32 | sint64 =>
      simp only [inRange, meaning, unzigzag]
      split <;> omega
  | int32 | enum e =>
      simp only [inRange, meaning, lowSigned, bmod_32]
      split <;> omega
  | int64 =>
      simp only [inRange, meaning, lowSigned, bmod_64]
      split <;> omega
  | bool =>
      simp only [inRange, meaning]
      split <;> simp
  | uint32 | uint64 =>
      simp only [inRange, meaning]
      omega
  | _ => simp [wire] at ht

/-! ### At any depth -/

/-- The scalars of a trace, map keys included. -/
inductive Traced.Leaf : Traced → Traced → Prop where
  | varint (t : FieldType) (raw : ℕ) : Leaf (.varint t raw) (.varint t raw)
  | other (v : Val) : Leaf (.other v) (.other v)
  | item {x y : Traced} {xs : List Traced} (hy : y ∈ xs) (h : Leaf x y) : Leaf x (.arr xs)
  | key {x key value : Traced} (h : Leaf x key) : Leaf x (.entry key value)
  | value {x key value : Traced} (h : Leaf x value) : Leaf x (.entry key value)
  | entry {x y : Traced} {k : PerlStr} {es : List (PerlStr × Traced)}
      (hy : Assoc.find es k = some y) (h : Leaf x y) : Leaf x (.map es)
  | field {x y : Traced} {cls : String} {name : PerlStr} {fs : List (PerlStr × Traced)}
      {u : Option PerlStr} (hy : Assoc.find fs name = some y) (h : Leaf x y) :
      Leaf x (.msg cls fs u)

/-- Every varint of the trace is stored as the number it means, in the range of
its type. -/
def Traced.Meant (T : Traced) : Prop :=
  ∀ t raw, Leaf (.varint t raw) T →
    (varintValue t raw).IsNum (t.meaning raw) ∧ t.inRange (t.meaning raw)

def Traced.Plain (T : Traced) : Prop := ∀ t raw, Leaf (.varint t raw) T → t.plain raw

theorem varintValue_isNum_iff (t : FieldType) (raw : ℕ) (n : ℤ) :
    (varintValue t raw).IsNum n ↔ storedInt t raw = n := by
  constructor
  · intro h
    exact (varintValue_isNum t raw).inj h
  · rintro rfl
    exact varintValue_isNum t raw

theorem Traced.Typed.leaf_wire {S : Pool} {sh : Shape} {t : FieldType} {T : Traced}
    (h : T.Typed S sh t) {t' : FieldType} {raw : ℕ} (hleaf : Leaf (.varint t' raw) T) :
    t'.wire = 0 := by
  induction h with
  | varint ht _ =>
      cases hleaf
      exact ht
  | fixed64 => cases hleaf
  | fixed32 => cases hleaf
  | text => cases hleaf
  | default => cases hleaf
  | @msg cls fs u hnd hknown hfield hunknown ih =>
      cases hleaf with
      | @field _ y _ name _ _ hy hinner =>
          have hname : (S.descriptor cls).findFieldByName name ≠ none := by
            refine hknown name ?_
            by_contra hmem
            rw [← Assoc.find_eq_none_iff, hy] at hmem
            cases hmem
          obtain ⟨f, hf⟩ := Option.ne_none_iff_exists'.mp hname
          obtain ⟨hfmem, rfl⟩ := MessageDef.findFieldByName_eq_some.mp hf
          exact ih f hfmem y hy hinner
  | repeated _ ih =>
      cases hleaf with
      | item hy hinner => exact ih _ hy hinner
  | map hentry hnd hpart hkey hvalue ihkey ihvalue =>
      cases hleaf with
      | entry hy hinner =>
          obtain ⟨key, value, rfl, -⟩ := hpart _ _ hy
          cases hinner with
          | key hinner => exact ihkey _ _ _ hy hinner
          | value hinner => exact ihvalue _ _ _ hy hinner

/-- The varints stored in a parsed message are all stored as they are meant
exactly when each of them is one that its type's rule reads as it is meant. -/
theorem parse_meant_iff {S : Pool} {cls : String} {b : PerlStr} {m : Msg} (ho : IsOctets b)
    (hwires : DeclaredWires S cls b) (h : parse S cls b = .ok m) :
    ∃ T, WireRun anyWire S b (.create cls) T ∧ T.Typed S ∧ T.erase = m ∧
      (T.toTraced.Meant ↔ T.toTraced.Plain) := by
  obtain ⟨T, hrun, htyped, hcls, herase⟩ := wireRun_of_parse ho hwires h
  refine ⟨T, hrun, htyped, herase, ?_⟩
  constructor
  · intro hmeant t raw hleaf
    have hnum := (hmeant t raw hleaf).1
    rw [varintValue_isNum_iff, storedInt_eq_meaning_iff (htyped.leaf_wire hleaf)] at hnum
    exact hnum
  · intro hplain t raw hleaf
    have hwire := htyped.leaf_wire hleaf
    refine ⟨?_, FieldType.meaning_inRange hwire raw⟩
    rw [varintValue_isNum_iff, storedInt_eq_meaning_iff hwire]
    exact hplain t raw hleaf

/-- A message type with one enum field. -/
def enumPool : Pool where
  descriptor _ := { fields := [⟨ps "kind", 1, .enum none, .optional⟩] }

/-- A message of this type whose number came from the varint `raw`. -/
def tracedKind (raw : ℕ) : TracedMsg := ⟨"Event", [(ps "kind", .varint (.enum none) raw)], none⟩

theorem parse_meant_iff_seven :
    ∃ T, WireRun anyWire enumPool [8, 7] (.create "Event") T ∧ T.Typed enumPool ∧
      T.erase = (tracedKind 7).erase ∧ (T.toTraced.Meant ↔ T.toTraced.Plain) := by
  have hrun : WireRun anyWire enumPool [8, 7] (.create "Event") (tracedKind 7) :=
    .scalar (show decodeVarint [8, 7] = .ok (8, [7]) from rfl)
      (f := ⟨ps "kind", 1, .enum none, .optional⟩) rfl rfl
      (show readScalar (.enum none) [7] = some (.varint (.enum none) 7, []) from rfl)
      (fun _ _ => trivial) (.nil _)
  exact parse_meant_iff (by decide) (hrun.declaredWires (by decide)) (hrun.parse (by decide)).2.2

/-- The number -1 that `serialize` wrote comes back as 2^64 - 1. -/
theorem parse_negative_enum :
    ∃ b T, serialize enumPool ⟨"Event", [(ps "kind", .iv (-1))], none⟩ = .ok b ∧
      WireRun anyWire enumPool b (.create "Event") T ∧
      parse enumPool "Event" b = .ok T.erase ∧
      T.erase.fields = [(ps "kind", .big 18446744073709551615)] ∧ ¬ T.toTraced.Meant := by
  have hrun : WireRun anyWire enumPool [8, 255, 255, 255, 255, 255, 255, 255, 255, 255, 1]
      (.create "Event") (tracedKind 18446744073709551615) :=
    .scalar
      (show decodeVarint _ = .ok (8, [255, 255, 255, 255, 255, 255, 255, 255, 255, 1]) from rfl)
      (f := ⟨ps "kind", 1, .enum none, .optional⟩) rfl rfl
      (show readScalar (.enum none) _ =
        some (.varint (.enum none) 18446744073709551615, []) from rfl)
      (fun _ _ => trivial) (.nil _)
  refine ⟨_, _, by decide +kernel, hrun, (hrun.parse (by decide)).2.2, ?_, ?_⟩
  · simp [tracedKind, TracedMsg.erase, eraseEntries, Traced.erase, varintValue]
  · intro hmeant
    have hnum := (hmeant (.enum none) 18446744073709551615
      (.field
        (show Assoc.find (tracedKind 18446744073709551615).fields (ps "kind") = some _ from rfl)
        (.varint _ _))).1
    rw [varintValue_isNum_iff, storedInt_eq_meaning_iff rfl] at hnum
    simp [FieldType.plain] at hnum

end GooglePerl.Protobuf
