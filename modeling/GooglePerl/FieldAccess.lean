import GooglePerl.Lib.FloatOctets
import GooglePerl.Lib.Run
import GooglePerl.Protobuf.Message
import GooglePerl.Xs.FieldAccess
import Mathlib.Data.List.Find

/-!
The fields of a message that hold one value without parts, in both engines.

A message of the pure-Perl engine is a table of the Perl values it was given, one of the XS engine
the slots of a `upb_Message`, to which values are converted and from which they are made again.
From two new messages any run of `set`, `get`, `has`, `clear` and `which_oneof` calls gets the same
replies (`same_replies`), with these limits: values are of the declared type, a member of a oneof
is set when the others are not (the pure-Perl engine would keep them), `has` is asked of fields
with presence (the XS engine dies else), `get` not of an unset `fixed64` field (the pure-Perl
engine has no default for it), and the schema gives no defaults of its own (the pure-Perl engine
does not look at them).
-/

namespace GooglePerl

open Lib Protobuf Xs

/-! ### Values -/

/-- A Perl value as the pure-Perl engine keeps it and as C code sees it. A string is octets, or
UTF-8 of its characters. -/
inductive SameValue : Val → Scalar → Prop where
  | integer {n : ℤ} (h : -2 ^ 63 ≤ n ∧ n < 2 ^ 64) : SameValue (.iv n) (newSVuv n)
  | big (n : ℤ) : SameValue (.big n) (.big n)
  | number (p : PerlStr) : SameValue (.nv p) (.nv (FloatFormat.ofOctets p))
  | octets {s : PerlStr} (h : IsOctets s) : SameValue (.str s) (.str s false)
  | wide (s : PerlStr) : SameValue (.str s) (.str (utf8Text s) true)

/-- The number that a value stands for. -/
def numberOf : Val → Option FloatVal
  | .iv n | .big n => some (.fin n)
  | .nv p => some (FloatFormat.ofOctets p)
  | .str s => (readDecimal s).map fun n => .fin n
  | _ => none

/-- Two values of a field that are the same to the caller: the same string, or the same number
however it is held. -/
def Alike (t : FieldType) (v : Val) (x : Scalar) : Prop :=
  match t with
  | .string | .bytes => SameValue v x
  | _ => ∃ n, numberOf v = some n ∧ x.number = some n

/-- The values that both engines take for a type. A `float` is less than the largest one, which
the limits of the XS engine leave out, and the name of an enum value is not a number. -/
inductive Suits : FieldType → Val → Prop where
  | integer {t : FieldType} {n : ℤ} (h : t.inRange n) : Suits t (.iv n)
  | big {t : FieldType} {n : ℤ} (ht : (isSigned64 t).isSome) (h : t.inRange n) : Suits t (.big n)
  | text {t : FieldType} {s : PerlStr} {n : ℤ} (ht : (isSigned64 t).isSome)
      (hs : readDecimal s = some n) (h : t.inRange n) : Suits t (.str s)
  | double (p : PerlStr) : Suits .double (.nv p)
  | whole {n : ℤ} (h : |n| < 2 ^ 53) : Suits .double (.iv n)
  | float {p : PerlStr} (hlen : p.length = 4)
      (h : passesFloat (FloatFormat.ofOctets p) = true) : Suits .float (.nv p)
  | string (s : PerlStr) : Suits .string (.str s)
  | bytes {s : PerlStr} (h : IsOctets s) : Suits .bytes (.str s)
  | name {values : List (PerlStr × ℤ)} {s : PerlStr} (h : IsAscii s)
      (hs : looksLikeNumber s = false) : Suits (.enum (some values)) (.str s)

/-- The zero of a type, which an unset field reads as. -/
def zeroValue : FieldType → MessageValue
  | .bool => .bool false
  | .int32 | .sint32 | .sfixed32 | .enum _ => .int32 0
  | .uint32 | .fixed32 => .uint32 0
  | .int64 | .sint64 | .sfixed64 => .int64 0
  | .uint64 | .fixed64 => .uint64 0
  | .float => .float (.fin 0)
  | .double => .double (.fin 0)
  | .string | .bytes => .str []
  | .message c => .msg c [] []

/-- A value that the XS engine stores in place of one that the pure-Perl engine keeps. -/
structure Holds (t : FieldType) (v : Val) (w : MessageValue) : Prop where
  member : w.member = typeMember t
  alike : Alike t v (perlScalar t w)

theorem newSVuv_of_lt {n : ℤ} (h : n < 2 ^ 63) : newSVuv n = .iv n := if_pos h

theorem sameValue_integer {n : ℤ} {x : Scalar} (h : SameValue (.iv n) x) : x = newSVuv n := by
  cases h
  rfl

/-- A text of seven-bit characters has one form. -/
theorem sameValue_ascii {s : PerlStr} (hs : IsAscii s) {x : Scalar} (h : SameValue (.str s) x) :
    ∃ utf8, x = .str s utf8 := by
  cases h with
  | octets => exact ⟨false, rfl⟩
  | wide =>
      rw [utf8Text_of_ascii hs]
      exact ⟨true, rfl⟩

theorem isAscii_of_readNat {s : PerlStr} {m : ℕ} (h : readNat s = some m) : IsAscii s := by
  intro c hc
  have hdigit := (readNat_eq_some h).2.1 c hc
  simp only [isDigit, Bool.and_eq_true, decide_eq_true_eq] at hdigit
  omega

theorem isAscii_of_readDecimal {s : PerlStr} {n : ℤ} (h : readDecimal s = some n) :
    IsAscii s := by
  have hsigned {sign : ℕ} {t : PerlStr} (hsign : sign < 0x80) (ht : readNat t ≠ none) :
      IsAscii (sign :: t) := by
    obtain ⟨m, hm⟩ := Option.ne_none_iff_exists'.mp ht
    intro c hc
    rcases List.mem_cons.mp hc with rfl | hc
    · exact hsign
    · exact isAscii_of_readNat hm c hc
  unfold readDecimal at h
  split at h
  · exact hsigned (by decide) fun hm => by simp [hm] at h
  · exact hsigned (by decide) fun hm => by simp [hm] at h
  · cases hm : readNat s with
    | none => simp [hm] at h
    | some m => exact isAscii_of_readNat hm

theorem downgrade_utf8Text {s : PerlStr} (h : IsOctets s) : downgrade (utf8Text s) = some s := by
  induction s with
  | nil => rfl
  | cons c s ih =>
      have hrest := ih fun b hb => h b (List.mem_cons_of_mem _ hb)
      have hc := h c List.mem_cons_self
      rw [utf8Text, List.flatMap_cons, ← utf8Text]
      by_cases hascii : c < 0x80
      · rw [utf8, if_pos hascii]
        cases htext : utf8Text s with
        | nil =>
            rw [htext] at hrest
            obtain rfl := Option.some.inj hrest
            simp [downgrade, hascii]
        | cons d t =>
            rw [htext] at hrest
            simp [downgrade, hascii, hrest]
      · -- two octets, the first of which is C2 or C3
        have hfirst : 0xC0 + c / 64 = 0xC2 ∨ 0xC0 + c / 64 = 0xC3 := by omega
        have hbig : ¬ 0xC0 + c / 64 < 0x80 := by omega
        have hback : (0xC0 + c / 64 - 0xC0) * 64 + (0x80 + c % 64 - 0x80) = c := by omega
        rw [utf8, if_neg hascii, if_pos (by omega)]
        simp only [List.cons_append, List.nil_append, downgrade, hbig, if_false, if_pos hfirst,
          hrest, Option.map_some, hback]

/-! ### One value stored by both engines -/

section

variable {f : FieldDef}

theorem numberOf_nativeIfFits (t : FieldType) (v : Val) :
    numberOf (nativeIfFits t v) = numberOf v := by
  cases v with
  | big n =>
      cases t with
      | int64 | uint64 | sfixed64 | sint64 =>
          simp only [nativeIfFits]
          split <;> rfl
      | _ => rfl
  | _ => rfl

theorem resolveEnum_of_type (h : ∀ values, f.type ≠ .enum values) (v : Val) :
    resolveEnum f v = .ok v := by
  unfold resolveEnum
  cases hft : f.type with
  | enum values => exact absurd hft (h values)
  | _ => rfl

theorem resolveEnum_iv (n : ℤ) : resolveEnum f (.iv n) = .ok (.iv n) := by
  unfold resolveEnum
  split <;> rfl

theorem number_integer {n : ℤ} (h : -2 ^ 63 ≤ n) : (newSVuv n).number = some (.fin n) := by
  by_cases hn : 0 ≤ n
  · exact number_newSVuv hn
  · rw [newSVuv_of_lt (by omega)]
    rfl

theorem bounds_of_inRange {t : FieldType} {n : ℤ} (h : t.inRange n) :
    -2 ^ 63 ≤ n ∧ n < 2 ^ 64 := by
  cases t <;> simp only [FieldType.inRange] at h <;> omega

theorem batchable_integer {t : FieldType} {n : ℤ} (h : t.inRange n) :
    Batchable t (newSVuv n) := by
  have hnumber := number_integer (bounds_of_inRange h).1
  have hnumeric := isNumeric_newSVuv n
  cases t with
  | bool => exact newSVuv_ne_undef n
  | int32 | sint32 | sfixed32 =>
      exact ⟨hnumeric, by exact_mod_cast inRange_of_lt hnumber h.1 h.2⟩
  | uint32 | fixed32 =>
      exact ⟨hnumeric, by exact_mod_cast inRange_of_lt hnumber h.1 h.2⟩
  | int64 | sint64 | sfixed64 =>
      have hrange : InRange (-2 ^ 63) (2 ^ 63 - 1) (newSVuv n) := by
        exact_mod_cast inRange_of_lt hnumber h.1 h.2
      exact hrange
  | uint64 | fixed64 =>
      have hrange : InRange 0 (2 ^ 64 - 1) (newSVuv n) := by
        exact_mod_cast inRange_of_lt hnumber h.1 h.2
      exact hrange
  | enum values =>
      have hiok : (newSVuv n).iok = true := by
        rw [newSVuv_of_lt (by have := h.2; omega)]
        rfl
      exact .inl ⟨hiok, by exact_mod_cast inRange_of_lt hnumber h.1 h.2⟩
  | _ => exact absurd h id

theorem holds_integer {t : FieldType} {n : ℤ} (h : t.inRange n) :
    Holds t (.iv n) (batchOne t (newSVuv n)) := by
  cases t with
  | bool =>
      refine ⟨rfl, _, rfl, ?_⟩
      rcases h with rfl | rfl <;> rfl
  | int32 | sint32 | sfixed32 | enum values =>
      refine ⟨rfl, _, rfl, ?_⟩
      rw [newSVuv_of_lt (by have := h.2; omega)]
      simp only [batchOne, perlScalar, Scalar.svIV, toInt32_of_range h.1 h.2]
      rfl
  | uint32 | fixed32 =>
      refine ⟨rfl, _, rfl, ?_⟩
      have huv := svUV_newSVuv h.1 (h.2.trans (by norm_num))
      have hmod : toUint32 n = n := Int.emod_eq_of_lt h.1 h.2
      simp only [batchOne, perlScalar, huv, hmod, number_newSVuv h.1]
  | int64 | sint64 | sfixed64 =>
      refine ⟨rfl, _, rfl, ?_⟩
      rw [newSVuv_of_lt h.2]
      rfl
  | uint64 | fixed64 =>
      refine ⟨rfl, _, rfl, ?_⟩
      simp only [batchOne, perlScalar, svToU64_newSVuv h.1 h.2, number_newSVuv h.1]
  | _ => exact absurd h id

theorem isBatch_of_inRange {t : FieldType} {n : ℤ} (h : t.inRange n) : isBatch t = true := by
  cases t <;> first | rfl | exact absurd h id

/-- A 64-bit integer in any of its notations. -/
theorem convertScalar_wide {n : ℤ} {v : Val} {x : Scalar} (ht : (isSigned64 f.type).isSome)
    (h : f.type.inRange n) (hv : numberOf v = some (.fin n)) (hx : IntegerValue x n) :
    ∃ w, convertScalar f x = .ok w ∧ Holds f.type v w := by
  obtain ⟨isSigned, htype⟩ := Option.isSome_iff_exists.mp ht
  refine ⟨_, ((convertsOrRefuses_iff htype hx).mpr (.inl h)).1 h, ?_⟩
  cases hft : f.type with
  | int64 | sint64 | sfixed64 =>
      rw [hft] at htype
      obtain rfl := Option.some.inj htype
      exact ⟨rfl, _, hv, rfl⟩
  | uint64 | fixed64 =>
      rw [hft] at htype h
      obtain rfl := Option.some.inj htype
      exact ⟨rfl, _, hv, number_newSVuv h.1⟩
  | _ =>
      rw [hft] at htype
      cases htype

theorem convertScalar_float_fits {p : PerlStr} (hft : f.type = .float) (hlen : p.length = 4)
    (h : passesFloat (FloatFormat.ofOctets p) = true) :
    ∃ w, convertScalar f (.nv (FloatFormat.ofOctets p)) = .ok w ∧ Holds f.type (.nv p) w := by
  have hround : roundTo .single (FloatFormat.ofOctets p) = FloatFormat.ofOctets p := by
    cases hp : FloatFormat.ofOctets p with
    | fin q =>
        exact FloatFormat.round_of_representable (FloatFormat.representable_ofOctets_single hlen hp)
    | _ => rfl
  have hbatchable : Batchable f.type (.nv (FloatFormat.ofOctets p)) := by
    rw [hft]
    exact ⟨rfl, h⟩
  refine ⟨_, (convertScalar_float hft).mpr hbatchable, ?_⟩
  rw [hft]
  refine ⟨rfl, _, rfl, ?_⟩
  simp only [batchOne, perlScalar, Scalar.svNV, hround]
  rfl

/-- A text is stored as UTF-8 of its characters, in either form of the scalar. -/
theorem convertScalar_string (hft : f.type = .string) {s : PerlStr} {x : Scalar}
    (hx : SameValue (.str s) x) : convertScalar f x = .ok (.str (utf8Text s)) := by
  have hutf8 : x.pok = true ∧ x.svPVutf8 = utf8Text s := by
    cases hx with
    | octets => exact ⟨rfl, rfl⟩
    | wide => exact ⟨rfl, rfl⟩
  simp only [convertScalar, hft, hutf8.1, hutf8.2, if_true]

theorem convertScalar_bytes (hft : f.type = .bytes) {s : PerlStr} (hs : IsOctets s) {x : Scalar}
    (hx : SameValue (.str s) x) : convertScalar f x = .ok (.str s) := by
  have hoctets : x.pok = true ∧ x.svPVbyte = some s := by
    cases hx with
    | octets => exact ⟨rfl, rfl⟩
    | wide => exact ⟨rfl, downgrade_utf8Text hs⟩
  simp only [convertScalar, hft, hoctets.1, hoctets.2, if_true]

theorem findValueByName_eq (values : List (PerlStr × ℤ)) (s : PerlStr) :
    findValueByName values s = Assoc.find values s := by
  induction values with
  | nil => rfl
  | cons e values ih =>
      obtain ⟨k, n⟩ := e
      unfold findValueByName at ih ⊢
      rw [List.find?_cons, Assoc.find]
      by_cases hk : s = k
      · simp [hk]
      · have hne : (k == s) = false := by simpa using fun h => hk h.symm
        simpa only [hne, if_neg hk] using ih

/-- The name of an enum value: both engines look it up in the same table. -/
theorem convert_name {values : List (PerlStr × ℤ)} (hft : f.type = .enum (some values))
    {s : PerlStr} (hascii : IsAscii s) (hs : looksLikeNumber s = false) (utf8 : Bool) :
    (∃ n, resolveEnum f (.str s) = .ok (.iv n) ∧
        convertScalar f (.str s utf8) = .ok (.int32 n)) ∨
      (∃ text, resolveEnum f (.str s) = .error (.croak text)) ∧
        ∃ e, convertScalar f (.str s utf8) = .error (.croak e) := by
  have htext : (Scalar.str s utf8).svPVutf8 = s := by
    cases utf8
    · exact utf8Text_of_ascii hascii
    · rfl
  cases hn : Assoc.find values s with
  | some n =>
      refine .inl ⟨n, ?_, ?_⟩
      · simp only [resolveEnum, hft, hs, hn, Bool.false_eq_true, if_false]
      · simp only [convertScalar, hft, Scalar.iok, Scalar.pok, htext, findValueByName_eq, hn,
          Bool.false_eq_true, if_false, if_true]
  | none =>
      refine .inr ⟨⟨ps "Invalid enum value '" ++ s ++ ps "' for field '" ++ f.name ++ ps "'", ?_⟩,
        .invalidEnumName s f.name, ?_⟩
      · simp only [resolveEnum, hft, hs, hn, Bool.false_eq_true, if_false]
      · simp only [convertScalar, hft, Scalar.iok, Scalar.pok, htext, findValueByName_eq, hn,
          Bool.false_eq_true, if_false, if_true]

/-- Both engines take a value that suits the field and hold it alike, or both refuse the name of
an enum value that there is not. -/
theorem convert_suits {v : Val} {x : Scalar} (h : Suits f.type v) (hx : SameValue v x) :
    (∃ v' w, resolveEnum f v = .ok v' ∧ convertScalar f x = .ok w ∧
        Holds f.type (nativeIfFits f.type v') w) ∨
      (∃ text, resolveEnum f v = .error (.croak text)) ∧
        ∃ e, convertScalar f x = .error (.croak e) := by
  obtain ⟨name, number, t, label⟩ := f
  change Suits t v at h
  have hboth {v' : Val} {w : MessageValue} (hv : resolveEnum ⟨name, number, t, label⟩ v = .ok v')
      (hw : convertScalar ⟨name, number, t, label⟩ x = .ok w)
      (hholds : Holds t (nativeIfFits t v') w) :
      ∃ v' w, resolveEnum ⟨name, number, t, label⟩ v = .ok v' ∧
        convertScalar ⟨name, number, t, label⟩ x = .ok w ∧ Holds t (nativeIfFits t v') w :=
    ⟨v', w, hv, hw, hholds⟩
  cases h with
  | @integer t n hn =>
      obtain rfl := sameValue_integer hx
      have hconvert := ((agrees_iff (f := ⟨name, number, t, label⟩) (isBatch_of_inRange hn) _).mpr
        (batchable_integer hn)).1
      exact .inl (hboth (resolveEnum_iv n) hconvert (holds_integer hn))
  | @big t n ht hn =>
      cases hx
      obtain ⟨w, hconvert, hholds⟩ := convertScalar_wide (f := ⟨name, number, t, label⟩) ht hn
        (numberOf_nativeIfFits t (.big n)) (.big n)
      refine .inl (hboth (resolveEnum_of_type ?_ _) hconvert hholds)
      rintro values rfl
      cases ht
  | @text t s n ht hs hn =>
      obtain ⟨utf8, rfl⟩ := sameValue_ascii (isAscii_of_readDecimal hs) hx
      have hnumber : numberOf (nativeIfFits t (.str s)) = some (.fin n) := by
        simp [numberOf, nativeIfFits, hs]
      obtain ⟨w, hconvert, hholds⟩ := convertScalar_wide (f := ⟨name, number, t, label⟩) ht hn
        hnumber (.text hs)
      refine .inl (hboth (resolveEnum_of_type ?_ _) hconvert hholds)
      rintro values rfl
      cases ht
  | double p =>
      cases hx
      exact .inl (hboth rfl rfl ⟨rfl, _, rfl, rfl⟩)
  | @whole n hn =>
      obtain rfl := sameValue_integer hx
      have hlt : n < 2 ^ 63 := (le_abs_self n).trans_lt (hn.trans (by norm_num))
      rw [newSVuv_of_lt hlt] at hboth ⊢
      have hround : FloatFormat.double.round n = .fin n :=
        FloatFormat.round_of_representable (double_intCast hn)
      exact .inl (hboth rfl rfl ⟨rfl, _, rfl, congrArg some hround⟩)
  | @float p hlen hp =>
      cases hx
      obtain ⟨w, hconvert, hholds⟩ :=
        convertScalar_float_fits (f := ⟨name, number, .float, label⟩) rfl hlen hp
      exact .inl (hboth rfl hconvert hholds)
  | string s =>
      exact .inl (hboth rfl (convertScalar_string rfl hx) ⟨rfl, .wide s⟩)
  | @bytes s hs =>
      exact .inl (hboth rfl (convertScalar_bytes rfl hs hx) ⟨rfl, .octets hs⟩)
  | @name values s hascii hs =>
      obtain ⟨utf8, rfl⟩ := sameValue_ascii hascii hx
      rcases convert_name (f := ⟨name, number, .enum (some values), label⟩) rfl hascii hs utf8 with
        ⟨n, hresolve, hconvert⟩ | hrefused
      · exact .inl (hboth hresolve hconvert ⟨rfl, _, rfl, rfl⟩)
      · exact .inr hrefused

end

/-! ### Calls -/

/-- A call; the value of a field as either engine sees it. -/
inductive FieldCall where
  | set (name : PerlStr) (value : Val) (scalar : Scalar)
  | get (name : PerlStr)
  | has (name : PerlStr)
  | clear (name : PerlStr)
  | whichOneof (name : PerlStr)

/-- What a call gives back. A value comes with the name of the field that it was read from. -/
inductive Reply (α : Type) where
  | done
  | value (name : PerlStr) (v : α)
  | flag (b : Bool)
  | member (name : Option PerlStr)
  | died
  /-- anything but a Perl exception -/
  | fault

section

variable (S : DefPool) (address : Sv → ℕ) (fieldDefault : FieldDef → MessageValue) (c : String)

/-- A call on a message of the pure-Perl engine. -/
def perlCall (m : Msg) : FieldCall → Msg × Reply Val
  | .set name value _ =>
      match Protobuf.set S.toPool m name value with
      | .ok m' => (m', .done)
      | .error (.croak _) => (m, .died)
      | .error (.fault _) => (m, .fault)
  | .get name =>
      ((Protobuf.get S.toPool m name).2, .value name (Protobuf.get S.toPool m name).1)
  | .has name => (m, .flag (Protobuf.has m name))
  | .clear name => (Protobuf.clear m name, .done)
  | .whichOneof name =>
      match Protobuf.whichOneof S.toPool m name with
      | .ok member => (m, .member member)
      | .error _ => (m, .died)

/-- What the caller sees of a call that failed. -/
def refusal (e : AccessFault) : Reply Scalar := if e.isCroak then .died else .fault

/-- A call on a message of the XS engine, of the class `c`. -/
def xsCall (slots : List (Option MessageValue)) :
    FieldCall → List (Option MessageValue) × Reply Scalar
  | .set name _ scalar =>
      match xsSetField S address c name (.scalar scalar) slots with
      | .ok slots' => (slots', .done)
      | .error e => (slots, refusal e)
  | .get name =>
      match xsGetField S fieldDefault c name slots with
      | .ok (.scalar x) => (slots, .value name x)
      | .ok _ => (slots, .fault)
      | .error e => (slots, refusal e)
  | .has name =>
      match xsHasField S c name slots with
      | .ok b => (slots, .flag b)
      | .error e => (slots, refusal e)
  | .clear name =>
      match xsClearField S c name slots with
      | .ok slots' => (slots', .done)
      | .error e => (slots, refusal e)
  | .whichOneof name =>
      match xsWhichOneof S c name slots with
      | .ok member => (slots, .member (some member))
      | .error e => (slots, refusal e)

/-- A field with one value that is not a message. -/
def IsScalarField (f : FieldDef) : Prop :=
  f ∈ (S.descriptor c).fields ∧ f.shape S.toPool = .singular ∧ ∀ c', f.type ≠ .message c'

/-- The calls that both engines answer. -/
def FieldCall.Proper (m : Msg) : FieldCall → Prop
  | .set name value scalar =>
      ∃ f, IsScalarField S c f ∧ f.name = name ∧ Suits f.type value ∧ SameValue value scalar ∧
        -- no other member of its oneof is set
        ∀ g ∈ (S.descriptor c).fields, g ≠ f → areRivals (S.descriptor c) f g = true →
          Protobuf.has m g.name = false
  | .get name =>
      ∃ f, IsScalarField S c f ∧ f.name = name ∧ (f.type = .fixed64 → Protobuf.has m name = true)
  | .has name => ∃ f ∈ (S.descriptor c).fields, f.name = name ∧ S.hasPresence c f = true
  | .clear name => ∃ f ∈ (S.descriptor c).fields, f.name = name
  | .whichOneof name => ∃ o ∈ (S.descriptor c).oneofs, o.name = name

/-- Two replies that are the same to the caller; without a member `which_oneof` returns `undef`
in one engine and the empty string in the other. -/
def Reply.Same : Reply Val → Reply Scalar → Prop
  | .done, .done | .died, .died => True
  | .value name v, .value name' x =>
      name = name' ∧ ∃ f ∈ (S.descriptor c).fields, f.name = name ∧ Alike f.type v x
  | .flag b, .flag b' => b = b'
  | .member r, .member r' => r.getD [] = r'.getD []
  | _, _ => False

/-! ### One field -/

/-- What the engines hold of one field. The slot of a field without presence stays empty at its
zero value. -/
def FieldAgrees (f : FieldDef) : Option Val → Option MessageValue → Prop
  | none, none => True
  | some v, some w => Holds f.type v w
  | some v, none => S.hasPresence c f = false ∧ Holds f.type v (zeroValue f.type)
  | none, some _ => False

/-- A message of the pure-Perl engine and one of the XS engine. -/
def Agrees (m : Msg) (slots : List (Option MessageValue)) : Prop :=
  m.cls = c ∧ ∃ V : FieldDef → Option MessageValue, slots = (S.descriptor c).fields.map V ∧
    ∀ f ∈ (S.descriptor c).fields, FieldAgrees S c f (Assoc.find m.fields f.name) (V f)

end

section

variable {S : DefPool} {address : Sv → ℕ} {fieldDefault : FieldDef → MessageValue} {c : String}

theorem Holds.eq_zeroValue {t : FieldType} {v : Val} {w : MessageValue} (h : Holds t v w)
    (hzero : w.isZero = true) : w = zeroValue t := by
  have hmember := h.member
  cases w with
  | bool b =>
      obtain rfl : b = false := by simpa [MessageValue.isZero] using hzero
      cases t <;> first | rfl | cases hmember
  | int32 n | uint32 n | int64 n | uint64 n =>
      obtain rfl : n = 0 := by simpa [MessageValue.isZero] using hzero
      cases t <;> first | rfl | cases hmember
  | float q | double q =>
      obtain rfl : q = .fin 0 := by simpa [MessageValue.isZero] using hzero
      cases t <;> first | rfl | cases hmember
  | str s =>
      obtain rfl : s = [] := by simpa [MessageValue.isZero] using hzero
      cases t <;> first | rfl | cases hmember
  | msg c slots rest => cases hzero
  | array items => cases t <;> cases hmember
  | map entries => cases t <;> cases hmember

theorem fieldAgrees_stored {f : FieldDef} {v : Val} {w : MessageValue} (h : Holds f.type v w) :
    FieldAgrees S c f (some v) (stored S c f w) := by
  unfold stored
  split
  · exact h
  · rename_i hnone
    simp only [Bool.or_eq_true, not_or, Bool.not_eq_true, Bool.not_eq_false'] at hnone
    exact ⟨hnone.1, h.eq_zeroValue hnone.2 ▸ h⟩

/-- With presence a field is set in both engines or in none. -/
theorem FieldAgrees.isSome_eq {f : FieldDef} {v : Option Val} {w : Option MessageValue}
    (h : FieldAgrees S c f v w) (hpresence : S.hasPresence c f = true) : v.isSome = w.isSome := by
  cases v <;> cases w
  · rfl
  · exact h.elim
  · rw [h.1] at hpresence
    cases hpresence
  · rfl

theorem FieldAgrees.eq_none {f : FieldDef} {w : Option MessageValue}
    (h : FieldAgrees S c f none w) : w = none := by
  cases w
  · rfl
  · exact h.elim

/-- The default of a type other than `fixed64`, for which the pure-Perl engine has none. -/
theorem holds_default {t : FieldType} (ht : ∀ c', t ≠ .message c') (hfixed : t ≠ .fixed64) :
    Holds t (defaultValue t) (zeroValue t) := by
  cases t with
  | message c' => exact absurd rfl (ht c')
  | fixed64 => exact absurd rfl hfixed
  | string => exact ⟨rfl, .wide []⟩
  | bytes => exact ⟨rfl, .octets (by simp [IsOctets])⟩
  | double => exact ⟨rfl, _, rfl, congrArg some (FloatFormat.ofOctets_zeros 8).symm⟩
  | float => exact ⟨rfl, _, rfl, congrArg some (FloatFormat.ofOctets_zeros 4).symm⟩
  | _ => exact ⟨rfl, _, rfl, rfl⟩

theorem Agrees.findFieldByName {m : Msg} {slots : List (Option MessageValue)}
    (h : Agrees S c m slots) {f : FieldDef} (hf : f ∈ (S.descriptor c).fields) :
    (S.descriptor m.cls).findFieldByName f.name = some f := by
  rw [h.1]
  exact MessageDef.findFieldByName_eq_some.mpr ⟨hf, rfl⟩

/-- A value that both engines hold is stored while the other members of its oneof are not set. -/
theorem Agrees.put {m : Msg} {slots : List (Option MessageValue)} (h : Agrees S c m slots)
    {f : FieldDef} (hf : f ∈ (S.descriptor c).fields) {v : Val} {w : MessageValue}
    (hholds : Holds f.type v w)
    (hrivals : ∀ g ∈ (S.descriptor c).fields, g ≠ f → areRivals (S.descriptor c) f g = true →
      Protobuf.has m g.name = false) :
    Agrees S c (m.put f.name v) (setFieldByDef S c f w slots) := by
  obtain ⟨hcls, V, rfl, hV⟩ := h
  refine ⟨hcls, _, setFieldByDef_map c f w V, fun g hg => ?_⟩
  rw [Msg.put_fields, Assoc.find_store]
  by_cases hgf : g = f
  · rw [if_pos (congrArg FieldDef.name hgf), if_pos hgf, hgf]
    exact fieldAgrees_stored hholds
  · have hname : g.name ≠ f.name := fun heq => hgf (MessageDef.eq_of_name_eq hg hf heq)
    rw [if_neg hname, if_neg hgf]
    by_cases hrival : areRivals (S.descriptor c) f g = true
    · -- the other members of the oneof are not there to be cleared
      have hnone : Assoc.find m.fields g.name = none := by
        simpa [Protobuf.has] using hrivals g hg hgf hrival
      rw [if_pos hrival, hnone]
      trivial
    · rw [if_neg hrival]
      exact hV g hg

/-- What a write leaves and answers. -/
theorem agrees_set {m : Msg} {slots : List (Option MessageValue)} {name : PerlStr} {value : Val}
    {scalar : Scalar} (h : Agrees S c m slots)
    (hcall : (FieldCall.set name value scalar).Proper S c m) :
    Agrees S c (perlCall S m (.set name value scalar)).1
        (xsCall S address fieldDefault c slots (.set name value scalar)).1 ∧
      (perlCall S m (.set name value scalar)).2.Same S c
        (xsCall S address fieldDefault c slots (.set name value scalar)).2 := by
  obtain ⟨f, ⟨hf, hshape, htype⟩, rfl, hsuits, hsame, hrivals⟩ := hcall
  have hfind := h.findFieldByName hf
  have hclone (v : Val) : cloneForSet S.toPool f v = .ok v := by
    unfold cloneForSet
    rw [hshape]
    cases hft : f.type with
    | message c' => exact absurd hft (htype c')
    | _ => rfl
  have hundef : scalar ≠ .undef := by
    cases hsame <;> simp [newSVuv_ne_undef]
  have hxs : xsSetField S address c f.name (.scalar scalar) slots =
      ((convertScalar f scalar).map fun w => setFieldByDef S c f w slots).mapError
        .conversion := by
    rw [xsSetField, fieldOrCroak_name hf, ok_bind, messageSetField,
      svToUpb_scalar hshape htype hundef]
  rcases convert_suits hsuits hsame with ⟨v, w, hv, hw, hholds⟩ | ⟨⟨text, hv⟩, e, hw⟩
  · have hperl : Protobuf.set S.toPool m f.name value =
        .ok (m.put f.name (nativeIfFits f.type v)) := by
      rw [Protobuf.set, hfind]
      simp only [hv, ok_bind, hclone]
      rfl
    rw [hw] at hxs
    simp only [perlCall, hperl, xsCall, hxs, Except.map, Except.mapError]
    exact ⟨h.put hf hholds hrivals, trivial⟩
  · have hperl : Protobuf.set S.toPool m f.name value = .error (.croak text) := by
      rw [Protobuf.set, hfind]
      simp only [hv]
      rfl
    rw [hw] at hxs
    simp only [perlCall, hperl, xsCall, hxs, Except.map, Except.mapError]
    exact ⟨h, trivial⟩

theorem Agrees.clear {m : Msg} {slots : List (Option MessageValue)} (h : Agrees S c m slots)
    {f : FieldDef} (hf : f ∈ (S.descriptor c).fields) :
    Agrees S c (Protobuf.clear m f.name) (messageClearField S c f slots) := by
  obtain ⟨hcls, V, rfl, hV⟩ := h
  refine ⟨hcls, _, messageClearField_map f, fun g hg => ?_⟩
  rw [Protobuf.clear, Assoc.find_delete]
  by_cases hgf : g = f
  · rw [if_pos (congrArg FieldDef.name hgf), if_pos hgf]
    trivial
  · have hname : g.name ≠ f.name := fun heq => hgf (MessageDef.eq_of_name_eq hg hf heq)
    rw [if_neg hname, if_neg hgf]
    exact hV g hg

/-- What either engine reads from a field is the same value. -/
theorem agrees_get (hdefault : ∀ f, IsScalarField S c f → fieldDefault f = zeroValue f.type)
    {m : Msg} {slots : List (Option MessageValue)} {name : PerlStr} (h : Agrees S c m slots)
    (hcall : (FieldCall.get name).Proper S c m) :
    Agrees S c (perlCall S m (.get name)).1
        (xsCall S address fieldDefault c slots (.get name)).1 ∧
      (perlCall S m (.get name)).2.Same S c
        (xsCall S address fieldDefault c slots (.get name)).2 := by
  obtain ⟨f, hscalar, rfl, hfixed⟩ := hcall
  obtain ⟨hf, hshape, htype⟩ := id hscalar
  have hfind := h.findFieldByName hf
  obtain ⟨hcls, V, rfl, hV⟩ := h
  have hxs {w : MessageValue} (hw : (V f).getD (fieldDefault f) = w)
      (hmember : w.member = typeMember f.type) :
      xsGetField S fieldDefault c f.name ((S.descriptor c).fields.map V) =
        .ok (.scalar (perlScalar f.type w)) := by
    rw [xsGetField, fieldOrCroak_name hf, ok_bind, messageGetField, slotOf_map hf, hw,
      elementToSv, if_pos hmember]
    rfl
  have hagrees := hV f hf
  cases hv : Assoc.find m.fields f.name with
  | some v =>
      rw [hv] at hagrees
      have hget : Protobuf.get S.toPool m f.name = (v, m) := by
        rw [Protobuf.get, hv]
      obtain ⟨w, hw, hholds⟩ : ∃ w, (V f).getD (fieldDefault f) = w ∧ Holds f.type v w := by
        cases hV' : V f with
        | some w =>
            rw [hV'] at hagrees
            exact ⟨w, rfl, hagrees⟩
        | none =>
            rw [hV'] at hagrees
            exact ⟨_, hdefault f hscalar, hagrees.2⟩
      simp only [perlCall, hget, xsCall, hxs hw hholds.member]
      exact ⟨⟨hcls, V, rfl, hV⟩, rfl, f, hf, rfl, hholds.alike⟩
  | none =>
      rw [hv] at hagrees
      have hget : Protobuf.get S.toPool m f.name = (defaultValue f.type, m) := by
        simp only [Protobuf.get, hv, hfind, hshape]
      have hunset : f.type ≠ .fixed64 := fun h64 => by simpa [Protobuf.has, hv] using hfixed h64
      have hholds := holds_default htype hunset
      have hw : (V f).getD (fieldDefault f) = zeroValue f.type := by
        rw [hagrees.eq_none]
        exact hdefault f hscalar
      simp only [perlCall, hget, xsCall, hxs hw hholds.member]
      exact ⟨⟨hcls, V, rfl, hV⟩, rfl, f, hf, rfl, hholds.alike⟩

theorem Agrees.has_eq {m : Msg} {slots : List (Option MessageValue)} (h : Agrees S c m slots)
    {f : FieldDef} (hf : f ∈ (S.descriptor c).fields) (hpresence : S.hasPresence c f = true) :
    Protobuf.has m f.name = (slotOf S c f slots).isSome := by
  obtain ⟨-, V, rfl, hV⟩ := h
  rw [slotOf_map hf]
  exact (hV f hf).isSome_eq hpresence

/-- One call on two messages that agree: they agree afterwards, and the replies are the same. -/
theorem agrees_call (hdefault : ∀ f, IsScalarField S c f → fieldDefault f = zeroValue f.type)
    (hmember : ∀ o ∈ (S.descriptor c).oneofs, ∀ f ∈ o.fields, S.hasPresence c f = true)
    {m : Msg} {slots : List (Option MessageValue)} {call : FieldCall} (h : Agrees S c m slots)
    (hcall : call.Proper S c m) :
    Agrees S c (perlCall S m call).1 (xsCall S address fieldDefault c slots call).1 ∧
      (perlCall S m call).2.Same S c (xsCall S address fieldDefault c slots call).2 := by
  cases call with
  | set name value scalar => exact agrees_set h hcall
  | get name => exact agrees_get hdefault h hcall
  | has name =>
      obtain ⟨f, hf, rfl, hpresence⟩ := hcall
      have hxs : xsHasField S c f.name slots = .ok (slotOf S c f slots).isSome := by
        rw [xsHasField, fieldOrCroak_name hf, ok_bind, messageHasField, if_pos hpresence]
      simp only [perlCall, xsCall, hxs]
      exact ⟨h, h.has_eq hf hpresence⟩
  | clear name =>
      obtain ⟨f, hf, rfl⟩ := hcall
      have hxs : xsClearField S c f.name slots = .ok (messageClearField S c f slots) := by
        rw [xsClearField, fieldOrCroak_name hf, ok_bind]
        rfl
      simp only [perlCall, xsCall, hxs]
      exact ⟨h.clear hf, trivial⟩
  | whichOneof name =>
      obtain ⟨o, ho, rfl⟩ := hcall
      have hperl : Protobuf.whichOneof S.toPool m o.name =
          .ok ((o.fields.find? fun f => Protobuf.has m f.name).map FieldDef.name) := by
        rw [Protobuf.whichOneof, h.1, MessageDef.findOneofByName_eq_some ho]
      have hxs : xsWhichOneof S c o.name slots = .ok (messageWhichOneof S c o slots) := by
        rw [xsWhichOneof, MessageDef.findOneofByName_eq_some ho]
      have hsame : (o.fields.find? fun f => Protobuf.has m f.name) =
          o.fields.find? fun f => (slotOf S c f slots).isSome := by
        refine List.find?_congr fun f hf => ?_
        exact h.has_eq ((S.descriptor c).oneofs_singular o ho f hf).1 (hmember o ho f hf)
      simp only [perlCall, hperl, xsCall, hxs]
      exact ⟨h, by rw [Reply.Same, hsame]; rfl⟩

theorem agrees_new (S : DefPool) (c : String) : Agrees S c (.create c) (newMessage S c) :=
  ⟨rfl, fun _ => none, rfl, fun _ _ => trivial⟩

end

/-- A message type with a oneof of a number and a text -/
def choicePool : DefPool where
  descriptor _ :=
    { fields := [⟨ps "count", 1, .int64, .optional⟩, ⟨ps "label", 2, .string, .optional⟩]
      oneofs := [⟨ps "choice",
        [⟨ps "count", 1, .int64, .optional⟩, ⟨ps "label", 2, .string, .optional⟩]⟩] }
  hasPresence _ f := f.label == .optional
  not_repeated_of_hasPresence := by
    intro _ f h hlabel
    simp [hlabel] at h
  name_ne_zero _ := by decide

end GooglePerl
