import GooglePerl.Protobuf.Scalars
import GooglePerl.Xs.SvToUpb
import Mathlib.Data.List.TakeWhile

/-!
64-bit integers given to a field of the XS engine.

`verify_limits_64` refuses negative native numbers for unsigned fields and nothing else. What is
left to `SvIV`, `strtoll` and `strtoull` is stored even where these wrap around or stop at the end
of their range, so a value is stored exactly or refused just if it is in range, or is a native
integer given to an unsigned field (`exactOrRefused_iff`).
-/

namespace GooglePerl.Xs

open GooglePerl.Lib GooglePerl.Protobuf

/-- The ways to write an integer down in Perl -/
inductive IntegerValue : Scalar → ℤ → Prop where
  | iv {n : ℤ} (h : -2 ^ 63 ≤ n ∧ n < 2 ^ 63) : IntegerValue (.iv n) n
  | uv {n : ℕ} (h : 2 ^ 63 ≤ n ∧ n < 2 ^ 64) : IntegerValue (.uv n) n
  | text {pv : PerlStr} {utf8 : Bool} {n : ℤ} (h : readDecimal pv = some n) :
      IntegerValue (.str pv utf8) n
  | big (n : ℤ) : IntegerValue (.big n) n

/-- Whether a declared type is one of the 64-bit integers, and then whether it is signed -/
def isSigned64 : FieldType → Option Bool
  | .int64 | .sint64 | .sfixed64 => some true
  | .uint64 | .fixed64 => some false
  | _ => none

/-- The member of the union that holds it -/
def wideValue (isSigned : Bool) (n : ℤ) : MessageValue :=
  if isSigned then .int64 n else .uint64 n

section

variable (S : DefPool) (address : Sv → ℕ)

/-- `PerlUpb_Message_SetField`: a croak of the conversion comes before anything is stored. -/
def messageSetField (c : String) (f : FieldDef) (sv : Sv) (slots : List (Option MessageValue)) :
    Except Fault (List (Option MessageValue)) :=
  (svToUpb S address f sv).map fun v => setFieldByDef S c f v slots

/-- An integer of the declared type is stored as it is, and any other one is refused. -/
def ExactOrRefused (isSigned : Bool) (f : FieldDef) (x : Scalar) (n : ℤ) : Prop :=
  ∀ c slots,
    (f.type.inRange n →
      messageSetField S address c f (.scalar x) slots =
        .ok (setFieldByDef S c f (wideValue isSigned n) slots)) ∧
    (¬ f.type.inRange n → ∃ e, messageSetField S address c f (.scalar x) slots = .error (.croak e))

end

/-! ### Reading a text -/

theorem readNat_eq_some {s : PerlStr} {m : ℕ} (h : readNat s = some m) :
    s ≠ [] ∧ (∀ c ∈ s, isDigit c = true) ∧ digitsValue s = m := by
  rw [readNat] at h
  split at h
  · rename_i hs
    exact ⟨hs.1, List.all_eq_true.mp hs.2, Option.some.inj h⟩
  · cases h

theorem dropWhile_isSpace_cons {c : ℕ} (h : isSpace c = false) (s : PerlStr) :
    (c :: s).dropWhile isSpace = c :: s := by
  rw [List.dropWhile_cons_of_neg (by simp [h])]

theorem splitSign_of_isDigit {c : ℕ} (h : isDigit c = true) (s : PerlStr) :
    splitSign (c :: s) = (false, c :: s) := by
  simp only [isDigit, Bool.and_eq_true, decide_eq_true_eq] at h
  have hminus : c ≠ 45 := by omega
  have hplus : c ≠ 43 := by omega
  unfold splitSign
  split
  · simp_all
  · simp_all
  · rfl

theorem digitsValue_takeWhile {s : PerlStr} {m : ℕ} (h : readNat s = some m) :
    digitsValue (s.takeWhile isDigit) = m := by
  obtain ⟨-, hdigits, hvalue⟩ := readNat_eq_some h
  rw [List.takeWhile_eq_self_iff.mpr hdigits, hvalue]

/-- `strtoll` reads a decimal text to its end. -/
theorem cIntegerPrefix_of_readDecimal {s : PerlStr} {n : ℤ} (h : readDecimal s = some n) :
    cIntegerPrefix s = n := by
  unfold readDecimal at h
  split at h
  · rename_i t
    cases hm : readNat t with
    | none => simp [hm] at h
    | some m =>
        obtain rfl : -(m : ℤ) = n := by simpa [hm] using h
        simp [cIntegerPrefix, dropWhile_isSpace_cons (show isSpace 45 = false from rfl), splitSign,
          digitsValue_takeWhile hm, applySign]
  · rename_i t
    cases hm : readNat t with
    | none => simp [hm] at h
    | some m =>
        obtain rfl : (m : ℤ) = n := by simpa [hm] using h
        simp [cIntegerPrefix, dropWhile_isSpace_cons (show isSpace 43 = false from rfl), splitSign,
          digitsValue_takeWhile hm, applySign]
  · cases hm : readNat s with
    | none => simp [hm] at h
    | some m =>
        obtain rfl : (m : ℤ) = n := by simpa [hm] using h
        obtain ⟨hne, hdigits, -⟩ := readNat_eq_some hm
        obtain ⟨c, t, rfl⟩ := List.exists_cons_of_ne_nil hne
        have hc := hdigits c List.mem_cons_self
        simp only [cIntegerPrefix, dropWhile_isSpace_cons (isSpace_of_isDigit hc),
          splitSign_of_isDigit hc, digitsValue_takeWhile hm, applySign, Bool.false_eq_true,
          if_false]

/-! ### The conversions -/

/-- `PerlUpb_SVToI64` is exact on the integers of its range. -/
theorem IntegerValue.svToI64 {x : Scalar} {n : ℤ} (hx : IntegerValue x n)
    (hn : -2 ^ 63 ≤ n ∧ n < 2 ^ 63) : x.svToI64 = n := by
  cases hx with
  | iv h => rfl
  | uv h => omega
  | text h =>
      simp only [Scalar.svToI64, Scalar.iok, cIntegerPrefix_of_readDecimal h]
      simp only [Bool.false_eq_true, if_false]
      omega
  | big n =>
      simp only [Scalar.svToI64, Scalar.iok]
      simp only [Bool.false_eq_true, if_false]
      omega

theorem IntegerValue.svToU64 {x : Scalar} {n : ℤ} (hx : IntegerValue x n)
    (hn : 0 ≤ n ∧ n < 2 ^ 64) : x.svToU64 = n := by
  have habs : |n| < 2 ^ 64 := by rw [abs_of_nonneg hn.1]; exact hn.2
  have hmod : n % 2 ^ 64 = n := Int.emod_eq_of_lt hn.1 hn.2
  cases hx with
  | iv h => exact hmod
  | uv h => exact hmod
  | text h =>
      simp only [Scalar.svToU64, Scalar.iok, cIntegerPrefix_of_readDecimal h]
      simp only [Bool.false_eq_true, if_false, if_pos habs, hmod]
  | big n =>
      simp only [Scalar.svToU64, Scalar.iok]
      simp only [Bool.false_eq_true, if_false, if_pos habs, hmod]

/-- What the conversion has to give for a value that stands for `n`. -/
def ConvertsOrRefuses (isSigned : Bool) (f : FieldDef) (x : Scalar) (n : ℤ) : Prop :=
  (f.type.inRange n → convertScalar f x = .ok (wideValue isSigned n)) ∧
    (¬ f.type.inRange n → ∃ e, convertScalar f x = .error (.croak e))

/-- No check is made for signed fields. -/
theorem verifyLimits64_signed (x : Scalar) (f : FieldDef) : verifyLimits64 x f true = .ok () := by
  cases x <;> rfl

theorem IntegerValue.signed_iff {x : Scalar} {n : ℤ} (hx : IntegerValue x n) {f : FieldDef}
    (hrange : f.type.inRange n ↔ -2 ^ 63 ≤ n ∧ n < 2 ^ 63)
    (hconvert : convertScalar f x = .ok (.int64 x.svToI64)) :
    ConvertsOrRefuses true f x n ↔ f.type.inRange n := by
  constructor
  · rintro ⟨-, hrefused⟩
    by_contra hn
    obtain ⟨e, he⟩ := hrefused hn
    rw [hconvert] at he
    cases he
  · intro hn
    refine ⟨fun _ => ?_, fun h => absurd hn h⟩
    rw [hconvert, hx.svToI64 (hrange.mp hn)]
    rfl

/-- The check for unsigned fields looks at native integers only, and gets them right. -/
theorem IntegerValue.verifyLimits64 {x : Scalar} {n : ℤ} (hx : IntegerValue x n) (f : FieldDef) :
    verifyLimits64 x f false =
      if x.iok ∧ n < 0 then .error (.croak (.outOfRangeUnsigned (.fin n) f.name)) else .ok () := by
  cases hx with
  | @iv n h =>
      by_cases hn : n < 0
      · simp [Xs.verifyLimits64, Scalar.uok, Scalar.nok, Scalar.iok, Scalar.svIV, hn]
      · simp [Xs.verifyLimits64, Scalar.uok, Scalar.nok, Scalar.iok, Scalar.svIV, hn]
  | @uv n h => simp [Xs.verifyLimits64, Scalar.uok, Scalar.iok]
  | text h => simp [Xs.verifyLimits64, Scalar.uok, Scalar.nok, Scalar.iok]
  | big n => simp [Xs.verifyLimits64, Scalar.iok]

theorem IntegerValue.lt_of_iok {x : Scalar} {n : ℤ} (hx : IntegerValue x n) (hiok : x.iok = true) :
    n < 2 ^ 64 := by
  cases hx with
  | iv h => omega
  | uv h => exact_mod_cast h.2
  | text h => simp [Scalar.iok] at hiok
  | big n => simp [Scalar.iok] at hiok

theorem IntegerValue.unsigned_iff {x : Scalar} {n : ℤ} (hx : IntegerValue x n) {f : FieldDef}
    (hrange : f.type.inRange n ↔ 0 ≤ n ∧ n < 2 ^ 64)
    (hconvert : convertScalar f x = (do
      Xs.verifyLimits64 x f false
      .ok (.uint64 x.svToU64))) :
    ConvertsOrRefuses false f x n ↔ f.type.inRange n ∨ x.iok = true := by
  rw [hx.verifyLimits64] at hconvert
  constructor
  · rintro ⟨-, hrefused⟩
    by_contra hn
    obtain ⟨hn, hiok⟩ := not_or.mp hn
    obtain ⟨e, he⟩ := hrefused hn
    rw [hconvert, if_neg fun h => hiok h.1] at he
    cases he
  · intro h
    by_cases hn : f.type.inRange n
    · refine ⟨fun _ => ?_, fun h => absurd hn h⟩
      have hpos : ¬ n < 0 := not_lt.mpr (hrange.mp hn).1
      rw [hconvert, if_neg fun h => hpos h.2, hx.svToU64 (hrange.mp hn)]
      rfl
    · -- a native integer out of range is negative
      have hiok := h.resolve_left hn
      have hneg : n < 0 := by
        have hlt := hx.lt_of_iok hiok
        rw [hrange] at hn
        omega
      refine ⟨fun h => absurd h hn, fun _ => ?_⟩
      rw [hconvert, if_pos ⟨hiok, hneg⟩]
      exact ⟨_, rfl⟩

theorem convertsOrRefuses_iff {f : FieldDef} {isSigned : Bool}
    (htype : isSigned64 f.type = some isSigned) {x : Scalar} {n : ℤ} (hx : IntegerValue x n) :
    ConvertsOrRefuses isSigned f x n ↔ f.type.inRange n ∨ (isSigned = false ∧ x.iok = true) := by
  cases hft : f.type with
  | int64 | sint64 | sfixed64 =>
      rw [hft] at htype
      obtain rfl := Option.some.inj htype
      have hconvert : convertScalar f x = .ok (.int64 x.svToI64) := by
        simp only [convertScalar, hft, verifyLimits64_signed, ok_bind]
      rw [← hft, hx.signed_iff (by rw [hft]; rfl) hconvert]
      simp
  | uint64 | fixed64 =>
      rw [hft] at htype
      obtain rfl := Option.some.inj htype
      rw [← hft, hx.unsigned_iff (by rw [hft]; rfl) (by rw [convertScalar, hft])]
      simp
  | _ =>
      rw [hft] at htype
      cases htype

/-! ### Fields of a message -/

variable {S : DefPool} {address : Sv → ℕ}

theorem svToUpb_integer {f : FieldDef} (hshape : f.shape S.toPool = .singular) {isSigned : Bool}
    (htype : isSigned64 f.type = some isSigned) {x : Scalar} {n : ℤ} (hx : IntegerValue x n) :
    svToUpb S address f (.scalar x) = convertScalar f x := by
  have hsingular : convertSingularWith address (fun _ => .error .misread) f (.scalar x) =
      convertScalar f x := by
    rw [convertSingularWith]
    cases hft : f.type with
    | message c =>
        rw [hft] at htype
        cases htype
    | _ => rfl
  rw [← hsingular]
  cases hx <;> rw [svToUpb] <;> simp [svToUpbWith, hshape]

/-- A 64-bit field stores exactly the integers of its range and refuses the others, for a value in
range and for a native integer given to an unsigned field, and for no other value. -/
theorem exactOrRefused_iff {f : FieldDef} (hshape : f.shape S.toPool = .singular) {isSigned : Bool}
    (htype : isSigned64 f.type = some isSigned) {x : Scalar} {n : ℤ} (hx : IntegerValue x n) :
    ExactOrRefused S address isSigned f x n ↔
      f.type.inRange n ∨ (isSigned = false ∧ x.iok = true) := by
  have hcondition := convertsOrRefuses_iff htype hx
  simp only [ExactOrRefused, messageSetField, svToUpb_integer hshape htype hx]
  constructor
  · intro h
    by_cases hn : f.type.inRange n
    · exact .inl hn
    · obtain ⟨e, he⟩ := (h "" []).2 hn
      refine hcondition.mp ⟨fun h => absurd h hn, fun _ => ?_⟩
      cases hconvert : convertScalar f x with
      | ok v =>
          rw [hconvert] at he
          cases he
      | error fault =>
          rw [hconvert] at he
          exact ⟨e, congrArg _ (Except.error.inj he)⟩
  · intro h c slots
    obtain ⟨hexact, hrefused⟩ := hcondition.mpr h
    refine ⟨fun hn => ?_, fun hn => ?_⟩
    · rw [hexact hn]
      rfl
    · obtain ⟨e, he⟩ := hrefused hn
      rw [he]
      exact ⟨e, rfl⟩

/-- A message type with a signed and an unsigned field -/
def counterPool : DefPool where
  descriptor _ :=
    { fields := [⟨ps "delta", 1, .sint64, .optional⟩, ⟨ps "total", 2, .fixed64, .optional⟩] }
  hasPresence _ _ := false
  not_repeated_of_hasPresence := not_repeated_of_noPresence
  name_ne_zero _ := by decide

theorem exactOrRefused_counter :
    ExactOrRefused counterPool (fun _ => 0) true ⟨ps "delta", 1, .sint64, .optional⟩
        (.str (ps "-9223372036854775808") false) (-2 ^ 63) ∧
      ExactOrRefused counterPool (fun _ => 0) false ⟨ps "total", 2, .fixed64, .optional⟩
        (.iv (-1)) (-1) := by
  constructor
  · exact (exactOrRefused_iff rfl rfl (.text (by decide))).mpr (.inl (show _ ∧ _ by decide))
  · exact (exactOrRefused_iff rfl rfl (.iv (by decide))).mpr (.inr ⟨rfl, rfl⟩)

/-- 2^63 as a native number, as a text and as a `Math::BigInt` in a signed field, and -1 as a text
in an unsigned one -/
theorem not_exactOrRefused_counter :
    ¬ ExactOrRefused counterPool (fun _ => 0) true ⟨ps "delta", 1, .sint64, .optional⟩
        (.uv (2 ^ 63)) (2 ^ 63) ∧
      ¬ ExactOrRefused counterPool (fun _ => 0) true ⟨ps "delta", 1, .sint64, .optional⟩
        (.str (ps "9223372036854775808") false) (2 ^ 63) ∧
      ¬ ExactOrRefused counterPool (fun _ => 0) true ⟨ps "delta", 1, .sint64, .optional⟩
        (.big (2 ^ 63)) (2 ^ 63) ∧
      ¬ ExactOrRefused counterPool (fun _ => 0) false ⟨ps "total", 2, .fixed64, .optional⟩
        (.str (ps "-1") false) (-1) := by
  have hrange : ¬ FieldType.inRange .sint64 (2 ^ 63) := by
    show ¬ (_ ∧ _)
    omega
  have hnegative : ¬ FieldType.inRange .fixed64 (-1) := by
    show ¬ (_ ∧ _)
    omega
  refine ⟨fun h => ?_, fun h => ?_, fun h => ?_, fun h => ?_⟩
  · obtain ⟨e, he⟩ := (h "" []).2 hrange
    cases he
  · obtain ⟨e, he⟩ := (h "" []).2 hrange
    cases he
  · obtain ⟨e, he⟩ := (h "" []).2 hrange
    cases he
  · obtain ⟨e, he⟩ := (h "" []).2 hnegative
    cases he

end GooglePerl.Xs
