import GooglePerl.Xs.SvToUpb

/-!
Which numbers pass the range checks of `sv_to_upb.c`. The checks compare
doubles, so a number is rounded before it is compared; the limits of the
integer types are doubles themselves, and rounding does not carry a number
across them.
-/

namespace GooglePerl.Xs

open GooglePerl.Lib GooglePerl.Protobuf FloatFormat

theorem single_max : single.max = (2 ^ 24 - 1) * 2 ^ 104 := rfl

theorem le_double_max {q : ℚ} (h : |q| ≤ 2 ^ 128) : |q| ≤ double.max := by
  calc |q| ≤ 2 ^ 128 := h
    _ ≤ 2 ^ 971 := pow_le_pow_right₀ (by norm_num) (by norm_num)
    _ ≤ (2 ^ 53 - 1) * 2 ^ 971 := le_mul_of_one_le_left (by positivity) (by norm_num)

theorem double_intCast {n : ℤ} (h : |n| < 2 ^ 53) : double.Representable n := by
  have hn : |(n : ℚ)| < 2 ^ 53 := by exact_mod_cast h
  exact ⟨⟨n, 0, h, by decide, by simp⟩, le_double_max (by linarith)⟩

theorem double_int32Min : double.Representable (-2 ^ 31) := by
  have h := double_intCast (n := -2147483648) (by norm_num)
  norm_num at h ⊢
  exact h

theorem double_int32Max : double.Representable (2 ^ 31 - 1) := by
  have h := double_intCast (n := 2147483647) (by norm_num)
  norm_num at h ⊢
  exact h

theorem double_zero : double.Representable 0 := by
  have h := double_intCast (n := 0) (by norm_num)
  norm_num at h
  exact h

theorem double_uint32Max : double.Representable (2 ^ 32 - 1) := by
  have h := double_intCast (n := 4294967295) (by norm_num)
  norm_num at h ⊢
  exact h

/-! ### The number a scalar stands for -/

/-- The number, before any rounding; of a text that is one, what it says. -/
def Scalar.number : Scalar → Option FloatVal
  | .undef => none
  | .iv n => some (.fin n)
  | .uv n => some (.fin n)
  | .nv v => some v
  | .str pv _ => if looksLikeNumber pv then some (textValue pv) else none
  | .yesNo b => some (.fin (if b then 1 else 0))
  | .big n => some (.fin n)
  | .ref _ => none

/-- A finite number between two bounds. -/
def InRange (lo hi : ℚ) (x : Scalar) : Prop :=
  ∃ q, x.number = some (.fin q) ∧ lo ≤ q ∧ q ≤ hi

theorem Scalar.number_of_isNumeric {x : Scalar} (h : x.isNumeric = true) : x.number ≠ none := by
  cases x with
  | str pv utf8 =>
      have hlooks : looksLikeNumber pv = true := by
        simpa [Scalar.isNumeric, Scalar.iok, Scalar.nok, Scalar.pok, Scalar.pv] using h
      simp [Scalar.number, hlooks]
  | undef => simp [Scalar.isNumeric, Scalar.iok, Scalar.nok, Scalar.pok] at h
  | ref address => simp [Scalar.isNumeric, Scalar.iok, Scalar.nok, Scalar.pok] at h
  | iv n => simp [Scalar.number]
  | uv n => simp [Scalar.number]
  | nv v => simp [Scalar.number]
  | yesNo b => simp [Scalar.number]
  | big n => simp [Scalar.number]

/-- `SvNV` is the number itself or the double nearest to it. -/
theorem Scalar.svNV_of_number {x : Scalar} {q : ℚ} (h : x.number = some (.fin q)) :
    x.svNV = .fin q ∨ x.svNV = double.round q := by
  cases x with
  | undef => cases h
  | iv n =>
      obtain rfl : (n : ℚ) = q := by simpa [Scalar.number] using h
      exact .inr rfl
  | uv n =>
      obtain rfl : (n : ℚ) = q := by simpa [Scalar.number] using h
      exact .inr rfl
  | nv v => exact .inl (by simpa [Scalar.number, Scalar.svNV] using h)
  | str pv utf8 =>
      right
      by_cases hlooks : looksLikeNumber pv = true
      · have htext : textValue pv = .fin q := by simpa [Scalar.number, hlooks] using h
        simp [Scalar.svNV, htext, roundTo]
      · simp [Scalar.number, hlooks] at h
  | yesNo b => exact .inl (by simpa [Scalar.number, Scalar.svNV] using h)
  | big n =>
      obtain rfl : (n : ℚ) = q := by simpa [Scalar.number] using h
      exact .inr rfl
  | ref address => cases h

theorem Scalar.svNV_between {x : Scalar} {lo hi : ℚ} (hlo : double.Representable lo)
    (hhi : double.Representable hi) (h : InRange lo hi x) :
    ∃ r, x.svNV = .fin r ∧ lo ≤ r ∧ r ≤ hi := by
  obtain ⟨q, hq, hle, hge⟩ := h
  rcases x.svNV_of_number hq with hnv | hnv
  · exact ⟨q, hnv, hle, hge⟩
  · rw [hnv]
    exact round_between hlo hhi hle hge

theorem verifyLimits_of_inRange {x : Scalar} {lo hi : ℚ} (f : FieldDef)
    (hlo : double.Representable lo) (hhi : double.Representable hi) (h : InRange lo hi x) :
    verifyLimits x f (.fin lo) (.fin hi) = .ok () := by
  obtain ⟨r, hr, hle, hge⟩ := x.svNV_between hlo hhi h
  simp [verifyLimits, hr, FloatVal.lt, hle, hge]

/-- Among unsigned numbers the 64-bit check finds nothing wrong. -/
theorem verifyLimits64_of_inRange {x : Scalar} {hi : ℚ} (f : FieldDef)
    (h : InRange 0 hi x) : verifyLimits64 x f false = .ok () := by
  obtain ⟨q, hq, hle, -⟩ := h
  cases x with
  | undef => cases hq
  | iv n =>
      obtain rfl : (n : ℚ) = q := by simpa [Scalar.number] using hq
      have hn : ¬ n < 0 := not_lt.mpr (by exact_mod_cast hle)
      simp [verifyLimits64, Scalar.uok, Scalar.nok, Scalar.iok, Scalar.svIV, hn]
  | uv n => rfl
  | nv v =>
      obtain rfl : v = .fin q := by simpa [Scalar.number] using hq
      simp [verifyLimits64, Scalar.uok, Scalar.nok, Scalar.svNV, FloatVal.lt, hle]
  | str pv utf8 => rfl
  | yesNo b => cases b <;> rfl
  | big n => rfl
  | ref address => cases hq

/-! ### The limit of `float` fields -/

/-- What the check of a `float` field lets through. -/
def passesFloat (v : FloatVal) : Bool :=
  !(v.lt (double.round (-floatLimit)) || (double.round floatLimit).lt v)

theorem verifyLimits_float (x : Scalar) (f : FieldDef) :
    verifyLimits x f (double.round (-floatLimit)) (double.round floatLimit) = .ok () ↔
      passesFloat x.svNV = true := by
  unfold verifyLimits passesFloat
  cases x.svNV.lt (double.round (-floatLimit)) <;>
    cases (double.round floatLimit).lt x.svNV <;> simp

/-- The largest but one of the format. -/
theorem double_belowMax : double.Representable ((2 ^ 24 - 2) * 2 ^ 104) := by
  refine ⟨⟨2 ^ 24 - 2, 104, by norm_num [double], by decide, by norm_num⟩, le_double_max ?_⟩
  rw [abs_of_nonneg (by norm_num)]
  norm_num

/-- The double before the largest number of the format. -/
theorem double_beforeMax : double.Representable ((2 ^ 53 - 2 ^ 29 - 1) * 2 ^ 75) := by
  refine ⟨⟨2 ^ 53 - 2 ^ 29 - 1, 75, by norm_num [double], by decide, by norm_num⟩,
    le_double_max ?_⟩
  rw [abs_of_nonneg (by norm_num)]
  norm_num

theorem beforeMax_lt : ((2 ^ 53 - 2 ^ 29 - 1) * 2 ^ 75 : ℚ) < single.max := by
  rw [single_max]
  norm_num

/-- The limit lies between the two largest numbers of the format. -/
theorem round_floatLimit :
    ∃ r, double.round floatLimit = .fin r ∧ (2 ^ 24 - 2) * 2 ^ 104 ≤ r ∧ r < single.max := by
  obtain ⟨r, hr, hle, hge⟩ := round_between (q := floatLimit) double_belowMax double_beforeMax
    (by norm_num [floatLimit]) (by norm_num [floatLimit])
  exact ⟨r, hr, hle, hge.trans_lt beforeMax_lt⟩

theorem round_neg_floatLimit :
    ∃ r, double.round (-floatLimit) = .fin r ∧ -single.max < r ∧ r ≤ -((2 ^ 24 - 2) * 2 ^ 104) := by
  obtain ⟨r, hr, hle, hge⟩ :=
    round_between (q := -floatLimit) double_beforeMax.neg double_belowMax.neg
      (by norm_num [floatLimit]) (by norm_num [floatLimit])
  exact ⟨r, hr, (neg_lt_neg beforeMax_lt).trans_le hle, hge⟩

theorem passesFloat_of_le {q : ℚ} (h : |q| ≤ (2 ^ 24 - 2) * 2 ^ 104) :
    passesFloat (.fin q) = true := by
  obtain ⟨lo, hlo, -, hlo'⟩ := round_neg_floatLimit
  obtain ⟨hi, hhi, hhi', -⟩ := round_floatLimit
  have hq := abs_le.mp h
  have h1 : lo ≤ q := hlo'.trans hq.1
  have h2 : q ≤ hi := hq.2.trans hhi'
  simp [passesFloat, hlo, hhi, FloatVal.lt, h1, h2]

theorem not_passesFloat {q : ℚ} (h : single.max ≤ |q|) : passesFloat (.fin q) = false := by
  obtain ⟨lo, hlo, hlo', -⟩ := round_neg_floatLimit
  obtain ⟨hi, hhi, -, hhi'⟩ := round_floatLimit
  rcases le_abs.mp h with hpos | hneg
  · have hlt : hi < q := hhi'.trans_le hpos
    simp [passesFloat, hlo, hhi, FloatVal.lt, hlt]
  · have hlt : q < lo := by linarith
    simp [passesFloat, hlo, hhi, FloatVal.lt, hlt]

theorem not_passesFloat_inf (negative : Bool) : passesFloat (.inf negative) = false := by
  obtain ⟨lo, hlo, -⟩ := round_neg_floatLimit
  obtain ⟨hi, hhi, -⟩ := round_floatLimit
  cases negative <;> simp [passesFloat, hlo, hhi, FloatVal.lt]

/-- A `float` passes, unless it is the largest or its negative. -/
theorem passesFloat_iff {q : ℚ} (h : single.Representable q) :
    passesFloat (.fin q) = true ↔ |q| ≠ single.max := by
  constructor
  · rintro hpass heq
    rw [not_passesFloat heq.ge] at hpass
    cases hpass
  · intro hne
    apply passesFloat_of_le
    by_contra hgt
    rw [not_le] at hgt
    obtain ⟨⟨m, e, hm, -, rfl⟩, hmax⟩ := h
    have hlt : |(m * 2 ^ e : ℚ)| < single.max := lt_of_le_of_ne hmax hne
    rw [abs_mul, abs_of_pos (two_zpow_pos e)] at hgt hlt
    have hmq : |(m : ℚ)| < 2 ^ 24 := by exact_mod_cast hm
    -- so large a number has a large exponent, and is a multiple of the last unit
    have he : 104 ≤ e := by
      by_contra hsmall
      have hpow : (2 : ℚ) ^ e ≤ 2 ^ (103 : ℤ) := zpow_le_zpow_right₀ (by norm_num) (by omega)
      have hprod : |(m : ℚ)| * 2 ^ e ≤ 2 ^ 24 * 2 ^ (103 : ℤ) :=
        mul_le_mul hmq.le hpow (two_zpow_pos e).le (by norm_num)
      norm_num at hprod hgt
      linarith
    obtain ⟨k, rfl⟩ := Int.le.dest he
    have hsplit : |(m : ℚ)| * 2 ^ (104 + (k : ℤ)) = ((|m| * 2 ^ k : ℤ) : ℚ) * 2 ^ 104 := by
      rw [zpow_add₀ (by norm_num)]
      push_cast
      rw [zpow_natCast]
      norm_num
      ring
    rw [hsplit] at hgt hlt
    have hlo : (2 ^ 24 - 2 : ℚ) < ((|m| * 2 ^ k : ℤ) : ℚ) :=
      lt_of_mul_lt_mul_right hgt (by norm_num)
    have hhi : ((|m| * 2 ^ k : ℤ) : ℚ) < 2 ^ 24 - 1 := lt_of_mul_lt_mul_right hlt (by norm_num)
    have h1 : (2 ^ 24 - 2 : ℤ) < |m| * 2 ^ k := by exact_mod_cast hlo
    have h2 : |m| * 2 ^ k < (2 ^ 24 - 1 : ℤ) := by exact_mod_cast hhi
    omega

/-- A number beyond the format does not pass. -/
theorem Scalar.not_passesFloat {x : Scalar} {q : ℚ} (h : x.number = some (.fin q))
    (hq : single.max ≤ |q|) : passesFloat x.svNV = false := by
  rcases x.svNV_of_number h with hnv | hnv
  · rw [hnv]
    exact Xs.not_passesFloat hq
  · rw [hnv, FloatFormat.round]
    split
    · apply Xs.not_passesFloat
      refine le_abs_nearest ⟨2 ^ 24 - 1, 104, by norm_num [double], by decide, ?_⟩ hq
      rw [single_max]
      norm_num
    · exact not_passesFloat_inf _

end GooglePerl.Xs
