import Mathlib.Data.Int.Log
import Mathlib.Data.Rat.Floor
import Mathlib.Tactic.Linarith
import Mathlib.Tactic.NormNum
import Mathlib.Tactic.Positivity

/-!
Binary floating-point formats and rounding to nearest, ties to even.

A format is a number of significant bits, the exponent of its smallest unit
and its largest number. What the rest needs of rounding is that it leaves the
numbers of the format alone and never crosses one (`round_le`, `le_round`).
Zeros of both signs are one number here.
-/

namespace GooglePerl.Lib

/-- A value of a floating-point type. -/
inductive FloatVal where
  | nan
  | inf (negative : Bool)
  | fin (q : ℚ)
  deriving DecidableEq

/-- `a < b` as the C operator has it: false when either is NaN. -/
def FloatVal.lt : FloatVal → FloatVal → Bool
  | .nan, _ => false
  | _, .nan => false
  | .inf a, .inf b => a && !b
  | .inf a, .fin _ => a
  | .fin _, .inf b => !b
  | .fin p, .fin q => p < q

structure FloatFormat where
  /-- significant bits -/
  prec : ℕ
  prec_pos : 0 < prec := by decide
  /-- the smallest number is `2 ^ emin` -/
  emin : ℤ
  /-- the largest finite number -/
  max : ℚ

namespace FloatFormat

/-- IEEE 754 binary64 -/
def double : FloatFormat := { prec := 53, emin := -1074, max := (2 ^ 53 - 1) * 2 ^ 971 }

/-- IEEE 754 binary32 -/
def single : FloatFormat := { prec := 24, emin := -149, max := (2 ^ 24 - 1) * 2 ^ 104 }

/-- The nearest integer, the even one of two. -/
def halfEven (x : ℚ) : ℤ :=
  if 2 * (x - ⌊x⌋) < 1 ∨ (2 * (x - ⌊x⌋) = 1 ∧ ⌊x⌋ % 2 = 0) then ⌊x⌋ else ⌊x⌋ + 1

/-- The exponent of the last significant bit of a number of this size. -/
def unit (F : FloatFormat) (q : ℚ) : ℤ := Max.max (Int.log 2 |q| + 1 - F.prec) F.emin

/-- Rounding without a bound on the exponent. -/
def nearest (F : FloatFormat) (q : ℚ) : ℚ := halfEven (q / 2 ^ F.unit q) * 2 ^ F.unit q

def round (F : FloatFormat) (q : ℚ) : FloatVal :=
  if |F.nearest q| ≤ F.max then .fin (F.nearest q) else .inf (q < 0)

/-- A number that the format can hold, apart from its size. -/
def Exact (F : FloatFormat) (q : ℚ) : Prop :=
  ∃ m e : ℤ, |m| < 2 ^ F.prec ∧ F.emin ≤ e ∧ q = m * 2 ^ e

/-- A number of the format. -/
def Representable (F : FloatFormat) (q : ℚ) : Prop := F.Exact q ∧ |q| ≤ F.max

variable {F : FloatFormat} {q b : ℚ}

theorem Exact.neg (h : F.Exact q) : F.Exact (-q) := by
  obtain ⟨m, e, hm, he, rfl⟩ := h
  exact ⟨-m, e, by simpa using hm, he, by push_cast; ring⟩

theorem Representable.neg (h : F.Representable q) : F.Representable (-q) :=
  ⟨h.1.neg, by simpa using h.2⟩

theorem halfEven_le {x : ℚ} {k : ℤ} (h : x ≤ k) : halfEven x ≤ k := by
  have hfloor : (⌊x⌋ : ℚ) ≤ x := Int.floor_le x
  unfold halfEven
  split
  · exact_mod_cast hfloor.trans h
  · rename_i hup
    have hlt : (⌊x⌋ : ℚ) < x := by
      rw [not_or, not_lt] at hup
      linarith [hup.1]
    have : (⌊x⌋ : ℚ) < k := hlt.trans_le h
    exact_mod_cast this

theorem le_halfEven {x : ℚ} {k : ℤ} (h : (k : ℚ) ≤ x) : k ≤ halfEven x := by
  have hfloor : k ≤ ⌊x⌋ := Int.le_floor.mpr h
  unfold halfEven
  split <;> omega

theorem two_zpow_pos (e : ℤ) : (0 : ℚ) < 2 ^ e := zpow_pos (by norm_num) e

/-- An exact number is a whole number of units, or closer to zero than the unit allows. -/
theorem Exact.multiple_or_small (hb : F.Exact b) (q : ℚ) :
    (∃ k : ℤ, b = k * 2 ^ F.unit q) ∨
      (q ≠ 0 → |b| < 2 ^ ((F.prec : ℤ) - 1) * 2 ^ F.unit q ∧
        2 ^ ((F.prec : ℤ) - 1) * 2 ^ F.unit q ≤ |q|) := by
  obtain ⟨m, e, hm, he, rfl⟩ := hb
  -- a number with a coarser unit is a multiple of the finer one, and one with a finer unit is
  -- small
  by_cases hle : F.unit q ≤ e
  · left
    refine ⟨m * 2 ^ (e - F.unit q).toNat, ?_⟩
    have hsplit : (2 : ℚ) ^ e = 2 ^ (e - F.unit q).toNat * 2 ^ F.unit q := by
      rw [← zpow_natCast, ← zpow_add₀ (by norm_num), Int.toNat_of_nonneg (by omega)]
      congr 1
      omega
    rw [hsplit]
    push_cast
    ring
  · right
    intro hq
    have hunit : F.unit q = Int.log 2 |q| + 1 - F.prec := by
      unfold unit at hle ⊢
      omega
    have hpow : (2 : ℚ) ^ ((F.prec : ℤ) - 1) * 2 ^ F.unit q = 2 ^ Int.log 2 |q| := by
      rw [← zpow_add₀ (by norm_num), hunit]
      congr 1
      ring
    constructor
    · have hmq : |(m : ℚ)| < 2 ^ F.prec := by exact_mod_cast hm
      rw [abs_mul, abs_of_pos (two_zpow_pos e)]
      calc |(m : ℚ)| * 2 ^ e < 2 ^ F.prec * 2 ^ e := by
            exact mul_lt_mul_of_pos_right hmq (two_zpow_pos e)
        _ = 2 ^ ((F.prec : ℤ) + e) := by
            rw [zpow_add₀ (by norm_num), zpow_natCast]
        _ ≤ 2 ^ ((F.prec : ℤ) - 1 + F.unit q) := by
            exact zpow_le_zpow_right₀ (by norm_num) (by omega)
        _ = 2 ^ ((F.prec : ℤ) - 1) * 2 ^ F.unit q := zpow_add₀ (by norm_num) _ _
    · rw [hpow]
      exact Int.zpow_log_le_self (by norm_num) (abs_pos.mpr hq)

theorem nearest_zero (F : FloatFormat) : F.nearest 0 = 0 := by
  have hzero : halfEven 0 = 0 := le_antisymm (halfEven_le (by norm_num)) (le_halfEven (by norm_num))
  rw [nearest, zero_div, hzero]
  norm_num

/-- Rounding does not cross an exact number from below. -/
theorem nearest_le (hb : F.Exact b) (h : q ≤ b) : F.nearest q ≤ b := by
  by_cases hq : q = 0
  · rw [hq, nearest_zero, ← hq]
    exact h
  have hU := two_zpow_pos (F.unit q)
  rcases hb.multiple_or_small q with ⟨k, rfl⟩ | hsmall
  · have hk : halfEven (q / 2 ^ F.unit q) ≤ k := halfEven_le ((div_le_iff₀ hU).mpr h)
    exact mul_le_mul_of_nonneg_right (by exact_mod_cast hk) hU.le
  · -- `b` is closer to zero than `q`, so `q` is negative and stays below `b`
    obtain ⟨hbsmall, hqlarge⟩ := hsmall hq
    have hneg : q < 0 := by
      by_contra hnonneg
      rw [not_lt] at hnonneg
      rw [abs_of_nonneg hnonneg] at hqlarge
      linarith [le_abs_self b]
    rw [abs_of_neg hneg] at hqlarge
    have hP : ((-2 ^ (F.prec - 1) : ℤ) : ℚ) = -2 ^ ((F.prec : ℤ) - 1) := by
      have hpos := F.prec_pos
      push_cast
      rw [← zpow_natCast, Nat.cast_sub hpos]
      simp
    have hk : halfEven (q / 2 ^ F.unit q) ≤ -2 ^ (F.prec - 1) := by
      apply halfEven_le
      rw [hP, div_le_iff₀ hU]
      linarith
    calc F.nearest q ≤ ((-2 ^ (F.prec - 1) : ℤ) : ℚ) * 2 ^ F.unit q :=
          mul_le_mul_of_nonneg_right (by exact_mod_cast hk) hU.le
      _ = -(2 ^ ((F.prec : ℤ) - 1) * 2 ^ F.unit q) := by rw [hP]; ring
      _ ≤ b := by linarith [neg_abs_le b]

/-- Nor from above. -/
theorem le_nearest (hb : F.Exact b) (h : b ≤ q) : b ≤ F.nearest q := by
  by_cases hq : q = 0
  · rw [hq, nearest_zero, ← hq]
    exact h
  have hU := two_zpow_pos (F.unit q)
  rcases hb.multiple_or_small q with ⟨k, rfl⟩ | hsmall
  · have hk : k ≤ halfEven (q / 2 ^ F.unit q) := le_halfEven ((le_div_iff₀ hU).mpr h)
    exact mul_le_mul_of_nonneg_right (by exact_mod_cast hk) hU.le
  · obtain ⟨hbsmall, hqlarge⟩ := hsmall hq
    have hpos : 0 < q := by
      by_contra hnonpos
      rw [not_lt] at hnonpos
      rw [abs_of_nonpos hnonpos] at hqlarge
      linarith [neg_abs_le b]
    rw [abs_of_pos hpos] at hqlarge
    have hP : ((2 ^ (F.prec - 1) : ℤ) : ℚ) = 2 ^ ((F.prec : ℤ) - 1) := by
      have hprec := F.prec_pos
      push_cast
      rw [← zpow_natCast, Nat.cast_sub hprec]
      simp
    have hk : 2 ^ (F.prec - 1) ≤ halfEven (q / 2 ^ F.unit q) := by
      apply le_halfEven
      rw [hP, le_div_iff₀ hU]
      exact hqlarge
    calc b ≤ 2 ^ ((F.prec : ℤ) - 1) * 2 ^ F.unit q := by linarith [le_abs_self b]
      _ = ((2 ^ (F.prec - 1) : ℤ) : ℚ) * 2 ^ F.unit q := by rw [hP]
      _ ≤ F.nearest q := mul_le_mul_of_nonneg_right (by exact_mod_cast hk) hU.le

theorem le_abs_nearest (hb : F.Exact b) (h : b ≤ |q|) : b ≤ |F.nearest q| := by
  rcases le_abs.mp h with hpos | hneg
  · exact (le_nearest hb hpos).trans (le_abs_self _)
  · have hle := nearest_le hb.neg (le_neg.mpr hneg)
    exact (le_neg.mpr hle).trans (neg_le_abs _)

/-- At this unit a number has at most as many bits as the format. -/
theorem abs_le_prec_mul_unit (F : FloatFormat) (q : ℚ) :
    |q| ≤ 2 ^ F.prec * 2 ^ F.unit q := by
  have hlog : |q| < 2 ^ (Int.log 2 |q| + 1) := Int.lt_zpow_succ_log_self (by norm_num) |q|
  have hunit : Int.log 2 |q| + 1 ≤ F.prec + F.unit q := by
    have := le_max_left (Int.log 2 |q| + 1 - F.prec) F.emin
    unfold unit
    omega
  calc |q| ≤ 2 ^ (Int.log 2 |q| + 1) := hlog.le
    _ ≤ 2 ^ (F.prec + F.unit q) := zpow_le_zpow_right₀ (by norm_num) hunit
    _ = 2 ^ F.prec * 2 ^ F.unit q := by rw [zpow_add₀ (by norm_num), zpow_natCast]

/-- Rounding gives a number of the format, apart from its size. -/
theorem exact_nearest (F : FloatFormat) (q : ℚ) : F.Exact (F.nearest q) := by
  have hU : (0 : ℚ) < 2 ^ F.unit q := two_zpow_pos _
  have hemin : F.emin ≤ F.unit q := le_max_right _ _
  have habs := abs_le.mp (F.abs_le_prec_mul_unit q)
  have hle : halfEven (q / 2 ^ F.unit q) ≤ 2 ^ F.prec := by
    apply halfEven_le
    push_cast
    rw [div_le_iff₀ hU]
    exact habs.2
  have hge : -2 ^ F.prec ≤ halfEven (q / 2 ^ F.unit q) := by
    apply le_halfEven
    push_cast
    rw [le_div_iff₀ hU, neg_mul]
    exact habs.1
  rcases lt_or_eq_of_le (abs_le.mpr ⟨hge, hle⟩) with hlt | heq
  · exact ⟨_, _, hlt, hemin, rfl⟩
  · -- the carry into one more bit: a power of two, with a larger unit
    have hone : (1 : ℤ) < 2 ^ F.prec := one_lt_pow₀ (by norm_num) F.prec_pos.ne'
    have hpow : (2 : ℚ) ^ ((F.prec : ℤ) + F.unit q) = 2 ^ F.prec * 2 ^ F.unit q := by
      rw [zpow_add₀ (by norm_num), zpow_natCast]
    rcases (abs_eq (by positivity)).mp heq with h | h
    · exact ⟨1, F.prec + F.unit q, by simpa using hone, by omega, by rw [nearest, h, hpow]; simp⟩
    · exact ⟨-1, F.prec + F.unit q, by simpa using hone, by omega, by rw [nearest, h, hpow]; simp⟩

theorem representable_of_round {r : ℚ} (h : F.round q = .fin r) : F.Representable r := by
  unfold round at h
  split at h
  · obtain rfl := FloatVal.fin.inj h
    exact ⟨F.exact_nearest q, by assumption⟩
  · cases h

/-- The numbers of the format are rounded to themselves. -/
theorem round_of_representable (h : F.Representable q) : F.round q = .fin q := by
  have hq : F.nearest q = q := le_antisymm (nearest_le h.1 le_rfl) (le_nearest h.1 le_rfl)
  rw [round, hq, if_pos h.2]

/-- What lies between two numbers of the format is rounded to something between them. -/
theorem round_between {lo hi : ℚ} (hlo : F.Representable lo) (hhi : F.Representable hi)
    (h : lo ≤ q) (h' : q ≤ hi) : ∃ r, F.round q = .fin r ∧ lo ≤ r ∧ r ≤ hi := by
  have hle := nearest_le hhi.1 h'
  have hge := le_nearest hlo.1 h
  refine ⟨F.nearest q, ?_, hge, hle⟩
  rw [round, if_pos]
  exact abs_le.mpr ⟨by linarith [(abs_le.mp hlo.2).1], by linarith [(abs_le.mp hhi.2).2]⟩

end FloatFormat

end GooglePerl.Lib
