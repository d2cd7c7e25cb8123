import Mathlib.Data.Int.Bitwise
import Mathlib.Data.Nat.Bitwise
import Mathlib.Tactic.Linarith
import Mathlib.Tactic.Positivity
import Mathlib.Tactic.Ring

/-!
Zigzag numbers on unbounded integers, in arithmetic and in the shift-and-xor
form that programs compute. Shifts of negative numbers are arithmetic shifts
and `Int.xor`/`Int.land` read a negative number in two's complement.
-/

namespace GooglePerl.Lib

/-- Zigzag: `0, -1, 1, -2, ...` become `0, 1, 2, 3, ...`. -/
def zigzag (n : ℤ) : ℤ := if 0 ≤ n then 2 * n else -2 * n - 1

/-- The inverse of `zigzag` on the non-negative numbers. -/
def unzigzag (v : ℤ) : ℤ := if v % 2 = 0 then v / 2 else -(v / 2) - 1

theorem zigzag_nonneg (n : ℤ) : 0 ≤ zigzag n := by
  unfold zigzag
  split <;> omega

/-- The code of a number of at most `k + 1` bits has at most `k + 1` bits. -/
theorem zigzag_lt {n : ℤ} {k : ℕ} (hlo : -2 ^ k ≤ n) (hhi : n < 2 ^ k) :
    zigzag n < 2 ^ (k + 1) := by
  rw [pow_succ]
  unfold zigzag
  split <;> omega

theorem unzigzag_zigzag (n : ℤ) : unzigzag (zigzag n) = n := by
  unfold zigzag unzigzag
  split <;> split <;> omega

theorem zigzag_unzigzag {v : ℤ} (h : 0 ≤ v) : zigzag (unzigzag v) = v := by
  unfold unzigzag
  split <;> unfold zigzag <;> split <;> omega

/-! ### Two's complement -/

theorem xor_zero (n : ℤ) : Int.xor n 0 = n := by
  cases n with
  | ofNat m => simp [Int.xor]
  | negSucc m => simp [Int.xor]

theorem xor_neg_one (n : ℤ) : Int.xor n (-1) = -n - 1 := by
  cases n with
  | ofNat m =>
      change Int.negSucc (m ^^^ 0) = _
      simp only [Nat.xor_zero, Int.ofNat_eq_natCast]
      omega
  | negSucc m =>
      change ((m ^^^ 0 : ℕ) : ℤ) = _
      simp only [Nat.xor_zero]
      omega

/-- Masking with `2 ^ k - 1` is reduction modulo `2 ^ k`. -/
theorem land_mask_of_nonneg {n : ℤ} (h : 0 ≤ n) (k : ℕ) :
    Int.land n ((2 ^ k - 1 : ℕ) : ℤ) = n % 2 ^ k := by
  obtain ⟨m, rfl⟩ := Int.eq_ofNat_of_zero_le h
  change ((m &&& (2 ^ k - 1) : ℕ) : ℤ) = _
  rw [Nat.and_two_pow_sub_one_eq_mod]
  norm_cast

/-- An arithmetic shift leaves only the sign of a number that fits. -/
theorem shiftRight_of_fits {n : ℤ} {k : ℕ} (hlo : -2 ^ k ≤ n) (hhi : n < 2 ^ k) :
    n >>> k = if 0 ≤ n then 0 else -1 := by
  rw [Int.shiftRight_eq_div_pow]
  have hpos : (0 : ℤ) < 2 ^ k := by positivity
  push_cast
  split
  · exact Int.ediv_eq_zero_of_lt ‹_› hhi
  · have hneg : n < 0 := by omega
    rw [Int.ediv_eq_iff_of_pos hpos]
    constructor <;> linarith

/-- The encoder's form: `(n << 1) ^ (n >> k)` for `n` of at most `k + 1` bits. -/
theorem shift_xor_eq_zigzag {n : ℤ} {k : ℕ} (hlo : -2 ^ k ≤ n) (hhi : n < 2 ^ k) :
    Int.xor (n <<< (1 : ℕ)) (n >>> k) = zigzag n := by
  have hshift : n <<< (1 : ℕ) = 2 * n := by
    rw [Int.shiftLeft_eq]
    ring
  rw [hshift, shiftRight_of_fits hlo hhi, zigzag]
  split
  · exact xor_zero _
  · rw [xor_neg_one]
    ring

/-- The decoder's form: `(v >> 1) ^ -(v & 1)` for a non-negative `v`. -/
theorem shift_xor_eq_unzigzag {v : ℤ} (h : 0 ≤ v) :
    Int.xor (v >>> (1 : ℕ)) (-(Int.land v 1)) = unzigzag v := by
  have hland : Int.land v 1 = v % 2 := by simpa using land_mask_of_nonneg h 1
  have hshift : v >>> (1 : ℕ) = v / 2 := by simp [Int.shiftRight_eq_div_pow]
  rw [hland, hshift, unzigzag]
  split
  · rename_i h2
    rw [h2]
    exact xor_zero _
  · have h1 : v % 2 = 1 := by omega
    rw [h1]
    exact xor_neg_one _

end GooglePerl.Lib
