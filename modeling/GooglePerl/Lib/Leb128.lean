import Mathlib.Data.Nat.Bitwise

/-!
Little-endian base-128 groups.

`leb128 n` writes a natural number as groups of seven bits, least significant
first, every group but the last carrying the continuation bit. This is the
arithmetic of the format, with no bit operations and no length limit.
-/

namespace GooglePerl.Lib

/-- The base-128 groups of `n`, each but the last with 128 added. -/
def leb128 (n : ℕ) : List ℕ :=
  if n < 128 then [n] else (n % 128 + 128) :: leb128 (n / 128)
termination_by n
decreasing_by omega

theorem leb128_of_lt {n : ℕ} (h : n < 128) : leb128 n = [n] := by
  rw [leb128, if_pos h]

theorem leb128_of_ge {n : ℕ} (h : 128 ≤ n) :
    leb128 n = (n % 128 + 128) :: leb128 (n / 128) := by
  rw [leb128, if_neg (by omega)]

theorem leb128_length_pos (n : ℕ) : 0 < (leb128 n).length := by
  rw [leb128]
  split <;> simp

/-- Every group is an octet. -/
theorem leb128_lt (n : ℕ) : ∀ b ∈ leb128 n, b < 256 := by
  induction n using leb128.induct with
  | case1 n h =>
      rw [leb128_of_lt h]
      simp only [List.mem_singleton]
      omega
  | case2 n h ih =>
      rw [leb128_of_ge (by omega)]
      intro b hb
      rcases List.mem_cons.mp hb with rfl | hb
      · omega
      · exact ih b hb

/-- A larger number never has fewer groups. -/
theorem leb128_length_mono {m n : ℕ} (h : m ≤ n) :
    (leb128 m).length ≤ (leb128 n).length := by
  induction m using leb128.induct generalizing n with
  | case1 m hm =>
      rw [leb128_of_lt hm]
      exact leb128_length_pos n
  | case2 m hm ih =>
      rw [leb128_of_ge (n := m) (by omega), leb128_of_ge (n := n) (by omega)]
      have hdiv := ih (n := n / 128) (Nat.div_le_div_right h)
      simpa using hdiv

/-! ### The seven-bit split in bit operations -/

theorem and_127 (n : ℕ) : n &&& 127 = n % 128 := Nat.and_two_pow_sub_one_eq_mod n 7

theorem shiftRight_7 (n : ℕ) : n >>> 7 = n / 128 := Nat.shiftRight_eq_div_pow n 7

theorem or_128_of_lt {n : ℕ} (h : n < 128) : n ||| 128 = n + 128 := by
  have hor := Nat.two_pow_add_eq_or_of_lt (i := 7) h 1
  simp only [Nat.mul_one] at hor
  rw [Nat.or_comm, show (128 : ℕ) = 2 ^ 7 from rfl, ← hor, Nat.add_comm]

/-- The continuation bit of an octet whose low seven bits are `m`. -/
theorem and_128_of_lt {m : ℕ} (h : m < 128) : m &&& 128 = 0 := by
  have h7 : m < 2 ^ 7 := by simpa using h
  apply Nat.eq_of_testBit_eq
  intro i
  rw [Nat.testBit_and, show (128 : ℕ) = 2 ^ 7 from rfl, Nat.testBit_two_pow]
  by_cases hi : 7 = i
  · subst hi
    simp [Nat.testBit_lt_two_pow h7]
  · simp [hi]

theorem and_128_of_add {m : ℕ} (h : m < 128) : (m + 128) &&& 128 = 128 := by
  rw [← or_128_of_lt h, Nat.and_or_distrib_right, and_128_of_lt h]
  rfl

/-- Placing a number above `s` already filled low bits is addition. -/
theorem or_shiftLeft_of_lt {a b s : ℕ} (h : a < 2 ^ s) : a ||| (b <<< s) = a + b * 2 ^ s := by
  rw [Nat.shiftLeft_eq, Nat.or_comm, Nat.mul_comm, ← Nat.two_pow_add_eq_or_of_lt h, Nat.add_comm]

end GooglePerl.Lib
