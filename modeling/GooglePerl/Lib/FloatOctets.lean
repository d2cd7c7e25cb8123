import GooglePerl.Lib.FixedWidth
import GooglePerl.Lib.FloatFormat

/-!
The interchange formats: a sign bit, a biased exponent and a fraction, as the number that they
are the bits of. Every finite number that is read is one of the format (`representable_ofBits`).
-/

namespace GooglePerl.Lib.FloatFormat

variable {F : FloatFormat}

/-- The bits of the fraction, below the exponent of `w` bits and the sign. -/
def fraction (F : FloatFormat) (bits : ℕ) : ℕ := bits % 2 ^ (F.prec - 1)

def exponent (F : FloatFormat) (w bits : ℕ) : ℕ := bits / 2 ^ (F.prec - 1) % 2 ^ w

def isNegative (F : FloatFormat) (w bits : ℕ) : Bool := bits / 2 ^ (F.prec - 1 + w) % 2 = 1

/-- The significant bits: the first one is not written, and is 0 below the normal numbers. -/
def significand (F : FloatFormat) (w bits : ℕ) : ℕ :=
  if F.exponent w bits = 0 then F.fraction bits else 2 ^ (F.prec - 1) + F.fraction bits

def ofBits (F : FloatFormat) (w bits : ℕ) : FloatVal :=
  if F.exponent w bits = 2 ^ w - 1 then
    if F.fraction bits = 0 then .inf (F.isNegative w bits) else .nan
  else
    let m : ℤ := if F.isNegative w bits then -F.significand w bits else F.significand w bits
    .fin (m * 2 ^ (F.emin + (F.exponent w bits - 1 : ℕ)))

/-- A `float` of 4 octets or a `double`, least significant octet first. -/
def ofOctets (bs : List ℕ) : FloatVal :=
  if bs.length = 4 then single.ofBits 8 (leValue bs) else double.ofBits 11 (leValue bs)

theorem significand_lt (F : FloatFormat) (w bits : ℕ) : F.significand w bits < 2 ^ F.prec := by
  have hfraction : F.fraction bits < 2 ^ (F.prec - 1) := Nat.mod_lt _ (by positivity)
  have hprec : 2 ^ F.prec = 2 ^ (F.prec - 1) + 2 ^ (F.prec - 1) := by
    obtain ⟨p, hp⟩ := Nat.exists_eq_succ_of_ne_zero F.prec_pos.ne'
    rw [hp, Nat.succ_sub_one, pow_succ]
    omega
  unfold significand
  split <;> omega

theorem abs_signed (negative : Bool) (n : ℕ) : |if negative then -(n : ℤ) else n| = n := by
  cases negative <;> simp

theorem representable_ofBits {w bits : ℕ}
    (hmax : ((2 : ℚ) ^ F.prec - 1) * 2 ^ (F.emin + (2 ^ w - 3 : ℕ)) ≤ F.max) {q : ℚ}
    (h : F.ofBits w bits = .fin q) : F.Representable q := by
  unfold ofBits at h
  split at h
  · split at h <;> cases h
  rename_i hfinite
  obtain rfl := FloatVal.fin.inj h
  have hsignificand := F.significand_lt w bits
  refine ⟨⟨_, _, ?_, by omega, rfl⟩, ?_⟩
  · rw [abs_signed]
    exact_mod_cast hsignificand
  -- the largest exponent is that of infinity less one
  have hlt : F.exponent w bits < 2 ^ w := Nat.mod_lt _ (by positivity)
  have hexponent : F.exponent w bits - 1 ≤ 2 ^ w - 3 := by omega
  have habs : |((if F.isNegative w bits then -(F.significand w bits : ℤ)
      else F.significand w bits : ℤ) : ℚ)| = F.significand w bits := by
    rw [← Int.cast_abs, abs_signed]
    rfl
  have hle : (F.significand w bits : ℚ) ≤ 2 ^ F.prec - 1 := by
    have hsucc : F.significand w bits + 1 ≤ 2 ^ F.prec := hsignificand
    have hcast : (F.significand w bits : ℚ) + 1 ≤ 2 ^ F.prec := by exact_mod_cast hsucc
    linarith
  refine le_trans ?_ hmax
  rw [abs_mul, habs, abs_of_pos (two_zpow_pos _)]
  refine mul_le_mul hle ?_ (two_zpow_pos _).le (le_trans (by positivity) hle)
  exact zpow_le_zpow_right₀ (by norm_num) (by omega)

theorem representable_ofOctets_single {bs : List ℕ} (hlen : bs.length = 4) {q : ℚ}
    (h : ofOctets bs = .fin q) : single.Representable q := by
  rw [ofOctets, if_pos hlen] at h
  refine representable_ofBits ?_ h
  norm_num [single]

theorem ofBits_zero (F : FloatFormat) {w : ℕ} (hw : w ≠ 0) : F.ofBits w 0 = .fin 0 := by
  have hexponent : F.exponent w 0 ≠ 2 ^ w - 1 := by
    have hone : 1 < 2 ^ w := Nat.one_lt_two_pow hw
    simp only [exponent, Nat.zero_div, Nat.zero_mod]
    omega
  rw [ofBits, if_neg hexponent]
  simp [isNegative, significand, exponent, fraction]

theorem ofOctets_zeros (n : ℕ) : ofOctets (List.replicate n 0) = .fin 0 := by
  have hzero : leValue (List.replicate n 0) = 0 := Nat.ofDigits_replicate_zero
  unfold ofOctets
  rw [hzero]
  split
  · exact ofBits_zero _ (by decide)
  · exact ofBits_zero _ (by decide)

end GooglePerl.Lib.FloatFormat
