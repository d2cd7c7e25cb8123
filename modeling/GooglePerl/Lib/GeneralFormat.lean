import GooglePerl.Lib.Decimal
import GooglePerl.Lib.FloatFormat
import Mathlib.Data.Int.Log

/-!
`%.15g` of a number that is not negative.

The number is rounded to fifteen significant digits. It is written with a point and without
the zeros at the end, unless it is below 10^-4 or has more than fifteen digits before the
point: then it has an exponent.
-/

namespace GooglePerl.Lib

/-! ### Digits behind the point -/

/-- The last `d` digits of a number. -/
def lastDigits : ℕ → ℕ → List ℕ
  | 0, _ => []
  | d + 1, n => (48 + n / 10 ^ d % 10) :: lastDigits d n

def stripZeros (l : List ℕ) : List ℕ := (l.reverse.dropWhile (· == 48)).reverse

def withPoint (whole fraction : List ℕ) : List ℕ :=
  whole ++ if fraction = [] then [] else 46 :: fraction

/-- `m` without the last `d` digits, and these behind the point. -/
def fixedText (m d : ℕ) : List ℕ := withPoint (natText (m / 10 ^ d)) (stripZeros (lastDigits d m))

theorem length_lastDigits (d n : ℕ) : (lastDigits d n).length = d := by
  induction d with
  | zero => rfl
  | succ d ih => rw [lastDigits, List.length_cons, ih]

theorem isDigit_of_mem_lastDigits {d n c : ℕ} (h : c ∈ lastDigits d n) : isDigit c = true := by
  induction d with
  | zero => cases h
  | succ d ih =>
      rcases List.mem_cons.mp h with rfl | h
      · simp only [isDigit, Bool.and_eq_true, decide_eq_true_eq]
        omega
      · exact ih h

theorem stripZeros_append (l : List ℕ) :
    stripZeros l ++ List.replicate (l.length - (stripZeros l).length) 48 = l := by
  have hsplit := List.takeWhile_append_dropWhile (p := (· == 48)) (l := l.reverse)
  have hzeros : l.reverse.takeWhile (· == 48) =
      List.replicate (l.reverse.takeWhile (· == 48)).length 48 := by
    refine List.eq_replicate_of_mem fun c hc => ?_
    have hall := List.all_takeWhile (p := (· == 48)) (l := l.reverse)
    simpa using List.all_eq_true.mp hall c hc
  have hlength := congrArg List.length hsplit
  rw [List.length_append, List.length_reverse] at hlength
  have hcount : l.length - (stripZeros l).length = (l.reverse.takeWhile (· == 48)).length := by
    rw [stripZeros, List.length_reverse]
    omega
  rw [hcount, stripZeros, ← List.reverse_replicate, ← hzeros, ← List.reverse_append, hsplit,
    List.reverse_reverse]

/-- The number that a run of digits spells. -/
def digitsNumber (l : List ℕ) : ℕ := l.foldl (fun acc c => 10 * acc + (c - 48)) 0

theorem digitsNumber_append (a b : List ℕ) :
    digitsNumber (a ++ b) = digitsNumber a * 10 ^ b.length + digitsNumber b := by
  have hinit (l : List ℕ) : ∀ x, l.foldl (fun acc c => 10 * acc + (c - 48)) x =
      x * 10 ^ l.length + digitsNumber l := by
    induction l with
    | nil => simp [digitsNumber]
    | cons c l ih =>
        intro x
        rw [digitsNumber, List.foldl_cons, List.foldl_cons, ih, ih (10 * 0 + (c - 48)),
          List.length_cons, pow_succ]
        ring
  rw [digitsNumber, List.foldl_append, hinit b]
  rfl

theorem digitsNumber_of_readNat {l : List ℕ} {n : ℕ} (h : readNat l = some n) :
    digitsNumber l = n := by
  rw [readNat] at h
  split at h
  · exact Option.some.inj h
  · cases h

theorem digitsNumber_lastDigits (d n : ℕ) : digitsNumber (lastDigits d n) = n % 10 ^ d := by
  induction d with
  | zero => rw [pow_zero, Nat.mod_one]; rfl
  | succ d ih =>
      have hhead : digitsNumber [48 + n / 10 ^ d % 10] = n / 10 ^ d % 10 := by
        simp [digitsNumber]
      rw [lastDigits, ← List.singleton_append, digitsNumber_append, ih, hhead, length_lastDigits,
        pow_succ, Nat.mod_mul]
      ring

theorem digitsNumber_zeros (k : ℕ) : digitsNumber (List.replicate k 48) = 0 := by
  induction k with
  | zero => rfl
  | succ k ih =>
      rw [List.replicate_succ, ← List.singleton_append, digitsNumber_append, ih]
      exact Nat.zero_mul _

/-- Read back, the text is the number. -/
theorem digitsNumber_fixed (m d : ℕ) :
    digitsNumber (natText (m / 10 ^ d) ++ stripZeros (lastDigits d m)) * 10 ^ d =
      m * 10 ^ (stripZeros (lastDigits d m)).length := by
  have hall : digitsNumber (natText (m / 10 ^ d) ++ lastDigits d m) = m := by
    rw [digitsNumber_append, digitsNumber_of_readNat (readNat_natText _), length_lastDigits,
      digitsNumber_lastDigits, Nat.div_add_mod']
  have hsplit := stripZeros_append (lastDigits d m)
  rw [length_lastDigits] at hsplit
  have hlength := congrArg List.length hsplit
  rw [List.length_append, List.length_replicate, length_lastDigits] at hlength
  rw [← hsplit, ← List.append_assoc, digitsNumber_append, digitsNumber_zeros,
    List.length_replicate, Nat.add_zero] at hall
  generalize stripZeros (lastDigits d m) = f at *
  generalize digitsNumber (natText (m / 10 ^ d) ++ f) = n at *
  calc n * 10 ^ d = n * (10 ^ f.length * 10 ^ (d - f.length)) := by rw [← pow_add, hlength]
    _ = n * 10 ^ (d - f.length) * 10 ^ f.length := by ring
    _ = m * 10 ^ f.length := by rw [hall]

/-! ### Significant digits -/

/-- Fifteen significant digits, as an integer, and the exponent of the first. -/
def significant (q : ℚ) : ℕ × ℤ :=
  let e := Int.log 10 q
  let m := (FloatFormat.halfEven (q / 10 ^ (e - 14))).toNat
  -- rounding up may carry into one more digit
  if m = 10 ^ 15 then (10 ^ 14, e + 1) else (m, e)

/-- The number that is written. -/
def rounded (q : ℚ) : ℚ := (significant q).1 * 10 ^ ((significant q).2 - 14)

theorem significant_bounds {q : ℚ} (h : 0 < q) :
    10 ^ 14 ≤ (significant q).1 ∧ (significant q).1 < 10 ^ 15 := by
  have hpos : (0 : ℚ) < 10 ^ (Int.log 10 q - 14) := zpow_pos (by norm_num) _
  have hlow : ((10 ^ 14 : ℤ) : ℚ) ≤ q / 10 ^ (Int.log 10 q - 14) := by
    rw [le_div_iff₀ hpos]
    have hlog := Int.zpow_log_le_self (b := 10) (by decide) h
    calc ((10 ^ 14 : ℤ) : ℚ) * 10 ^ (Int.log 10 q - 14)
        = (10 : ℚ) ^ (14 : ℤ) * 10 ^ (Int.log 10 q - 14) := by norm_num
      _ = 10 ^ (Int.log 10 q) := by rw [← zpow_add₀ (by norm_num)]; congr 1; ring
      _ ≤ q := by exact_mod_cast hlog
  have hhigh : q / 10 ^ (Int.log 10 q - 14) ≤ ((10 ^ 15 : ℤ) : ℚ) := by
    rw [div_le_iff₀ hpos]
    have hlog := Int.lt_zpow_succ_log_self (b := 10) (by decide) q
    calc q ≤ 10 ^ (Int.log 10 q + 1) := by exact_mod_cast hlog.le
      _ = (10 : ℚ) ^ (15 : ℤ) * 10 ^ (Int.log 10 q - 14) := by
        rw [← zpow_add₀ (by norm_num)]; congr 1; ring
      _ = ((10 ^ 15 : ℤ) : ℚ) * 10 ^ (Int.log 10 q - 14) := by norm_num
  have hge := FloatFormat.le_halfEven hlow
  have hle := FloatFormat.halfEven_le hhigh
  simp only [significant]
  split
  · exact ⟨le_rfl, show 10 ^ 14 < 10 ^ 15 by decide⟩
  · omega

theorem log_le_significant (q : ℚ) : Int.log 10 q ≤ (significant q).2 := by
  simp only [significant]
  split
  · exact Int.le_add_one le_rfl
  · exact le_rfl

/-- The exponent of what is written. -/
theorem rounded_bounds {q : ℚ} (h : 0 < q) :
    (10 : ℚ) ^ (significant q).2 ≤ rounded q ∧ rounded q < 10 ^ ((significant q).2 + 1) := by
  obtain ⟨hlow, hhigh⟩ := significant_bounds h
  have hpos : (0 : ℚ) < 10 ^ ((significant q).2 - 14) := zpow_pos (by norm_num) _
  have hlow' : ((10 : ℚ) ^ (14 : ℤ)) ≤ (significant q).1 := by exact_mod_cast hlow
  have hhigh' : ((significant q).1 : ℚ) < 10 ^ (15 : ℤ) := by exact_mod_cast hhigh
  constructor
  · calc (10 : ℚ) ^ (significant q).2 = 10 ^ (14 : ℤ) * 10 ^ ((significant q).2 - 14) := by
          rw [← zpow_add₀ (by norm_num)]; congr 1; ring
      _ ≤ rounded q := mul_le_mul_of_nonneg_right hlow' hpos.le
  · calc rounded q < 10 ^ (15 : ℤ) * 10 ^ ((significant q).2 - 14) :=
          mul_lt_mul_of_pos_right hhigh' hpos
      _ = 10 ^ ((significant q).2 + 1) := by
          rw [← zpow_add₀ (by norm_num)]; congr 1; ring

/-- Where the text has no exponent. -/
theorem plain_iff {q : ℚ} (h : 0 < q) :
    -4 ≤ (significant q).2 ∧ (significant q).2 < 15 ↔
      1 / 10 ^ 4 ≤ rounded q ∧ rounded q < 10 ^ 15 := by
  obtain ⟨hlow, hhigh⟩ := rounded_bounds h
  have hfour : (1 / 10 ^ 4 : ℚ) = 10 ^ (-4 : ℤ) := by norm_num
  have hfifteen : (10 ^ 15 : ℚ) = 10 ^ (15 : ℤ) := by norm_num
  have hone : (1 : ℚ) < 10 := by norm_num
  rw [hfour, hfifteen]
  constructor
  · rintro ⟨hge, hlt⟩
    exact ⟨(zpow_le_zpow_right₀ hone.le hge).trans hlow,
      hhigh.trans_le (zpow_le_zpow_right₀ hone.le (by omega))⟩
  · rintro ⟨hge, hlt⟩
    have h1 := (zpow_lt_zpow_iff_right₀ hone).mp (hge.trans_lt hhigh)
    have h2 := (zpow_lt_zpow_iff_right₀ hone).mp (hlow.trans_lt hlt)
    omega

/-! ### The text -/

/-- A number with an exponent of at least two digits. -/
def scientificText (m : ℕ) (e : ℤ) : List ℕ :=
  withPoint ((natText m).take 1) (stripZeros ((natText m).drop 1)) ++
    [101, if e < 0 then 45 else 43] ++
      (if e.natAbs < 10 then [48] else []) ++ natText e.natAbs

/-- `%.15g` -/
def generalText (q : ℚ) : List ℕ :=
  if q = 0 then [48]
  else if -4 ≤ (significant q).2 ∧ (significant q).2 < 15 then
    fixedText (significant q).1 (14 - (significant q).2).toNat
  else scientificText (significant q).1 (significant q).2

theorem lastDigits_mul_pow (k d : ℕ) : lastDigits d (k * 10 ^ d) = List.replicate d 48 := by
  induction d generalizing k with
  | zero => rfl
  | succ d ih =>
      have hdigit : k * 10 ^ (d + 1) / 10 ^ d % 10 = 0 := by
        rw [pow_succ, ← Nat.mul_assoc, Nat.mul_right_comm, Nat.mul_div_cancel _ (by positivity)]
        exact Nat.mul_mod_left k 10
      rw [lastDigits, hdigit, pow_succ, Nat.mul_comm (10 ^ d), ← Nat.mul_assoc, ih]
      rfl

theorem fixedText_mul_pow (k d : ℕ) : fixedText (k * 10 ^ d) d = natText k := by
  have hzeros : stripZeros (List.replicate d 48) = [] := by simp [stripZeros]
  rw [fixedText, lastDigits_mul_pow, hzeros, Nat.mul_div_cancel _ (by positivity), withPoint,
    if_pos rfl, List.append_nil]

theorem significant_natCast {k : ℕ} (hpos : 0 < k) (h : k < 10 ^ 15) :
    ∃ d : ℕ, d ≤ 14 ∧ significant k = (k * 10 ^ d, (14 : ℤ) - d) := by
  have hlog : Nat.log 10 k < 15 := Nat.log_lt_of_lt_pow hpos.ne' h
  have hlt : k < 10 ^ (Nat.log 10 k + 1) := Nat.lt_pow_succ_log_self (by decide) k
  generalize hl : Nat.log 10 k = l at hlog hlt
  have hquot : (k : ℚ) / 10 ^ ((l : ℤ) - 14) = ((k * 10 ^ (14 - l) : ℕ) : ℤ) := by
    have hexp : (l : ℤ) - 14 = -((14 - l : ℕ) : ℤ) := by omega
    rw [hexp, zpow_neg, zpow_natCast, div_inv_eq_mul]
    push_cast
    rfl
  have hround :
      (FloatFormat.halfEven ((k : ℚ) / 10 ^ ((l : ℤ) - 14))).toNat = k * 10 ^ (14 - l) := by
    rw [hquot, le_antisymm (FloatFormat.halfEven_le le_rfl) (FloatFormat.le_halfEven le_rfl)]
    exact Int.toNat_natCast _
  have hne : k * 10 ^ (14 - l) ≠ 10 ^ 15 := by
    have hmul := Nat.mul_lt_mul_of_pos_right hlt (show 0 < 10 ^ (14 - l) by positivity)
    rw [← pow_add, show l + 1 + (14 - l) = 15 by omega] at hmul
    exact hmul.ne
  refine ⟨14 - l, Nat.sub_le _ _, ?_⟩
  unfold significant
  simp only [Int.log_natCast, hl, hround, hne, if_false]
  exact congrArg _ (by omega)

/-- Whole numbers of at most fifteen digits are written in full. -/
theorem generalText_natCast {k : ℕ} (h : k < 10 ^ 15) : generalText k = natText k := by
  rcases Nat.eq_zero_or_pos k with rfl | hpos
  · rfl
  · obtain ⟨d, hd, hsig⟩ := significant_natCast hpos h
    have hne : (k : ℚ) ≠ 0 := by exact_mod_cast hpos.ne'
    have hexp : (14 - (14 - (d : ℤ))).toNat = d := by omega
    rw [generalText, if_neg hne, hsig, if_pos (by dsimp only; omega)]
    dsimp only
    rw [hexp, fixedText_mul_pow]

/-- Where there is an exponent, there is an `e`. -/
theorem mem_scientificText (m : ℕ) (e : ℤ) : 101 ∈ scientificText m e := by
  simp [scientificText]

end GooglePerl.Lib
