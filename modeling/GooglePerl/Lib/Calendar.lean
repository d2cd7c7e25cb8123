import Mathlib.Algebra.Order.Group.Int
import Mathlib.Tactic.SplitIfs

/-!
Dates of the Gregorian calendar.

Years differ in length, and months too, so a day is found by going through blocks of given sizes
(`locate`). What is found that way leads back to the number it came from (`start_locate`), and is
in the order of the numbers (`locate_lt_iff`). So `timegm` undoes `gmtime`, and broken-down times
are in the order of the times (`gmtime_before_iff`).
-/

namespace GooglePerl.Lib

/-! ### Blocks -/

section Blocks

variable {size : ℕ → ℕ} {i j n m r : ℕ}

/-- The first number in block `i`. -/
def blockStart (size : ℕ → ℕ) : ℕ → ℕ
  | 0 => 0
  | i + 1 => blockStart size i + size i

/-- The block, from `i` on, that has the `n`-th number, and its place there. -/
def locateFrom (size : ℕ → ℕ) : ℕ → ℕ → ℕ → ℕ × ℕ
  | 0, i, n => (i, n)
  | fuel + 1, i, n => if n < size i then (i, n) else locateFrom size fuel (i + 1) (n - size i)

/-- The block that a number is in, and its place there. -/
def locate (size : ℕ → ℕ) (n : ℕ) : ℕ × ℕ := locateFrom size n 0 n

theorem locateFrom_spec (hpos : ∀ i, 0 < size i) {fuel : ℕ} (h : n ≤ fuel) :
    blockStart size (locateFrom size fuel i n).1 + (locateFrom size fuel i n).2 =
        blockStart size i + n ∧
      (locateFrom size fuel i n).2 < size (locateFrom size fuel i n).1 := by
  induction fuel generalizing i n with
  | zero =>
      obtain rfl := Nat.le_zero.mp h
      exact ⟨rfl, hpos i⟩
  | succ fuel ih =>
      rw [locateFrom]
      split
      · rename_i hlt
        exact ⟨rfl, hlt⟩
      · rename_i hge
        have hsize := hpos i
        obtain ⟨hsum, hlt⟩ := ih (i := i + 1) (n := n - size i) (by omega)
        refine ⟨?_, hlt⟩
        rw [hsum, blockStart]
        omega

theorem start_locate (hpos : ∀ i, 0 < size i) (n : ℕ) :
    blockStart size (locate size n).1 + (locate size n).2 = n := by
  have hsum := (locateFrom_spec hpos (i := 0) (le_refl n)).1
  rwa [blockStart, Nat.zero_add] at hsum

theorem locate_lt (hpos : ∀ i, 0 < size i) (n : ℕ) :
    (locate size n).2 < size (locate size n).1 :=
  (locateFrom_spec hpos (le_refl n)).2

variable (size) in
theorem blockStart_add_le (h : i < j) : blockStart size i + size i ≤ blockStart size j := by
  induction j with
  | zero => exact absurd h (Nat.not_lt_zero i)
  | succ j ih =>
      rcases Nat.lt_succ_iff_lt_or_eq.mp h with hlt | rfl
      · exact (ih hlt).trans (Nat.le_add_right _ _)
      · exact le_rfl

/-- Numbers are in the order of their blocks and of their places there. -/
theorem locate_lt_iff (hpos : ∀ i, 0 < size i) :
    n < m ↔ (locate size n).1 < (locate size m).1 ∨
      (locate size n).1 = (locate size m).1 ∧ (locate size n).2 < (locate size m).2 := by
  have hn := start_locate hpos n
  have hm := start_locate hpos m
  have hn' := locate_lt hpos n
  have hm' := locate_lt hpos m
  rcases Nat.lt_trichotomy (locate size n).1 (locate size m).1 with hlt | heq | hgt
  · have hstart := blockStart_add_le size hlt
    exact iff_of_true (by omega) (.inl hlt)
  · rw [heq] at hn
    constructor
    · exact fun h => .inr ⟨heq, by omega⟩
    · rintro (hlt | ⟨-, hlt⟩)
      · omega
      · omega
  · have hstart := blockStart_add_le size hgt
    refine iff_of_false (by omega) ?_
    rintro (hlt | ⟨heq, -⟩)
    · omega
    · omega

/-- A number below the start of a block is in an earlier one. -/
theorem locate_fst_lt (hpos : ∀ i, 0 < size i) (h : n < blockStart size i) :
    (locate size n).1 < i := by
  by_contra hge
  have hn := start_locate hpos n
  rcases Nat.lt_or_eq_of_le (Nat.not_lt.mp hge) with hlt | heq
  · have hstart := blockStart_add_le size hlt
    omega
  · rw [← heq] at hn
    omega

end Blocks

/-! ### Dates -/

def isLeap (year : ℕ) : Bool := year % 4 = 0 && (year % 100 ≠ 0 || year % 400 = 0)

def yearLength (year : ℕ) : ℕ := if isLeap year then 366 else 365

/-- The months are numbered from 0. -/
def monthLength (leap : Bool) (mon : ℕ) : ℕ :=
  if mon = 1 then if leap then 29 else 28
  else if mon = 3 ∨ mon = 5 ∨ mon = 8 ∨ mon = 10 then 30
  else 31

theorem yearLength_pos (year : ℕ) : 0 < yearLength year := by
  unfold yearLength
  split <;> decide

theorem monthLength_pos (leap : Bool) (mon : ℕ) : 0 < monthLength leap mon := by
  unfold monthLength
  split_ifs <;> decide

theorem monthLength_le (leap : Bool) (mon : ℕ) : monthLength leap mon ≤ 31 := by
  unfold monthLength
  split_ifs <;> decide

theorem blockStart_monthLength (year : ℕ) :
    blockStart (monthLength (isLeap year)) 12 = yearLength year := by
  unfold yearLength
  cases isLeap year <;> decide

/-- The days of 400 years. -/
theorem blockStart_yearLength : blockStart yearLength 400 = 146097 := by decide +kernel

/-- A time, broken down; months and days are numbered from 1. -/
structure Tm where
  year : ℤ
  mon : ℕ
  mday : ℕ
  hour : ℕ
  min : ℕ
  sec : ℕ
  deriving DecidableEq

/-- The days from the first one of the year 0 to 1970. -/
def epochDay : ℤ := 719528

/-- The year of a day, in its era of 400 years. -/
def yearOfEra (days : ℤ) : ℕ := (locate yearLength (days % 146097).toNat).1

def yearOf (days : ℤ) : ℤ := 400 * (days / 146097) + yearOfEra days

def dayOfYear (days : ℤ) : ℕ := (locate yearLength (days % 146097).toNat).2

/-- The month of a day, and its place there, both from 0 -/
def monthDay (days : ℤ) : ℕ × ℕ := locate (monthLength (isLeap (yearOfEra days))) (dayOfYear days)

/-- The date and the time of day of a number of seconds since 1970 -/
def gmtime (t : ℤ) : Tm :=
  let days := t / 86400 + epochDay
  let rest := (t % 86400).toNat
  ⟨yearOf days, (monthDay days).1 + 1, (monthDay days).2 + 1, rest / 3600, rest / 60 % 60, rest % 60⟩

/-- The number of seconds since 1970 -/
def timegm (tm : Tm) : ℤ :=
  let y := (tm.year % 400).toNat
  let day := blockStart yearLength y + blockStart (monthLength (isLeap y)) (tm.mon - 1) +
    (tm.mday - 1)
  (146097 * (tm.year / 400) + day - epochDay) * 86400 +
    (3600 * tm.hour + 60 * tm.min + tm.sec : ℕ)

theorem yearOfEra_lt (days : ℤ) : yearOfEra days < 400 := by
  refine locate_fst_lt yearLength_pos ?_
  rw [blockStart_yearLength]
  have hlt := Int.emod_lt_of_pos days (by decide : (0 : ℤ) < 146097)
  omega

theorem yearOf_emod (days : ℤ) : (yearOf days % 400).toNat = yearOfEra days := by
  have hlt := yearOfEra_lt days
  rw [yearOf]
  omega

theorem yearOf_ediv (days : ℤ) : yearOf days / 400 = days / 146097 := by
  have hlt := yearOfEra_lt days
  rw [yearOf]
  omega

theorem start_yearOfEra (days : ℤ) :
    (blockStart yearLength (yearOfEra days) + dayOfYear days : ℕ) = days % 146097 := by
  rw [yearOfEra, dayOfYear, start_locate yearLength_pos]
  exact Int.toNat_of_nonneg (Int.emod_nonneg days (by decide))

theorem start_monthDay (days : ℤ) :
    blockStart (monthLength (isLeap (yearOfEra days))) (monthDay days).1 + (monthDay days).2 =
      dayOfYear days :=
  start_locate (monthLength_pos _) _

theorem timegm_gmtime (t : ℤ) : timegm (gmtime t) = t := by
  have hyear := start_yearOfEra (t / 86400 + epochDay)
  have hmonth := start_monthDay (t / 86400 + epochDay)
  have hrest := Int.emod_nonneg t (by decide : (86400 : ℤ) ≠ 0)
  simp only [timegm, gmtime, Nat.add_sub_cancel, yearOf_emod, yearOf_ediv]
  rw [Nat.add_assoc, hmonth, hyear, Int.mul_ediv_add_emod, Int.add_sub_cancel]
  omega

/-! ### The order of times -/

/-- An earlier year, or the same one and an earlier month, and so on. -/
def Tm.Before (tm tm' : Tm) : Prop :=
  tm.year < tm'.year ∨ tm.year = tm'.year ∧ (tm.mon < tm'.mon ∨ tm.mon = tm'.mon ∧
    (tm.mday < tm'.mday ∨ tm.mday = tm'.mday ∧ (tm.hour < tm'.hour ∨ tm.hour = tm'.hour ∧
      (tm.min < tm'.min ∨ tm.min = tm'.min ∧ tm.sec < tm'.sec))))

theorem Tm.Before.asymm {tm tm' : Tm} (h : tm.Before tm') : ¬ tm'.Before tm := by
  unfold Tm.Before at *
  omega

/-- The date of an earlier day is before that of a later one. -/
theorem date_before {days days' : ℤ} (h : days < days') :
    yearOf days < yearOf days' ∨ yearOf days = yearOf days' ∧
      ((monthDay days).1 < (monthDay days').1 ∨ (monthDay days).1 = (monthDay days').1 ∧
        (monthDay days).2 < (monthDay days').2) := by
  have hera := Int.ediv_le_ediv (by decide : (0 : ℤ) < 146097) h.le
  rcases lt_or_eq_of_le hera with hera | hera
  · have hy := yearOfEra_lt days
    refine .inl ?_
    rw [yearOf, yearOf]
    omega
  · have hday : (days % 146097).toNat < (days' % 146097).toNat := by
      have hn := Int.emod_nonneg days (by decide : (146097 : ℤ) ≠ 0)
      have hn' := Int.emod_nonneg days' (by decide : (146097 : ℤ) ≠ 0)
      omega
    rcases (locate_lt_iff yearLength_pos).mp hday with hyear | ⟨hyear, hplace⟩
    · refine .inl ?_
      rw [yearOf, yearOf, hera, yearOfEra, yearOfEra]
      omega
    · have hyear : yearOfEra days = yearOfEra days' := hyear
      refine .inr ⟨by rw [yearOf, yearOf, hera, hyear], ?_⟩
      rw [monthDay, monthDay, hyear]
      exact (locate_lt_iff (monthLength_pos _)).mp hplace

theorem gmtime_before {t t' : ℤ} (h : t < t') : (gmtime t).Before (gmtime t') := by
  rcases lt_or_eq_of_le (Int.ediv_le_ediv (by decide : (0 : ℤ) < 86400) h.le) with hday | hday
  · -- the date decides
    rcases date_before (Int.add_lt_add_right hday epochDay) with hyear | ⟨hyear, hmon | ⟨hmon, hlt⟩⟩
    · exact .inl hyear
    · exact .inr ⟨hyear, .inl (Nat.succ_lt_succ hmon)⟩
    · exact .inr ⟨hyear, .inr ⟨congrArg Nat.succ hmon, .inl (Nat.succ_lt_succ hlt)⟩⟩
  · have hrest := Int.emod_nonneg t (by decide : (86400 : ℤ) ≠ 0)
    refine .inr ⟨by simp only [gmtime, hday], .inr ⟨by simp only [gmtime, hday], .inr
      ⟨by simp only [gmtime, hday], ?_⟩⟩⟩
    simp only [gmtime]
    omega

theorem gmtime_before_iff {t t' : ℤ} : (gmtime t).Before (gmtime t') ↔ t < t' := by
  refine ⟨fun h => ?_, gmtime_before⟩
  by_contra hge
  rcases lt_or_eq_of_le (not_lt.mp hge) with hlt | rfl
  · exact h.asymm (gmtime_before hlt)
  · exact h.asymm h

/-! ### Bounds -/

/-- A day behind the start of a year is in that year or a later one. -/
theorem le_yearOf (days era : ℤ) {y : ℕ} (hy : y ≤ 400)
    (h : 146097 * era + blockStart yearLength y ≤ days) : 400 * era + y ≤ yearOf days := by
  have hstart := start_yearOfEra days
  have hlt := locate_lt yearLength_pos (days % 146097).toNat
  rw [yearOf]
  rcases Int.lt_or_le (days / 146097) era with hera | hera
  · omega
  rcases lt_or_eq_of_le hera with hera | rfl
  · omega
  · by_contra hyear
    have hnext := blockStart_add_le yearLength (i := yearOfEra days) (j := y) (by omega)
    have hplace : dayOfYear days < yearLength (yearOfEra days) := hlt
    omega

/-- A day before the start of a year is in an earlier one. -/
theorem yearOf_lt {days : ℤ} (era : ℤ) (h : days < 146097 * era) : yearOf days < 400 * era := by
  have hlt := yearOfEra_lt days
  rw [yearOf]
  omega

structure Tm.InRange (tm : Tm) : Prop where
  mon_pos : 1 ≤ tm.mon
  mon_le : tm.mon ≤ 12
  mday_pos : 1 ≤ tm.mday
  mday_le : tm.mday ≤ 31
  hour_le : tm.hour ≤ 23
  min_le : tm.min ≤ 59
  sec_le : tm.sec ≤ 59

theorem monthDay_lt (days : ℤ) : (monthDay days).1 < 12 ∧ (monthDay days).2 < 31 := by
  constructor
  · refine locate_fst_lt (monthLength_pos _) ?_
    rw [blockStart_monthLength]
    exact locate_lt yearLength_pos _
  · exact (locate_lt (monthLength_pos _) _).trans_le (monthLength_le _ _)

theorem gmtime_inRange (t : ℤ) : (gmtime t).InRange := by
  have hdate := monthDay_lt (t / 86400 + epochDay)
  have hlt := Int.emod_lt_of_pos t (by decide : (0 : ℤ) < 86400)
  constructor <;> simp only [gmtime] <;> omega

end GooglePerl.Lib
