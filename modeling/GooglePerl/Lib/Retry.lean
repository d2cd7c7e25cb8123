import Mathlib.Algebra.Order.Ring.Defs
import Mathlib.Data.List.Range
import Mathlib.Order.Lattice
import Mathlib.Tactic.Linarith

/-!
Loops of attempts.

An attempt is made and its outcome looked at; after some outcomes another one
follows, a pause between them, up to a bound. `retry_eq` says what such a loop
does: it ends at `lastAttempt`, and its pauses are the first one, `next` of it
and so on. Pauses that grow by a factor up to a cap are `iterate_min_mul`.
-/

namespace GooglePerl.Lib

variable {O K R : Type}

/-- What a loop of attempts did. -/
structure Attempts (K R : Type) where
  attempts : ℕ
  pauses : List K
  result : R
  deriving DecidableEq

/-- One attempt and a pause before the others. -/
def Attempts.after (pause : K) (a : Attempts K R) : Attempts K R :=
  ⟨a.attempts + 1, pause :: a.pauses, a.result⟩

/-- The outcomes after the first one. -/
def later (o : ℕ → O) (i : ℕ) : O := o (i + 1)

/-- The index of the last of at most `n + 1` attempts. -/
def lastAttempt (again : O → Bool) (o : ℕ → O) : ℕ → ℕ
  | 0 => 0
  | n + 1 => if again (o 0) then lastAttempt again (later o) n + 1 else 0

/-- At most `n` retries, `pause` before the first of them. -/
def retry (again : O → Bool) (next : K → K) (finish : O → R) (o : ℕ → O) : ℕ → K → Attempts K R
  | 0, _ => ⟨1, [], finish (o 0)⟩
  | n + 1, pause =>
      if again (o 0) then (retry again next finish (later o) n (next pause)).after pause
      else ⟨1, [], finish (o 0)⟩

section Loop

variable {again : O → Bool} {o : ℕ → O} {n : ℕ}

theorem lastAttempt_le : lastAttempt again o n ≤ n := by
  induction n generalizing o with
  | zero => exact le_rfl
  | succ n ih =>
      rw [lastAttempt]
      split
      · exact Nat.succ_le_succ ih
      · exact Nat.zero_le _

theorem again_of_lt_lastAttempt {i : ℕ} (h : i < lastAttempt again o n) : again (o i) := by
  induction n generalizing o i with
  | zero => exact absurd h (Nat.not_lt_zero i)
  | succ n ih =>
      rw [lastAttempt] at h
      split at h
      · rename_i hfirst
        cases i with
        | zero => exact hfirst
        | succ i => exact ih (o := later o) (Nat.lt_of_succ_lt_succ h)
      · exact absurd h (Nat.not_lt_zero i)

/-- The loop ends before its bound only after an outcome that is not tried again. -/
theorem not_again_lastAttempt (h : lastAttempt again o n < n) :
    again (o (lastAttempt again o n)) = false := by
  induction n generalizing o with
  | zero => exact absurd h (Nat.not_lt_zero _)
  | succ n ih =>
      rw [lastAttempt] at h ⊢
      split at h
      · rename_i hfirst
        rw [if_pos hfirst]
        exact ih (Nat.lt_of_succ_lt_succ h)
      · rename_i hfirst
        rw [if_neg hfirst]
        exact Bool.eq_false_of_not_eq_true hfirst

theorem retry_eq (next : K → K) (finish : O → R) (pause : K) :
    retry again next finish o n pause =
      ⟨lastAttempt again o n + 1, (List.range (lastAttempt again o n)).map (next^[·] pause),
        finish (o (lastAttempt again o n))⟩ := by
  induction n generalizing o pause with
  | zero => rfl
  | succ n ih =>
      rw [retry, lastAttempt]
      split
      · rw [ih, Attempts.after, List.range_succ_eq_map, List.map_cons, List.map_map]
        rfl
      · rfl

end Loop

/-- A capped geometric growth from below the cap: capping at each step is capping once. -/
theorem iterate_min_mul [CommSemiring K] [LinearOrder K] [IsOrderedRing K] {cap start factor : K}
    (hfactor : 0 ≤ factor) (hstart : 0 ≤ start) (h : start ≤ cap) (k : ℕ) :
    (fun pause => min cap (pause * factor))^[k] start = min cap (start * factor ^ k) := by
  induction k with
  | zero => simp [h]
  | succ k ih =>
      rw [Function.iterate_succ_apply', ih, pow_succ, ← mul_assoc]
      rcases le_total (start * factor ^ k) cap with hle | hge
      · rw [min_eq_right hle]
      · rw [min_eq_left hge]
        -- beyond the cap, the factor cannot be less than one
        rcases le_total 1 factor with hone | hone
        · have hcap : cap ≤ cap * factor := le_mul_of_one_le_right (hstart.trans h) hone
          have hnext : cap * factor ≤ start * factor ^ k * factor :=
            mul_le_mul_of_nonneg_right hge hfactor
          rw [min_eq_left hcap, min_eq_left (hcap.trans hnext)]
        · have hpow : start * factor ^ k ≤ start :=
            mul_le_of_le_one_right hstart (pow_le_one₀ hfactor hone)
          rw [le_antisymm hge (hpow.trans h)]

end GooglePerl.Lib
