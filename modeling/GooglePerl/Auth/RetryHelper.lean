import GooglePerl.Lib.Retry
import GooglePerl.Protobuf.Value
import Mathlib.Data.NNRat.Defs
import Mathlib.Order.Bounds.Basic

/-!
`Google::Auth::RetryHelper`: a block is called until it succeeds, its error is hopeless or
the attempts are used up.

The loop has no bound of its own, so a run is limited to a number of turns here;
`executeWithRetry_eq` finds the turns that are enough.
-/

namespace GooglePerl.Auth.RetryHelper

open GooglePerl.Lib
open GooglePerl.Protobuf (PerlStr ps)

variable {V : Type}

/-! ### Calling the block -/

/-- Truth of a string -/
def isTrue (s : PerlStr) : Bool := s ≠ [] && s ≠ ps "0"

/-- What a block died of, as a string. `die` leaves no `$@` that is false. -/
structure Exception where
  text : PerlStr
  isTrue_text : isTrue text = true

/-- One call of the block. -/
inductive Outcome (V : Type) where
  | returned (v : V)
  | died (e : Exception)

/-- `$res` after `eval { $code->() }` -/
def Outcome.res : Outcome V → Option V
  | .returned v => some v
  | .died _ => none

/-- `$@` after it -/
def Outcome.evalError : Outcome V → PerlStr
  | .returned _ => []
  | .died e => e.text

/-! ### Hopeless errors -/

/-- Letters without their case. -/
def foldCase (s : PerlStr) : PerlStr := s.map fun c => if 65 ≤ c ∧ c ≤ 90 then c + 32 else c

/-- `/w/i` -/
def occurs (w : String) (s : PerlStr) : Bool :=
  (foldCase s).tails.any (foldCase (ps w)).isPrefixOf

/-- `/u.*w/i`: the dot matches no newline. -/
def occursThen (u w : String) (s : PerlStr) : Bool :=
  (foldCase s).tails.any fun t =>
    (foldCase (ps u)).isPrefixOf t &&
      occurs w ((t.drop (ps u).length).takeWhile fun c => c ≠ 10)

/-- The patterns of errors that are not tried again. -/
def isFatal (err : PerlStr) : Bool :=
  occursThen "Credential file" "does not exist" err || occurs "Missing required" err ||
    occurs "Ambiguous" err || occurs "Invalid credential_source" err

/-! ### The loop -/

/-- The arguments of `execute_with_retry` besides the block. -/
structure Options where
  maxRetries : Option ℤ := none
  initialDelay : Option ℚ≥0 := none
  backoffFactor : Option ℚ≥0 := none

namespace Options

def attemptLimit (o : Options) : ℤ := o.maxRetries.getD 3

def firstDelay (o : Options) : ℚ≥0 := o.initialDelay.getD 1

def factor (o : Options) : ℚ≥0 := o.backoffFactor.getD 2

end Options

/-- `while (1)`, for a number of turns; `attempt` calls were made before. -/
def attemptLoop (o : Options) (outcomes : ℕ → Outcome V) :
    ℕ → ℕ → ℚ≥0 → Option (Attempts ℚ≥0 (Except PerlStr (Option V)))
  | 0, _, _ => none
  | n + 1, attempt, delay =>
      let outcome := outcomes attempt
      let attempt := attempt + 1
      if !isTrue outcome.evalError then some ⟨1, [], .ok outcome.res⟩
      else if attempt ≥ o.attemptLimit then some ⟨1, [], .error outcome.evalError⟩
      else if isFatal outcome.evalError then some ⟨1, [], .error outcome.evalError⟩
      else (attemptLoop o outcomes n attempt (delay * o.factor)).map (Attempts.after delay)

/-- `execute_with_retry`: the calls it makes, how long it sleeps between them, and what it
returns or dies of. -/
def executeWithRetry (o : Options) (outcomes : ℕ → Outcome V) (turns : ℕ) :
    Option (Attempts ℚ≥0 (Except PerlStr (Option V))) :=
  attemptLoop o outcomes turns 0 o.firstDelay

/-! ### What it does -/

namespace Outcome

/-- An error that none of the patterns matches. -/
def isRetryable : Outcome V → Bool
  | .returned _ => false
  | .died e => !isFatal e.text

/-- What a call that is the last one makes of the whole. -/
def result : Outcome V → Except PerlStr (Option V)
  | .returned v => .ok (some v)
  | .died e => .error e.text

end Outcome

/-- The calls that may follow the first one. -/
def Options.retries (o : Options) : ℕ := (o.attemptLimit - 1).toNat

theorem attemptLoop_eq (o : Options) (outcomes : ℕ → Outcome V) {n k attempt : ℕ}
    (hk : attempt + k = o.retries) (hn : k < n) (delay : ℚ≥0) :
    attemptLoop o outcomes n attempt delay =
      some (retry Outcome.isRetryable (· * o.factor) Outcome.result
        (fun i => outcomes (attempt + i)) k delay) := by
  have hretries : o.retries = (o.attemptLimit - 1).toNat := rfl
  induction k generalizing n attempt delay with
  | zero =>
      obtain ⟨n, rfl⟩ : ∃ m, n = m + 1 := Nat.exists_eq_succ_of_ne_zero (by omega)
      have hlimit : ((attempt + 1 : ℕ) : ℤ) ≥ o.attemptLimit := by omega
      rw [attemptLoop, retry, Nat.add_zero]
      cases h : outcomes attempt with
      | returned v => simp [Outcome.evalError, isTrue, Outcome.res, Outcome.result]
      | died e =>
          simp only [Outcome.evalError, e.isTrue_text, Outcome.result]
          rw [if_neg (by simp), if_pos hlimit]
  | succ k ih =>
      obtain ⟨n, rfl⟩ : ∃ m, n = m + 1 := Nat.exists_eq_succ_of_ne_zero (by omega)
      have hlimit : ¬ ((attempt + 1 : ℕ) : ℤ) ≥ o.attemptLimit := by omega
      have hlater : later (fun i => outcomes (attempt + i)) =
          fun i => outcomes (attempt + 1 + i) := by
        funext i
        exact congrArg outcomes (by omega)
      rw [attemptLoop, retry, Nat.add_zero, hlater, ih (by omega) (by omega)]
      cases h : outcomes attempt with
      | returned v =>
          simp [Outcome.evalError, isTrue, Outcome.res, Outcome.result, Outcome.isRetryable]
      | died e =>
          simp only [Outcome.evalError, e.isTrue_text, Outcome.result, Outcome.isRetryable]
          rw [if_neg (by simp), if_neg hlimit]
          by_cases hfatal : isFatal e.text = true
          · simp [hfatal]
          · simp [hfatal]

/-- The number of calls: the place of the first success or hopeless error, or the limit. -/
def Options.IsLast (o : Options) (outcomes : ℕ → Outcome V) (k : ℕ) : Prop :=
  IsLeast {k : ℕ | 0 < k ∧ ((outcomes (k - 1)).isRetryable = false ∨
    (k : ℤ) = max 1 o.attemptLimit)} k

theorem isLast_lastAttempt (o : Options) (outcomes : ℕ → Outcome V) :
    o.IsLast outcomes (lastAttempt Outcome.isRetryable outcomes o.retries + 1) := by
  have hretries : (o.retries : ℤ) + 1 = max 1 o.attemptLimit := by
    rw [Options.retries]
    omega
  have hle : lastAttempt Outcome.isRetryable outcomes o.retries ≤ o.retries := lastAttempt_le
  constructor
  · refine ⟨Nat.succ_pos _, ?_⟩
    rcases Nat.lt_or_eq_of_le hle with hlt | heq
    · exact .inl (not_again_lastAttempt hlt)
    · refine .inr ?_
      rw [heq, ← hretries]
      rfl
  · rintro k ⟨hpos, hk⟩
    by_contra hlt
    have hbefore : k - 1 < lastAttempt Outcome.isRetryable outcomes o.retries := by omega
    rcases hk with hstop | hlimit
    · rw [again_of_lt_lastAttempt hbefore] at hstop
      cases hstop
    · omega

-- a timeout, then a missing file: two calls and one pause
example : (executeWithRetry (V := Unit) {} (fun i => .died (if i = 0 then ⟨ps "timeout\n", rfl⟩
      else ⟨ps "credential file x does not exist\n", rfl⟩)) 9).map
      (fun a => (a.attempts, a.pauses)) = some (2, [1]) := by
  rfl

end GooglePerl.Auth.RetryHelper
