import GooglePerl.Lib.TiedArray

/-!
Pre- and postconditions for code that changes a state and may die.

`Triple P x Q E`: started where `P` holds, `x` returns where `Q` holds of its
result, or dies where `E` holds. There is one rule for each way to build code.
-/

namespace GooglePerl.Lib

variable {ε σ α β : Type}

def Triple (P : σ → Prop) (x : EStateM ε σ α) (Q : α → σ → Prop) (E : σ → Prop) : Prop :=
  ∀ s, P s →
    match x s with
    | .ok a s' => Q a s'
    | .error _ s' => E s'

namespace Triple

variable {P P' E : σ → Prop} {Q : α → σ → Prop} {R : β → σ → Prop}

theorem weaken {x : EStateM ε σ α} (h : Triple P x Q E) (hP : ∀ s, P' s → P s) :
    Triple P' x Q E :=
  fun s hs => h s (hP s hs)

theorem strengthen {Q' : α → σ → Prop} {E' : σ → Prop} {x : EStateM ε σ α} (h : Triple P x Q E)
    (hQ : ∀ a s, Q a s → Q' a s) (hE : ∀ s, E s → E' s) : Triple P x Q' E' := by
  intro s hs
  have hx := h s hs
  cases hres : x s with
  | ok a s' =>
      rw [hres] at hx
      exact hQ a s' hx
  | error e s' =>
      rw [hres] at hx
      exact hE s' hx

theorem pure {a : α} (h : ∀ s, P s → Q a s) : Triple P (pure a : EStateM ε σ α) Q E :=
  fun s hs => h s hs

theorem throw {e : ε} (h : ∀ s, P s → E s) : Triple P (throw e : EStateM ε σ α) Q E :=
  fun s hs => h s hs

theorem modify {f : σ → σ} {Q : PUnit → σ → Prop} (h : ∀ s, P s → Q ⟨⟩ (f s)) :
    Triple P (modify f : EStateM ε σ PUnit) Q E :=
  fun s hs => h s hs

theorem bind {x : EStateM ε σ α} {f : α → EStateM ε σ β} (hx : Triple P x Q E)
    (hf : ∀ a, Triple (Q a) (f a) R E) : Triple P (x >>= f) R E := by
  intro s hs
  have hx := hx s hs
  simp only [Bind.bind, EStateM.bind]
  cases hres : x s with
  | ok a s' =>
      rw [hres] at hx
      exact hf a s' hx
  | error e s' =>
      rw [hres] at hx
      exact hx

/-- Code that reads the state first: it is proved for each state by itself. -/
theorem read {f : σ → EStateM ε σ β} (h : ∀ s, P s → Triple (fun t => t = s) (f s) R E) :
    Triple P (get >>= f) R E :=
  fun s hs => h s hs s rfl

theorem tryCatch {x : EStateM ε σ α} {f : ε → EStateM ε σ α} (hx : Triple P x Q P')
    (hf : ∀ e, Triple P' (f e) Q E) : Triple P (tryCatch x f) Q E := by
  intro s hs
  have hx := hx s hs
  simp only [MonadExcept.tryCatch, tryCatchThe, MonadExceptOf.tryCatch, EStateM.tryCatch]
  cases hres : x s with
  | ok a s' =>
      rw [hres] at hx
      exact hx
  | error e s' =>
      rw [hres] at hx
      exact hf e s' hx

/-- Code that cannot die returns. -/
theorem returns {x : EStateM ε σ α} (h : Triple P x Q fun _ => False) {s : σ} (hs : P s) :
    ∃ a s', x s = .ok a s' ∧ Q a s' := by
  have h := h s hs
  cases hres : x s with
  | ok a s' =>
      rw [hres] at h
      exact ⟨a, s', rfl, h⟩
  | error e s' =>
      rw [hres] at h
      exact h.elim

theorem leaves {I : σ → Prop} {x : EStateM ε σ α} (h : Triple P x (fun _ => I) I) {s : σ}
    (hs : P s) : I (leaves x s) := by
  have h := h s hs
  unfold GooglePerl.Lib.leaves
  cases hres : x s with
  | ok a s' =>
      rw [hres] at h
      exact h
  | error e s' =>
      rw [hres] at h
      exact h

end Triple

end GooglePerl.Lib
