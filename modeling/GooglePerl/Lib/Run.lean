import Mathlib.Init
import Mathlib.Data.List.Forall2

/-!
Runs of a system that takes one step for each event.

`Allowed` says of a run that each of its events comes in a state in which a
condition holds; `run_invariant` is the induction that every safety result
about such a run is an instance of.
-/

namespace GooglePerl.Lib

variable {σ α : Type}

/-- The state after a list of events. -/
def run (step : σ → α → σ) (s : σ) (events : List α) : σ := events.foldl step s

@[simp] theorem run_nil (step : σ → α → σ) (s : σ) : run step s [] = s := rfl

@[simp] theorem run_cons (step : σ → α → σ) (s : σ) (e : α) (es : List α) :
    run step s (e :: es) = run step (step s e) es := rfl

theorem run_append (step : σ → α → σ) (s : σ) (es es' : List α) :
    run step s (es ++ es') = run step (run step s es) es' :=
  List.foldl_append

/-- A step of a system that keeps the replies it has given. -/
def logged {ρ : Type} (step : σ → α → σ × ρ) : σ × List ρ → α → σ × List ρ :=
  fun s e => ((step s.1 e).1, s.2 ++ [(step s.1 e).2])

/-- Every event of the run comes in a state where `ok` allows it. -/
def Allowed (step : σ → α → σ) (ok : σ → α → Prop) : σ → List α → Prop
  | _, [] => True
  | s, e :: es => ok s e ∧ Allowed step ok (step s e) es

/-- A condition on the events alone. -/
theorem allowed_of_forall {step : σ → α → σ} {ok : α → Prop} {es : List α}
    (h : ∀ e ∈ es, ok e) (s : σ) : Allowed step (fun _ e => ok e) s es := by
  induction es generalizing s with
  | nil => trivial
  | cons e es ih =>
      exact ⟨h e List.mem_cons_self, ih (fun e' he' => h e' (List.mem_cons_of_mem _ he')) _⟩

theorem run_invariant {step : σ → α → σ} {ok : σ → α → Prop} (Inv : σ → Prop)
    (hstep : ∀ s e, Inv s → ok s e → Inv (step s e)) {s : σ} {es : List α} (hs : Inv s)
    (hok : Allowed step ok s es) : Inv (run step s es) := by
  induction es generalizing s with
  | nil => exact hs
  | cons e es ih => exact ih (hstep s e hs hok.1) hok.2

/-- The state after one event more. -/
theorem run_take_succ {step : σ → α → σ} {s : σ} {es : List α} {n : ℕ} {e : α}
    (h : es[n]? = some e) :
    run step s (es.take (n + 1)) = step (run step s (es.take n)) e := by
  rw [List.take_add_one, h, run_append]
  rfl

/-- What the condition says of the event at a place of the run. -/
theorem Allowed.getElem? {step : σ → α → σ} {ok : σ → α → Prop} {s : σ} {es : List α} {n : ℕ}
    {e : α} (hok : Allowed step ok s es) (h : es[n]? = some e) :
    ok (run step s (es.take n)) e := by
  induction es generalizing s n with
  | nil => simp at h
  | cons e' es ih =>
      cases n with
      | zero =>
          obtain rfl : e' = e := by simpa using h
          exact hok.1
      | succ n => exact ih hok.2 (by simpa using h)

theorem Allowed.take {step : σ → α → σ} {ok : σ → α → Prop} {s : σ} {es : List α}
    (hok : Allowed step ok s es) (n : ℕ) : Allowed step ok s (es.take n) := by
  induction es generalizing s n with
  | nil => simpa using hok
  | cons e es ih =>
      cases n with
      | zero => trivial
      | succ n => exact ⟨hok.1, ih hok.2 n⟩

/-- Two systems that stay related through each allowed event stay related. -/
theorem run_simulation {τ β : Type} {step : σ → α → σ} {step' : τ → β → τ}
    {ok : σ → α → Prop} {g : α → β} (R : σ → τ → Prop)
    (hstep : ∀ s t e, R s t → ok s e → R (step s e) (step' t (g e))) {s : σ} {t : τ}
    {es : List α} (h : R s t) (hok : Allowed step ok s es) :
    R (run step s es) (run step' t (es.map g)) := by
  induction es generalizing s t with
  | nil => exact h
  | cons e es ih => exact ih (hstep s t e h hok.1) hok.2

/-- Two systems whose related states stay related, and give one reply, give one list of replies. -/
theorem logged_simulation {τ ρ : Type} {step : σ → α → σ × ρ} {step' : τ → α → τ × ρ}
    {ok : α → Prop} (R : σ → τ → Prop)
    (hstep : ∀ s t e, R s t → ok e →
      R (step s e).1 (step' t e).1 ∧ (step s e).2 = (step' t e).2)
    {s : σ} {t : τ} (h : R s t) {es : List α} (hok : ∀ e ∈ es, ok e) (log : List ρ) :
    R (run (logged step) (s, log) es).1 (run (logged step') (t, log) es).1 ∧
      (run (logged step) (s, log) es).2 = (run (logged step') (t, log) es).2 := by
  induction es generalizing s t log with
  | nil => exact ⟨h, rfl⟩
  | cons e es ih =>
      obtain ⟨hnext, hreply⟩ := hstep s t e h (hok e List.mem_cons_self)
      have hlog : logged step' (t, log) e = ((step' t e).1, log ++ [(step s e).2]) := by
        rw [logged, hreply]
      rw [run_cons, run_cons, hlog]
      exact ih hnext (fun e' he' => hok e' (List.mem_cons_of_mem _ he')) _

/-- Two systems that stay related through each allowed event, and give related replies. -/
theorem logged_related {τ ρ ρ' : Type} {step : σ → α → σ × ρ} {step' : τ → α → τ × ρ'}
    {ok : σ → α → Prop} (R : σ → τ → Prop) (Q : ρ → ρ' → Prop)
    (hstep : ∀ s t e, R s t → ok s e →
      R (step s e).1 (step' t e).1 ∧ Q (step s e).2 (step' t e).2)
    {s : σ} {t : τ} (h : R s t) {es : List α} (hok : Allowed (fun s e => (step s e).1) ok s es)
    {log : List ρ} {log' : List ρ'} (hlog : List.Forall₂ Q log log') :
    R (run (logged step) (s, log) es).1 (run (logged step') (t, log') es).1 ∧
      List.Forall₂ Q (run (logged step) (s, log) es).2 (run (logged step') (t, log') es).2 := by
  induction es generalizing s t log log' with
  | nil => exact ⟨h, hlog⟩
  | cons e es ih =>
      obtain ⟨hnext, hreply⟩ := hstep s t e h hok.1
      exact ih hnext hok.2 (List.rel_append hlog (.cons hreply .nil))

end GooglePerl.Lib
