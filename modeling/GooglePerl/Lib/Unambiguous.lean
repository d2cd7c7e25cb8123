import Mathlib.Data.List.Forall2

/-!
Texts that are told apart by what they begin with.

`Splits F p q c` says that a text that begins with `p` and one that begins with `q` are the same
only if `c` holds, and then what comes behind is the same too, as long as it is something that
may follow there (`F`). A format is unambiguous if any two of its texts split with the equality of
what they stand for. The rules below follow how a text is put together.
-/

namespace GooglePerl.Lib

variable {γ ι α β : Type}

def Splits (F : List γ → Prop) (p q : List γ) (c : Prop) : Prop :=
  ∀ r s, F r → F s → p ++ r = q ++ s → c ∧ r = s

namespace Splits

variable {F G : List γ → Prop} {p p' q q' : List γ} {c d : Prop}

theorem mono (h : Splits F p q c) (hF : ∀ r, G r → F r) (hc : c → d) : Splits G p q d := by
  intro r s hr hs heq
  obtain ⟨hc', hrs⟩ := h r s (hF r hr) (hF s hs) heq
  exact ⟨hc hc', hrs⟩

theorem refl (p : List γ) : Splits F p p True :=
  fun _ _ _ _ heq => ⟨trivial, List.append_cancel_left heq⟩

/-- One text behind another, which must be told apart by what follows it. -/
theorem append (hp : Splits G p p' c) (hq : c → Splits F q q' d) (hG : ∀ r, F r → G (q ++ r))
    (hG' : ∀ r, F r → G (q' ++ r)) : Splits F (p ++ q) (p' ++ q') (c ∧ d) := by
  intro r s hr hs heq
  rw [List.append_assoc, List.append_assoc] at heq
  obtain ⟨hc, heq⟩ := hp _ _ (hG r hr) (hG' s hs) heq
  obtain ⟨hd, hrs⟩ := hq hc r s hr hs heq
  exact ⟨⟨hc, hd⟩, hrs⟩

/-- The same text in front of both. -/
theorem prepend (p : List γ) (h : Splits F q q' c) : Splits F (p ++ q) (p ++ q') c :=
  ((Splits.refl (F := fun _ => True) p).append (fun _ => h) (fun _ _ => trivial)
    fun _ _ => trivial).mono (fun _ hr => hr) And.right

/-- The same text behind both, which may follow them. -/
theorem close (h : Splits G p p' c) (q : List γ) (hG : ∀ r, G (q ++ r)) :
    Splits F (p ++ q) (p' ++ q) c :=
  (h.append (fun _ => Splits.refl q) (fun r _ => hG r) fun r _ => hG r).mono (fun _ hr => hr)
    And.left

/-! ### Words -/

/-- What begins with a character that is not one of a word. -/
def EndsWord (P : γ → Prop) (r : List γ) : Prop := ∃ x t, r = x :: t ∧ ¬ P x

/-- Words are told apart by what ends them. -/
theorem word {P : γ → Prop} (hp : ∀ x ∈ p, P x) (hq : ∀ x ∈ q, P x) :
    Splits (EndsWord P) p q (p = q) := by
  induction p generalizing q with
  | nil =>
      rintro r s ⟨x, t, rfl, hx⟩ - heq
      cases q with
      | nil => exact ⟨rfl, heq⟩
      | cons y q =>
          obtain ⟨rfl, -⟩ := List.cons.inj heq
          exact absurd (hq x List.mem_cons_self) hx
  | cons y p ih =>
      rintro r s hr ⟨x, t, rfl, hx⟩ heq
      cases q with
      | nil =>
          obtain ⟨rfl, -⟩ := List.cons.inj heq
          exact absurd (hp y List.mem_cons_self) hx
      | cons z q =>
          obtain ⟨rfl, htail⟩ := List.cons.inj heq
          obtain ⟨rfl, hrs⟩ := ih (fun x hx => hp x (List.mem_cons_of_mem _ hx))
            (fun x hx => hq x (List.mem_cons_of_mem _ hx)) r (x :: t) hr ⟨x, t, rfl, hx⟩ htail
          exact ⟨rfl, hrs⟩

/-! ### Lists -/

/-- Objects of one kind, one behind another: each starts in a way in which what follows them
does not. -/
theorem flatMap {H : List γ → Prop} {f : α → List γ} {g : β → List γ} {R : α → β → Prop}
    {xs : List α} {ys : List β} (hf : ∀ x ∈ xs, ∀ r, H (f x ++ r)) (hg : ∀ y ∈ ys, ∀ r, H (g y ++ r))
    (hsplit : ∀ x ∈ xs, ∀ y ∈ ys, Splits (fun _ => True) (f x) (g y) (R x y)) :
    Splits (fun r => ¬ H r) (xs.flatMap f) (ys.flatMap g) (List.Forall₂ R xs ys) := by
  induction xs generalizing ys with
  | nil =>
      intro r s hr hs heq
      cases ys with
      | nil => exact ⟨.nil, heq⟩
      | cons y ys =>
          rw [List.flatMap_cons, List.append_assoc] at heq
          rw [List.flatMap_nil, List.nil_append] at heq
          exact absurd (heq ▸ hg y List.mem_cons_self _) hr
  | cons x xs ih =>
      intro r s hr hs heq
      cases ys with
      | nil =>
          rw [List.flatMap_cons, List.append_assoc] at heq
          rw [List.flatMap_nil, List.nil_append] at heq
          exact absurd (heq ▸ hf x List.mem_cons_self _) hs
      | cons y ys =>
          rw [List.flatMap_cons, List.flatMap_cons, List.append_assoc, List.append_assoc] at heq
          obtain ⟨hxy, hrest⟩ := hsplit x List.mem_cons_self y List.mem_cons_self _ _ trivial trivial
            heq
          obtain ⟨hall, hrs⟩ := ih (fun a ha => hf a (List.mem_cons_of_mem _ ha))
            (fun b hb => hg b (List.mem_cons_of_mem _ hb))
            (fun a ha b hb => hsplit a (List.mem_cons_of_mem _ ha) b (List.mem_cons_of_mem _ hb))
            r s hr hs hrest
          exact ⟨.cons hxy hall, hrs⟩

/-- Objects in fixed places, each of which may be missing: they start in different ways. -/
theorem places {H : ι → List γ → Prop} {f g : ι → List γ} {R : ι → Prop} {l : List ι}
    (hnd : l.Nodup) (hne : ∀ i ∈ l, ∀ j ∈ l, ∀ r, H i r → H j r → i = j)
    (hf : ∀ i ∈ l, f i = [] ∨ ∀ r, H i (f i ++ r)) (hg : ∀ i ∈ l, g i = [] ∨ ∀ r, H i (g i ++ r))
    (hsplit : ∀ i ∈ l, Splits (fun r => ¬ H i r) (f i) (g i) (R i)) :
    Splits (fun r => ∀ i ∈ l, ¬ H i r) (l.flatMap f) (l.flatMap g) (∀ i ∈ l, R i) := by
  -- behind a place comes the start of a later one, or what follows them all
  have hrest : ∀ (e : ι → List γ) (i : ι) (l' : List ι), (∀ j ∈ l', j ∈ l) → i ∈ l → i ∉ l' →
      (∀ j ∈ l', e j = [] ∨ ∀ r, H j (e j ++ r)) → ∀ r, ¬ H i r → ¬ H i (l'.flatMap e ++ r) := by
    intro e i l' hsub hi hil he r hr
    induction l' with
    | nil => exact hr
    | cons j l' ih =>
        rw [List.mem_cons, not_or] at hil
        rw [List.flatMap_cons, List.append_assoc]
        rcases he j List.mem_cons_self with hnil | hstart
        · rw [hnil]
          exact ih (fun k hk => hsub k (List.mem_cons_of_mem _ hk)) hil.2
            fun k hk => he k (List.mem_cons_of_mem _ hk)
        · exact fun hH => hil.1 (hne i hi j (hsub j List.mem_cons_self) _ hH (hstart _))
  suffices hmain : ∀ l' : List ι, l'.Nodup → (∀ j ∈ l', j ∈ l) →
      Splits (fun r => ∀ i ∈ l, ¬ H i r) (l'.flatMap f) (l'.flatMap g) (∀ i ∈ l', R i) from
    hmain l hnd fun _ hj => hj
  intro l' hnd' hsub
  induction l' with
  | nil => exact (Splits.refl []).mono (fun _ hr => hr) fun _ i hi => absurd hi List.not_mem_nil
  | cons i l' ih =>
      obtain ⟨hi, hnd'⟩ := List.nodup_cons.mp hnd'
      have hil := hsub i List.mem_cons_self
      have hsub' : ∀ j ∈ l', j ∈ l := fun j hj => hsub j (List.mem_cons_of_mem _ hj)
      have hlater := (hsplit i hil).append (fun _ => ih hnd' hsub')
        (fun r hr => hrest f i l' hsub' hil hi (fun j hj => hf j (hsub' j hj)) r (hr i hil))
        (fun r hr => hrest g i l' hsub' hil hi (fun j hj => hg j (hsub' j hj)) r (hr i hil))
      rw [List.flatMap_cons, List.flatMap_cons]
      exact hlater.mono (fun _ hr => hr) fun h => List.forall_mem_cons.mpr h

end Splits

end GooglePerl.Lib
