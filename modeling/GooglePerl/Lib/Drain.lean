import Mathlib.Data.List.Basic
import Mathlib.Data.List.Infix
import Mathlib.Init

/-!
Taking items off the front of a buffer that grows at its end.

An `Extractor` removes one item, or finds that the buffer does not hold a whole
item yet. `drain` repeats it as a `while` loop does. What is taken does not
depend on how the input was cut into chunks (`drain_append`, `drain_chunks`),
and from a cut through a sequence of codes the whole codes come out and the cut
one stays (`drain_codes`).
-/

namespace GooglePerl.Lib

variable {α ι : Type}

/-- One turn of the loop: an item and what is left of the buffer. Later input
does not change an item that is already whole. -/
structure Extractor (α ι : Type) where
  next : List α → Option (ι × List α)
  next_shorter : ∀ {b i r}, next b = some (i, r) → r.length < b.length
  next_append : ∀ {b i r} (c : List α), next b = some (i, r) → next (b ++ c) = some (i, r ++ c)

namespace Extractor

/-- At most `n` turns of the loop. -/
def drainTurns (E : Extractor α ι) : ℕ → List α → List ι × List α
  | 0, b => ([], b)
  | n + 1, b =>
      match E.next b with
      | none => ([], b)
      | some (i, r) => (i :: (E.drainTurns n r).1, (E.drainTurns n r).2)

/-- The loop. Each turn shortens the buffer, so its length bounds the turns. -/
def drain (E : Extractor α ι) (b : List α) : List ι × List α := E.drainTurns b.length b

variable (E : Extractor α ι)

theorem drainTurns_of_le {n : ℕ} {b : List α} (h : b.length ≤ n) :
    E.drainTurns n b = E.drain b := by
  suffices key : ∀ n m (b : List α), b.length ≤ n → b.length ≤ m →
      E.drainTurns n b = E.drainTurns m b from key n b.length b h le_rfl
  intro n
  induction n with
  | zero =>
      intro m b hn hm
      have hb : b = [] := List.length_eq_zero_iff.mp (Nat.le_zero.mp hn)
      subst hb
      cases m with
      | zero => rfl
      | succ m =>
          -- an empty buffer cannot get shorter
          cases hnext : E.next [] with
          | none => simp [drainTurns, hnext]
          | some p => exact absurd (E.next_shorter hnext) (Nat.not_lt_zero _)
  | succ n ih =>
      intro m b hn hm
      cases hnext : E.next b with
      | none => cases m <;> simp [drainTurns, hnext]
      | some p =>
          have hlt : p.2.length < b.length := E.next_shorter hnext
          cases m with
          | zero => omega
          | succ m => simp [drainTurns, hnext, ih m p.2 (by omega) (by omega)]

theorem drain_of_none {b : List α} (h : E.next b = none) : E.drain b = ([], b) := by
  cases hb : b.length with
  | zero => simp [drain, hb, drainTurns]
  | succ n => simp [drain, hb, drainTurns, h]

theorem drain_of_some {b r : List α} {i : ι} (h : E.next b = some (i, r)) :
    E.drain b = (i :: (E.drain r).1, (E.drain r).2) := by
  have hlt := E.next_shorter h
  cases hb : b.length with
  | zero => omega
  | succ n => simp [drain, hb, drainTurns, h, E.drainTurns_of_le (n := n) (b := r) (by omega)]

/-- Induction along the turns of the loop. -/
theorem drain_induct {P : List α → Prop} (wait : ∀ b, E.next b = none → P b)
    (turn : ∀ b i r, E.next b = some (i, r) → P r → P b) (b : List α) : P b := by
  induction hn : b.length using Nat.strong_induction_on generalizing b with
  | _ n ih =>
      cases hnext : E.next b with
      | none => exact wait b hnext
      | some p =>
          have hlt : p.2.length < n := hn ▸ E.next_shorter hnext
          exact turn b p.1 p.2 hnext (ih _ hlt p.2 rfl)

/-- What the loop leaves holds no whole item. -/
theorem next_drain (b : List α) : E.next (E.drain b).2 = none := by
  induction b using E.drain_induct with
  | wait b h => rw [E.drain_of_none h, h]
  | turn b i r h ih => rw [E.drain_of_some h, ih]

/-- Draining in two goes: the second one starts with what the first one left. -/
theorem drain_append (b c : List α) :
    E.drain (b ++ c) = ((E.drain b).1 ++ (E.drain ((E.drain b).2 ++ c)).1,
      (E.drain ((E.drain b).2 ++ c)).2) := by
  induction b using E.drain_induct with
  | wait b h => simp [E.drain_of_none h]
  | turn b i r h ih =>
      rw [E.drain_of_some h, E.drain_of_some (E.next_append c h), ih, List.cons_append]

/-- One more chunk: what the buffer held before is drained with it. -/
def feed (s : List α × List ι) (chunk : List α) : List α × List ι :=
  ((E.drain (s.1 ++ chunk)).2, s.2 ++ (E.drain (s.1 ++ chunk)).1)

/-- The chunks of an input give what the whole input gives. -/
theorem drain_chunks (b : List α) (items : List ι) (chunks : List (List α))
    (hb : E.next b = none) :
    chunks.foldl E.feed (b, items) =
      ((E.drain (b ++ chunks.flatten)).2, items ++ (E.drain (b ++ chunks.flatten)).1) := by
  induction chunks generalizing b items with
  | nil => simp [E.drain_of_none hb]
  | cons c cs ih =>
      rw [List.foldl_cons, feed, ih _ _ (E.next_drain _), List.flatten_cons, ← List.append_assoc,
        E.drain_append (b ++ c), List.append_assoc]

/-! ### Codes -/

/-- An encoding that the extractor reads back, whatever follows. -/
def Reads (enc : ι → List α) (i : ι) : Prop := E.next (enc i) = some (i, [])

variable {E} {enc : ι → List α}

theorem Reads.next (h : E.Reads enc i) (c : List α) : E.next (enc i ++ c) = some (i, c) := by
  simpa using E.next_append c h

/-- A code that is cut short is not taken for another item. -/
theorem Reads.next_cut (h : E.Reads enc i) {d rest : List α} (hd : d ++ rest = enc i)
    (hrest : rest ≠ []) : E.next d = none := by
  cases hnext : E.next d with
  | none => rfl
  | some p =>
      have happ := E.next_append rest hnext
      rw [hd, h] at happ
      have hnil : p.2 ++ rest = [] := (Prod.ext_iff.mp (Option.some.inj happ)).2.symm
      exact absurd (List.append_eq_nil_iff.mp hnil).2 hrest

/-- Whole codes come out in order, and what follows them is drained after. -/
theorem drain_flatten {items : List ι} (h : ∀ i ∈ items, E.Reads enc i) (c : List α) :
    E.drain ((items.map enc).flatten ++ c) = (items ++ (E.drain c).1, (E.drain c).2) := by
  induction items with
  | nil => simp
  | cons i items ih =>
      have hi := (h i List.mem_cons_self).next ((items.map enc).flatten ++ c)
      rw [List.map_cons, List.flatten_cons, List.append_assoc, E.drain_of_some hi,
        ih fun j hj => h j (List.mem_cons_of_mem _ hj), List.cons_append]

/-- A cut through a sequence of codes: the codes before the cut are whole, and
what is left over is a proper beginning of the next one. -/
theorem exists_cut {items : List ι} {d rest : List α}
    (hd : d ++ rest = (items.map enc).flatten) :
    ∃ whole later tail, items = whole ++ later ∧ d = (whole.map enc).flatten ++ tail ∧
      (later = [] → tail = []) ∧
      ∀ i ∈ later.head?, tail <+: enc i ∧ tail.length < (enc i).length := by
  induction items generalizing d with
  | nil =>
      have hnil : d = [] := (List.append_eq_nil_iff.mp hd).1
      exact ⟨[], [], [], rfl, by simpa using hnil, fun _ => rfl, by simp⟩
  | cons i items ih =>
      rw [List.map_cons, List.flatten_cons] at hd
      rcases Nat.lt_or_ge d.length (enc i).length with hlt | hge
      · have hpre : d <+: enc i :=
          List.prefix_of_prefix_length_le ⟨rest, hd⟩ ⟨_, rfl⟩ hlt.le
        exact ⟨[], i :: items, d, rfl, rfl, by simp, by simpa using ⟨hpre, hlt⟩⟩
      · obtain ⟨d', rfl⟩ : enc i <+: d :=
          List.prefix_of_prefix_length_le ⟨_, rfl⟩ ⟨rest, hd⟩ hge
        rw [List.append_assoc] at hd
        obtain ⟨whole, later, tail, hitems, hd', hend, hhead⟩ := ih (List.append_cancel_left hd)
        exact ⟨i :: whole, later, tail, by simp [hitems], by simp [hd'], hend, hhead⟩

/-- Draining the input up to a cut. -/
theorem drain_codes {whole later : List ι} {tail : List α}
    (h : ∀ i ∈ whole ++ later, E.Reads enc i) (hnil : E.next [] = none)
    (hend : later = [] → tail = [])
    (hhead : ∀ i ∈ later.head?, tail <+: enc i ∧ tail.length < (enc i).length) :
    E.drain ((whole.map enc).flatten ++ tail) = (whole, tail) := by
  have htail : E.next tail = none := by
    cases later with
    | nil => rw [hend rfl, hnil]
    | cons i later =>
        obtain ⟨⟨rest, hrest⟩, hlt⟩ := hhead i rfl
        refine (h i (by simp)).next_cut hrest ?_
        rintro rfl
        simp [← hrest] at hlt
  rw [drain_flatten fun i hi => h i (by simp [hi]), E.drain_of_none htail]
  simp

end Extractor

end GooglePerl.Lib
