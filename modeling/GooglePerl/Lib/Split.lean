import Mathlib.Data.List.Basic
import Mathlib.Data.List.DropRight

/-!
Splitting at a separator as Perl's `split` does: empty fields at the end are dropped.

So separators at the end of a text do not show (`splitFields_append_replicate`), and only a
text that does not end in one is spelled by its fields (`eq_intercalate_of_splitFields`).
-/

namespace GooglePerl.Lib

variable {α : Type} {x : α} {t : List α}

theorem intercalate_concat_nil {l : List (List α)} (h : l ≠ []) :
    [x].intercalate (l ++ [[]]) = [x].intercalate l ++ [x] := by
  induction l with
  | nil => exact absurd rfl h
  | cons a l ih =>
      cases l with
      | nil => simp
      | cons b l =>
          rw [List.cons_append, List.cons_append, List.intercalate_cons_cons, ← List.cons_append,
            ih (by simp), List.intercalate_cons_cons]
          simp

theorem mem_of_mem_intercalate {sep : List α} {l : List (List α)} (h : x ∈ sep.intercalate l) :
    x ∈ sep ∨ ∃ s ∈ l, x ∈ s := by
  induction l with
  | nil => cases h
  | cons a l ih =>
      cases l with
      | nil => exact .inr ⟨a, by simp, by simpa using h⟩
      | cons b l =>
          rw [List.intercalate_cons_cons, List.mem_append, List.mem_append] at h
          rcases h with (h | h) | h
          · exact .inr ⟨a, by simp, h⟩
          · exact .inl h
          · exact (ih h).imp id fun ⟨s, hs, hx⟩ => ⟨s, List.mem_cons_of_mem _ hs, hx⟩

/-- A text with a separator, cut at the last one. -/
theorem exists_append_cons_of_mem (h : x ∈ t) : ∃ s u, t = s ++ x :: u ∧ x ∉ u := by
  obtain ⟨u, s, hsplit, hu⟩ := List.eq_append_cons_of_mem (List.mem_reverse.mpr h)
  refine ⟨s.reverse, u.reverse, ?_, by simpa using hu⟩
  rw [← List.reverse_reverse t, hsplit]
  simp

variable [DecidableEq α]

theorem decide_ne_of_not_mem (h : x ∉ t) : ∀ y ∈ t, decide (y ≠ x) = true := by
  intro y hy
  rw [decide_eq_true_eq]
  rintro rfl
  exact h hy

/-- `split /x/, $t` -/
def splitFields (x : α) (t : List α) : List (List α) := (t.splitOn x).rdropWhile (· = [])

theorem not_mem_of_mem_splitOn {l : List α} (h : l ∈ t.splitOn x) : x ∉ l := by
  induction t generalizing l with
  | nil =>
      rw [List.splitOn_nil, List.mem_singleton] at h
      simp [h]
  | cons y t ih =>
      rw [List.splitOn_cons_eq_if_modifyHead] at h
      split at h
      · rcases List.mem_cons.mp h with rfl | h
        · exact List.not_mem_nil
        · exact ih h
      · rename_i hy
        cases hsplit : t.splitOn x with
        | nil => exact absurd hsplit (List.splitOn_ne_nil x t)
        | cons first rest =>
            rw [hsplit, List.modifyHead_cons] at h
            rcases List.mem_cons.mp h with rfl | h
            · have hfirst := ih (l := first) (by simp [hsplit])
              have hne : x ≠ y := by
                rintro rfl
                simp at hy
              simp [hfirst, hne]
            · exact ih (by simp [hsplit, h])

theorem splitFields_append_replicate (x : α) (t : List α) (n : ℕ) :
    splitFields x (t ++ List.replicate n x) = splitFields x t := by
  induction n with
  | zero => simp
  | succ n ih =>
      rw [List.replicate_succ', ← List.append_assoc, splitFields, List.splitOn_append_cons_self,
        List.splitOn_nil, List.rdropWhile_concat_pos _ _ _ (by simp)]
      exact ih

/-- No field is dropped from a text that does not end in a separator. -/
theorem splitFields_eq_splitOn (ht : t ≠ []) (hlast : t.getLast? ≠ some x) :
    splitFields x t = t.splitOn x := by
  rw [splitFields, List.rdropWhile_eq_self_iff]
  intro hne hempty
  have hsplit := List.dropLast_append_getLast hne
  rw [of_decide_eq_true hempty] at hsplit
  have htext : [x].intercalate ((t.splitOn x).dropLast ++ [[]]) = t := by
    rw [hsplit, List.intercalate_splitOn]
  cases hinit : (t.splitOn x).dropLast with
  | nil =>
      rw [hinit] at htext
      exact ht htext.symm
  | cons a l =>
      rw [hinit, intercalate_concat_nil (by simp)] at htext
      rw [← htext] at hlast
      simp at hlast

theorem splitFields_of_ne_nil (h : ∀ l ∈ t.splitOn x, l ≠ []) : splitFields x t = t.splitOn x := by
  rw [splitFields, List.rdropWhile_eq_self_iff]
  intro hne hempty
  exact h _ (List.getLast_mem hne) (of_decide_eq_true hempty)

/-- Fields without a separator, the last one not empty, are read back. -/
theorem splitFields_intercalate {fields : List (List α)} {last : List α}
    (hfields : ∀ l ∈ fields ++ [last], x ∉ l) (hlast : last ≠ []) :
    splitFields x ([x].intercalate (fields ++ [last])) = fields ++ [last] := by
  rw [splitFields, List.splitOn_intercalate x hfields (by simp),
    List.rdropWhile_concat_neg _ _ _ (by simpa using hlast)]

/-- The fields of a text that does not end in a separator spell it. -/
theorem eq_intercalate_of_splitFields {fields : List (List α)} {last : List α}
    (h : splitFields x t = fields ++ [last]) (hend : t.getLast? ≠ some x) :
    t = [x].intercalate (fields ++ [last]) ∧ (∀ l ∈ fields ++ [last], x ∉ l) ∧ last ≠ [] := by
  have ht : t ≠ [] := by
    rintro rfl
    simp [splitFields, List.rdropWhile] at h
  have hsplit := (splitFields_eq_splitOn ht hend).symm.trans h
  refine ⟨by rw [← hsplit, List.intercalate_splitOn], fun l hl => ?_, ?_⟩
  · exact not_mem_of_mem_splitOn (hsplit ▸ hl)
  · rintro rfl
    rw [splitFields, hsplit, List.rdropWhile_eq_self_iff] at h
    exact h (by simp) (by simp)

/-! ### The last separator -/

theorem rtakeWhile_append_cons {s : List α} (h : x ∉ t) :
    (s ++ x :: t).rtakeWhile (· ≠ x) = t := by
  have hpos := decide_ne_of_not_mem (mt List.mem_reverse.mp h)
  rw [List.rtakeWhile, List.reverse_append, List.reverse_cons, List.append_assoc,
    List.takeWhile_append_of_pos hpos]
  simp

theorem rdropWhile_append_cons {s : List α} (h : x ∉ t) :
    (s ++ x :: t).rdropWhile (· ≠ x) = s ++ [x] := by
  have hpos := decide_ne_of_not_mem (mt List.mem_reverse.mp h)
  rw [List.rdropWhile, List.reverse_append, List.reverse_cons, List.append_assoc,
    List.dropWhile_append_of_pos hpos]
  simp

end GooglePerl.Lib
