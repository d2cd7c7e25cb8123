import Mathlib.Data.List.DropRight
import Mathlib.Data.Nat.ModEq

/-!
Ring buffers: a fixed number of cells, of which those in use follow one another
from `head` on and around the end.

A push into a full ring takes the cell of the oldest element. `contents_push`
says what that does to the elements in their order, with no index arithmetic:
they are the last `n` of what there was and what was pushed.
-/

namespace GooglePerl.Lib

/-- The `n` cells of a ring buffer, the place of the oldest element and how many
elements there are. -/
structure Ring (α : Type) (n : ℕ) where
  entries : Vector α n
  head : ℕ
  count : ℕ
  head_lt : head < n
  count_le : count ≤ n

namespace Ring

variable {α : Type} {n : ℕ}

theorem size_pos (r : Ring α n) : 0 < n := Nat.zero_lt_of_lt r.head_lt

/-- The place of the cell `i` cells after the head. -/
def index (r : Ring α n) (i : ℕ) : Fin n := ⟨(r.head + i) % n, Nat.mod_lt _ r.size_pos⟩

/-- What the cell at a place holds. -/
def entry (r : Ring α n) (place : Fin n) : α := r.entries[place]

def cell (r : Ring α n) (i : ℕ) : α := r.entry (r.index i)

/-- The elements, the oldest first. -/
def contents (r : Ring α n) : List α := (List.range r.count).map r.cell

/-- A ring with no element, whatever its cells hold. -/
def empty (entries : Vector α n) (hpos : 0 < n) : Ring α n := ⟨entries, 0, 0, hpos, Nat.zero_le n⟩

/-- Forget the elements and leave the cells. -/
def clear (r : Ring α n) : Ring α n := empty r.entries r.size_pos

theorem push_head_lt (r : Ring α n) :
    (if r.count = n then (r.head + 1) % n else r.head) < n := by
  split
  · exact Nat.mod_lt _ r.size_pos
  · exact r.head_lt

theorem push_count_le (r : Ring α n) : (if r.count = n then r.count else r.count + 1) ≤ n := by
  have hle := r.count_le
  split <;> omega

/-- Add an element; in a full ring it replaces the oldest. -/
def push (r : Ring α n) (x : α) : Ring α n where
  entries := r.entries.set (r.index r.count) x
  head := if r.count = n then (r.head + 1) % n else r.head
  count := if r.count = n then r.count else r.count + 1
  head_lt := r.push_head_lt
  count_le := r.push_count_le

@[simp] theorem contents_length (r : Ring α n) : r.contents.length = r.count := by
  simp [contents]

@[simp] theorem contents_empty (entries : Vector α n) (hpos : 0 < n) :
    (empty entries hpos).contents = [] := rfl

@[simp] theorem contents_clear (r : Ring α n) : r.clear.contents = [] := rfl

/-! ### The cells -/

/-- Cells less than a turn apart are different cells. -/
theorem index_inj {r : Ring α n} {i j : ℕ} (hi : i < n) (hj : j < n) :
    r.index i = r.index j ↔ i = j := by
  constructor
  · intro h
    have hmod : r.head + i ≡ r.head + j [MOD n] := congrArg Fin.val h
    exact (Nat.ModEq.add_left_cancel' r.head hmod).eq_of_lt_of_lt hi hj
  · rintro rfl
    rfl

/-- A turn leads back to the head. -/
theorem index_size (r : Ring α n) : r.index n = r.index 0 := by
  simp [index]

theorem index_push_of_full {r : Ring α n} (h : r.count = n) (x : α) (i : ℕ) :
    (r.push x).index i = r.index (i + 1) := by
  simp only [index, push, h, if_true, Fin.mk.injEq]
  rw [Nat.mod_add_mod, Nat.add_assoc, Nat.add_comm 1 i]

theorem index_push_of_lt {r : Ring α n} (h : r.count < n) (x : α) (i : ℕ) :
    (r.push x).index i = r.index i := by
  simp only [index, push, Nat.ne_of_lt h, if_false]

theorem entry_push (r : Ring α n) (x : α) (place : Fin n) :
    (r.push x).entry place = if place = r.index r.count then x else r.entry place := by
  by_cases h : place = r.index r.count
  · simp [entry, push, h]
  · have hne : (r.index r.count).val ≠ place.val := fun heq => h (Fin.ext heq.symm)
    simp [entry, push, h, hne]

/-- In a full ring every cell moves up by one, and the last is the new one. -/
theorem cell_push_of_full {r : Ring α n} (h : r.count = n) (x : α) {i : ℕ} (hi : i < n) :
    (r.push x).cell i = if i + 1 = n then x else r.cell (i + 1) := by
  rw [cell, entry_push, index_push_of_full h, h, index_size]
  by_cases hlast : i + 1 = n
  · rw [if_pos hlast, hlast, index_size, if_pos rfl]
  · have hne : r.index (i + 1) ≠ r.index 0 := by
      rw [Ne, index_inj (by omega) r.size_pos]
      omega
    rw [if_neg hlast, if_neg hne, cell]

theorem cell_push_of_lt {r : Ring α n} (h : r.count < n) (x : α) {i : ℕ} (hi : i ≤ r.count) :
    (r.push x).cell i = if i = r.count then x else r.cell i := by
  rw [cell, entry_push, index_push_of_lt h, cell]
  simp only [index_inj (Nat.lt_of_le_of_lt hi h) h]

/-! ### The elements -/

theorem contents_push_of_full {r : Ring α n} (h : r.count = n) (x : α) :
    (r.push x).contents = r.contents.tail ++ [x] := by
  have hpos := r.size_pos
  have hcount : (r.push x).count = n := by simp [push, h]
  apply List.ext_getElem
  · simp only [contents_length, hcount, List.length_append, List.length_tail, h,
      List.length_singleton]
    omega
  · intro i hi hi'
    rw [contents_length, hcount] at hi
    simp only [contents, List.getElem_map, List.getElem_range, List.getElem_append,
      List.length_tail, List.length_map, List.length_range, List.getElem_tail, h,
      List.getElem_singleton]
    rw [cell_push_of_full h x hi]
    by_cases hlast : i + 1 = n
    · rw [if_pos hlast, dif_neg (by omega)]
    · rw [if_neg hlast, dif_pos (by omega)]

theorem contents_push_of_lt {r : Ring α n} (h : r.count < n) (x : α) :
    (r.push x).contents = r.contents ++ [x] := by
  have hcount : (r.push x).count = r.count + 1 := by simp [push, Nat.ne_of_lt h]
  have hold : (List.range r.count).map (r.push x).cell = (List.range r.count).map r.cell := by
    apply List.map_congr_left
    intro i hi
    have hlt : i < r.count := List.mem_range.mp hi
    rw [cell_push_of_lt h x hlt.le, if_neg (Nat.ne_of_lt hlt)]
  rw [contents, hcount, List.range_succ, List.map_append, hold, List.map_singleton,
    cell_push_of_lt h x (Nat.le_refl _), if_pos rfl, contents]

/-- The elements after a push are the last `n` of those before and the new one. -/
theorem contents_push (r : Ring α n) (x : α) :
    (r.push x).contents = (r.contents ++ [x]).rtake n := by
  rcases Nat.lt_or_eq_of_le r.count_le with h | h
  · rw [contents_push_of_lt h, List.rtake, List.length_append, contents_length,
      List.length_singleton, Nat.sub_eq_zero_of_le h, List.drop_zero]
  · have hlen : 1 ≤ r.contents.length := by
      rw [contents_length, h]
      exact r.size_pos
    rw [contents_push_of_full h, List.rtake, List.length_append, contents_length,
      List.length_singleton, h, Nat.add_sub_cancel_left, List.drop_append_of_le_length hlen,
      List.drop_one]

end Ring

/-! ### The last elements of a list -/

/-- Of the last elements of a list, the last are the last of the list. -/
theorem rtake_append_rtake {α : Type} (xs ys : List α) (n : ℕ) :
    (xs.rtake n ++ ys).rtake n = (xs ++ ys).rtake n := by
  simp only [List.rtake_eq_reverse_take_reverse, List.reverse_append, List.reverse_reverse,
    List.take_append, List.take_take, List.length_reverse]
  rw [Nat.min_eq_left (Nat.sub_le n ys.length)]

namespace Ring

example : ([1, 2, 3, 4, 5].foldl push (empty (Vector.replicate 3 0) (by decide))).contents =
    [3, 4, 5] := by decide

end Ring

end GooglePerl.Lib
