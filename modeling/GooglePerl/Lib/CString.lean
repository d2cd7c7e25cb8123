import Mathlib.Algebra.Group.Nat.Defs
import Mathlib.Data.List.Basic
import Mathlib.Init

/-!
C strings read through a pointer, and buffers of a fixed size filled from the front.

A read or a write outside its object is `none`. Writing one stretch after another is writing
them at once (`Buffer.put_append`), so a function that only appends is known from all it
writes.
-/

namespace GooglePerl.Lib

/-- A string in memory, up to its NUL. No object has `2 ^ 63` octets. -/
structure CString where
  octets : List ℕ
  nul_free : 0 ∉ octets
  length_lt : octets.length < 2 ^ 63

namespace CString

/-- The octets of the object. -/
def memory (s : CString) : List ℕ := s.octets ++ [0]

/-- `s[i]` -/
def read (s : CString) (i : ℕ) : Option ℕ := s.memory[i]?

/-- `n` octets from `s + i` on. -/
def load (s : CString) (i n : ℕ) : Option (List ℕ) :=
  if i + n ≤ s.memory.length then some ((s.memory.drop i).take n) else none

variable {s : CString} {p v r : List ℕ} {c : ℕ}

theorem read_cons (h : s.octets = p ++ c :: r) : s.read p.length = some c := by
  simp [read, memory, h]

theorem read_cons_cons {d : ℕ} (h : s.octets = p ++ c :: d :: r) :
    s.read (p.length + 1) = some d := by
  have hlast := read_cons (s := s) (p := p ++ [c]) (by simpa using h)
  simpa using hlast

theorem read_end (h : s.octets = p) : s.read p.length = some 0 := by
  simp [read, memory, h]

theorem read_singleton (h : s.octets = p ++ [c]) : s.read (p.length + 1) = some 0 := by
  have hlast := read_end h
  simpa using hlast

theorem load_append (h : s.octets = p ++ v ++ r) : s.load p.length v.length = some v := by
  have hroom : p.length + v.length ≤ s.memory.length := by
    simp [memory, h]
  rw [load, if_pos hroom, memory, h]
  simp

end CString

/-- An allocated buffer: its size and what is written at its front. -/
structure Buffer where
  size : ℕ
  octets : List ℕ
  fits : octets.length ≤ size

namespace Buffer

def alloc (size : ℕ) : Buffer := ⟨size, [], Nat.zero_le size⟩

/-- `*d++ = …`, once or several times -/
def put (b : Buffer) (w : List ℕ) : Option Buffer :=
  if h : (b.octets ++ w).length ≤ b.size then some ⟨b.size, b.octets ++ w, h⟩ else none

@[simp] theorem put_nil (b : Buffer) : b.put [] = some b := by
  simp [put, b.fits]

theorem put_append (b : Buffer) (v w : List ℕ) :
    (b.put v).bind (fun b => b.put w) = b.put (v ++ w) := by
  by_cases hv : (b.octets ++ v).length ≤ b.size
  · simp only [put, hv, dite_true, Option.bind_some, List.append_assoc]
  · have hvw : ¬ (b.octets ++ (v ++ w)).length ≤ b.size := by
      simp only [List.length_append] at hv ⊢
      omega
    rw [put, put, dif_neg hv, dif_neg hvw, Option.bind_none]

theorem octets_put_alloc (size : ℕ) (w : List ℕ) :
    ((alloc size).put w).map Buffer.octets = if w.length ≤ size then some w else none := by
  by_cases h : w.length ≤ size
  · rw [put, dif_pos (by simpa [alloc] using h), if_pos h]
    rfl
  · rw [put, dif_neg (by simpa [alloc] using h), if_neg h]
    rfl

end Buffer

end GooglePerl.Lib
