import Mathlib.Data.Int.Notation
import Mathlib.Data.List.Basic

/-!
Decimal text of integers, as lists of code points. `decimalText` prints the
canonical form, `readDecimal` accepts a sign and digits, and reading undoes
printing.
-/

namespace GooglePerl.Lib

/-- The decimal digits of a natural number, as code points. -/
def natText (n : ℕ) : List ℕ := (Nat.toDigits 10 n).map Char.toNat

/-- The canonical decimal text: no leading zero, a minus sign only below zero. -/
def decimalText : ℤ → List ℕ
  | .ofNat n => natText n
  | .negSucc n => 45 :: natText (n + 1)

def isDigit (c : ℕ) : Bool := decide (48 ≤ c) && decide (c ≤ 57)

/-- A non-empty run of digits. -/
def readNat (s : List ℕ) : Option ℕ :=
  if s ≠ [] ∧ s.all isDigit then some (s.foldl (fun acc c => 10 * acc + (c - 48)) 0) else none

/-- An optional sign and a non-empty run of digits. -/
def readDecimal : List ℕ → Option ℤ
  | 45 :: s => (readNat s).map fun n => -(n : ℤ)
  | 43 :: s => (readNat s).map fun n => (n : ℤ)
  | s => (readNat s).map fun n => (n : ℤ)

theorem isDigit_of_mem_natText {n c : ℕ} (h : c ∈ natText n) : isDigit c = true := by
  obtain ⟨d, hd, rfl⟩ := List.mem_map.mp h
  have hdigit : d.isDigit = true := Nat.isDigit_of_mem_toDigits (by decide) (by decide) hd
  simp only [Char.isDigit, Bool.and_eq_true, decide_eq_true_eq] at hdigit
  have hlo : 48 ≤ d.val.toNat := UInt32.le_iff_toNat_le.mp hdigit.1
  have hhi : d.val.toNat ≤ 57 := UInt32.le_iff_toNat_le.mp hdigit.2
  simp only [isDigit, Bool.and_eq_true, decide_eq_true_eq]
  exact ⟨hlo, hhi⟩

theorem natText_ne_nil (n : ℕ) : natText n ≠ [] := by
  simp [natText, Nat.toDigits_ne_nil]

theorem readNat_natText (n : ℕ) : readNat (natText n) = some n := by
  have hall : (natText n).all isDigit = true :=
    List.all_eq_true.mpr fun c hc => isDigit_of_mem_natText hc
  rw [readNat, if_pos ⟨natText_ne_nil n, hall⟩]
  have hfold := @Nat.ofDigitChars_ten_toDigits n
  rw [Nat.ofDigitChars_eq_foldl] at hfold
  rw [natText, List.foldl_map]
  exact congrArg some hfold

theorem readDecimal_decimalText (n : ℤ) : readDecimal (decimalText n) = some n := by
  cases n with
  | negSucc n =>
      simp only [decimalText, readDecimal, readNat_natText]
      rfl
  | ofNat n =>
      have hread := readNat_natText n
      obtain ⟨c, s, hcs⟩ := List.exists_cons_of_ne_nil (natText_ne_nil n)
      have hc : isDigit c = true := isDigit_of_mem_natText (n := n) (by simp [hcs])
      simp only [isDigit, Bool.and_eq_true, decide_eq_true_eq] at hc
      simp only [decimalText]
      rw [hcs] at hread ⊢
      -- a digit is neither of the two signs
      unfold readDecimal
      split
      · rename_i heq
        obtain ⟨rfl, -⟩ := List.cons.inj heq
        omega
      · rename_i heq
        obtain ⟨rfl, -⟩ := List.cons.inj heq
        omega
      · simp [hread]

end GooglePerl.Lib
