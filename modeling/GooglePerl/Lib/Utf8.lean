import Mathlib.Data.List.Basic
import Mathlib.Tactic.Common

/-!
UTF-8 of code points.

`utf8 c` is the one to four octets of the code point `c`; surrogates are
encoded like their neighbours. A text of ASCII characters is its own encoding,
and any other text has an encoding with more octets than the text has
characters.
-/

namespace GooglePerl.Lib

def utf8 (c : ℕ) : List ℕ :=
  if c < 0x80 then [c]
  else if c < 0x800 then [0xC0 + c / 64, 0x80 + c % 64]
  else if c < 0x10000 then [0xE0 + c / 4096, 0x80 + c / 64 % 64, 0x80 + c % 64]
  else [0xF0 + c / 262144, 0x80 + c / 4096 % 64, 0x80 + c / 64 % 64, 0x80 + c % 64]

def utf8Text (s : List ℕ) : List ℕ := s.flatMap utf8

/-- Only characters of the seven-bit code. -/
def IsAscii (s : List ℕ) : Prop := ∀ c ∈ s, c < 0x80

instance (s : List ℕ) : Decidable (IsAscii s) := inferInstanceAs (Decidable (∀ c ∈ s, c < 0x80))

theorem utf8_lt {c : ℕ} (h : c < 0x110000) : ∀ b ∈ utf8 c, b < 256 := by
  unfold utf8
  split
  · simp
    omega
  · split
    · simp
      omega
    · split <;> simp <;> omega

theorem utf8Text_lt {s : List ℕ} (h : ∀ c ∈ s, c < 0x110000) : ∀ b ∈ utf8Text s, b < 256 := by
  intro b hb
  obtain ⟨c, hc, hb⟩ := List.mem_flatMap.mp hb
  exact utf8_lt (h c hc) b hb

theorem utf8_length_pos (c : ℕ) : 0 < (utf8 c).length := by
  unfold utf8
  split
  · simp
  · split
    · simp
    · split <;> simp

theorem utf8_length_gt {c : ℕ} (h : 0x80 ≤ c) : 1 < (utf8 c).length := by
  unfold utf8
  rw [if_neg (by omega)]
  split
  · simp
  · split <;> simp

theorem utf8Text_of_ascii {s : List ℕ} (h : IsAscii s) : utf8Text s = s := by
  induction s with
  | nil => rfl
  | cons c s ih =>
      have hc : utf8 c = [c] := if_pos (h c List.mem_cons_self)
      have htail := ih fun x hx => h x (List.mem_cons_of_mem _ hx)
      rw [utf8Text, List.flatMap_cons, hc, ← utf8Text, htail]
      rfl

theorem length_le_utf8Text (s : List ℕ) : s.length ≤ (utf8Text s).length := by
  induction s with
  | nil => simp
  | cons c s ih =>
      have hpos := utf8_length_pos c
      simp only [utf8Text, List.flatMap_cons, List.length_append, List.length_cons] at ih ⊢
      omega

theorem length_lt_utf8Text {s : List ℕ} (h : ¬ IsAscii s) : s.length < (utf8Text s).length := by
  induction s with
  | nil => exact absurd (fun c hc => by cases hc) h
  | cons c s ih =>
      by_cases hc : c < 0x80
      · have htail : ¬ IsAscii s := by
          intro hs
          refine h fun x hx => ?_
          rcases List.mem_cons.mp hx with rfl | hx
          · exact hc
          · exact hs x hx
        have hpos := utf8_length_pos c
        have hlt := ih htail
        simp only [utf8Text, List.flatMap_cons, List.length_append, List.length_cons] at hlt ⊢
        omega
      · have hgt := utf8_length_gt (c := c) (by omega)
        have hle := length_le_utf8Text s
        simp only [utf8Text, List.flatMap_cons, List.length_append, List.length_cons] at hle ⊢
        omega

end GooglePerl.Lib
