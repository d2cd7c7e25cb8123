import Mathlib.Init
import Mathlib.Data.List.Basic

/-!
Base64 as `MIME::Base64` decodes it: characters outside the alphabet are
skipped, the rest is read in groups of four, and the first group with a padding
character where it matters ends the output. Encoding writes groups of three octets and pads the
last one; decoding gives them back (`decodeBase64_encodeBase64`).
-/

namespace GooglePerl.Lib

/-- A character of a base64 text: one of the sixty-four digits, or padding. -/
inductive Base64Symbol where
  | digit (d : ℕ)
  | pad
  deriving DecidableEq

/-- `index_64`: what a character stands for, none when it is skipped. -/
def base64Symbol (c : ℕ) : Option Base64Symbol :=
  if 65 ≤ c ∧ c ≤ 90 then some (.digit (c - 65))
  else if 97 ≤ c ∧ c ≤ 122 then some (.digit (c - 71))
  else if 48 ≤ c ∧ c ≤ 57 then some (.digit (c + 4))
  else if c = 43 then some (.digit 62)
  else if c = 47 then some (.digit 63)
  else if c = 61 then some .pad
  else none

/-- The groups of four. A last group of two or three symbols is filled up with
padding, a single last symbol is dropped. -/
def decodeGroups : List Base64Symbol → List ℕ
  | .digit a :: .digit b :: .digit c :: .digit d :: rest =>
      [a * 4 + b / 16, b % 16 * 16 + c / 4, c % 4 * 64 + d] ++ decodeGroups rest
  | [.digit a, .digit b, .digit c] | .digit a :: .digit b :: .digit c :: .pad :: _ =>
      [a * 4 + b / 16, b % 16 * 16 + c / 4]
  | [.digit a, .digit b] | .digit a :: .digit b :: .pad :: _ => [a * 4 + b / 16]
  | _ => []

/-- `decode_base64` -/
def decodeBase64 (s : List ℕ) : List ℕ := decodeGroups (s.filterMap base64Symbol)

/-- Padding at the end is what a group that ends early is filled up with anyway. -/
theorem decodeGroups_append_pad (l : List Base64Symbol) (n : ℕ) :
    decodeGroups (l ++ List.replicate n .pad) = decodeGroups l := by
  cases n with
  | zero => simp
  | succ n =>
      induction l using decodeGroups.induct with
      | case1 a b c d rest ih =>
          rw [decodeGroups, ← ih]
          rfl
      | case2 a b c => rfl
      | case3 a b c rest => rfl
      | case4 a b => rfl
      | case5 a b rest => rfl
      | case6 l h1 h2 h3 h4 h5 =>
          -- the padding does not complete a group that was not one
          match l with
          | [] => rfl
          | .pad :: _ => rfl
          | [.digit _] => rfl
          | .digit _ :: .pad :: _ => rfl
          | [.digit a, .digit b] => exact absurd rfl (h4 a b)
          | .digit a :: .digit b :: .pad :: rest => exact absurd rfl (h5 a b rest)
          | [.digit a, .digit b, .digit c] => exact absurd rfl (h2 a b c)
          | .digit a :: .digit b :: .digit c :: .pad :: rest => exact absurd rfl (h3 a b c rest)
          | .digit a :: .digit b :: .digit c :: .digit d :: rest =>
              exact absurd rfl (h1 a b c d rest)

/-- Padding and foreign characters at the end make no difference. -/
theorem decodeBase64_append {t : List ℕ}
    (h : ∀ c ∈ t, base64Symbol c = none ∨ base64Symbol c = some .pad) (s : List ℕ) :
    decodeBase64 (s ++ t) = decodeBase64 s := by
  have hpads : t.filterMap base64Symbol =
      List.replicate (t.filterMap base64Symbol).length .pad := by
    refine List.eq_replicate_of_mem fun x hx => ?_
    obtain ⟨c, hc, hx⟩ := List.mem_filterMap.mp hx
    rcases h c hc with hnone | hpad
    · rw [hnone] at hx
      cases hx
    · rw [hpad] at hx
      exact (Option.some.inj hx).symm
  rw [decodeBase64, List.filterMap_append, hpads, decodeGroups_append_pad, decodeBase64]

/-! ### Encoding -/

/-- The character of a digit. -/
def base64Char (d : ℕ) : ℕ :=
  if d < 26 then d + 65
  else if d < 52 then d + 71
  else if d < 62 then d - 4
  else if d = 62 then 43
  else 47

/-- `encode_base64` without line ends -/
def encodeBase64 : List ℕ → List ℕ
  | a :: b :: c :: rest =>
      [base64Char (a / 4), base64Char (a % 4 * 16 + b / 16), base64Char (b % 16 * 4 + c / 64),
        base64Char (c % 64)] ++ encodeBase64 rest
  | [a, b] =>
      [base64Char (a / 4), base64Char (a % 4 * 16 + b / 16), base64Char (b % 16 * 4), 61]
  | [a] => [base64Char (a / 4), base64Char (a % 4 * 16), 61, 61]
  | [] => []

/-- The digits of a text, without its padding. -/
def sextets : List ℕ → List ℕ
  | a :: b :: c :: rest =>
      [a / 4, a % 4 * 16 + b / 16, b % 16 * 4 + c / 64, c % 64] ++ sextets rest
  | [a, b] => [a / 4, a % 4 * 16 + b / 16, b % 16 * 4]
  | [a] => [a / 4, a % 4 * 16]
  | [] => []

theorem base64Symbol_base64Char {d : ℕ} (h : d < 64) :
    base64Symbol (base64Char d) = some (.digit d) := by
  have hall : ∀ d < 64, base64Symbol (base64Char d) = some (.digit d) := by decide
  exact hall d h

theorem decodeBase64_encodeBase64 {l : List ℕ} (h : ∀ c ∈ l, c < 256) :
    decodeBase64 (encodeBase64 l) = l := by
  induction l using encodeBase64.induct with
  | case1 a b c rest ih =>
      have ha : a < 256 := h a (by simp)
      have hb : b < 256 := h b (by simp)
      have hc : c < 256 := h c (by simp)
      have hrest := ih fun x hx => h x (by simp [hx])
      unfold decodeBase64 at hrest ⊢
      simp (disch := omega) only [encodeBase64, List.cons_append, List.nil_append,
        List.filterMap_cons, base64Symbol_base64Char, decodeGroups, hrest, List.cons.injEq,
        and_true]
      omega
  | case2 a b =>
      have ha : a < 256 := h a (by simp)
      have hb : b < 256 := h b (by simp)
      have hpad : base64Symbol 61 = some .pad := rfl
      simp (disch := omega) only [decodeBase64, encodeBase64, List.filterMap_cons, hpad,
        base64Symbol_base64Char, List.filterMap_nil, decodeGroups, List.cons.injEq, and_true]
      omega
  | case3 a =>
      have ha : a < 256 := h a (by simp)
      have hpad : base64Symbol 61 = some .pad := rfl
      simp (disch := omega) only [decodeBase64, encodeBase64, List.filterMap_cons, hpad,
        base64Symbol_base64Char, List.filterMap_nil, decodeGroups, List.cons.injEq, and_true]
      omega
  | case4 => rfl

theorem sextets_lt {l : List ℕ} (h : ∀ c ∈ l, c < 256) : ∀ d ∈ sextets l, d < 64 := by
  induction l using sextets.induct with
  | case1 a b c rest ih =>
      have ha : a < 256 := h a (by simp)
      have hb : b < 256 := h b (by simp)
      have hc : c < 256 := h c (by simp)
      intro d hd
      rcases List.mem_append.mp hd with hd | hd
      · simp only [List.mem_cons, List.not_mem_nil, or_false] at hd
        omega
      · exact ih (fun x hx => h x (by simp [hx])) d hd
  | case2 a b =>
      have ha : a < 256 := h a (by simp)
      have hb : b < 256 := h b (by simp)
      intro d hd
      simp only [sextets, List.mem_cons, List.not_mem_nil, or_false] at hd
      omega
  | case3 a =>
      have ha : a < 256 := h a (by simp)
      intro d hd
      simp only [sextets, List.mem_cons, List.not_mem_nil, or_false] at hd
      omega
  | case4 => simp [sextets]

/-- A text of digits, then of padding. -/
theorem encodeBase64_eq (l : List ℕ) :
    ∃ n, encodeBase64 l = (sextets l).map base64Char ++ List.replicate n 61 := by
  induction l using sextets.induct with
  | case1 a b c rest ih =>
      obtain ⟨n, heq⟩ := ih
      exact ⟨n, by rw [encodeBase64, sextets, heq]; simp⟩
  | case2 a b => exact ⟨1, rfl⟩
  | case3 a => exact ⟨2, rfl⟩
  | case4 => exact ⟨0, rfl⟩

/-! ### Texts that lost digits -/

theorem length_decodeGroups (l : List ℕ) :
    (decodeGroups (l.map .digit)).length = l.length * 3 / 4 := by
  induction hn : l.length using Nat.strongRecOn generalizing l with
  | _ n ih =>
      match l with
      | [] | [_] | [_, _] | [_, _, _] => simp [← hn, decodeGroups]
      | a :: b :: c :: d :: rest =>
          have hlen : rest.length + 4 = n := by simpa using hn
          have hrest := ih rest.length (by omega) rest rfl
          simp only [List.map_cons, decodeGroups, List.length_append, List.length_cons,
            List.length_nil, hrest]
          omega

theorem length_sextets (l : List ℕ) :
    (sextets l).length * 3 / 4 = l.length ∧ (sextets l).length % 4 ≠ 1 := by
  induction l using sextets.induct with
  | case1 a b c rest ih =>
      simp only [sextets, List.length_append, List.length_cons, List.length_nil]
      omega
  | case2 a b => simp [sextets]
  | case3 a => simp [sextets]
  | case4 => simp [sextets]

/-- Fewer digits, fewer octets. -/
theorem length_decodeGroups_lt {l digits : List ℕ} (h : digits.length < (sextets l).length) :
    (decodeGroups (digits.map .digit)).length < l.length := by
  have hlen := length_sextets l
  rw [length_decodeGroups]
  have hmod : (sextets l).length % 4 = 0 ∨ (sextets l).length % 4 = 2 ∨
      (sextets l).length % 4 = 3 := by omega
  rcases hmod with h | h | h <;> omega

/-- The last digits of a text that ends in a zero octet. -/
theorem sextets_append_zero (l : List ℕ) (b : ℕ) :
    ∃ digits x, sextets (l ++ [b, 0]) = digits ++ [x, 0] ∧
      (x = b % 16 * 4 ∨ x = b % 4 * 16 ∨ x = 0) := by
  induction l using sextets.induct with
  | case1 a c d rest ih =>
      obtain ⟨digits, x, heq, hx⟩ := ih
      refine ⟨[a / 4, a % 4 * 16 + c / 16, c % 16 * 4 + d / 64, d % 64] ++ digits, x, ?_, hx⟩
      simp only [List.cons_append, sextets, heq, List.nil_append]
  | case2 a c => exact ⟨[a / 4, a % 4 * 16 + c / 16, c % 16 * 4 + b / 64, b % 64], 0, rfl, by simp⟩
  | case3 a => exact ⟨[a / 4, a % 4 * 16 + b / 16], b % 16 * 4, by simp [sextets], by simp⟩
  | case4 => exact ⟨[b / 4], b % 4 * 16, by simp [sextets], by simp⟩

/-- The last octet of digits that end in a zero. -/
theorem getLast?_decodeGroups_ne (digits : List ℕ) {x b : ℕ} (hx : x < 64) (hne : x ≠ b)
    (h4 : b % 4 ≠ 0) (hb : b < 64) :
    ∃ last, (decodeGroups ((digits ++ [x, 0]).map .digit)).getLast? = some last ∧ last ≠ b := by
  induction hn : digits.length using Nat.strongRecOn generalizing digits with
  | _ n ih =>
      match digits with
      | [] => exact ⟨x * 4 + 0, rfl, by omega⟩
      | [_] => exact ⟨x % 16 * 16 + 0, rfl, by omega⟩
      | [_, _] => exact ⟨x % 4 * 64 + 0, rfl, by omega⟩
      | [_, _, c] => exact ⟨c % 4 * 64 + x, rfl, by omega⟩
      | a :: c :: d :: e :: rest =>
          have hlen : rest.length + 4 = n := by simpa using hn
          obtain ⟨last, hlast, hne⟩ := ih rest.length (by omega) rest rfl
          refine ⟨last, ?_, hne⟩
          simp only [List.cons_append, List.map_cons, decodeGroups, List.nil_append,
            List.getLast?_cons, hlast]
          rfl

end GooglePerl.Lib
