import Mathlib.Data.Nat.Digits.Lemmas

/-!
Fixed-width numbers: little-endian octets, and the route through hexadecimal
text that arbitrary-precision libraries take to reach them.
-/

namespace GooglePerl.Lib

/-- The `w` low octets of `n`, least significant first. -/
def leBytes : ℕ → ℕ → List ℕ
  | 0, _ => []
  | w + 1, n => n % 256 :: leBytes w (n / 256)

/-- The number whose octets, least significant first, are given. -/
def leValue (bs : List ℕ) : ℕ := Nat.ofDigits 256 bs

@[simp] theorem leBytes_length (w n : ℕ) : (leBytes w n).length = w := by
  induction w generalizing n with
  | zero => rfl
  | succ w ih => simp [leBytes, ih]

theorem leBytes_lt (w n : ℕ) : ∀ b ∈ leBytes w n, b < 256 := by
  induction w generalizing n with
  | zero => simp [leBytes]
  | succ w ih =>
      intro b hb
      rcases List.mem_cons.mp hb with rfl | hb
      · exact Nat.mod_lt _ (by decide)
      · exact ih _ b hb

theorem leValue_cons (b : ℕ) (bs : List ℕ) : leValue (b :: bs) = b + 256 * leValue bs := by
  simp [leValue, Nat.ofDigits_cons]

theorem leValue_leBytes (w : ℕ) {n : ℕ} (h : n < 256 ^ w) : leValue (leBytes w n) = n := by
  induction w generalizing n with
  | zero =>
      have hn : n = 0 := by simpa using h
      subst hn
      rfl
  | succ w ih =>
      have hdiv : n / 256 < 256 ^ w := by
        rw [Nat.div_lt_iff_lt_mul (by decide)]
        simpa [Nat.pow_succ] using h
      rw [leBytes, leValue_cons, ih hdiv]
      omega

theorem leValue_lt {w : ℕ} {bs : List ℕ} (hlen : bs.length = w) (hlt : ∀ b ∈ bs, b < 256) :
    leValue bs < 256 ^ w := by
  subst hlen
  exact Nat.ofDigits_lt_base_pow_length (by decide) hlt

theorem leBytes_leValue {w : ℕ} {bs : List ℕ} (hlen : bs.length = w)
    (hlt : ∀ b ∈ bs, b < 256) : leBytes w (leValue bs) = bs := by
  subst hlen
  induction bs with
  | nil => rfl
  | cons b bs ih =>
      have hb : b < 256 := hlt b List.mem_cons_self
      have hmod : (b + 256 * leValue bs) % 256 = b := by omega
      have hdiv : (b + 256 * leValue bs) / 256 = leValue bs := by omega
      rw [List.length_cons, leBytes, leValue_cons, hmod, hdiv,
        ih (fun c hc => hlt c (List.mem_cons_of_mem _ hc))]

/-! ### Network order -/

/-- The `w` low octets of `n`, most significant first. -/
def beBytes (w n : ℕ) : List ℕ := (leBytes w n).reverse

/-- The number whose octets, most significant first, are given. -/
def beValue (bs : List ℕ) : ℕ := leValue bs.reverse

@[simp] theorem beBytes_length (w n : ℕ) : (beBytes w n).length = w := by
  simp [beBytes]

theorem beBytes_lt (w n : ℕ) : ∀ b ∈ beBytes w n, b < 256 := by
  simpa [beBytes] using leBytes_lt w n

theorem beValue_lt {w : ℕ} {bs : List ℕ} (hlen : bs.length = w) (hlt : ∀ b ∈ bs, b < 256) :
    beValue bs < 256 ^ w :=
  leValue_lt (by simpa using hlen) (by simpa using hlt)

theorem beValue_beBytes (w : ℕ) {n : ℕ} (h : n < 256 ^ w) : beValue (beBytes w n) = n := by
  rw [beValue, beBytes, List.reverse_reverse, leValue_leBytes w h]

theorem beBytes_beValue {w : ℕ} {bs : List ℕ} (hlen : bs.length = w)
    (hlt : ∀ b ∈ bs, b < 256) : beBytes w (beValue bs) = bs := by
  rw [beBytes, beValue, leBytes_leValue (by simpa using hlen) (by simpa using hlt),
    List.reverse_reverse]

/-! ### Hexadecimal text

The digits of a number are read off its text one character at a time; a digit
is worth its low four bits, a letter nine more. -/

def isHexDigit (c : ℕ) : Bool := (48 ≤ c && c ≤ 57) || (65 ≤ c && c ≤ 70) || (97 ≤ c && c ≤ 102)

/-- The worth of a hexadecimal digit, and of any other character put where a
digit is expected. -/
def hexNibble (c : ℕ) : ℕ :=
  if (65 ≤ c ∧ c ≤ 90) ∨ (97 ≤ c ∧ c ≤ 122) then (c + 9) % 16 else c % 16

/-- Two nibbles an octet, an odd last nibble filled up with zero. -/
def packNibbles : List ℕ → List ℕ
  | [] => []
  | [a] => [a * 16]
  | a :: b :: t => (a * 16 + b) :: packNibbles t

/-- Fill a text up to sixteen digits from the left. -/
def padHex (text : List ℕ) : List ℕ := List.replicate (16 - text.length) 48 ++ text

/-- The hexadecimal text of a number, without a leading mark. -/
def hexText (n : ℕ) : List ℕ := (Nat.toDigits 16 n).map Char.toNat

/-- The `k` low nibbles of `n`, most significant first. -/
def beNibbles : ℕ → ℕ → List ℕ
  | 0, _ => []
  | k + 1, n => beNibbles k (n / 16) ++ [n % 16]

@[simp] theorem beNibbles_length (k n : ℕ) : (beNibbles k n).length = k := by
  induction k generalizing n with
  | zero => rfl
  | succ k ih => simp [beNibbles, ih]

theorem beNibbles_zero (k : ℕ) : beNibbles k 0 = List.replicate k 0 := by
  induction k with
  | zero => rfl
  | succ k ih =>
      rw [beNibbles, Nat.zero_div, ih, Nat.zero_mod, List.replicate_succ']

theorem hexNibble_digitChar {d : ℕ} (h : d < 16) : hexNibble (Nat.digitChar d).toNat = d := by
  interval_cases d <;> decide

/-- Padded with zeros to `k` digits, the text of a number below `16 ^ k` lists
its `k` nibbles. -/
theorem hexText_nibbles {k n : ℕ} (hk : 0 < k) (h : n < 16 ^ k) :
    (hexText n).length ≤ k ∧
      (List.replicate (k - (hexText n).length) 48 ++ hexText n).map hexNibble =
        beNibbles k n := by
  have hzero : hexNibble 48 = 0 := by decide
  induction k generalizing n with
  | zero => omega
  | succ k ih =>
      by_cases hn : n < 16
      · have htext : hexText n = [(Nat.digitChar n).toNat] := by
          simp [hexText, Nat.toDigits_of_lt_base hn]
        rw [htext]
        refine ⟨by simp, ?_⟩
        rw [beNibbles, Nat.div_eq_of_lt hn, beNibbles_zero, Nat.mod_eq_of_lt hn]
        simp [hzero, hexNibble_digitChar hn]
      · have hk' : 0 < k := by
          rcases Nat.eq_zero_or_pos k with rfl | hk'
          · omega
          · exact hk'
        have hdiv : n / 16 < 16 ^ k := by
          rw [Nat.div_lt_iff_lt_mul (by decide)]
          simpa [Nat.pow_succ] using h
        have htext : hexText n = hexText (n / 16) ++ [(Nat.digitChar (n % 16)).toNat] := by
          simp [hexText, Nat.toDigits_of_base_le (b := 16) (n := n) (by decide) (by omega)]
        obtain ⟨hlen, hmap⟩ := ih hk' hdiv
        rw [htext]
        refine ⟨by simpa using hlen, ?_⟩
        rw [beNibbles, ← hmap]
        simp [hexNibble_digitChar (Nat.mod_lt n (by decide : 16 > 0))]

theorem packNibbles_append_two (l : List ℕ) (a b : ℕ) (heven : l.length % 2 = 0) :
    packNibbles (l ++ [a, b]) = packNibbles l ++ [a * 16 + b] := by
  induction l using packNibbles.induct with
  | case1 => rfl
  | case2 x => simp at heven
  | case3 x y t ih =>
      have ht : t.length % 2 = 0 := by
        simp only [List.length_cons] at heven
        omega
      simp [packNibbles, ih ht]

/-- Packing the nibbles and turning the octets round gives little-endian order. -/
theorem reverse_packNibbles_beNibbles (w n : ℕ) :
    (packNibbles (beNibbles (2 * w) n)).reverse = leBytes w n := by
  induction w generalizing n with
  | zero => rfl
  | succ w ih =>
      have hsplit : beNibbles (2 * (w + 1)) n =
          beNibbles (2 * w) (n / 256) ++ [n / 16 % 16, n % 16] := by
        rw [show 2 * (w + 1) = 2 * w + 1 + 1 by ring, beNibbles, beNibbles]
        simp [Nat.div_div_eq_div_mul]
      rw [hsplit, packNibbles_append_two _ _ _ (by simp), List.reverse_append, ih, leBytes]
      have hlow : n / 16 % 16 * 16 + n % 16 = n % 256 := by omega
      simp [hlow]

/-- The whole route: text, padding, packing and reversal of a 64-bit number. -/
theorem reverse_packNibbles_padHex {n : ℕ} (h : n < 2 ^ 64) :
    (packNibbles ((padHex (hexText n)).map hexNibble)).reverse = leBytes 8 n := by
  have hn : n < 16 ^ 16 := by simpa using h
  rw [padHex, (hexText_nibbles (by decide) hn).2]
  exact reverse_packNibbles_beNibbles 8 n

end GooglePerl.Lib
