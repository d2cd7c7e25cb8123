import GooglePerl.Grpc.Channel
import GooglePerl.Lib.GeneralFormat
import Mathlib.Data.List.TakeWhile
import Mathlib.Data.Nat.Cast.Field

/-!
`Google::gRPC::Deadline`: the seconds of a timeout, and the text of `grpc-timeout`.

The header is made from the text of the seconds, which is read a second time. A text with an
exponent is not read, fifteen digits may be more than the seconds were, and a count of hours
that is too long is itself written with an exponent (`survives_iff`).
-/

namespace GooglePerl.Grpc

open GooglePerl.Lib
open GooglePerl.Protobuf (PerlStr ps Die)

/-! ### Numbers -/

/-- A number that is not negative: an integer of 64 bits, or a floating-point number, taken
as the rational that it stands for. -/
inductive PerlNum where
  | iv (n : ℕ) (h : n < 2 ^ 64)
  | nv (q : ℚ)
  deriving DecidableEq

namespace PerlNum

def value : PerlNum → ℚ
  | .iv n _ => n
  | .nv q => q

def ofNat (n : ℕ) : PerlNum := if h : n < 2 ^ 64 then .iv n h else .nv n

/-- `$num * k` -/
def mul (k : ℕ) : PerlNum → PerlNum
  | .iv n _ => ofNat (n * k)
  | .nv q => .nv (q * k)

/-- `$num / k`: integers that a double may not hold are divided as such where nothing remains. -/
def div (k : ℕ) : PerlNum → PerlNum
  | .iv n _ => if 2 ^ 53 < n ∧ k ∣ n then ofNat (n / k) else .nv (n / k)
  | .nv q => .nv (q / k)

/-- `int` -/
def int : PerlNum → PerlNum
  | .iv n h => .iv n h
  | .nv q => .nv (⌊q⌋₊ : ℕ)

/-- The number as a string: an integer in full, the rest with `%.15g`. -/
def text : PerlNum → PerlStr
  | .iv n _ => natText n
  | .nv q => generalText q

end PerlNum

/-! ### The source -/

/-- What `\d` and `\s` match in a text; beyond ASCII this depends on the text. -/
structure CharClasses where
  digit : ℕ → Bool
  space : ℕ → Bool
  digit_ascii : ∀ c < 128, digit c = isDigit c
  space_ascii : ∀ c < 128, space c = Xs.isSpace c
  disjoint : ∀ c, digit c = true → space c = false

variable (cls : CharClasses)

/-- `^\s*(\d+(?:\.\d+)?)`: what the parentheses take, in two parts, and what follows. -/
def CharClasses.number (s : PerlStr) : Option (PerlStr × PerlStr × PerlStr) :=
  let body := s.dropWhile cls.space
  let whole := body.takeWhile cls.digit
  let rest := body.dropWhile cls.digit
  if whole = [] then none
  else
    match rest with
    | 46 :: t =>
        if t.takeWhile cls.digit = [] then some (whole, [], rest)
        else some (whole, t.takeWhile cls.digit, t.dropWhile cls.digit)
    | rest => some (whole, [], rest)

/-- `0 + $1`: digits of ASCII, up to the first other one. -/
def numify (whole fraction : PerlStr) : PerlNum :=
  if fraction = [] ∧ whole.all isDigit then .ofNat (digitsNumber whole)
  else
    let fraction := if whole.all isDigit then fraction.takeWhile isDigit else []
    .nv (digitsNumber (whole.takeWhile isDigit ++ fraction) / 10 ^ fraction.length)

/-- The number of a text with this unit. -/
def withUnit (num : PerlNum) : ℕ → Option PerlNum
  | 110 => some (num.div 1000000000)
  | 117 => some (num.div 1000000)
  | 109 => some (num.div 1000)
  | 83 => some num
  | 77 => some (num.mul 60)
  | 72 => some (num.mul 3600)
  | _ => none

def invalidTimeout (val : PerlStr) : Die := .croak (ps "Invalid timeout format: " ++ val)

/-- `parse_timeout` -/
def parseTimeout (val : PerlStr) : Except Die PerlNum :=
  match cls.number val with
  | none => .error (invalidTimeout val)
  | some (whole, fraction, rest) =>
      match rest.dropWhile cls.space with
      | [] => .ok (numify whole fraction)
      | unit :: t =>
          match withUnit (numify whole fraction) unit with
          | some num => if t.all cls.space then .ok num else .error (invalidTimeout val)
          | none => .error (invalidTimeout val)

/-- `format_grpc_timeout`, given its argument as a string. -/
def formatGrpcTimeout (sec : PerlStr) : Except Die PerlStr := do
  let val ← parseTimeout cls sec
  if val.value < 1 / 1000 then return (val.mul 1000000000).int.text ++ ps "n"
  else if val.value < 1 then return (val.mul 1000).int.text ++ ps "m"
  else if val.value < 60 then return val.int.text ++ ps "S"
  else if val.value < 3600 then return (val.div 60).int.text ++ ps "M"
  else return (val.div 3600).int.text ++ ps "H"

/-- What `create_stream` makes of a timeout. -/
def channelTimeout (val : PerlStr) : Except Die Timeout := do
  let sec ← parseTimeout cls val
  let header ← formatGrpcTimeout cls sec.text
  return { seconds := sec.value, header := some header }

/-! ### Values -/

namespace PerlNum

theorem value_ofNat (n : ℕ) : (ofNat n).value = n := by
  unfold ofNat
  split <;> rfl

theorem value_mul (k : ℕ) (x : PerlNum) : (x.mul k).value = x.value * k := by
  cases x with
  | iv n h =>
      rw [mul, value_ofNat]
      push_cast
      rfl
  | nv q => rfl

theorem value_div {k : ℕ} (hk : 0 < k) (x : PerlNum) : (x.div k).value = x.value / k := by
  cases x with
  | iv n h =>
      rw [div]
      split
      · rename_i hdvd
        rw [value_ofNat, Nat.cast_div hdvd.2 (by exact_mod_cast hk.ne')]
        rfl
      · rfl
  | nv q => rfl

end PerlNum

theorem value_withUnit {num x : PerlNum} {u : ℕ} (h : withUnit num u = some x) :
    x.value = num.value / 1000000000 ∧ u = 110 ∨ x.value = num.value / 1000000 ∧ u = 117 ∨
      x.value = num.value / 1000 ∧ u = 109 ∨ x.value = num.value ∧ u = 83 ∨
      x.value = num.value * 60 ∧ u = 77 ∨ x.value = num.value * 3600 ∧ u = 72 := by
  unfold withUnit at h
  split at h
  all_goals try cases h
  · exact .inl ⟨PerlNum.value_div (by decide) num, rfl⟩
  · exact .inr (.inl ⟨PerlNum.value_div (by decide) num, rfl⟩)
  · exact .inr (.inr (.inl ⟨PerlNum.value_div (by decide) num, rfl⟩))
  · exact .inr (.inr (.inr (.inl ⟨rfl, rfl⟩)))
  · exact .inr (.inr (.inr (.inr (.inl ⟨PerlNum.value_mul 60 num, rfl⟩))))
  · exact .inr (.inr (.inr (.inr (.inr ⟨PerlNum.value_mul 3600 num, rfl⟩))))

theorem numify_value {whole fraction : PerlStr} (hw : ∀ c ∈ whole, isDigit c = true)
    (hf : ∀ c ∈ fraction, isDigit c = true) :
    (numify whole fraction).value =
      digitsNumber (whole ++ fraction) / 10 ^ fraction.length := by
  have hall : whole.all isDigit = true := List.all_eq_true.mpr hw
  have htake {l : PerlStr} (hl : ∀ c ∈ l, isDigit c = true) : l.takeWhile isDigit = l :=
    List.takeWhile_eq_self_iff.mpr hl
  rw [numify]
  split
  · rename_i h
    rw [PerlNum.value_ofNat, h.1]
    simp
  · simp only [htake hf, htake hw]
    rfl

/-! ### Reading -/

namespace CharClasses

theorem digit_of_isDigit {c : ℕ} (h : isDigit c = true) : cls.digit c = true := by
  have hlt : c < 128 := by
    simp only [isDigit, Bool.and_eq_true, decide_eq_true_eq] at h
    omega
  rw [cls.digit_ascii c hlt, h]

theorem digit_point : cls.digit 46 = false := by
  rw [cls.digit_ascii 46 (by decide)]
  rfl

theorem dropWhile_digits {l : PerlStr} (rest : PerlStr) (hl : ∀ c ∈ l, cls.digit c = true)
    (hrest : ∀ c ∈ rest.head?, cls.digit c = false) :
    (l ++ rest).takeWhile cls.digit = l ∧ (l ++ rest).dropWhile cls.digit = rest := by
  have hstop : rest.takeWhile cls.digit = [] ∧ rest.dropWhile cls.digit = rest := by
    cases rest with
    | nil => exact ⟨rfl, rfl⟩
    | cons c rest =>
        have hc := hrest c rfl
        simp [hc]
  rw [List.takeWhile_append_of_pos hl, List.dropWhile_append_of_pos hl, hstop.1, hstop.2,
    List.append_nil]
  exact ⟨rfl, rfl⟩

/-- A number of ASCII digits is taken whole. -/
theorem number_withPoint {whole : PerlStr} (fraction tail : PerlStr) (hne : whole ≠ [])
    (hw : ∀ c ∈ whole, isDigit c = true) (hf : ∀ c ∈ fraction, isDigit c = true)
    (htail : ∀ c ∈ tail.head?, cls.digit c = false ∧ c ≠ 46) :
    cls.number (withPoint whole fraction ++ tail) = some (whole, fraction, tail) := by
  have hw' : ∀ c ∈ whole, cls.digit c = true := fun c hc => cls.digit_of_isDigit (hw c hc)
  have hf' : ∀ c ∈ fraction, cls.digit c = true := fun c hc => cls.digit_of_isDigit (hf c hc)
  have hbody : (withPoint whole fraction ++ tail).dropWhile cls.space =
      withPoint whole fraction ++ tail := by
    obtain ⟨c, whole, rfl⟩ := List.exists_cons_of_ne_nil hne
    have hc : cls.space c = false := cls.disjoint c (hw' c List.mem_cons_self)
    rw [withPoint, List.cons_append, List.cons_append, List.dropWhile_cons, hc]
    rfl
  rw [number, hbody, withPoint, List.append_assoc]
  by_cases hnil : fraction = []
  · obtain ⟨htake, hdrop⟩ := cls.dropWhile_digits tail hw' fun c hc => (htail c hc).1
    rw [if_pos hnil, List.nil_append, htake, hdrop, if_neg hne, hnil]
    split
    · exact absurd rfl (htail 46 rfl).2
    · rfl
  · obtain ⟨htake, hdrop⟩ := cls.dropWhile_digits (46 :: (fraction ++ tail)) hw'
      fun c hc => by
        obtain rfl : 46 = c := Option.some.inj hc
        exact cls.digit_point
    obtain ⟨htake', hdrop'⟩ := cls.dropWhile_digits tail hf' fun c hc => (htail c hc).1
    rw [if_neg hnil, List.cons_append, htake, hdrop, if_neg hne]
    simp only [htake', hdrop', hnil, if_false]

/-- What is taken is at the front, behind blanks. -/
theorem number_eq_some {s whole fraction rest : PerlStr}
    (h : cls.number s = some (whole, fraction, rest)) :
    s = s.takeWhile cls.space ++ (withPoint whole fraction ++ rest) ∧
      (∀ c ∈ whole, cls.digit c = true) ∧ ∀ c ∈ fraction, cls.digit c = true := by
  have hall (l : PerlStr) : ∀ c ∈ l.takeWhile cls.digit, cls.digit c = true :=
    List.all_eq_true.mp List.all_takeWhile
  have hblank := List.takeWhile_append_dropWhile (p := cls.space) (l := s)
  have hdigits := List.takeWhile_append_dropWhile (p := cls.digit) (l := s.dropWhile cls.space)
  simp only [number] at h
  split at h
  · cases h
  · split at h
    · rename_i t hpoint
      split at h
      · cases h
        refine ⟨?_, hall _, by simp⟩
        rw [withPoint, if_pos rfl, List.append_nil, hdigits, hblank]
      · rename_i hne
        cases h
        refine ⟨?_, hall _, hall _⟩
        rw [withPoint, if_neg hne, List.append_assoc, List.cons_append,
          List.takeWhile_append_dropWhile, ← hpoint, hdigits, hblank]
    · cases h
      refine ⟨?_, hall _, by simp⟩
      rw [withPoint, if_pos rfl, List.append_nil, hdigits, hblank]

end CharClasses

/-- No text with an exponent is read. -/
theorem not_mem_of_parseTimeout {s : PerlStr} {x : PerlNum} (h : parseTimeout cls s = .ok x) :
    101 ∉ s := by
  have hspace : cls.space 101 = false := cls.space_ascii 101 (by decide)
  have hdigit : cls.digit 101 = false := cls.digit_ascii 101 (by decide)
  have hblank (l : PerlStr) : 101 ∉ l.takeWhile cls.space := by
    intro hmem
    have hall := List.all_eq_true.mp (List.all_takeWhile (p := cls.space) (l := l)) 101 hmem
    rw [hspace] at hall
    cases hall
  rw [parseTimeout] at h
  split at h
  · cases h
  · rename_i whole fraction rest hnumber
    obtain ⟨hs, hw, hf⟩ := cls.number_eq_some hnumber
    have hnumber : 101 ∉ withPoint whole fraction := by
      intro hmem
      rcases List.mem_append.mp hmem with hmem | hmem
      · rw [hw 101 hmem] at hdigit
        cases hdigit
      · split at hmem
        · cases hmem
        · rcases List.mem_cons.mp hmem with heq | hmem
          · cases heq
          · rw [hf 101 hmem] at hdigit
            cases hdigit
    -- what follows the number is blanks and one unit
    have hrest : 101 ∉ rest := by
      rw [← List.takeWhile_append_dropWhile (p := cls.space) (l := rest)]
      intro hmem
      rcases List.mem_append.mp hmem with hmem | hmem
      · exact hblank rest hmem
      · split at h
        · rename_i hnil
          rw [hnil] at hmem
          cases hmem
        · rename_i u t hunit
          rw [hunit] at hmem
          split at h
          · rename_i num hu
            split at h
            · rename_i hall
              rcases List.mem_cons.mp hmem with rfl | hmem
              · cases hu
              · rw [List.all_eq_true.mp hall 101 hmem] at hspace
                cases hspace
            · cases h
          · cases h
    rw [hs]
    intro hmem
    rcases List.mem_append.mp hmem with hmem | hmem
    · exact hblank s hmem
    · rcases List.mem_append.mp hmem with hmem | hmem
      · exact hnumber hmem
      · exact hrest hmem

/-! ### Reading what was written -/

theorem natText_digits (n : ℕ) : ∀ c ∈ natText n, isDigit c = true :=
  fun _ hc => isDigit_of_mem_natText hc

theorem digitsNumber_natText (n : ℕ) : digitsNumber (natText n) = n :=
  digitsNumber_of_readNat (readNat_natText n)

theorem numify_natText (n : ℕ) : numify (natText n) [] = .ofNat n := by
  rw [numify, if_pos ⟨rfl, List.all_eq_true.mpr (natText_digits n)⟩, digitsNumber_natText]

theorem parse_withPoint {whole : PerlStr} (fraction : PerlStr) (hne : whole ≠ [])
    (hw : ∀ c ∈ whole, isDigit c = true) (hf : ∀ c ∈ fraction, isDigit c = true) :
    parseTimeout cls (withPoint whole fraction) = .ok (numify whole fraction) := by
  have hnumber := cls.number_withPoint fraction [] hne hw hf (by simp)
  rw [List.append_nil] at hnumber
  rw [parseTimeout, hnumber]
  rfl

/-- A header is read as its count of units. -/
theorem parse_header (k : ℕ) {u : ℕ} {x : PerlNum} (h : withUnit (.ofNat k) u = some x) :
    parseTimeout cls (natText k ++ [u]) = .ok x := by
  have hletter : u < 128 ∧ isDigit u = false ∧ Xs.isSpace u = false ∧ u ≠ 46 := by
    rcases value_withUnit h with h | h | h | h | h | h <;> rw [h.2] <;> decide
  obtain ⟨hlt, hdigit, hspace, hpoint⟩ := hletter
  have hnumber := cls.number_withPoint [] [u] (natText_ne_nil k) (natText_digits k)
    (by simp) fun c hc => by
      obtain rfl : u = c := Option.some.inj hc
      exact ⟨(cls.digit_ascii u hlt).trans hdigit, hpoint⟩
  have hunit : [u].dropWhile cls.space = [u] := by
    rw [List.dropWhile_cons, cls.space_ascii u hlt, hspace]
    rfl
  rw [withPoint, if_pos rfl, List.append_nil] at hnumber
  rw [parseTimeout, hnumber]
  simp only [hunit, numify_natText, h]
  rfl

namespace PerlNum

/-- The number that is written. -/
def printed : PerlNum → ℚ
  | .iv n _ => n
  | .nv q => rounded q

/-- The text has no exponent. -/
def Plain : PerlNum → Prop
  | .iv _ _ => True
  | .nv q => 1 / 10 ^ 4 ≤ rounded q ∧ rounded q < 10 ^ 15

end PerlNum

theorem parse_text {v : PerlNum} (hpos : 0 < v.value) (h : v.Plain) :
    ∃ w, parseTimeout cls v.text = .ok w ∧ w.value = v.printed ∧ ∀ n hn, v = .iv n hn → w = v := by
  cases v with
  | iv n hn =>
      have hparse := parse_withPoint cls [] (natText_ne_nil n) (natText_digits n) (by simp)
      rw [withPoint, if_pos rfl, List.append_nil, numify_natText, PerlNum.ofNat,
        dif_pos hn] at hparse
      exact ⟨_, hparse, rfl, fun _ _ _ => rfl⟩
  | nv q =>
      obtain ⟨hlow, hhigh⟩ := (plain_iff (q := q) hpos).mpr h
      have hq : q ≠ 0 := hpos.ne'
      have htext : (PerlNum.nv q).text =
          fixedText (significant q).1 (14 - (significant q).2).toNat := by
        rw [PerlNum.text, generalText, if_neg hq, if_pos ⟨hlow, hhigh⟩]
      obtain ⟨d, hd⟩ : ∃ d : ℕ, 14 - (significant q).2 = d :=
        ⟨_, (Int.toNat_of_nonneg (by omega)).symm⟩
      have hdigits : ∀ c ∈ stripZeros (lastDigits d (significant q).1), isDigit c = true := by
        intro c hc
        refine isDigit_of_mem_lastDigits (d := d) (n := (significant q).1) ?_
        rw [← stripZeros_append (lastDigits d (significant q).1)]
        exact List.mem_append_left _ hc
      refine ⟨numify (natText ((significant q).1 / 10 ^ d))
        (stripZeros (lastDigits d (significant q).1)), ?_, ?_, fun n hn heq => by cases heq⟩
      · rw [htext, hd, Int.toNat_natCast, fixedText]
        exact parse_withPoint cls _ (natText_ne_nil _) (natText_digits _) hdigits
      · have hread := digitsNumber_fixed (significant q).1 d
        have hexp : (significant q).2 - 14 = -(d : ℤ) := by omega
        rw [numify_value (natText_digits _) hdigits, PerlNum.printed, rounded, hexp, zpow_neg,
          zpow_natCast, ← div_eq_mul_inv, div_eq_div_iff (by positivity) (by positivity)]
        exact_mod_cast hread

/-! ### The header -/

/-- The unit of the header, in seconds, and its letter. -/
def headerUnit (w : ℚ) : ℚ × ℕ :=
  if w < 1 / 1000 then (1 / 1000000000, 110)
  else if w < 1 then (1 / 1000, 109)
  else if w < 60 then (1, 83)
  else if w < 3600 then (60, 77)
  else (3600, 72)

/-- The count of hours has at most fifteen digits, or is an integer to Perl. -/
def PerlNum.HoursFit : PerlNum → Prop
  | .iv n _ => n < 3600 * 10 ^ 15 ∨ 3600 ∣ n
  | .nv _ => True

theorem int_text {x : PerlNum} (h : x.value < 10 ^ 15 ∨ ∃ n hn, x = .iv n hn) :
    x.int.text = natText ⌊x.value⌋₊ := by
  cases x with
  | iv n hn => rw [PerlNum.int, PerlNum.text, PerlNum.value, Nat.floor_natCast]
  | nv q =>
      have hlt : q < 10 ^ 15 := h.resolve_right fun ⟨n, hn, heq⟩ => by cases heq
      have hfloor : ⌊q⌋₊ < 10 ^ 15 := by
        rcases lt_or_ge q 0 with hneg | hpos
        · rw [Nat.floor_of_nonpos hneg.le]
          decide
        · exact (Nat.floor_lt hpos).mpr (by exact_mod_cast hlt)
      rw [PerlNum.int, PerlNum.text, generalText_natCast hfloor]
      rfl

theorem exists_ofNat (n : ℕ) (h : n < 2 ^ 64) : ∃ m hm, PerlNum.ofNat n = .iv m hm :=
  ⟨n, h, dif_pos h⟩

/-- The header of a number that is read from the text of the seconds. -/
theorem format_eq {sec : PerlStr} {w : PerlNum} (hparse : parseTimeout cls sec = .ok w)
    (hhours : w.value < 3600 * 10 ^ 15 ∨ w.HoursFit ∧ ∃ n hn, w = .iv n hn) :
    formatGrpcTimeout cls sec = .ok (natText ⌊w.value / (headerUnit w.value).1⌋₊ ++
      [(headerUnit w.value).2]) := by
  -- below 10 ^ 15 the text of a count is its digits
  have hcount {x : PerlNum} {u : ℚ} (hx : x.value = w.value / u) (hlt : x.value < 10 ^ 15) :
      x.int.text = natText ⌊w.value / u⌋₊ := by
    rw [int_text (.inl hlt), hx]
  rw [formatGrpcTimeout, hparse, headerUnit]
  simp only [bind, Except.bind]
  split
  · rename_i h
    have hx : (w.mul 1000000000).value = w.value / (1 / 1000000000) := by
      rw [PerlNum.value_mul]
      push_cast
      ring
    rw [hcount hx (by rw [hx]; linarith)]
    rfl
  · split
    · rename_i h
      have hx : (w.mul 1000).value = w.value / (1 / 1000) := by
        rw [PerlNum.value_mul]
        push_cast
        ring
      rw [hcount hx (by rw [hx]; linarith)]
      rfl
    · split
      · rename_i h
        rw [hcount (div_one w.value).symm (by linarith)]
        rfl
      · split
        · rename_i h
          have hx : (w.div 60).value = w.value / 60 := PerlNum.value_div (by decide) w
          rw [hcount hx (by rw [hx]; linarith)]
          rfl
        · have hx : (w.div 3600).value = w.value / 3600 := PerlNum.value_div (by decide) w
          have htext : (w.div 3600).int.text = natText ⌊w.value / 3600⌋₊ := by
            rcases hhours with hlt | ⟨hfit, n, hn, rfl⟩
            · exact hcount hx (by rw [hx]; linarith)
            · rcases hfit with hlt | hdvd
              · refine hcount hx ?_
                have hlt' : (n : ℚ) < 3600 * 10 ^ 15 := by exact_mod_cast hlt
                rw [hx, PerlNum.value]
                linarith
              -- beyond 2 ^ 53 Perl divides as integers, where nothing remains
              · by_cases hlarge : 2 ^ 53 < n
                · obtain ⟨m, hm, heq⟩ := exists_ofNat (n / 3600) (by omega)
                  rw [int_text (.inr ⟨m, hm, by rw [PerlNum.div, if_pos ⟨hlarge, hdvd⟩, heq]⟩), hx]
                · refine hcount hx ?_
                  have hlt : (n : ℚ) ≤ 2 ^ 53 := by exact_mod_cast not_lt.mp hlarge
                  rw [hx, PerlNum.value]
                  linarith
          rw [htext]
          rfl

/-- A count of hours that is too long is written with an exponent. -/
theorem format_exponent {sec : PerlStr} {n : ℕ} {hn : n < 2 ^ 64}
    (hparse : parseTimeout cls sec = .ok (.iv n hn)) (h : ¬ (PerlNum.iv n hn).HoursFit) :
    ∃ header, formatGrpcTimeout cls sec = .ok header ∧ 101 ∈ header := by
  rw [PerlNum.HoursFit, not_or, not_lt] at h
  have hval : (PerlNum.iv n hn).value = n := rfl
  have hge : (3600 * 10 ^ 15 : ℚ) ≤ n := by exact_mod_cast h.1
  have hcount : 10 ^ 15 ≤ ⌊(n : ℚ) / 3600⌋₊ := Nat.le_floor (by push_cast; linarith)
  have htext : ((PerlNum.iv n hn).div 3600).int.text = generalText (⌊(n : ℚ) / 3600⌋₊ : ℕ) := by
    rw [PerlNum.div, if_neg fun hif => h.2 hif.2]
    rfl
  generalize ⌊(n : ℚ) / 3600⌋₊ = k at hcount htext
  have hpos : (0 : ℚ) < k := by exact_mod_cast lt_of_lt_of_le (by positivity) hcount
  have hexp : 15 ≤ (significant k).2 := by
    refine le_trans ?_ (log_le_significant k)
    refine (Int.zpow_le_iff_le_log (b := 10) (by decide) hpos).mp ?_
    exact_mod_cast hcount
  rw [generalText, if_neg hpos.ne', if_neg (by omega)] at htext
  refine ⟨_, ?_, List.mem_append_left (ps "H") (htext ▸ mem_scientificText _ _)⟩
  rw [formatGrpcTimeout, hparse]
  simp only [bind, Except.bind]
  rw [if_neg (by rw [hval]; linarith), if_neg (by rw [hval]; linarith),
    if_neg (by rw [hval]; linarith), if_neg (by rw [hval]; linarith)]
  rfl

/-! ### What survives -/

/-- `format_grpc_timeout(parse_timeout(...))` -/
def roundTrip (val : PerlStr) : Except Die PerlStr := do
  let sec ← parseTimeout cls val
  formatGrpcTimeout cls sec.text

/-- The header is digits and a unit, is accepted again, and stands for a positive time that is
not longer than `v`. -/
def Survives (val : PerlStr) (v : ℚ) : Prop :=
  ∃ digits unit, roundTrip cls val = .ok (digits ++ [unit]) ∧ digits ≠ [] ∧
    (∀ c ∈ digits, isDigit c = true) ∧ unit ∈ ps "numSMH" ∧
    ∃ w, parseTimeout cls (digits ++ [unit]) = .ok w ∧ 0 < w.value ∧ w.value ≤ v

/-- Rounding the seconds to what is written does not carry them up to a whole number of the
units of the header. -/
def PerlNum.NotCarried (v : PerlNum) : Prop :=
  ∀ k : ℕ, k * (headerUnit v.printed).1 ≤ v.printed → k * (headerUnit v.printed).1 ≤ v.value

theorem headerUnit_spec {w : ℚ} (h : 1 / 10 ^ 4 ≤ w) (k : ℕ) :
    0 < (headerUnit w).1 ∧ (headerUnit w).1 ≤ w ∧ (headerUnit w).2 ∈ ps "numSMH" ∧
      ∃ x, withUnit (.ofNat k) (headerUnit w).2 = some x ∧ x.value = k * (headerUnit w).1 := by
  have hvalue : (PerlNum.ofNat k).value = k := PerlNum.value_ofNat k
  unfold headerUnit
  split
  · refine ⟨by norm_num, by norm_num at h ⊢; linarith, by decide, _, rfl, ?_⟩
    rw [PerlNum.value_div (by decide), hvalue]
    norm_num
    ring
  · split
    · refine ⟨by norm_num, by linarith, by decide, _, rfl, ?_⟩
      rw [PerlNum.value_div (by decide), hvalue]
      norm_num
      ring
    · split
      · exact ⟨by norm_num, by linarith, by decide, _, rfl, by rw [hvalue, mul_one]⟩
      · split
        · refine ⟨by norm_num, by linarith, by decide, _, rfl, ?_⟩
          rw [PerlNum.value_mul, hvalue]
          norm_num
        · refine ⟨by norm_num, by linarith, by decide, _, rfl, ?_⟩
          rw [PerlNum.value_mul, hvalue]
          norm_num

theorem parse_of_format {sec header : PerlStr} (h : formatGrpcTimeout cls sec = .ok header) :
    ∃ w, parseTimeout cls sec = .ok w := by
  rw [formatGrpcTimeout] at h
  cases hparse : parseTimeout cls sec with
  | error e =>
      rw [hparse] at h
      cases h
  | ok w => exact ⟨w, rfl⟩

/-- What is written without an exponent is at least a ten-thousandth. -/
theorem printed_ge {v : PerlNum} (hpos : 0 < v.value) (h : v.Plain) : 1 / 10 ^ 4 ≤ v.printed := by
  cases v with
  | iv n hn =>
      have hcast : (0 : ℚ) < n := hpos
      have hone : 0 < n := by exact_mod_cast hcast
      have hcast : (1 : ℚ) ≤ n := by exact_mod_cast hone
      refine le_trans ?_ hcast
      norm_num
  | nv q => exact h.1

/-- The header of seconds that are written without an exponent. -/
theorem roundTrip_eq {val : PerlStr} {v : PerlNum} (hparse : parseTimeout cls val = .ok v)
    (hpos : 0 < v.value) (hplain : v.Plain) (hhours : v.HoursFit) :
    roundTrip cls val = .ok (natText ⌊v.printed / (headerUnit v.printed).1⌋₊ ++
      [(headerUnit v.printed).2]) := by
  obtain ⟨w, hw, hvalue, hsame⟩ := parse_text cls hpos hplain
  have hfit : w.value < 3600 * 10 ^ 15 ∨ w.HoursFit ∧ ∃ n hn, w = .iv n hn := by
    cases v with
    | iv n hn =>
        rw [hsame n hn rfl]
        exact .inr ⟨hhours, n, hn, rfl⟩
    | nv q =>
        left
        have hlt : w.value < 10 ^ 15 := hvalue ▸ hplain.2
        linarith
  rw [roundTrip, hparse, ← hvalue]
  exact format_eq cls hw hfit

/-- Seconds that are written with an exponent are not read again. -/
theorem plain_of_roundTrip {val header : PerlStr} {v : PerlNum}
    (hparse : parseTimeout cls val = .ok v) (hpos : 0 < v.value)
    (h : roundTrip cls val = .ok header) : v.Plain := by
  by_contra hplain
  cases v with
  | iv n hn => exact hplain trivial
  | nv q =>
      rw [roundTrip, hparse] at h
      obtain ⟨w, hw⟩ := parse_of_format cls h
      have hq : 0 < q := hpos
      refine not_mem_of_parseTimeout cls hw ?_
      rw [PerlNum.text, generalText, if_neg hq.ne',
        if_neg fun hexp => hplain ((plain_iff hq).mp hexp)]
      exact mem_scientificText _ _

theorem hoursFit_of_survives {val : PerlStr} {v : PerlNum} {q : ℚ}
    (hparse : parseTimeout cls val = .ok v) (hpos : 0 < v.value) (h : Survives cls val q) :
    v.HoursFit := by
  obtain ⟨digits, unit, htrip, -, -, -, w, hread, -, -⟩ := h
  by_contra hhours
  cases v with
  | iv n hn =>
      obtain ⟨w', hw', -, hsame⟩ := parse_text cls hpos (v := .iv n hn) trivial
      rw [hsame n hn rfl] at hw'
      obtain ⟨header, hheader, hmem⟩ := format_exponent cls hw' hhours
      rw [roundTrip, hparse] at htrip
      obtain rfl : header = digits ++ [unit] := Except.ok.inj (hheader.symm.trans htrip)
      exact not_mem_of_parseTimeout cls hread hmem
  | nv q => exact hhours trivial

/-- A string or a number, as `parse_timeout` is given it. -/
inductive TimeoutArg where
  | str (s : PerlStr)
  | num (n : PerlNum)

def TimeoutArg.text : TimeoutArg → PerlStr
  | .str s => s
  | .num n => n.text

/-- A deadline survives exactly if the seconds are written without an exponent and are not
carried up, and so is a count of hours. -/
theorem survives_iff (arg : TimeoutArg) {v : PerlNum} (hparse : parseTimeout cls arg.text = .ok v)
    (hpos : 0 < v.value) :
    Survives cls arg.text v.value ↔ v.Plain ∧ v.HoursFit ∧ v.NotCarried := by
  constructor
  · intro h
    have hhours := hoursFit_of_survives cls hparse hpos h
    obtain ⟨digits, unit, htrip, -, -, -, w, hread, -, hle⟩ := h
    have hplain := plain_of_roundTrip cls hparse hpos htrip
    obtain ⟨hunit, -, -, x, hx, hvalue⟩ :=
      headerUnit_spec (printed_ge hpos hplain) ⌊v.printed / (headerUnit v.printed).1⌋₊
    rw [roundTrip_eq cls hparse hpos hplain hhours, Except.ok.injEq] at htrip
    rw [← htrip, parse_header cls _ hx, Except.ok.injEq] at hread
    rw [← hread, hvalue] at hle
    refine ⟨hplain, hhours, fun k hk => ?_⟩
    -- a whole number of units is at most the one that is written
    have hfloor : k ≤ ⌊v.printed / (headerUnit v.printed).1⌋₊ :=
      Nat.le_floor ((le_div_iff₀ hunit).mpr hk)
    have hcast : (k : ℚ) ≤ ⌊v.printed / (headerUnit v.printed).1⌋₊ := by exact_mod_cast hfloor
    exact (mul_le_mul_of_nonneg_right hcast hunit.le).trans hle
  · rintro ⟨hplain, hhours, hcarried⟩
    obtain ⟨hunit, hone, hletter, x, hx, hvalue⟩ :=
      headerUnit_spec (printed_ge hpos hplain) ⌊v.printed / (headerUnit v.printed).1⌋₊
    have hfloor : 1 ≤ ⌊v.printed / (headerUnit v.printed).1⌋₊ :=
      Nat.le_floor (by rw [Nat.cast_one, le_div_iff₀ hunit, one_mul]; exact hone)
    have hcount : (⌊v.printed / (headerUnit v.printed).1⌋₊ : ℚ) * (headerUnit v.printed).1 ≤
        v.printed :=
      (le_div_iff₀ hunit).mp (Nat.floor_le (div_nonneg (hunit.le.trans hone) hunit.le))
    refine ⟨_, _, roundTrip_eq cls hparse hpos hplain hhours, natText_ne_nil _, natText_digits _,
      hletter, x, parse_header cls _ hx, ?_, ?_⟩
    · rw [hvalue]
      have hcast : (0 : ℚ) < ⌊v.printed / (headerUnit v.printed).1⌋₊ := by exact_mod_cast hfloor
      exact mul_pos hcast hunit
    · rw [hvalue]
      exact hcarried _ hcount

/-- The classes of a text in ASCII. -/
def asciiClasses : CharClasses where
  digit := isDigit
  space := Xs.isSpace
  digit_ascii _ _ := rfl
  space_ascii _ _ := rfl
  disjoint _ := Xs.isSpace_of_isDigit

theorem survives_iff_90M :
    Survives asciiClasses (ps "90M") 5400 ↔
      (PerlNum.iv 5400 (by decide)).Plain ∧ (PerlNum.iv 5400 (by decide)).HoursFit ∧
        (PerlNum.iv 5400 (by decide)).NotCarried :=
  survives_iff asciiClasses (.str (ps "90M")) (v := .iv 5400 (by decide)) rfl (by decide)

/-- Five microseconds: the seconds are written as `5e-06`. -/
theorem not_survives_5u :
    ∃ v, parseTimeout asciiClasses (ps "5u") = .ok v ∧ 0 < v.value ∧
      ¬ Survives asciiClasses (ps "5u") v.value := by
  have hvalue : parseTimeout asciiClasses (ps "5u") = .ok (.nv (5 / 1000000)) := rfl
  have hpos : (0 : ℚ) < 5 / 1000000 := by norm_num
  refine ⟨_, hvalue, hpos, fun h => ?_⟩
  obtain ⟨digits, unit, htrip, -⟩ := h
  have hplain := (plain_iff hpos).mpr (plain_of_roundTrip asciiClasses hvalue hpos htrip)
  have hlog : Int.log 10 (5 / 1000000 : ℚ) < -5 :=
    (Int.lt_zpow_iff_log_lt (b := 10) (by decide) hpos).mp (by norm_num)
  have hcarry : (significant (5 / 1000000)).2 ≤ Int.log 10 (5 / 1000000 : ℚ) + 1 := by
    simp only [significant]
    split <;> dsimp only <;> omega
  omega

end GooglePerl.Grpc
