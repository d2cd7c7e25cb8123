import GooglePerl.Lib.Calendar
import GooglePerl.Lib.GeneralFormat
import Mathlib.Data.List.TakeWhile

/-!
The text of a date and a time, `1970-01-01T00:00:00Z`.

The numbers in it have fixed numbers of digits, so texts are in the order of the times that they
are printed from (`isoText_lt_iff`), and `strptime` reads the time back (`strptime_isoText`).
-/

namespace GooglePerl.Lib

/-! ### Runs of digits -/

theorem digitsNumber_cons (c : ℕ) (l : List ℕ) :
    digitsNumber (c :: l) = (c - 48) * 10 ^ l.length + digitsNumber l := by
  have hhead : digitsNumber [c] = c - 48 := by simp [digitsNumber]
  rw [← List.singleton_append, digitsNumber_append, hhead]

theorem digitsNumber_lt {l : List ℕ} (h : ∀ c ∈ l, isDigit c = true) :
    digitsNumber l < 10 ^ l.length := by
  induction l with
  | nil => decide
  | cons c l ih =>
      have htail := ih fun d hd => h d (List.mem_cons_of_mem _ hd)
      have hc : c - 48 ≤ 9 := by
        have hdigit := h c List.mem_cons_self
        simp only [isDigit, Bool.and_eq_true, decide_eq_true_eq] at hdigit
        omega
      have hhead := Nat.mul_le_mul_right (10 ^ l.length) hc
      rw [digitsNumber_cons, List.length_cons, pow_succ]
      omega

/-- Runs of the same length are in the order of the numbers they spell. -/
theorem digits_lt_iff {l l' : List ℕ} (h : ∀ c ∈ l, isDigit c = true)
    (h' : ∀ c ∈ l', isDigit c = true) (hlength : l.length = l'.length) :
    l < l' ↔ digitsNumber l < digitsNumber l' := by
  induction l generalizing l' with
  | nil =>
      obtain rfl := List.length_eq_zero_iff.mp hlength.symm
      exact iff_of_false (List.lt_irrefl []) (Nat.lt_irrefl _)
  | cons c l ih =>
      cases l' with
      | nil => cases hlength
      | cons c' l' =>
          have hlength : l.length = l'.length := Nat.succ.inj hlength
          have hl : ∀ d ∈ l, isDigit d = true := fun d hd => h d (List.mem_cons_of_mem _ hd)
          have hl' : ∀ d ∈ l', isDigit d = true := fun d hd => h' d (List.mem_cons_of_mem _ hd)
          have hbound := digitsNumber_lt hl
          have hbound' := digitsNumber_lt hl'
          have hc := h c List.mem_cons_self
          have hc' := h' c' List.mem_cons_self
          simp only [isDigit, Bool.and_eq_true, decide_eq_true_eq] at hc hc'
          rw [List.cons_lt_cons_iff, ih hl hl' hlength, digitsNumber_cons, digitsNumber_cons,
            ← hlength]
          rw [← hlength] at hbound'
          -- the first digits decide, unless they are equal
          rcases Nat.lt_trichotomy c c' with hlt | rfl | hgt
          · have hfirst := Nat.mul_le_mul_right (10 ^ l.length) (show c - 48 + 1 ≤ c' - 48 by omega)
            rw [Nat.succ_mul] at hfirst
            exact iff_of_true (.inl hlt) (by omega)
          · constructor
            · rintro (hlt | ⟨-, hlt⟩)
              · exact absurd hlt (Nat.lt_irrefl c)
              · omega
            · exact fun hlt => .inr ⟨rfl, by omega⟩
          · have hfirst := Nat.mul_le_mul_right (10 ^ l.length) (show c' - 48 + 1 ≤ c - 48 by omega)
            rw [Nat.succ_mul] at hfirst
            refine iff_of_false ?_ (by omega)
            rintro (hlt | ⟨heq, -⟩) <;> omega

theorem append_lt_append_iff {a a' s s' : List ℕ} (h : a.length = a'.length) :
    a ++ s < a' ++ s' ↔ a < a' ∨ a = a' ∧ s < s' := by
  induction a generalizing a' with
  | nil =>
      obtain rfl := List.length_eq_zero_iff.mp h.symm
      simp
  | cons c a ih =>
      cases a' with
      | nil => cases h
      | cons c' a' =>
          rw [List.cons_append, List.cons_append, List.cons_lt_cons_iff, List.cons_lt_cons_iff,
            ih (Nat.succ.inj h), List.cons.injEq]
          tauto

/-- `%0*d` of `sprintf` -/
def paddedText (w n : ℕ) : List ℕ :=
  List.replicate (w - (natText n).length) 48 ++ natText n

theorem isDigit_of_mem_paddedText {w n c : ℕ} (h : c ∈ paddedText w n) : isDigit c = true := by
  rcases List.mem_append.mp h with h | h
  · rw [List.eq_of_mem_replicate h]
    rfl
  · exact isDigit_of_mem_natText h

theorem length_paddedText {w n : ℕ} (hw : 0 < w) (h : n < 10 ^ w) : (paddedText w n).length = w := by
  have hlength : (natText n).length ≤ w := by
    rw [natText, List.length_map]
    exact (Nat.length_toDigits_le_iff (by decide) hw).mpr h
  rw [paddedText, List.length_append, List.length_replicate]
  omega

theorem digitsNumber_paddedText (w n : ℕ) : digitsNumber (paddedText w n) = n := by
  rw [paddedText, digitsNumber_append, digitsNumber_zeros, Nat.zero_mul, Nat.zero_add]
  exact digitsNumber_of_readNat (readNat_natText n)

theorem paddedText_lt_iff {w n m : ℕ} (hw : 0 < w) (hn : n < 10 ^ w) (hm : m < 10 ^ w) :
    paddedText w n < paddedText w m ↔ n < m := by
  rw [digits_lt_iff (fun _ => isDigit_of_mem_paddedText) (fun _ => isDigit_of_mem_paddedText)
    ((length_paddedText hw hn).trans (length_paddedText hw hm).symm), digitsNumber_paddedText,
    digitsNumber_paddedText]

theorem paddedText_inj {w n m : ℕ} : paddedText w n = paddedText w m ↔ n = m := by
  refine ⟨fun h => ?_, fun h => h ▸ rfl⟩
  rw [← digitsNumber_paddedText w n, h, digitsNumber_paddedText]

/-- A number that needs no padding. -/
theorem paddedText_of_le {w n : ℕ} (h : 10 ^ w ≤ n) : paddedText (w + 1) n = natText n := by
  have hlength : w + 1 ≤ (natText n).length := by
    rw [natText, List.length_map]
    by_contra hlt
    rcases Nat.eq_zero_or_pos w with rfl | hw
    · have hpos := Nat.length_toDigits_pos (b := 10) (n := n)
      omega
    · have hle := (Nat.length_toDigits_le_iff (n := n) (by decide : 1 < 10) hw).mp (by omega)
      omega
  rw [paddedText, Nat.sub_eq_zero_of_le hlength]
  rfl

/-! ### The text -/

/-- `sprintf('%04d-%02d-%02dT%02d:%02d:%02dZ', …)`, for years from 0 on -/
def isoText (tm : Tm) : List ℕ :=
  paddedText 4 tm.year.toNat ++ 45 :: (paddedText 2 tm.mon ++ 45 :: (paddedText 2 tm.mday ++
    84 :: (paddedText 2 tm.hour ++ 58 :: (paddedText 2 tm.min ++ 58 ::
      (paddedText 2 tm.sec ++ [90])))))

/-- A broken-down time that four digits and two will do for. -/
structure Tm.Plain (tm : Tm) : Prop extends tm.InRange where
  year_nonneg : 0 ≤ tm.year
  year_lt : tm.year < 10000

theorem gmtime_plain {t : ℤ} (h : -62167219200 ≤ t) (h' : t < 253402300800) :
    (gmtime t).Plain where
  toInRange := gmtime_inRange t
  year_nonneg := by
    have hyear := le_yearOf (t / 86400 + epochDay) 0 (y := 0) (by decide)
      (by simp only [blockStart, epochDay]; omega)
    simpa [gmtime] using hyear
  year_lt := yearOf_lt 25 (by simp only [epochDay]; omega)

theorem le_gmtime_year {t : ℤ} (era : ℤ) (y day : ℕ) (hy : y ≤ 400) (hday : blockStart yearLength y = day)
    (h : (146097 * era + day - epochDay) * 86400 ≤ t) : 400 * era + y ≤ (gmtime t).year := by
  refine le_yearOf _ _ hy ?_
  rw [hday]
  simp only [epochDay] at *
  omega

/-- 1000-01-01 -/
theorem gmtime_year_of_1000 {t : ℤ} (h : -30610224000 ≤ t) : 1000 ≤ (gmtime t).year :=
  le_gmtime_year 2 200 73049 (by decide) (by decide +kernel)
    (by simp only [epochDay]; omega)

/-- 1970-01-01 -/
theorem gmtime_year_of_1970 {t : ℤ} (h : 0 ≤ t) : 1970 ≤ (gmtime t).year :=
  le_gmtime_year 4 370 135140 (by decide) (by decide +kernel)
    (by simp only [epochDay]; omega)

theorem isoText_lt_iff {tm tm' : Tm} (h : tm.Plain) (h' : tm'.Plain) :
    isoText tm < isoText tm' ↔ tm.Before tm' := by
  have hpiece : ∀ {n m : ℕ} {s s' : List ℕ} (c : ℕ), n < 100 → m < 100 →
      (paddedText 2 n ++ c :: s < paddedText 2 m ++ c :: s' ↔ n < m ∨ n = m ∧ s < s') := by
    intro n m s s' c hn hm
    rw [append_lt_append_iff ((length_paddedText (by decide) hn).trans
      (length_paddedText (by decide) hm).symm), paddedText_lt_iff (by decide) hn hm,
      paddedText_inj, List.cons_lt_cons_iff]
    simp
  have hyear : tm.year.toNat < 10 ^ 4 := by have := h.year_lt; omega
  have hyear' : tm'.year.toNat < 10 ^ 4 := by have := h'.year_lt; omega
  have hmon := h.mon_le
  have hmon' := h'.mon_le
  have hmday := h.mday_le
  have hmday' := h'.mday_le
  have hhour := h.hour_le
  have hhour' := h'.hour_le
  have hmin := h.min_le
  have hmin' := h'.min_le
  have hsec := h.sec_le
  have hsec' := h'.sec_le
  have hnonneg := h.year_nonneg
  have hnonneg' := h'.year_nonneg
  rw [isoText, isoText, append_lt_append_iff ((length_paddedText (by decide) hyear).trans
    (length_paddedText (by decide) hyear').symm), paddedText_lt_iff (by decide) hyear hyear',
    paddedText_inj, List.cons_lt_cons_iff, hpiece 45 (by omega) (by omega),
    hpiece 84 (by omega) (by omega), hpiece 58 (by omega) (by omega),
    hpiece 58 (by omega) (by omega), hpiece 90 (by omega) (by omega), Tm.Before]
  simp only [Nat.lt_irrefl, true_and, false_or, List.lt_irrefl, and_false, or_false]
  omega

/-! ### Reading it -/

/-- A number of at most `w` digits. -/
def readField (w : ℕ) (text : List ℕ) : Option (ℕ × List ℕ) :=
  let digits := (text.take w).takeWhile isDigit
  if digits = [] then none else some (digitsNumber digits, text.drop digits.length)

/-- The digits of a conversion, the numbers that it takes, and where they go. -/
def conversion : ℕ → Option (ℕ × (ℕ → Bool) × (Tm → ℕ → Tm))
  | 89 => some (4, fun n => 1900 ≤ n, fun tm n => { tm with year := n })
  | 109 => some (2, fun n => 1 ≤ n && n ≤ 12, fun tm n => { tm with mon := n })
  | 100 => some (2, fun n => n ≤ 31, fun tm n => { tm with mday := n })
  | 72 => some (2, fun n => n ≤ 23, fun tm n => { tm with hour := n })
  | 77 => some (2, fun n => n ≤ 59, fun tm n => { tm with min := n })
  | 83 => some (2, fun n => n ≤ 60, fun tm n => { tm with sec := n })
  | _ => none

/-- What is behind a percent sign; letters that stand for nothing, such as `f`, are skipped. -/
def strptimeField (c : ℕ) (text : List ℕ) (tm : Tm) : Option (Tm × List ℕ) :=
  match conversion c with
  | none => some (tm, text)
  | some (w, takes, put) =>
      (readField w text).bind fun r => if takes r.1 then some (put tm r.1, r.2) else none

/-- `_strptime` of `Time::Piece`, on a text without blanks: it ends with the format or with the
text. -/
def strptimeLoop : List ℕ → List ℕ → Tm → Option Tm
  | [], _, tm => some tm
  | _, [], tm => some tm
  | 37 :: c :: format, text, tm =>
      (strptimeField c text tm).bind fun r => strptimeLoop format r.2 r.1
  | c :: format, d :: text, tm => if c = d then strptimeLoop format text tm else none

/-- `Time::Piece->strptime`, and the `epoch` of what it returns. -/
def strptime (format text : List ℕ) : Option ℤ :=
  (strptimeLoop format text (gmtime 0)).map timegm

/-- `%Y-%m-%dT%H:%M:%SZ` -/
def isoFormat : List ℕ :=
  [37, 89, 45, 37, 109, 45, 37, 100, 84, 37, 72, 58, 37, 77, 58, 37, 83, 90]

theorem readField_paddedText {w n : ℕ} (hw : 0 < w) (h : n < 10 ^ w) (rest : List ℕ) :
    readField w (paddedText w n ++ rest) = some (n, rest) := by
  have hlength := length_paddedText hw h
  have htake : (paddedText w n ++ rest).take w = paddedText w n := by
    rw [List.take_append_of_le_length hlength.ge, List.take_of_length_le hlength.le]
  have hdigits : (paddedText w n).takeWhile isDigit = paddedText w n :=
    List.takeWhile_eq_self_iff.mpr fun _ => isDigit_of_mem_paddedText
  have hne : paddedText w n ≠ [] := by
    intro hnil
    rw [hnil] at hlength
    exact absurd hlength hw.ne
  have hdrop : (paddedText w n ++ rest).drop (paddedText w n).length = rest := List.drop_left
  rw [readField, htake, hdigits, if_neg hne, digitsNumber_paddedText, hdrop]

theorem paddedText_append_ne_nil {w n : ℕ} (hw : 0 < w) (h : n < 10 ^ w) (rest : List ℕ) :
    paddedText w n ++ rest ≠ [] := by
  intro hnil
  have hlength := length_paddedText hw h
  rw [(List.append_eq_nil_iff.mp hnil).1] at hlength
  exact absurd hlength hw.ne

theorem strptimeLoop_paddedText {c w n : ℕ} {takes : ℕ → Bool} {put : Tm → ℕ → Tm}
    (hc : conversion c = some (w, takes, put)) (hw : 0 < w) (h : n < 10 ^ w) (htakes : takes n)
    (format text : List ℕ) (tm : Tm) :
    strptimeLoop (37 :: c :: format) (paddedText w n ++ text) tm =
      strptimeLoop format text (put tm n) := by
  have hfield : strptimeField c (paddedText w n ++ text) tm = some (put tm n, text) := by
    rw [strptimeField, hc]
    simp only [readField_paddedText hw h, Option.bind_some]
    rw [if_pos htakes]
  obtain ⟨d, rest, hrest⟩ := List.exists_cons_of_ne_nil (paddedText_append_ne_nil hw h text)
  rw [hrest] at hfield ⊢
  rw [strptimeLoop, hfield]
  · rfl
  · exact List.cons_ne_nil d rest

theorem strptimeLoop_literal {c : ℕ} (hc : c ≠ 37) (format text : List ℕ) (tm : Tm) :
    strptimeLoop (c :: format) (c :: text) tm = strptimeLoop format text tm := by
  cases format <;> simp [strptimeLoop, hc]

/-- The time is read back. -/
theorem strptime_isoText {tm : Tm} (h : tm.Plain) (hyear : 1900 ≤ tm.year) :
    strptime isoFormat (isoText tm) = some (timegm tm) := by
  have hlt := h.year_lt
  have hmon := h.mon_le
  have hmon' := h.mon_pos
  have hmday := h.mday_le
  have hhour := h.hour_le
  have hmin := h.min_le
  have hsec := h.sec_le
  have hloop : strptimeLoop isoFormat (isoText tm) (gmtime 0) = some tm := by
    rw [isoFormat, isoText]
    rw [strptimeLoop_paddedText rfl (by decide) (by omega) (by simp; omega)]
    rw [strptimeLoop_literal (by decide)]
    rw [strptimeLoop_paddedText rfl (by decide) (by omega) (by simp; omega)]
    rw [strptimeLoop_literal (by decide)]
    rw [strptimeLoop_paddedText rfl (by decide) (by omega) (by simp; omega)]
    rw [strptimeLoop_literal (by decide)]
    rw [strptimeLoop_paddedText rfl (by decide) (by omega) (by simp; omega)]
    rw [strptimeLoop_literal (by decide)]
    rw [strptimeLoop_paddedText rfl (by decide) (by omega) (by simp; omega)]
    rw [strptimeLoop_literal (by decide)]
    rw [strptimeLoop_paddedText rfl (by decide) (by omega) (by simp; omega)]
    rw [strptimeLoop_literal (by decide)]
    rw [strptimeLoop]
    simp only [Int.toNat_of_nonneg h.year_nonneg]
  rw [strptime, hloop]
  rfl

end GooglePerl.Lib
