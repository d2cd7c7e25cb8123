import GooglePerl.Xs.Repeated
import GooglePerl.Xs.Restore
import GooglePerl.Xs.WideIntegers

/-!
The keys of a map, as keys of a Perl hash and back.

A key is filed under its text, and read from it again by the conversion for values. That gives
the key that it was (`convertScalar_hashKey`), so a hash key that has gone through a map once
does not change again.
-/

namespace GooglePerl.Xs

open GooglePerl.Lib GooglePerl.Protobuf

/-! ### Decimal texts as numbers -/

theorem digitsValue_natText (n : ℕ) : digitsValue (natText n) = n :=
  (readNat_eq_some (readNat_natText n)).2.2

/-- A decimal text: a sign, if the number is negative, and the digits. -/
theorem decimalText_eq (n : ℤ) :
    decimalText n = (if n < 0 then [45] else []) ++ natText n.natAbs := by
  cases n with
  | ofNat n =>
      rw [if_neg (by simp)]
      rfl
  | negSucc n =>
      rw [if_pos (Int.negSucc_lt_zero n)]
      rfl

theorem applySign_natAbs (n : ℤ) : applySign (decide (n < 0)) n.natAbs = n := by
  rw [applySign]
  by_cases h : n < 0
  · rw [if_pos (decide_eq_true h)]
    omega
  · rw [if_neg (by simpa using h)]
    omega

theorem splitSign_decimalText (n : ℤ) :
    splitSign (decimalText n) = (decide (n < 0), natText n.natAbs) := by
  rw [decimalText_eq]
  by_cases h : n < 0
  · rw [if_pos h, decide_eq_true h]
    rfl
  · obtain ⟨c, s, hcs⟩ := List.exists_cons_of_ne_nil (natText_ne_nil n.natAbs)
    have hc : isDigit c = true := isDigit_of_mem_natText (n := n.natAbs) (by simp [hcs])
    rw [if_neg h, decide_eq_false h, List.nil_append, hcs, splitSign_of_isDigit hc]

/-- There are no blanks in a decimal text. -/
theorem isSpace_of_mem_decimalText {n : ℤ} {c : ℕ} (h : c ∈ decimalText n) : isSpace c = false := by
  rw [decimalText_eq, List.mem_append] at h
  rcases h with h | h
  · split at h
    · rw [List.mem_singleton.mp h]
      rfl
    · exact absurd h List.not_mem_nil
  · exact isSpace_of_isDigit (isDigit_of_mem_natText h)

theorem dropWhile_isSpace_of_forall {s : PerlStr} (h : ∀ c ∈ s, isSpace c = false) :
    s.dropWhile isSpace = s := by
  cases s with
  | nil => rfl
  | cons c s => exact dropWhile_isSpace_cons (h c List.mem_cons_self) s

theorem trim_decimalText (n : ℤ) :
    (((decimalText n).dropWhile isSpace).reverse.dropWhile isSpace).reverse = decimalText n := by
  rw [dropWhile_isSpace_of_forall fun c hc => isSpace_of_mem_decimalText hc,
    dropWhile_isSpace_of_forall fun c hc => isSpace_of_mem_decimalText (List.mem_reverse.mp hc),
    List.reverse_reverse]

theorem integerText_decimalText (n : ℤ) : integerText (decimalText n) = some n := by
  rw [integerText, trim_decimalText, readDecimal_decimalText]

theorem lower_natText (n : ℕ) :
    ((natText n).map fun c => if 65 ≤ c && c ≤ 90 then c + 32 else c) = natText n := by
  have hid : ∀ c ∈ natText n, (if 65 ≤ c && c ≤ 90 then c + 32 else c) = id c := by
    intro c hc
    have hdigit := isDigit_of_mem_natText hc
    simp only [isDigit, Bool.and_eq_true, decide_eq_true_eq] at hdigit
    rw [if_neg]
    · rfl
    · simp only [Bool.and_eq_true, decide_eq_true_eq]
      omega
  rw [List.map_congr_left hid, List.map_id]

/-- A run of digits is no name of a number. -/
theorem not_isPrefixOf_natText {w : PerlStr} (hw : ∀ c ∈ w.head?, isDigit c = false) (hne : w ≠ [])
    (n : ℕ) : w.isPrefixOf (natText n) = false := by
  obtain ⟨c, s, hcs⟩ := List.exists_cons_of_ne_nil (natText_ne_nil n)
  obtain ⟨d, w, rfl⟩ := List.exists_cons_of_ne_nil hne
  have hc : isDigit c = true := isDigit_of_mem_natText (n := n) (by simp [hcs])
  have hd := hw d rfl
  rw [hcs, List.isPrefixOf]
  have hdc : (d == c) = false := by
    rw [beq_eq_false_iff_ne]
    rintro rfl
    rw [hc] at hd
    cases hd
  rw [hdc, Bool.false_and]

theorem textValue_decimalText (n : ℤ) : textValue (decimalText n) = .fin n := by
  have hdigits : ∀ c ∈ natText n.natAbs, isDigit c = true := fun c hc => isDigit_of_mem_natText hc
  rw [textValue, dropWhile_isSpace_of_forall fun c hc => isSpace_of_mem_decimalText hc,
    splitSign_decimalText]
  simp only [lower_natText,
    not_isPrefixOf_natText (w := ps "inf") (by decide) (by decide),
    not_isPrefixOf_natText (w := ps "nan") (by decide) (by decide),
    List.takeWhile_eq_self_iff.mpr hdigits, List.dropWhile_eq_nil_iff.mpr hdigits,
    List.append_nil, digitsValue_natText, applySign_natAbs]
  simp

theorem looksLikeNumber_decimalText (n : ℤ) : looksLikeNumber (decimalText n) = true := by
  have hblank : (fun c : ℕ => c == 32 || (decide (9 ≤ c) && decide (c ≤ 13))) = isSpace := rfl
  have hdigits : ∀ c ∈ natText n.natAbs, isDigit c = true := fun c hc => isDigit_of_mem_natText hc
  have hne : natText n.natAbs ≠ [] := natText_ne_nil _
  have htake := List.takeWhile_eq_self_iff.mpr hdigits
  have hdrop := List.dropWhile_eq_nil_iff.mpr hdigits
  rw [looksLikeNumber, hblank, trim_decimalText, decimalText_eq]
  by_cases h : n < 0
  · rw [if_pos h]
    simp [htake, hdrop, hne]
  · obtain ⟨c, s, hcs⟩ := List.exists_cons_of_ne_nil hne
    have hc : isDigit c = true := hdigits c (by simp [hcs])
    rw [if_neg h, List.nil_append]
    split
    · rename_i heq
      rw [hcs] at heq
      obtain ⟨rfl, -⟩ := List.cons.inj heq
      cases hc
    · rename_i heq
      rw [hcs] at heq
      obtain ⟨rfl, -⟩ := List.cons.inj heq
      cases hc
    · simp [htake, hdrop, hne]

/-! ### There and back -/

/-- What a map may have for its keys. -/
def isKeyType : FieldType → Bool
  | .double | .float | .bytes | .message _ | .enum _ => false
  | _ => true

/-- Values of a type, where a string may hold anything. -/
abbrev KeyOf (S : DefPool) (t : FieldType) (x : MessageValue) : Prop :=
  Typed S (fun _ => True) (.single t) x

variable {S : DefPool}

/-- The key under which a Perl hash files a key of a map. -/
def fileKey (t : FieldType) (x : MessageValue) : HashKey := hashKey (perlScalar t x)

theorem fileKey_newSVuv {n : ℤ} (h : 0 ≤ n) : hashKey (newSVuv n) = ⟨decimalText n, false⟩ := by
  unfold newSVuv
  split
  · rfl
  · rw [hashKey, Int.toNat_of_nonneg h]

/-- The text of an integer as a scalar. -/
theorem integer_decimalText {n : ℤ} (h : -2 ^ 63 ≤ n ∧ n < 2 ^ 64) :
    (Scalar.str (decimalText n) false).integer = n := by
  rw [Scalar.integer, integerText_decimalText]
  simp only [h.2, if_true]
  exact max_eq_right h.1

theorem inRange_decimalText {lo hi : ℚ} {n : ℤ} (h : lo ≤ n ∧ n ≤ hi) :
    InRange lo hi (.str (decimalText n) false) := by
  refine ⟨n, ?_, h⟩
  rw [Scalar.number, if_pos (looksLikeNumber_decimalText n), textValue_decimalText]

/-! What the getters of integers make of such a text -/

theorem svIV_decimalText {n : ℤ} (hlo : -2 ^ 31 ≤ n) (hhi : n < 2 ^ 31) :
    toInt32 (Scalar.str (decimalText n) false).svIV = n := by
  have hbmod : Int.bmod n (2 ^ 64) = n := by
    apply Int.bmod_eq_of_le
    · norm_num at hlo ⊢
      omega
    · norm_num at hhi ⊢
      omega
  have hsviv : (Scalar.str (decimalText n) false).svIV = n := by
    rw [Scalar.svIV, integer_decimalText (by omega), hbmod]
    rintro m ⟨⟩
  rw [hsviv, toInt32_of_range hlo hhi]

theorem svUV_decimalText {n : ℤ} (hlo : 0 ≤ n) (hhi : n < 2 ^ 32) :
    toUint32 (Scalar.str (decimalText n) false).svUV = n := by
  rw [Scalar.svUV, integer_decimalText (by omega), toUint32]
  omega

theorem svToI64_decimalText {n : ℤ} (hlo : -2 ^ 63 ≤ n) (hhi : n < 2 ^ 63) :
    (Scalar.str (decimalText n) false).svToI64 = n := by
  simp only [Scalar.svToI64, Scalar.iok, Bool.false_eq_true, if_false,
    cIntegerPrefix_of_readDecimal (readDecimal_decimalText n)]
  omega

theorem svToU64_decimalText {n : ℤ} (hlo : 0 ≤ n) (hhi : n < 2 ^ 64) :
    (Scalar.str (decimalText n) false).svToU64 = n := by
  simp only [Scalar.svToU64, Scalar.iok, Bool.false_eq_true, if_false,
    cIntegerPrefix_of_readDecimal (readDecimal_decimalText n)]
  rw [abs_of_nonneg hlo, if_pos hhi]
  omega

/-- A key that is read from the text it is filed under is the key that it was. -/
theorem convertScalar_fileKey {f : FieldDef} {x : MessageValue} (hkey : isKeyType f.type = true)
    (h : KeyOf S f.type x) :
    convertScalar f (.str (fileKey f.type x).pv (fileKey f.type x).utf8) = .ok x := by
  -- a key comes back as a string, and integers are read from its text
  have hnumeric : ∀ n, (Scalar.str (decimalText n) false).isNumeric = true := fun n => by
    simp [Scalar.isNumeric, Scalar.pok, Scalar.pv, looksLikeNumber_decimalText]
  have hmember := member_of_typed h
  cases x with
  | bool b =>
      have ht : f.type = .bool := by simpa [Typed] using h
      rw [ht]
      cases b with
      | false => simp [convertScalar, ht, fileKey, hashKey, perlScalar, Scalar.svTRUE]
      | true =>
          simp only [convertScalar, ht, fileKey, hashKey, perlScalar, Scalar.svTRUE]
          rfl
  | str s =>
      have ht : f.type = .string := by
        simp only [Typed, ValueType.single.injEq] at h
        rcases h with h | h
        · rw [h] at hkey
          cases hkey
        · exact h.1
      rw [ht]
      simp [convertScalar, ht, fileKey, hashKey, perlScalar, Scalar.pok, Scalar.svPVutf8]
  | int32 n =>
      simp only [Typed, ValueType.single.injEq] at h
      obtain ⟨t, -, -, hlo, hhi⟩ := h
      have hlimits := verifyLimits_of_inRange f double_int32Min double_int32Max
        (inRange_decimalText (n := n) ⟨by exact_mod_cast hlo, by
          have hle : n ≤ 2 ^ 31 - 1 := by omega
          exact_mod_cast hle⟩)
      have hvalue := svIV_decimalText hlo hhi
      cases ht : f.type <;> rw [ht] at hmember hkey <;> cases hmember <;> cases hkey <;>
        simp [convertScalar, ht, fileKey, perlScalar, hashKey, hnumeric, hlimits, hvalue]
  | uint32 n =>
      simp only [Typed, ValueType.single.injEq] at h
      obtain ⟨t, -, -, hlo, hhi⟩ := h
      have hlimits := verifyLimits_of_inRange f double_zero double_uint32Max
        (inRange_decimalText (n := n) ⟨by exact_mod_cast hlo, by
          have hle : n ≤ 2 ^ 32 - 1 := by omega
          exact_mod_cast hle⟩)
      have hvalue := svUV_decimalText hlo hhi
      cases ht : f.type <;> rw [ht] at hmember hkey <;> cases hmember <;> cases hkey <;>
        simp [convertScalar, ht, fileKey, perlScalar, fileKey_newSVuv hlo, hnumeric, hlimits,
          hvalue]
  | int64 n =>
      simp only [Typed, ValueType.single.injEq] at h
      obtain ⟨t, -, -, hlo, hhi⟩ := h
      have hvalue := svToI64_decimalText hlo hhi
      cases ht : f.type <;> rw [ht] at hmember hkey <;> cases hmember <;> cases hkey <;>
        simp [convertScalar, ht, fileKey, perlScalar, hashKey, verifyLimits64_signed, hvalue]
  | uint64 n =>
      simp only [Typed, ValueType.single.injEq] at h
      obtain ⟨t, -, -, hlo, hhi⟩ := h
      have hlimits : verifyLimits64 (.str (decimalText n) false) f false = .ok () := rfl
      have hvalue := svToU64_decimalText hlo hhi
      cases ht : f.type <;> rw [ht] at hmember hkey <;> cases hmember <;> cases hkey <;>
        simp [convertScalar, ht, fileKey, perlScalar, fileKey_newSVuv hlo, hlimits, hvalue]
  | float v => cases ht : f.type <;> simp_all [typeMember, MessageValue.member, isKeyType]
  | double v => cases ht : f.type <;> simp_all [typeMember, MessageValue.member, isKeyType]
  | msg c slots rest => cases ht : f.type <;> simp_all [typeMember, MessageValue.member, isKeyType]
  | array items => simp [Typed] at h
  | map entries => simp [Typed] at h

theorem svToI64_text_range (pv : PerlStr) (utf8 : Bool) :
    -2 ^ 63 ≤ (Scalar.str pv utf8).svToI64 ∧ (Scalar.str pv utf8).svToI64 < 2 ^ 63 := by
  simp only [Scalar.svToI64, Scalar.iok, Bool.false_eq_true, if_false]
  omega

/-- What a text is converted to is a key of the type. -/
theorem keyOf_convertScalar {f : FieldDef} {pv : PerlStr} {utf8 : Bool} {x : MessageValue}
    (hkey : isKeyType f.type = true) (h : convertScalar f (.str pv utf8) = .ok x) :
    KeyOf S f.type x := by
  unfold convertScalar at h
  cases ht : f.type with
  | int32 | sint32 | sfixed32 =>
      rw [ht] at h
      obtain rfl := eq_of_checked (eq_of_guarded h)
      exact ⟨_, rfl, rfl, toInt32_range _⟩
  | uint32 | fixed32 =>
      rw [ht] at h
      obtain rfl := eq_of_checked (eq_of_guarded h)
      exact ⟨_, rfl, rfl, toUint32_range _⟩
  | int64 | sint64 | sfixed64 =>
      rw [ht] at h
      obtain rfl := eq_of_checked h
      exact ⟨_, rfl, rfl, svToI64_text_range pv utf8⟩
  | uint64 | fixed64 =>
      rw [ht] at h
      obtain rfl := eq_of_checked h
      exact ⟨_, rfl, rfl, svToU64_range _⟩
  | bool =>
      rw [ht] at h
      obtain rfl := Except.ok.inj h
      rfl
  | string =>
      rw [ht] at h
      obtain rfl := Except.ok.inj (eq_of_guarded h)
      exact .inr ⟨rfl, trivial⟩
  | double | float | bytes | message c | enum values =>
      rw [ht] at hkey
      cases hkey

/-- A key is found again under the scalar that the iterator makes of it. -/
theorem convertScalar_key {f : FieldDef} {x : MessageValue} (hkey : isKeyType f.type = true)
    (h : KeyOf S f.type x) : convertScalar f (perlScalar f.type x) = .ok x := by
  have hmember := member_of_typed h
  have hscalar : x.isScalar = true ∧ ∀ v, x ≠ .float v ∧ x ≠ .double v := by
    cases x with
    | float v | double v | msg c slots rest | array items | map entries =>
        cases ht : f.type <;> rw [ht] at hmember hkey <;> cases hmember <;> cases hkey
    | _ => simp [MessageValue.isScalar]
  refine (convertScalar_perlScalar hscalar.1 h fun v hv => ?_).mpr fun q hq => ?_
  · rw [within_scalar hscalar.1, within_scalar hscalar.1] at hv
    rcases hv with hv | hv
    · exact absurd hv.symm (hscalar.2 v).1
    · exact absurd hv.symm (hscalar.2 v).2
  · exact absurd hq (hscalar.2 _).1

/-! ### Texts of keys -/

/-- The characters of a hash key, in UTF-8: what two keys are compared by. -/
def HashKey.text (key : HashKey) : PerlStr := (Scalar.str key.pv key.utf8).svPVutf8

/-- A key as a Perl program sees it. -/
def keyText (t : FieldType) (x : MessageValue) : PerlStr := (fileKey t x).text

theorem isAscii_decimalText (n : ℤ) : IsAscii (decimalText n) := by
  intro c hc
  rw [decimalText_eq, List.mem_append] at hc
  rcases hc with hc | hc
  · split at hc
    · rw [List.mem_singleton.mp hc]
      decide
    · exact absurd hc List.not_mem_nil
  · have hdigit := isDigit_of_mem_natText hc
    simp only [isDigit, Bool.and_eq_true, decide_eq_true_eq] at hdigit
    omega

/-- Keys of one type are filed with one flag, and as the octets of their text. -/
theorem fileKey_eq {t : FieldType} {x : MessageValue} (hkey : isKeyType t = true)
    (h : KeyOf S t x) : fileKey t x = ⟨keyText t x, t == .string⟩ := by
  have hmember := member_of_typed h
  have hplain : ∀ s, IsAscii s → (HashKey.mk s false).text = s := fun s hs => utf8Text_of_ascii hs
  cases x with
  | bool b =>
      have ht : t = .bool := by simpa [Typed] using h
      subst ht
      have hbool : IsAscii (fileKey .bool (.bool b)).pv := by
        cases b with
        | false => exact fun c hc => absurd hc List.not_mem_nil
        | true => exact (by decide : IsAscii (ps "1"))
      exact (congrArg (HashKey.mk · false) (hplain _ hbool)).symm
  | str s =>
      simp only [Typed, ValueType.single.injEq] at h
      rcases h with rfl | ⟨rfl, -⟩
      · cases hkey
      · rfl
  | int32 n | int64 n =>
      have hflag : (t == FieldType.string) = false := by
        cases t <;> cases hmember <;> rfl
      rw [hflag]
      exact (congrArg (HashKey.mk · false) (hplain _ (isAscii_decimalText n))).symm
  | uint32 n | uint64 n =>
      have hflag : (t == FieldType.string) = false := by
        cases t <;> cases hmember <;> rfl
      simp only [Typed, ValueType.single.injEq] at h
      obtain ⟨_, -, -, hlo, -⟩ := h
      rw [hflag, keyText, fileKey, perlScalar, fileKey_newSVuv hlo,
        hplain _ (isAscii_decimalText n)]
  | float v | double v | msg c slots rest | array items | map entries =>
      cases t <;> cases hmember <;> cases hkey

theorem text_fileKey {t : FieldType} {x : MessageValue} (hkey : isKeyType t = true)
    (h : KeyOf S t x) : (fileKey t x).text = (fileKey t x).pv :=
  (congrArg HashKey.pv (fileKey_eq hkey h)).symm

/-- The conversion of a key looks at its characters only. -/
theorem convertScalar_text {f : FieldDef} {key : HashKey} (hkey : isKeyType f.type = true)
    (h : key.text = key.pv) :
    convertScalar f (.str key.pv key.utf8) = convertScalar f (.str key.text true) := by
  by_cases hstring : f.type = .string
  · simp only [convertScalar, hstring]
    rfl
  · rw [h]
    unfold convertScalar
    cases ht : f.type with
    | string => exact absurd ht hstring
    | bytes => exact absurd hkey (by rw [ht]; decide)
    | enum values => exact absurd hkey (by rw [ht]; exact Bool.false_ne_true)
    | _ => rfl

/-- Different keys have different texts. -/
theorem keyText_inj {f : FieldDef} {x y : MessageValue} (hkey : isKeyType f.type = true)
    (hx : KeyOf S f.type x) (hy : KeyOf S f.type y) (h : keyText f.type x = keyText f.type y) :
    x = y := by
  have hfile : fileKey f.type x = fileKey f.type y := by
    rw [fileKey_eq hkey hx, fileKey_eq hkey hy, h]
  have hread := convertScalar_fileKey hkey hx
  rw [hfile, convertScalar_fileKey hkey hy] at hread
  exact (Except.ok.inj hread).symm

/-- Keys of one type are the same exactly if they are equal. -/
theorem sameKey_iff {t : FieldType} {x y : MessageValue} (hkey : isKeyType t = true)
    (hx : KeyOf S t x) (hy : KeyOf S t y) : x.sameKey y = true ↔ x = y := by
  have hmx := member_of_typed hx
  have hmy := member_of_typed hy
  have hmember : x.member = y.member := hmx.trans hmy.symm
  constructor
  · intro h
    cases x <;> cases y <;> cases hmember <;> simp_all [MessageValue.sameKey]
  · rintro rfl
    cases x with
    | float v | double v | msg c slots rest | array items | map entries =>
        cases t <;> cases hmx <;> cases hkey
    | _ => simp [MessageValue.sameKey]

end GooglePerl.Xs
