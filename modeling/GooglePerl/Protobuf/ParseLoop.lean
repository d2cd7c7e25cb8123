import GooglePerl.Lib.Except
import GooglePerl.Protobuf.Parse

/-!
The parse loop as a run of steps.

Every read consumes a prefix of its input and does not look beyond it. From
this follow the three facts that the rest of the development uses: the budget
of `parse` is always enough (`parseInto_cons`), a successful parse can be
walked step by step (`parseInto_run`), and parsing a concatenation is parsing
one part after the other (`parseInto_append`).
-/

namespace GooglePerl.Protobuf

open GooglePerl.Lib

variable {S : Pool} {parseSub : String → PerlStr → Except Die Msg}

/-! ### What a read can do -/

/-- What `_skip_field` can do, by the wire type. -/
inductive Skips (data : PerlStr) : ℕ → PerlStr → Prop where
  | varint {raw : ℕ} {rest : PerlStr} (hread : decodeVarint data = .ok (raw, rest)) :
      Skips data 0 rest
  | fixed64 (hlen : 8 ≤ data.length) : Skips data 1 (data.drop 8)
  | delimited {len : ℕ} {r : PerlStr} (hread : decodeVarint data = .ok (len, r))
      (hle : len ≤ r.length) : Skips data 2 (r.drop len)
  | fixed32 (hlen : 4 ≤ data.length) : Skips data 5 (data.drop 4)

theorem skipField_eq_ok {data rest : PerlStr} {wire : ℕ} :
    skipField data wire = .ok rest ↔ Skips data wire rest := by
  constructor
  · intro h
    unfold skipField at h
    split at h
    · obtain ⟨⟨raw, r⟩, hread, rfl⟩ := map_eq_ok.mp h
      exact .varint hread
    · split at h
      · cases h
      · obtain rfl := Except.ok.inj h
        exact .fixed64 (by omega)
    · obtain ⟨⟨len, r⟩, hread, hbody⟩ := bind_eq_ok.mp h
      simp only at hbody
      split at hbody
      · cases hbody
      · obtain rfl := Except.ok.inj hbody
        exact .delimited hread (by omega)
    · split at h
      · cases h
      · obtain rfl := Except.ok.inj h
        exact .fixed32 (by omega)
    · cases h
  · intro h
    cases h with
    | varint hread => simp [skipField, hread, Except.map]
    | fixed64 hlen => simp [skipField, Nat.not_lt.mpr hlen]
    | delimited hread hle => simp [skipField, hread, Nat.not_lt.mpr hle]
    | fixed32 hlen => simp [skipField, Nat.not_lt.mpr hlen]

/-- What `_decode_field` can do, by the wire type and, for length-delimited data, by
the type of the field. -/
inductive Decodes (parseSub : String → PerlStr → Except Die Msg) (t : FieldType) (data : PerlStr) :
    ℕ → Val → PerlStr → Prop where
  | varint {raw : ℕ} {rest : PerlStr} (hread : decodeVarint data = .ok (raw, rest)) :
      Decodes parseSub t data 0 (varintValue t raw) rest
  | fixed64 (hlen : 8 ≤ data.length) :
      Decodes parseSub t data 1 (fixed64Value t (data.take 8)) (data.drop 8)
  | message {c : String} {len : ℕ} {r : PerlStr} {inner : Msg} (ht : t = .message c)
      (hread : decodeVarint data = .ok (len, r)) (hle : len ≤ r.length)
      (hsub : parseSub c (r.take len) = .ok inner) :
      Decodes parseSub t data 2 inner.toVal (r.drop len)
  | text {len : ℕ} {r : PerlStr} (ht : ∀ c, t ≠ .message c)
      (hread : decodeVarint data = .ok (len, r)) (hle : len ≤ r.length) :
      Decodes parseSub t data 2 (.str (r.take len)) (r.drop len)
  | fixed32 (hlen : 4 ≤ data.length) :
      Decodes parseSub t data 5 (fixed32Value t (data.take 4)) (data.drop 4)
  | other {wire : ℕ} (h0 : wire ≠ 0) (h1 : wire ≠ 1) (h2 : wire ≠ 2) (h5 : wire ≠ 5) :
      Decodes parseSub t data wire .undef data

theorem decodeField_eq_ok {wire : ℕ} {t : FieldType} {data rest : PerlStr} {v : Val} :
    decodeField parseSub wire t data = .ok (v, rest) ↔ Decodes parseSub t data wire v rest := by
  constructor
  · intro h
    unfold decodeField at h
    split at h
    · obtain ⟨⟨raw, r⟩, hread, hval⟩ := bind_eq_ok.mp h
      obtain ⟨rfl, rfl⟩ := Prod.mk.inj (Except.ok.inj hval)
      exact .varint hread
    · split at h
      · cases h
      · obtain ⟨rfl, rfl⟩ := Prod.mk.inj (Except.ok.inj h)
        exact .fixed64 (by omega)
    · obtain ⟨⟨len, r⟩, hread, hbody⟩ := bind_eq_ok.mp h
      simp only at hbody
      split at hbody
      · cases hbody
      · split at hbody
        · obtain ⟨inner, hsub, hval⟩ := bind_eq_ok.mp hbody
          obtain ⟨rfl, rfl⟩ := Prod.mk.inj (Except.ok.inj hval)
          exact .message rfl hread (by omega) hsub
        · rename_i ht
          obtain ⟨rfl, rfl⟩ := Prod.mk.inj (Except.ok.inj hbody)
          exact .text ht hread (by omega)
    · split at h
      · cases h
      · obtain ⟨rfl, rfl⟩ := Prod.mk.inj (Except.ok.inj h)
        exact .fixed32 (by omega)
    · rename_i h0 h1 h2 h5
      obtain ⟨rfl, rfl⟩ := Prod.mk.inj (Except.ok.inj h)
      exact .other h0 h1 h2 h5
  · intro h
    cases h with
    | varint hread => simp [decodeField, hread]
    | fixed64 hlen => simp [decodeField, Nat.not_lt.mpr hlen]
    | message ht hread hle hsub => simp [decodeField, ht, hread, Nat.not_lt.mpr hle, hsub]
    | text ht hread hle => simp [decodeField, hread, Nat.not_lt.mpr hle]
    | fixed32 hlen => simp [decodeField, Nat.not_lt.mpr hlen]
    | other h0 h1 h2 h5 => simp [decodeField]

/-! ### Reads consume a prefix -/

theorem skipField_ok {data rest : PerlStr} {wire : ℕ} (h : skipField data wire = .ok rest) :
    ∃ used, data = used ++ rest ∧ 0 < used.length := by
  rw [skipField_eq_ok] at h
  cases h with
  | varint hread =>
      obtain ⟨used, hdata, hpos, -⟩ := decodeVarint_ok hread
      exact ⟨used, hdata, hpos⟩
  | fixed64 hlen => exact ⟨data.take 8, (List.take_append_drop 8 data).symm, by simp; omega⟩
  | @delimited len r hread hle =>
      obtain ⟨used, rfl, hpos, -⟩ := decodeVarint_ok hread
      exact ⟨used ++ r.take len, by simp, by simp; omega⟩
  | fixed32 hlen => exact ⟨data.take 4, (List.take_append_drop 4 data).symm, by simp; omega⟩

theorem skipField_append {data rest : PerlStr} {wire : ℕ} (h : skipField data wire = .ok rest)
    (ext : PerlStr) : skipField (data ++ ext) wire = .ok (rest ++ ext) := by
  rw [skipField_eq_ok] at h ⊢
  cases h with
  | varint hread => exact .varint (decodeVarint_append hread ext)
  | fixed64 hlen =>
      rw [← List.drop_append_of_le_length hlen]
      exact .fixed64 (by simp; omega)
  | delimited hread hle =>
      rw [← List.drop_append_of_le_length hle]
      exact .delimited (decodeVarint_append hread ext) (by simp; omega)
  | fixed32 hlen =>
      rw [← List.drop_append_of_le_length hlen]
      exact .fixed32 (by simp; omega)

theorem decodeField_ok {wire : ℕ} {t : FieldType} {data rest : PerlStr} {v : Val}
    (h : decodeField parseSub wire t data = .ok (v, rest)) : ∃ used, data = used ++ rest := by
  rw [decodeField_eq_ok] at h
  cases h with
  | varint hread =>
      obtain ⟨used, hdata, -⟩ := decodeVarint_ok hread
      exact ⟨used, hdata⟩
  | fixed64 => exact ⟨data.take 8, (List.take_append_drop 8 data).symm⟩
  | @message c len r inner _ hread | @text len r _ hread =>
      obtain ⟨used, rfl, -⟩ := decodeVarint_ok hread
      exact ⟨used ++ r.take len, by simp⟩
  | fixed32 => exact ⟨data.take 4, (List.take_append_drop 4 data).symm⟩
  | other => exact ⟨[], rfl⟩

theorem decodeField_append {wire : ℕ} {t : FieldType} {data rest : PerlStr} {v : Val}
    (h : decodeField parseSub wire t data = .ok (v, rest)) (ext : PerlStr) :
    decodeField parseSub wire t (data ++ ext) = .ok (v, rest ++ ext) := by
  rw [decodeField_eq_ok] at h ⊢
  cases h with
  | varint hread => exact .varint (decodeVarint_append hread ext)
  | fixed64 hlen =>
      rw [← List.drop_append_of_le_length hlen, ← List.take_append_of_le_length hlen]
      exact .fixed64 (by simp; omega)
  | message ht hread hle hsub =>
      rw [← List.take_append_of_le_length hle] at hsub
      rw [← List.drop_append_of_le_length hle]
      exact .message ht (decodeVarint_append hread ext) (by simp; omega) hsub
  | text ht hread hle =>
      rw [← List.drop_append_of_le_length hle, ← List.take_append_of_le_length hle]
      exact .text ht (decodeVarint_append hread ext) (by simp; omega)
  | fixed32 hlen =>
      rw [← List.drop_append_of_le_length hlen, ← List.take_append_of_le_length hlen]
      exact .fixed32 (by simp; omega)
  | other h0 h1 h2 h5 => exact .other h0 h1 h2 h5

/-- Sub-messages are shorter than the data they are read from. -/
theorem decodeField_congr {p q : String → PerlStr → Except Die Msg} {wire : ℕ} {t : FieldType}
    {data : PerlStr} (h : ∀ c bytes, bytes.length < data.length → p c bytes = q c bytes) :
    decodeField p wire t data = decodeField q wire t data := by
  unfold decodeField
  split
  · rfl
  · rfl
  · cases hread : decodeVarint data with
    | error e => rfl
    | ok p' =>
        obtain ⟨len, r⟩ := p'
        have hlen := decodeVarint_length hread
        simp only [ok_bind]
        split
        · rfl
        · split
          · rw [h _ _ (by simp; omega)]
          · rfl
  · rfl
  · rfl

/-- Decoding a sub-message is parsing the bytes that its length delimits. -/
theorem decodeField_message_inv {c : String} {data rest : PerlStr} {v : Val}
    (h : decodeField parseSub 2 (.message c) data = .ok (v, rest)) :
    ∃ len r inner, decodeVarint data = .ok (len, r) ∧ len ≤ r.length ∧
      parseSub c (r.take len) = .ok inner ∧ v = inner.toVal ∧ rest = r.drop len := by
  rw [decodeField_eq_ok] at h
  cases h with
  | @message c' len r inner ht hread hle hsub =>
      obtain rfl := FieldType.message.inj ht
      exact ⟨len, r, inner, hread, hle, hsub, rfl, rfl⟩
  | text ht => exact absurd rfl (ht c)
  | other _ _ h2 => exact absurd rfl h2

/-! ### Steps -/

/-- What a turn of the loop can be. -/
theorem parseStep_cases {data rest : PerlStr} {m m' : Msg}
    (h : parseStep S parseSub data m = .ok (m', rest)) :
    ∃ tagWire afterTag, decodeVarint data = .ok (tagWire, afterTag) ∧
      (((S.descriptor m.cls).findFieldByNumber (tagWire >>> 3) = none ∧
          skipField afterTag (tagWire &&& 7) = .ok rest ∧
          m' = m.keepUnknown (data.take (data.length - rest.length))) ∨
        ∃ f v, (S.descriptor m.cls).findFieldByNumber (tagWire >>> 3) = some f ∧
          decodeField parseSub (tagWire &&& 7) f.type afterTag = .ok (v, rest) ∧
          storeField S f v m = .ok m') := by
  unfold parseStep at h
  obtain ⟨⟨tagWire, afterTag⟩, hread, h⟩ := bind_eq_ok.mp h
  refine ⟨tagWire, afterTag, hread, ?_⟩
  simp only at h
  split at h
  · rename_i hfind
    obtain ⟨rest', hskip, h⟩ := bind_eq_ok.mp h
    obtain ⟨rfl, rfl⟩ := Prod.mk.inj (Except.ok.inj h)
    exact .inl ⟨hfind, hskip, rfl⟩
  · rename_i f hfind
    obtain ⟨⟨v, rest'⟩, hdec, h⟩ := bind_eq_ok.mp h
    obtain ⟨m'', hstore, h⟩ := bind_eq_ok.mp h
    obtain ⟨rfl, rfl⟩ := Prod.mk.inj (Except.ok.inj h)
    exact .inr ⟨f, v, hfind, hdec, hstore⟩

theorem parseStep_unknown (parseSub : String → PerlStr → Except Die Msg)
    {data afterTag rest : PerlStr} {m : Msg} {tagWire : ℕ}
    (hread : decodeVarint data = .ok (tagWire, afterTag))
    (hfind : (S.descriptor m.cls).findFieldByNumber (tagWire >>> 3) = none)
    (hskip : skipField afterTag (tagWire &&& 7) = .ok rest) :
    parseStep S parseSub data m =
      .ok (m.keepUnknown (data.take (data.length - rest.length)), rest) := by
  simp [parseStep, hread, hfind, hskip]

theorem parseStep_known {data afterTag rest : PerlStr} {m m' : Msg} {tagWire : ℕ} {f : FieldDef}
    {v : Val} (hread : decodeVarint data = .ok (tagWire, afterTag))
    (hfind : (S.descriptor m.cls).findFieldByNumber (tagWire >>> 3) = some f)
    (hdec : decodeField parseSub (tagWire &&& 7) f.type afterTag = .ok (v, rest))
    (hstore : storeField S f v m = .ok m') :
    parseStep S parseSub data m = .ok (m', rest) := by
  simp [parseStep, hread, hfind, hdec, hstore]

theorem parseStep_ok {data rest : PerlStr} {m m' : Msg}
    (h : parseStep S parseSub data m = .ok (m', rest)) :
    ∃ used, data = used ++ rest ∧ 0 < used.length := by
  obtain ⟨tagWire, afterTag, hread, hcase⟩ := parseStep_cases h
  obtain ⟨used, rfl, hpos, -⟩ := decodeVarint_ok hread
  rcases hcase with ⟨-, hskip, -⟩ | ⟨f, v, -, hdec, -⟩
  · obtain ⟨used', rfl, -⟩ := skipField_ok hskip
    exact ⟨used ++ used', by simp, by simp; omega⟩
  · obtain ⟨used', rfl⟩ := decodeField_ok hdec
    exact ⟨used ++ used', by simp, by simp; omega⟩

theorem parseStep_length {data rest : PerlStr} {m m' : Msg}
    (h : parseStep S parseSub data m = .ok (m', rest)) : rest.length < data.length := by
  obtain ⟨used, rfl, hpos⟩ := parseStep_ok h
  simp only [List.length_append]
  omega

theorem parseStep_append {data rest : PerlStr} {m m' : Msg}
    (h : parseStep S parseSub data m = .ok (m', rest)) (ext : PerlStr) :
    parseStep S parseSub (data ++ ext) m = .ok (m', rest ++ ext) := by
  have hlen := parseStep_length h
  obtain ⟨tagWire, afterTag, hread, hcase⟩ := parseStep_cases h
  rcases hcase with ⟨hfind, hskip, rfl⟩ | ⟨f, v, hfind, hdec, hstore⟩
  · rw [parseStep_unknown parseSub (decodeVarint_append hread ext) hfind
      (skipField_append hskip ext)]
    have hraw : (data ++ ext).take ((data ++ ext).length - (rest ++ ext).length) =
        data.take (data.length - rest.length) := by
      rw [List.take_append_of_le_length (by simp)]
      congr 1
      simp only [List.length_append]
      omega
    rw [hraw]
  · exact parseStep_known (decodeVarint_append hread ext) hfind (decodeField_append hdec ext) hstore

theorem parseStep_congr {p q : String → PerlStr → Except Die Msg} {data : PerlStr} {m : Msg}
    (h : ∀ c bytes, bytes.length < data.length → p c bytes = q c bytes) :
    parseStep S p data m = parseStep S q data m := by
  unfold parseStep
  cases hread : decodeVarint data with
  | error e => rfl
  | ok r =>
      obtain ⟨tagWire, afterTag⟩ := r
      have hlen := decodeVarint_length hread
      simp only [ok_bind]
      split
      · rfl
      · rw [decodeField_congr fun c bytes hb => h c bytes (by omega)]

/-! ### The loop -/

theorem parseLoop_fuel (fuel : ℕ) (data : PerlStr) (m : Msg) (h : data.length ≤ fuel) :
    parseLoop S fuel data m = parseInto S data m := by
  unfold parseInto
  induction hn : data.length using Nat.strong_induction_on generalizing fuel data m with
  | _ n ih =>
      subst hn
      cases data with
      | nil => simp [parseLoop]
      | cons b data =>
          obtain ⟨fuel, rfl⟩ : ∃ k, fuel = k + 1 := ⟨fuel - 1, by simp at h; omega⟩
          simp only [List.length_cons] at h ih ⊢
          rw [parseLoop, parseLoop]
          have hsub : ∀ c (bytes : PerlStr), bytes.length < (b :: data).length →
              (parseLoop S fuel bytes (.create c)).mapError Prod.fst =
                (parseLoop S data.length bytes (.create c)).mapError Prod.fst := by
            intro c bytes hb
            simp only [List.length_cons] at hb
            rw [ih bytes.length hb fuel bytes _ (by omega) rfl,
              ih bytes.length hb data.length bytes _ (by omega) rfl]
          rw [parseStep_congr hsub]
          split
          · rfl
          · rename_i m' rest hstep
            have hrest := parseStep_length hstep
            simp only [List.length_cons] at hrest
            rw [ih rest.length hrest fuel rest _ (by omega) rfl,
              ih rest.length hrest data.length rest _ (by omega) rfl]

@[simp] theorem parseInto_nil (m : Msg) : parseInto S [] m = .ok m := by
  simp [parseInto, parseLoop]

/-- The loop without its budget: sub-messages are parsed by `parse` itself. -/
theorem parseInto_cons {data : PerlStr} (m : Msg) (h : data ≠ []) :
    parseInto S data m =
      match parseStep S (parse S) data m with
      | .error e => .error (e, m)
      | .ok (m', rest) => parseInto S rest m' := by
  obtain ⟨b, data, rfl⟩ := List.exists_cons_of_ne_nil h
  have hsub : ∀ c (bytes : PerlStr), bytes.length < (b :: data).length →
      (parseLoop S data.length bytes (.create c)).mapError Prod.fst = parse S c bytes := by
    intro c bytes hb
    simp only [List.length_cons] at hb
    rw [parseLoop_fuel _ _ _ (by omega), parse]
  conv_lhs => rw [parseInto, List.length_cons, parseLoop]
  rw [parseStep_congr hsub]
  cases hstep : parseStep S (parse S) (b :: data) m with
  | error e => rfl
  | ok r =>
      obtain ⟨m', rest⟩ := r
      have hrest := parseStep_length hstep
      simp only [List.length_cons] at hrest
      exact parseLoop_fuel _ _ _ (by omega)

theorem parseInto_step {data rest : PerlStr} {m m' : Msg}
    (h : parseStep S (parse S) data m = .ok (m', rest)) :
    parseInto S data m = parseInto S rest m' := by
  have hne : data ≠ [] := by
    rintro rfl
    have hlen := parseStep_length h
    simp at hlen
  rw [parseInto_cons m hne, h]

/-- A run that meets a known field decodes and stores it and goes on after it. -/
theorem parseInto_known_inv {data afterTag : PerlStr} {m m' : Msg} {tagWire : ℕ} {f : FieldDef}
    (hread : decodeVarint data = .ok (tagWire, afterTag))
    (hfind : (S.descriptor m.cls).findFieldByNumber (tagWire >>> 3) = some f)
    (hrun : parseInto S data m = .ok m') :
    ∃ v rest m₁, decodeField (parse S) (tagWire &&& 7) f.type afterTag = .ok (v, rest) ∧
      parseStep S (parse S) data m = .ok (m₁, rest) ∧ parseInto S rest m₁ = .ok m' := by
  have hne : data ≠ [] := by
    rintro rfl
    cases hread
  rw [parseInto_cons m hne] at hrun
  split at hrun
  · cases hrun
  rename_i m₁ rest hstep
  obtain ⟨tagWire', afterTag', hread', hcase⟩ := parseStep_cases hstep
  obtain ⟨rfl, rfl⟩ := Prod.mk.inj (Except.ok.inj (hread.symm.trans hread'))
  rcases hcase with ⟨hnone, -, -⟩ | ⟨g, v, hsome, hdec, -⟩
  · cases hfind.symm.trans hnone
  · obtain rfl := Option.some.inj (hfind.symm.trans hsome)
    exact ⟨v, rest, m₁, hdec, hstep, hrun⟩

theorem parse_eq_ok {cls : String} {data : PerlStr} {m : Msg} :
    parse S cls data = .ok m ↔ parseInto S data (.create cls) = .ok m :=
  mapError_eq_ok

/-- The rule for successful runs of the loop. -/
theorem parseInto_run {motive : PerlStr → Msg → Msg → Prop} (nil : ∀ m, motive [] m m)
    (step : ∀ data m m₁ rest m', parseStep S (parse S) data m = .ok (m₁, rest) →
      parseInto S rest m₁ = .ok m' → motive rest m₁ m' → motive data m m')
    {data : PerlStr} {m m' : Msg} (h : parseInto S data m = .ok m') : motive data m m' := by
  induction hn : data.length using Nat.strong_induction_on generalizing data m with
  | _ n ih =>
      subst hn
      by_cases hne : data = []
      · subst hne
        rw [parseInto_nil] at h
        obtain rfl := Except.ok.inj h
        exact nil m
      · rw [parseInto_cons m hne] at h
        split at h
        · cases h
        · rename_i m₁ rest hstep
          exact step data m m₁ rest m' hstep h (ih _ (parseStep_length hstep) h rfl)

/-- Parsing a concatenation is parsing one part after the other. -/
theorem parseInto_append {a : PerlStr} {m m₁ : Msg} (h : parseInto S a m = .ok m₁)
    (b : PerlStr) : parseInto S (a ++ b) m = parseInto S b m₁ := by
  refine parseInto_run (motive := fun a m m₁ => parseInto S (a ++ b) m = parseInto S b m₁)
    (fun m => rfl) ?_ h
  intro a m m₂ rest m₁ hstep _ ih
  rw [parseInto_step (parseStep_append hstep b), ih]

theorem parseStep_cls {data rest : PerlStr} {m m' : Msg}
    (h : parseStep S parseSub data m = .ok (m', rest)) : m'.cls = m.cls := by
  obtain ⟨tagWire, afterTag, -, ⟨-, -, rfl⟩ | ⟨f, v, -, -, hstore⟩⟩ := parseStep_cases h
  · rfl
  · obtain ⟨x, -, rfl⟩ := map_eq_ok.mp hstore
    rfl

theorem parseInto_cls {data : PerlStr} {m m' : Msg} (h : parseInto S data m = .ok m') :
    m'.cls = m.cls := by
  refine parseInto_run (motive := fun _ m m' => m'.cls = m.cls) (fun _ => rfl) ?_ h
  intro data m m₁ rest m' hstep _ ih
  rw [ih, parseStep_cls hstep]

end GooglePerl.Protobuf
