import GooglePerl.Protobuf.ParseLoop

/-!
Unknown fields, and what parsing them leaves alone.

`UnknownFields d u` says that `u` is a sequence of well-formed fields whose
numbers `d` does not have. A parser that uses `d` keeps such bytes as they are
(`parseInto_unknownFields`). A parser with a larger descriptor may know some of
them; it then changes no field of `d`, and what it does with them does not
depend on the fields of `d` (`parseInto_outside`).
-/

namespace GooglePerl.Protobuf

open GooglePerl.Lib

variable {S : Pool} {parseSub : String → PerlStr → Except Die Msg}

/-- The raw field that `parse_into` cuts out between two positions. -/
theorem take_length_sub (used rest : PerlStr) :
    (used ++ rest).take ((used ++ rest).length - rest.length) = used := by
  simp

inductive UnknownFields (d : MessageDef) : PerlStr → Prop where
  | nil : UnknownFields d []
  | cons {data afterTag rest : PerlStr} {tagWire : ℕ}
      (hread : decodeVarint data = .ok (tagWire, afterTag))
      (hfind : d.findFieldByNumber (tagWire >>> 3) = none)
      (hskip : skipField afterTag (tagWire &&& 7) = .ok rest)
      (htail : UnknownFields d rest) : UnknownFields d data

theorem UnknownFields.append {d : MessageDef} {a b : PerlStr} (ha : UnknownFields d a)
    (hb : UnknownFields d b) : UnknownFields d (a ++ b) := by
  induction ha with
  | nil => exact hb
  | cons hread hfind hskip _ ih =>
      exact .cons (decodeVarint_append hread b) hfind (skipField_append hskip b) ih

/-- The characters a skip passes over can be skipped by themselves. -/
theorem skipField_split {data rest : PerlStr} {wire : ℕ} (h : skipField data wire = .ok rest) :
    ∃ used, data = used ++ rest ∧ skipField used wire = .ok [] := by
  rw [skipField_eq_ok] at h
  simp only [skipField_eq_ok]
  cases h with
  | varint hread =>
      obtain ⟨used, hdata, hused⟩ := decodeVarint_split hread
      exact ⟨used, hdata, .varint hused⟩
  | fixed64 hlen =>
      have halone : Skips (data.take 8) 1 ((data.take 8).drop 8) := .fixed64 (by simp; omega)
      exact ⟨data.take 8, (List.take_append_drop 8 data).symm, by simpa using halone⟩
  | @delimited len r hread hle =>
      obtain ⟨used, rfl, hused⟩ := decodeVarint_split hread
      have halone : Skips (used ++ r.take len) 2 ((r.take len).drop len) :=
        .delimited (decodeVarint_append hused (r.take len)) (by simp; omega)
      exact ⟨used ++ r.take len, by simp, by simpa using halone⟩
  | fixed32 hlen =>
      have halone : Skips (data.take 4) 5 ((data.take 4).drop 4) := .fixed32 (by simp; omega)
      exact ⟨data.take 4, (List.take_append_drop 4 data).symm, by simpa using halone⟩

/-- One skipped field is a sequence of unknown fields by itself. -/
theorem UnknownFields.single {d : MessageDef} {data afterTag rest : PerlStr} {tagWire : ℕ}
    (hread : decodeVarint data = .ok (tagWire, afterTag))
    (hfind : d.findFieldByNumber (tagWire >>> 3) = none)
    (hskip : skipField afterTag (tagWire &&& 7) = .ok rest) :
    UnknownFields d (data.take (data.length - rest.length)) := by
  obtain ⟨tag, rfl, htag⟩ := decodeVarint_split hread
  obtain ⟨payload, rfl, hpayload⟩ := skipField_split hskip
  rw [← List.append_assoc, take_length_sub]
  exact .cons (decodeVarint_append htag payload) hfind (by simpa using hpayload) .nil

/-- A parser that does not know the fields keeps their bytes in order. -/
theorem parseInto_unknownFields {d : MessageDef} {u : PerlStr} (hu : UnknownFields d u) {m : Msg}
    (hd : S.descriptor m.cls = d) :
    ∃ m', parseInto S u m = .ok m' ∧ m'.cls = m.cls ∧ m'.fields = m.fields ∧
      m'.unknown.getD [] = m.unknown.getD [] ++ u := by
  induction hu generalizing m with
  | nil => exact ⟨m, parseInto_nil m, rfl, rfl, by simp⟩
  | @cons data afterTag rest tagWire hread hfind hskip _ ih =>
      have hstep := parseStep_unknown (parse S) hread (hd ▸ hfind) hskip
      obtain ⟨used, hdata, -⟩ := parseStep_ok hstep
      rw [hdata, take_length_sub, ← hdata] at hstep
      obtain ⟨m', hm', hcls, hfields, hunknown⟩ := ih (m := m.keepUnknown used) hd
      refine ⟨m', (parseInto_step hstep).trans hm', hcls, hfields, ?_⟩
      rw [hunknown, hdata]
      simp [Msg.keepUnknown]

/-! ### Skipping and decoding end at the same place -/

theorem skipField_wire {data rest : PerlStr} {wire : ℕ} (h : skipField data wire = .ok rest) :
    wire = 0 ∨ wire = 1 ∨ wire = 2 ∨ wire = 5 := by
  rw [skipField_eq_ok] at h
  cases h with
  | varint => exact .inl rfl
  | fixed64 => exact .inr (.inl rfl)
  | delimited => exact .inr (.inr (.inl rfl))
  | fixed32 => exact .inr (.inr (.inr rfl))

theorem decodeField_skip {wire : ℕ} {t : FieldType} {data rest : PerlStr} {v : Val}
    (h : decodeField parseSub wire t data = .ok (v, rest))
    (hwire : wire = 0 ∨ wire = 1 ∨ wire = 2 ∨ wire = 5) : skipField data wire = .ok rest := by
  rw [decodeField_eq_ok] at h
  rw [skipField_eq_ok]
  cases h with
  | varint hread => exact .varint hread
  | fixed64 hlen => exact .fixed64 hlen
  | message _ hread hle | text _ hread hle => exact .delimited hread hle
  | fixed32 hlen => exact .fixed32 hlen
  | other h0 h1 h2 h5 => omega

/-- The characters that one turn of the loop reads are read alike without the rest. -/
theorem decodeField_split {wire : ℕ} {t : FieldType} {data rest : PerlStr} {v : Val}
    (h : decodeField parseSub wire t data = .ok (v, rest)) :
    ∃ used, data = used ++ rest ∧ decodeField parseSub wire t used = .ok (v, []) := by
  rw [decodeField_eq_ok] at h
  simp only [decodeField_eq_ok]
  cases h with
  | varint hread =>
      obtain ⟨used, hdata, hused⟩ := decodeVarint_split hread
      exact ⟨used, hdata, .varint hused⟩
  | fixed64 hlen =>
      have halone : Decodes parseSub t (data.take 8) 1 (fixed64Value t ((data.take 8).take 8))
          ((data.take 8).drop 8) := .fixed64 (by simp; omega)
      exact ⟨data.take 8, (List.take_append_drop 8 data).symm, by
        simpa [List.take_take] using halone⟩
  | @message c len r inner ht hread hle hsub =>
      obtain ⟨used, rfl, hused⟩ := decodeVarint_split hread
      have halone : Decodes parseSub t (used ++ r.take len) 2 inner.toVal ((r.take len).drop len) :=
        .message ht (decodeVarint_append hused (r.take len)) (by simp; omega)
          (by simpa [List.take_take] using hsub)
      exact ⟨used ++ r.take len, by simp, by simpa using halone⟩
  | @text len r ht hread hle =>
      obtain ⟨used, rfl, hused⟩ := decodeVarint_split hread
      have halone : Decodes parseSub t (used ++ r.take len) 2 (.str ((r.take len).take len))
          ((r.take len).drop len) :=
        .text ht (decodeVarint_append hused (r.take len)) (by simp; omega)
      exact ⟨used ++ r.take len, by simp, by simpa [List.take_take] using halone⟩
  | fixed32 hlen =>
      have halone : Decodes parseSub t (data.take 4) 5 (fixed32Value t ((data.take 4).take 4))
          ((data.take 4).drop 4) := .fixed32 (by simp; omega)
      exact ⟨data.take 4, (List.take_append_drop 4 data).symm, by
        simpa [List.take_take] using halone⟩
  | other h0 h1 h2 h5 => exact ⟨[], rfl, .other h0 h1 h2 h5⟩

theorem parseStep_split {data rest : PerlStr} {m m' : Msg}
    (h : parseStep S parseSub data m = .ok (m', rest)) :
    ∃ used, data = used ++ rest ∧ parseStep S parseSub used m = .ok (m', []) := by
  obtain ⟨tagWire, afterTag, hread, hcase⟩ := parseStep_cases h
  obtain ⟨tag, rfl, htag⟩ := decodeVarint_split hread
  rcases hcase with ⟨hfind, hskip, rfl⟩ | ⟨f, v, hfind, hdec, hstore⟩
  · obtain ⟨payload, rfl, hpayload⟩ := skipField_split hskip
    refine ⟨tag ++ payload, by simp, ?_⟩
    rw [← List.append_assoc, take_length_sub]
    have hskip' : skipField ([] ++ payload) (tagWire &&& 7) = .ok [] := by simpa using hpayload
    rw [parseStep_unknown parseSub (decodeVarint_append htag payload) hfind hskip']
    rw [List.length_nil, Nat.sub_zero, List.take_length]
  · obtain ⟨payload, rfl, hpayload⟩ := decodeField_split hdec
    refine ⟨tag ++ payload, by simp, ?_⟩
    exact parseStep_known (decodeVarint_append htag payload) hfind (by simpa using hpayload) hstore

/-! ### The frame of a descriptor -/

/-- Two messages that a parser of fields outside `d` cannot tell apart. -/
structure AgreeOutside (d : MessageDef) (m₁ m₂ : Msg) : Prop where
  cls : m₁.cls = m₂.cls
  unknown : m₁.unknown = m₂.unknown
  fields : ∀ name, d.findFieldByName name = none →
    Assoc.find m₁.fields name = Assoc.find m₂.fields name

/-- The fields of `d` are the same in both messages. -/
def AgreeInside (d : MessageDef) (m₁ m₂ : Msg) : Prop :=
  ∀ name, d.findFieldByName name ≠ none → Assoc.find m₁.fields name = Assoc.find m₂.fields name

theorem parseStep_outside {d : MessageDef} {data afterTag rest rest' : PerlStr} {tagWire : ℕ}
    {m₀ m₀' m₁ : Msg} (hsub : ∀ f ∈ d.fields, f ∈ (S.descriptor m₀.cls).fields)
    (hread : decodeVarint data = .ok (tagWire, afterTag))
    (hnew : d.findFieldByNumber (tagWire >>> 3) = none)
    (hskip : skipField afterTag (tagWire &&& 7) = .ok rest)
    (h : parseStep S parseSub data m₀ = .ok (m₀', rest')) (hag : AgreeOutside d m₁ m₀) :
    rest' = rest ∧ ∃ m₁', parseStep S parseSub data m₁ = .ok (m₁', rest) ∧
      AgreeOutside d m₁' m₀' ∧ AgreeInside d m₁' m₁ := by
  obtain ⟨tagWire', afterTag', hread', hcase⟩ := parseStep_cases h
  obtain ⟨rfl, rfl⟩ := Prod.mk.inj (Except.ok.inj (hread.symm.trans hread'))
  have hcls : S.descriptor m₁.cls = S.descriptor m₀.cls := by rw [hag.cls]
  rcases hcase with ⟨hfind, hskip', rfl⟩ | ⟨f, v, hfind, hdec, hstore⟩
  · obtain rfl := Except.ok.inj (hskip.symm.trans hskip')
    refine ⟨rfl, _, parseStep_unknown parseSub hread (hcls ▸ hfind) hskip, ?_, fun _ _ => rfl⟩
    exact ⟨hag.cls, by simp [Msg.keepUnknown, hag.unknown], hag.fields⟩
  · obtain rfl : rest' = rest :=
      Except.ok.inj ((decodeField_skip hdec (skipField_wire hskip)).symm.trans hskip)
    obtain ⟨x, hx, rfl⟩ := map_eq_ok.mp hstore
    obtain ⟨hfmem, hfnum⟩ := MessageDef.findFieldByNumber_eq_some.mp hfind
    -- a field of `d` with the same name would be the same field, with a number `d` has
    have hname : d.findFieldByName f.name = none := by
      rw [MessageDef.findFieldByName_eq_none]
      intro g hg hgname
      have hgf := MessageDef.eq_of_name_eq (hsub g hg) hfmem hgname
      exact MessageDef.findFieldByNumber_eq_none.mp hnew g hg (hgf ▸ hfnum)
    have hstore₁ : storeField S f v m₁ = .ok (m₁.put f.name x) := by
      rw [storeField, hag.fields f.name hname, hx]
      rfl
    refine ⟨rfl, _, parseStep_known hread (hcls ▸ hfind) hdec hstore₁, ?_, ?_⟩
    · refine ⟨hag.cls, hag.unknown, ?_⟩
      intro name hn
      simp only [Msg.put_fields, Assoc.find_store, hag.fields name hn]
    · intro name hn
      have hne : name ≠ f.name := by
        rintro rfl
        exact hn hname
      simp [Assoc.find_store, hne]

/-- What a parser does with fields that `d` does not have depends only on what
is outside `d`, and leaves the fields of `d` alone. -/
theorem parseInto_outside {d : MessageDef} {u : PerlStr} (hu : UnknownFields d u) {m₀ m₀' m₁ : Msg}
    (hsub : ∀ f ∈ d.fields, f ∈ (S.descriptor m₀.cls).fields) (h : parseInto S u m₀ = .ok m₀')
    (hag : AgreeOutside d m₁ m₀) :
    ∃ m₁', parseInto S u m₁ = .ok m₁' ∧ AgreeOutside d m₁' m₀' ∧ AgreeInside d m₁' m₁ := by
  induction hu generalizing m₀ m₁ with
  | nil =>
      rw [parseInto_nil] at h
      obtain rfl := Except.ok.inj h
      exact ⟨m₁, parseInto_nil m₁, hag, fun _ _ => rfl⟩
  | @cons data afterTag rest tagWire hread hfind hskip _ ih =>
      have hne : data ≠ [] := by
        rintro rfl
        cases hread
      rw [parseInto_cons m₀ hne] at h
      split at h
      · cases h
      · rename_i m₀₁ rest' hstep
        obtain ⟨rfl, m₁₁, hstep₁, hag₁, hin₁⟩ :=
          parseStep_outside hsub hread hfind hskip hstep hag
        have hsub₁ : ∀ f ∈ d.fields, f ∈ (S.descriptor m₀₁.cls).fields := by
          rw [parseStep_cls hstep]
          exact hsub
        obtain ⟨m₁', hm₁', hag', hin'⟩ := ih hsub₁ h hag₁
        refine ⟨m₁', (parseInto_step hstep₁).trans hm₁', hag', ?_⟩
        intro name hn
        rw [hin' name hn, hin₁ name hn]

end GooglePerl.Protobuf
