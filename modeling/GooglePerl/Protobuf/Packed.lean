import GooglePerl.Protobuf.Reread

/-!
Packed and unpacked encodings of a repeated scalar field.

A list of values is split into runs, and each run is written either element by
element or as one length-delimited chunk. `_decode_field` looks at the declared
type of a chunk only to find messages, so the parser pushes the chunk itself.
-/

namespace GooglePerl.Protobuf

open GooglePerl.Lib

/-- Consecutive values of a repeated field, and how they are written. -/
structure Run where
  packed : Bool
  values : List Val

/-- The payload of one element. -/
def elementBytes (t : FieldType) (v : Val) : PerlStr :=
  match encodeScalar t v with
  | .ok p => p
  | .error _ => []

/-- The payloads of the values, one after the other. -/
def Run.chunk (f : FieldDef) (r : Run) : PerlStr := (r.values.map (elementBytes f.type)).flatten

def Run.bytes (f : FieldDef) (r : Run) : PerlStr :=
  if r.packed then tagBytes f.number 2 ++ (leb128 (r.chunk f).length ++ r.chunk f)
  else (r.values.map fun v => tagBytes f.number f.type.wire ++ elementBytes f.type v).flatten

def runsBytes (f : FieldDef) (runs : List Run) : PerlStr := (runs.map (Run.bytes f)).flatten

def runsValues (runs : List Run) : List Val := (runs.map Run.values).flatten

/-- The legal elements of a numeric, bool or enum field. -/
def LegalElement (t : FieldType) (v : Val) : Prop :=
  (∃ n, t.inRange n ∧ v.IsNum n) ∨
    ∃ p, v = .nv p ∧ ((t = .double ∧ p.length = 8) ∨ (t = .float ∧ p.length = 4))

/-- Not a negative enum number. -/
def NonnegEnum (t : FieldType) (v : Val) : Prop := ∀ e n, t = .enum e → v.IsNum n → 0 ≤ n

theorem elementBytes_of_ok {t : FieldType} {v : Val} {p : PerlStr} (h : encodeScalar t v = .ok p) :
    elementBytes t v = p := by
  simp [elementBytes, h]

/-- One element through the wire. Only a negative enum number changes. -/
theorem element_read {t : FieldType} {v : Val} (h : LegalElement t v) :
    ∃ w : Val, (∀ parseSub rest,
        decodeField parseSub t.wire t (elementBytes t v ++ rest) = .ok (w, rest)) ∧
      (∀ s, w ≠ .str s) ∧ (w.content = v.content ↔ NonnegEnum t v) := by
  rcases h with ⟨n, hrange, hv⟩ | ⟨p, rfl, ht⟩
  · by_cases henum : ∀ e, t = .enum e → 0 ≤ n
    · obtain ⟨p, w, henc, hw, hdec⟩ :=
        encodeScalar_int (FieldType.rereads_of_inRange hrange henum) hv.bigInt
      refine ⟨w, by rwa [elementBytes_of_ok henc], ?_, ?_⟩
      · intro s hs
        rcases hw with rfl | rfl <;> cases hs
      · refine iff_of_true (by rw [hw.content, hv.content]) ?_
        intro e n' ht hn'
        rw [← hv.inj hn']
        exact henum e ht
    · push Not at henum
      obtain ⟨e, rfl, hneg⟩ := henum
      have hlo : -2 ^ 31 ≤ n := hrange.1
      have henc : encodeScalar (.enum e) v = .ok (leb128 (varintOf n)) := by
        simp [encodeScalar, hv.bigInt, varintNumber, encodeVarint_some (v := n) (by omega)]
      have hraw : (varintOf n : ℤ) = 18446744073709551616 + n := by
        simp only [varintOf, hneg, if_true]
        omega
      refine ⟨.big (varintOf n), ?_, by simp, ?_⟩
      · intro parseSub rest
        rw [elementBytes_of_ok henc]
        exact decodeField_varint (by omega) _ rest
      · refine iff_of_false ?_ ?_
        · rw [hv.content, content_big, hraw]
          simp
        · intro hnonneg
          have hge := hnonneg e n rfl hv
          omega
  · obtain ⟨henc, hdec⟩ := encodeScalar_float ht
    refine ⟨.nv p, by rwa [elementBytes_of_ok henc], by simp, iff_of_true rfl ?_⟩
    rintro e n rfl
    simp at ht

/-! ### The parser on runs -/

section

variable {S : Pool} {f : FieldDef}

/-- An element, or a chunk, pushed on what the field holds. -/
theorem storeField_push (hshape : f.shape S = .repeated) {m : Msg} {ys : List Val}
    (hfound : Assoc.find m.fields f.name = itemsFound ys) (w : Val) :
    storeField S f w m = .ok (m.put f.name (.arr .blessed (ys ++ [w]))) := by
  simp [storeField, storedValue, hshape, hfound, storeItem_itemsFound, Except.map]

theorem find_push (m : Msg) (name : PerlStr) (ys : List Val) (w : Val) :
    Assoc.find (m.put name (.arr .blessed (ys ++ [w]))).fields name = itemsFound (ys ++ [w]) := by
  rw [Msg.put_fields, Assoc.find_store_self, itemsFound_append_singleton]

/-- An unpacked run pushes its elements. -/
theorem parseInto_unpacked (hshape : f.shape S = .repeated) {vs : List Val}
    (hlegal : ∀ v ∈ vs, LegalElement f.type v) {m : Msg} {ys : List Val}
    (hf : f ∈ (S.descriptor m.cls).fields) (hfound : Assoc.find m.fields f.name = itemsFound ys) :
    ∃ m' ws, (∀ rest, parseInto S
        ((vs.map fun v => tagBytes f.number f.type.wire ++ elementBytes f.type v).flatten ++ rest)
        m =
          parseInto S rest m') ∧
      m'.cls = m.cls ∧ Assoc.find m'.fields f.name = itemsFound (ys ++ ws) ∧
      List.Forall₂ (fun w v => (∀ s, w ≠ .str s) ∧
        (w.content = v.content ↔ NonnegEnum f.type v)) ws vs := by
  induction vs generalizing m ys with
  | nil => exact ⟨m, [], fun rest => rfl, rfl, by simpa using hfound, .nil⟩
  | cons v vs ih =>
      obtain ⟨w, hdec, hw⟩ := element_read (hlegal v List.mem_cons_self)
      obtain ⟨m', ws, hrun, hcls, hfound', hws⟩ := ih
        (fun u hu => hlegal u (List.mem_cons_of_mem _ hu))
        (m := m.put f.name (.arr .blessed (ys ++ [w]))) hf (find_push m f.name ys w)
      refine ⟨m', w :: ws, ?_, hcls, by simpa using hfound', .cons hw hws⟩
      intro rest
      rw [List.map_cons, List.flatten_cons, List.append_assoc,
        parseInto_tagged hf (hdec (parse S) _) (storeField_push hshape hfound w), hrun]

/-- A packed run pushes one string. -/
theorem parseInto_packed (hshape : f.shape S = .repeated) (hnum : f.type.wire ≠ 2)
    {chunk : PerlStr} (hfits : Fits chunk) {m : Msg} {ys : List Val}
    (hf : f ∈ (S.descriptor m.cls).fields) (hfound : Assoc.find m.fields f.name = itemsFound ys)
    (rest : PerlStr) :
    parseInto S (tagBytes f.number 2 ++ (leb128 chunk.length ++ chunk) ++ rest) m =
      parseInto S rest (m.put f.name (.arr .blessed (ys ++ [.str chunk]))) := by
  have hmessage : ∀ c, f.type ≠ .message c := by
    intro c hc
    rw [hc] at hnum
    exact hnum rfl
  exact parseInto_tagged_wire (by decide) hf (decodeField_text hmessage hfits.lt rest)
    (storeField_push hshape hfound _)

/-- All runs: what the field holds, and how it compares with the values. -/
theorem parseInto_runs (hshape : f.shape S = .repeated) (hnum : f.type.wire ≠ 2)
    {runs : List Run} (hlegal : ∀ r ∈ runs, ∀ v ∈ r.values, LegalElement f.type v)
    (hfits : Fits (runsBytes f runs)) {m : Msg} {ys : List Val}
    (hf : f ∈ (S.descriptor m.cls).fields) (hfound : Assoc.find m.fields f.name = itemsFound ys) :
    ∃ m' ws, parseInto S (runsBytes f runs) m = .ok m' ∧
      Assoc.find m'.fields f.name = itemsFound (ys ++ ws) ∧
      ((∃ r ∈ runs, r.packed = true) → ∃ s, Val.str s ∈ ws) ∧
      ((∀ r ∈ runs, r.packed = false) →
        List.Forall₂ (fun w v => (∀ s, w ≠ .str s) ∧
          (w.content = v.content ↔ NonnegEnum f.type v)) ws (runsValues runs)) := by
  induction runs generalizing m ys with
  | nil => exact ⟨m, [], parseInto_nil m, by simpa using hfound, by simp, fun _ => .nil⟩
  | cons r runs ih =>
      have hbytes : runsBytes f (r :: runs) = r.bytes f ++ runsBytes f runs := rfl
      rw [hbytes] at hfits ⊢
      have hlegal' : ∀ q ∈ runs, ∀ v ∈ q.values, LegalElement f.type v := fun q hq =>
        hlegal q (List.mem_cons_of_mem _ hq)
      cases hpacked : r.packed with
      | true =>
          -- a packed chunk is stored as one string, which is the value of no number
          have hr : r.bytes f =
              tagBytes f.number 2 ++ (leb128 (r.chunk f).length ++ r.chunk f) := by
            simp [Run.bytes, hpacked]
          rw [hr] at hfits ⊢
          obtain ⟨m', ws, hrun, hfound', -, -⟩ := ih hlegal' hfits.of_append_right
            (m := m.put f.name (.arr .blessed (ys ++ [.str (r.chunk f)]))) hf
            (find_push m f.name ys _)
          refine ⟨m', .str (r.chunk f) :: ws, ?_, by simpa using hfound', ?_, ?_⟩
          · rw [parseInto_packed hshape hnum hfits.of_append_left.of_append_right.of_append_right hf
              hfound, hrun]
          · exact fun _ => ⟨r.chunk f, List.mem_cons_self⟩
          · intro hall
            have hno := hall r List.mem_cons_self
            rw [hpacked] at hno
            cases hno
      | false =>
          -- elements on their own are read one by one
          obtain ⟨m₁, ws₁, hrun₁, hcls₁, hfound₁, hws₁⟩ :=
            parseInto_unpacked hshape (hlegal r List.mem_cons_self) hf hfound
          obtain ⟨m', ws, hrun, hfound', hsome, hnone⟩ := ih hlegal' hfits.of_append_right
            (hcls₁ ▸ hf) hfound₁
          refine ⟨m', ws₁ ++ ws, ?_, by simpa using hfound', ?_, ?_⟩
          · have hr : r.bytes f =
                (r.values.map fun v =>
                  tagBytes f.number f.type.wire ++ elementBytes f.type v).flatten := by
              simp [Run.bytes, hpacked]
            rw [hr, hrun₁, hrun]
          · rintro ⟨q, hq, hqpacked⟩
            rcases List.mem_cons.mp hq with rfl | hq
            · rw [hpacked] at hqpacked
              cases hqpacked
            · obtain ⟨s, hs⟩ := hsome ⟨q, hq, hqpacked⟩
              exact ⟨s, List.mem_append_right _ hs⟩
          · intro hall
            have hrest := hnone fun q hq => hall q (List.mem_cons_of_mem _ hq)
            simpa [runsValues] using List.rel_append hws₁ hrest

end

/-! ### When the list comes out -/

/-- Parsing the runs stores exactly the values, in order. -/
def StoresRuns (S : Pool) (cls : String) (f : FieldDef) (runs : List Run) : Prop :=
  ∃ m, parse S cls (runsBytes f runs) = .ok m ∧
    fieldContent m.fields f.name = (Val.arr .blessed (runsValues runs)).setContent

theorem LegalElement.content_ne_str {t : FieldType} {v : Val} (h : LegalElement t v)
    (s : PerlStr) : v.content ≠ .str s := by
  rcases h with ⟨n, -, hv⟩ | ⟨p, rfl, -⟩
  · rw [hv.content]
    simp
  · simp

/-- If each pair agrees exactly when `Q` holds, the lists agree exactly when it
holds throughout. -/
theorem map_content_eq_iff {Q : Val → Prop} {R : Val → Prop} {ws vs : List Val}
    (h : List.Forall₂ (fun w v => R w ∧ (w.content = v.content ↔ Q v)) ws vs) :
    ws.map Val.content = vs.map Val.content ↔ ∀ v ∈ vs, Q v := by
  induction h with
  | nil => simp
  | cons hw _ ih => simp [hw.2, ih]

theorem storesRuns_iff {S : Pool} {cls : String} {f : FieldDef} {runs : List Run}
    (hf : f ∈ (S.descriptor cls).fields) (hrep : f.label = .repeated) (hnum : f.type.wire ≠ 2)
    (hlegal : ∀ r ∈ runs, ∀ v ∈ r.values, LegalElement f.type v)
    (hfits : Fits (runsBytes f runs)) :
    StoresRuns S cls f runs ↔
      (∀ r ∈ runs, r.packed = false) ∧ ∀ r ∈ runs, ∀ v ∈ r.values, NonnegEnum f.type v := by
  have hshape : f.shape S = .repeated := by
    unfold FieldDef.shape
    cases htype : f.type with
    | message c => exact absurd (by rw [htype]; rfl) hnum
    | _ => simp [hrep]
  have hvalues : ∀ v, v ∈ runsValues runs ↔ ∃ r ∈ runs, v ∈ r.values := by
    simp [runsValues]
  obtain ⟨m, ws, hrun, hfound, hpacked, hunpacked⟩ :=
    @parseInto_runs S f hshape hnum runs hlegal hfits (.create cls) [] hf rfl
  have hparse : parse S cls (runsBytes f runs) = .ok m := parse_eq_ok.mpr hrun
  have hstores : StoresRuns S cls f runs ↔
      ws.map Val.content = (runsValues runs).map Val.content := by
    rw [← setContent_arr_inj .blessed .blessed, ← setContent_itemsFound]
    constructor
    · rintro ⟨m', hm', hcontent⟩
      obtain rfl := Except.ok.inj (hparse.symm.trans hm')
      rw [fieldContent_eq, hfound] at hcontent
      exact hcontent
    · intro hcontent
      refine ⟨m, hparse, ?_⟩
      rw [fieldContent_eq, hfound]
      exact hcontent
  rw [hstores]
  constructor
  · intro hcontent
    -- what is stored of a packed run is one string, which is no legal element
    have hnone : ∀ r ∈ runs, r.packed = false := by
      intro r hr
      by_contra hp
      obtain ⟨s, hs⟩ := hpacked ⟨r, hr, by simpa using hp⟩
      have hmem : Content.str s ∈ (runsValues runs).map Val.content := by
        rw [← hcontent]
        exact List.mem_map.mpr ⟨_, hs, content_str s⟩
      obtain ⟨v, hv, hvs⟩ := List.mem_map.mp hmem
      obtain ⟨q, hq, hvq⟩ := (hvalues v).mp hv
      exact (hlegal q hq v hvq).content_ne_str s hvs
    refine ⟨hnone, fun r hr v hv => ?_⟩
    exact (map_content_eq_iff (hunpacked hnone)).mp hcontent v ((hvalues v).mpr ⟨r, hr, hv⟩)
  · rintro ⟨hnone, hnonneg⟩
    refine (map_content_eq_iff (hunpacked hnone)).mpr fun v hv => ?_
    obtain ⟨r, hr, hvr⟩ := (hvalues v).mp hv
    exact hnonneg r hr v hvr

/-- A message type with a repeated int32 field. -/
def listPool : Pool where
  descriptor _ := { fields := [⟨ps "ids", 4, .int32, .repeated⟩] }

def idsField : FieldDef := ⟨ps "ids", 4, .int32, .repeated⟩

theorem legal_ids (n : ℤ) (hlo : -2 ^ 31 ≤ n) (hhi : n < 2 ^ 31) :
    LegalElement idsField.type (.iv n) :=
  .inl ⟨n, ⟨hlo, hhi⟩, .inl rfl⟩

theorem storesRuns_unpacked :
    StoresRuns listPool "List" idsField [⟨false, [.iv 3, .iv (-1)]⟩, ⟨false, [.iv 5]⟩] ↔
      (∀ r ∈ ([⟨false, [.iv 3, .iv (-1)]⟩, ⟨false, [.iv 5]⟩] : List Run), r.packed = false) ∧
      ∀ r ∈ ([⟨false, [.iv 3, .iv (-1)]⟩, ⟨false, [.iv 5]⟩] : List Run), ∀ v ∈ r.values,
        NonnegEnum idsField.type v := by
  refine storesRuns_iff (List.mem_singleton.mpr rfl) rfl (by decide) ?_
    (by unfold Fits; decide +kernel)
  intro r hr v hv
  rcases List.mem_pair.mp hr with rfl | rfl
  · rcases List.mem_pair.mp hv with rfl | rfl
    · exact legal_ids 3 (by decide) (by decide)
    · exact legal_ids (-1) (by decide) (by decide)
  · obtain rfl := List.mem_singleton.mp hv
    exact legal_ids 5 (by decide) (by decide)

/-- The packed list 3, 270 is stored as one string of three octets. -/
theorem storesRuns_packed_fails :
    parse listPool "List" [34, 3, 3, 142, 2] =
        .ok ⟨"List", [(ps "ids", .arr .blessed [.str [3, 142, 2]])], none⟩ ∧
      runsBytes idsField [⟨true, [.iv 3, .iv 270]⟩] = [34, 3, 3, 142, 2] ∧
      ¬ StoresRuns listPool "List" idsField [⟨true, [.iv 3, .iv 270]⟩] := by
  have hparse : parse listPool "List" [34, 3, 3, 142, 2] =
      .ok ⟨"List", [(ps "ids", .arr .blessed [.str [3, 142, 2]])], none⟩ := rfl
  have hbytes : runsBytes idsField [⟨true, [.iv 3, .iv 270]⟩] = [34, 3, 3, 142, 2] := by
    decide +kernel
  refine ⟨hparse, hbytes, ?_⟩
  rintro ⟨m, hm, hcontent⟩
  rw [hbytes] at hm
  obtain rfl := Except.ok.inj (hparse.symm.trans hm)
  simp [fieldContent_eq, idsField, Assoc.find_cons, Val.setContent, Val.isEmptyContainer,
    runsValues] at hcontent

end GooglePerl.Protobuf
