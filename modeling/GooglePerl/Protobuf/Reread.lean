import GooglePerl.Protobuf.Scalars
import GooglePerl.Protobuf.UnknownFields

/-!
Values and fields read back from what was written.

A program with the descriptors of `S` writes, a program with those of `S'`
reads. `Reread` is about one payload and `FieldReread` about all of a field;
the second is derived from the first for each of the three shapes, following
the loops of `serialize` and `parse_into`.
-/

namespace GooglePerl.Protobuf

open GooglePerl.Lib

/-- The map keys that survive being written and read. -/
def FieldType.KeyRereads (t : FieldType) (k : PerlStr) : Prop :=
  t = .string ∨ ∃ n, t.rereads n ∧ k = decimalText n

/-! ### Tags -/

def tagBytes (number wire : ℕ) : PerlStr := leb128 (number * 8 + wire)

theorem FieldType.wire_lt (t : FieldType) : t.wire < 8 := by
  cases t <;> simp [wire]

theorem tagged_eq {number wire : ℕ} (h : wire < 8) (payload : Except Die PerlStr) :
    tagged number wire payload = payload.map (tagBytes number wire ++ ·) := by
  have htag : (number <<< 3) ||| wire = number * 8 + wire := by
    rw [Nat.shiftLeft_eq, Nat.mul_comm, ← Nat.two_pow_add_eq_or_of_lt h]
  rw [tagged, htag, encodeVarint_nat, ok_bind, tagBytes]
  cases payload <;> rfl

section

variable {S : Pool}

/-- One turn of the loop on a field with any wire type. -/
theorem parseInto_tagged_wire {f : FieldDef} {m m' : Msg} {p rest : PerlStr} {w : Val} {wire : ℕ}
    (hwire : wire < 8) (hf : f ∈ (S.descriptor m.cls).fields)
    (hdec : decodeField (parse S) wire f.type (p ++ rest) = .ok (w, rest))
    (hstore : storeField S f w m = .ok m') :
    parseInto S (tagBytes f.number wire ++ p ++ rest) m = parseInto S rest m' := by
  have hnum := (S.descriptor m.cls).number_lt f hf
  have hread : decodeVarint (tagBytes f.number wire ++ p ++ rest) =
      .ok (f.number * 8 + wire, p ++ rest) := by
    rw [List.append_assoc]
    exact decodeVarint_leb128 (by omega) _
  have hnumber : (f.number * 8 + wire) >>> 3 = f.number := by
    rw [Nat.shiftRight_eq_div_pow]
    omega
  have hwireOf : (f.number * 8 + wire) &&& 7 = wire := by
    rw [show 7 = 2 ^ 3 - 1 from rfl, Nat.and_two_pow_sub_one_eq_mod]
    omega
  refine parseInto_step (parseStep_known hread ?_ ?_ hstore)
  · rw [hnumber]
    exact MessageDef.findFieldByNumber_eq_some.mpr ⟨hf, rfl⟩
  · rw [hwireOf]
    exact hdec

theorem parseInto_tagged {f : FieldDef} {m m' : Msg} {p rest : PerlStr} {w : Val}
    (hf : f ∈ (S.descriptor m.cls).fields)
    (hdec : decodeField (parse S) f.type.wire f.type (p ++ rest) = .ok (w, rest))
    (hstore : storeField S f w m = .ok m') :
    parseInto S (tagBytes f.number f.type.wire ++ p ++ rest) m = parseInto S rest m' :=
  parseInto_tagged_wire f.type.wire_lt hf hdec hstore

end

/-- `m'` differs from `m` in one field at most. -/
structure SameBut (name : PerlStr) (m m' : Msg) : Prop where
  cls : m'.cls = m.cls
  unknown : m'.unknown = m.unknown
  fields : ∀ n, n ≠ name → Assoc.find m'.fields n = Assoc.find m.fields n

theorem SameBut.refl (name : PerlStr) (m : Msg) : SameBut name m m := ⟨rfl, rfl, fun _ _ => rfl⟩

theorem SameBut.trans {name : PerlStr} {m₁ m₂ m₃ : Msg} (h : SameBut name m₁ m₂)
    (h' : SameBut name m₂ m₃) : SameBut name m₁ m₃ :=
  ⟨h'.cls.trans h.cls, h'.unknown.trans h.unknown,
    fun n hn => (h'.fields n hn).trans (h.fields n hn)⟩

theorem SameBut.put (name : PerlStr) (m : Msg) (v : Val) : SameBut name m (m.put name v) :=
  ⟨rfl, rfl, fun _ hn => Assoc.find_store_of_ne m.fields v hn⟩

/-! ### Single values -/

/-- Perl counts the characters of a string in 64 bits. -/
def Fits (s : PerlStr) : Prop := s.length < 2 ^ 64

theorem Fits.of_append_left {a b : PerlStr} (h : Fits (a ++ b)) : Fits a := by
  unfold Fits at *
  simp only [List.length_append] at h
  omega

theorem Fits.of_append_right {a b : PerlStr} (h : Fits (a ++ b)) : Fits b := by
  unfold Fits at *
  simp only [List.length_append] at h
  omega

theorem Fits.lt {s : PerlStr} (h : Fits s) : s.length < 2 ^ 70 := by
  unfold Fits at h
  omega

/-- Written as a payload of type `t` by `S`, `v` is read by `S'` with the content
of `v'`. -/
def Reread (S S' : Pool) (t : FieldType) (v v' : Val) : Prop :=
  ∃ p, encodePayload S t v = .ok p ∧ (Fits p → ∃ w, w.content = v'.content ∧
    ∀ rest, decodeField (parse S') t.wire t (p ++ rest) = .ok (w, rest))

theorem Val.IsNum.encodePayload {n : ℤ} {v : Val} (h : v.IsNum n) (S : Pool) (t : FieldType) :
    Protobuf.encodePayload S t v = encodeScalar t v := by
  rcases h with rfl | rfl <;> rw [Protobuf.encodePayload] <;> simp

variable {S S' : Pool}

theorem reread_int {t : FieldType} {n : ℤ} {v v' : Val} (h : t.rereads n) (hv : v.IsNum n)
    (hv' : v'.IsNum n) : Reread S S' t v v' := by
  obtain ⟨p, w, henc, hw, hdec⟩ := encodeScalar_int h hv.bigInt
  refine ⟨p, by rw [hv.encodePayload, henc], fun _ => ⟨w, ?_, hdec (parse S')⟩⟩
  rw [hw.content, hv'.content]

theorem reread_float {t : FieldType} {p : PerlStr}
    (h : (t = .double ∧ p.length = 8) ∨ (t = .float ∧ p.length = 4)) :
    Reread S S' t (.nv p) (.nv p) := by
  obtain ⟨henc, hdec⟩ := encodeScalar_float h
  refine ⟨p, ?_, fun _ => ⟨.nv p, rfl, hdec (parse S')⟩⟩
  rw [encodePayload]
  · exact henc
  · simp

/-- A string, as a value or as a key. -/
theorem encodeScalar_str {t : FieldType} (h : t = .string ∨ t = .bytes) (s : PerlStr) :
    ∃ p, encodeScalar t (.str s) = .ok p ∧ (Fits p →
      ∀ parseSub rest, decodeField parseSub t.wire t (p ++ rest) = .ok (.str s, rest)) := by
  refine ⟨leb128 s.length ++ s, ?_, ?_⟩
  · rcases h with rfl | rfl <;> simp [encodeScalar, Val.stringify, lengthPrefixed_eq]
  · intro hfits
    exact (encodeScalar_text (v := .str s) h rfl hfits.of_append_right.lt).2

theorem reread_text {t : FieldType} {s : PerlStr} (h : t = .string ∨ t = .bytes) :
    Reread S S' t (.str s) (.str s) := by
  obtain ⟨p, henc, hdec⟩ := encodeScalar_str h s
  refine ⟨p, ?_, fun hfits => ⟨.str s, rfl, hdec hfits (parse S')⟩⟩
  rw [encodePayload]
  · exact henc
  · simp

/-- A map key, which is a string at both ends whatever its declared type. -/
theorem keyReread {t : FieldType} {k : PerlStr} (h : t.KeyRereads k) :
    ∃ p, encodeScalar t (.str k) = .ok p ∧ (Fits p → ∃ w, w.stringify = .ok k ∧
      ∀ parseSub rest, decodeField parseSub t.wire t (p ++ rest) = .ok (w, rest)) := by
  rcases h with rfl | ⟨n, hn, rfl⟩
  · obtain ⟨p, henc, hdec⟩ := encodeScalar_str (.inl rfl) k
    exact ⟨p, henc, fun hfits => ⟨.str k, rfl, hdec hfits⟩⟩
  · obtain ⟨p, w, henc, hw, hdec⟩ := encodeScalar_int (v := .str (decimalText n)) hn (by
      simp [Val.bigInt, readDecimal_decimalText])
    exact ⟨p, henc, fun _ => ⟨w, hw.stringify, hdec⟩⟩

/-! ### Fields -/

/-- Written as field `f` by `S`, `v` makes `S'` set the field to `c` and change
nothing else. -/
def FieldReread (S S' : Pool) (f : FieldDef) (v : Val) (c : Option Content) : Prop :=
  ∃ p, serializeField S f v = .ok p ∧ (Fits p → ∀ m : Msg, f ∈ (S'.descriptor m.cls).fields →
    Assoc.find m.fields f.name = none →
    ∃ m', (∀ rest, parseInto S' (p ++ rest) m = parseInto S' rest m') ∧ SameBut f.name m m' ∧
      fieldContent m'.fields f.name = c)

theorem serializeField_singular {f : FieldDef} {v : Val} (hshape : f.shape S = .singular)
    (hv : v ≠ .undef) :
    serializeField S f v = tagged f.number f.type.wire (encodePayload S f.type v) := by
  cases v with
  | undef => exact absurd rfl hv
  | _ => simp [serializeField, hshape]

theorem storeField_singular {f : FieldDef} (hshape : f.shape S = .singular) (w : Val) (m : Msg) :
    storeField S f w m = .ok (m.put f.name w) := by
  simp [storeField, storedValue, hshape, Except.map]

theorem fieldReread_singular {f : FieldDef} {v v' : Val} (hS : f.shape S = .singular)
    (hS' : f.shape S' = .singular) (hv : v ≠ .undef) (h : Reread S S' f.type v v') :
    FieldReread S S' f v v'.setContent := by
  obtain ⟨p, henc, hread⟩ := h
  refine ⟨tagBytes f.number f.type.wire ++ p, ?_, ?_⟩
  · rw [serializeField_singular hS hv, tagged_eq f.type.wire_lt, henc]
    rfl
  · intro hfits m hf _
    obtain ⟨w, hcontent, hdec⟩ := hread hfits.of_append_right
    refine ⟨m.put f.name w, ?_, SameBut.put f.name m w, ?_⟩
    · intro rest
      exact parseInto_tagged hf (hdec rest) (storeField_singular hS' w m)
    · rw [fieldContent_eq, Msg.put_fields, Assoc.find_store_self]
      exact setContent_congr hcontent

/-- What the parser has stored for a repeated field after the items `ys`. -/
def itemsFound : List Val → Option Val
  | [] => none
  | y :: ys => some (.arr .blessed (y :: ys))

theorem storeItem_itemsFound (S : Pool) (f : FieldDef) (w : Val) (ys : List Val) :
    storeItem S f w (itemsFound ys) = .ok (.arr .blessed (ys ++ [w])) := by
  cases ys <;> rfl

theorem itemsFound_append_singleton (ys : List Val) (w : Val) :
    itemsFound (ys ++ [w]) = some (.arr .blessed (ys ++ [w])) := by
  cases ys <;> rfl

/-- The loop over the items, from a field that holds `ys` already. -/
theorem encodeItems_reread {f : FieldDef} (hshape : f.shape S' = .repeated) {xs xs' : List Val}
    (hlen : xs.length = xs'.length)
    (h : ∀ x x', (x, x') ∈ xs.zip xs' → Reread S S' f.type x x') :
    ∃ p, encodeItems S f.number f.type xs = .ok p ∧ (Fits p →
      ∀ (m : Msg) (ys : List Val), f ∈ (S'.descriptor m.cls).fields →
        Assoc.find m.fields f.name = itemsFound ys →
        ∃ m' ws, (∀ rest, parseInto S' (p ++ rest) m = parseInto S' rest m') ∧
          SameBut f.name m m' ∧ Assoc.find m'.fields f.name = itemsFound (ys ++ ws) ∧
          ws.map Val.content = xs'.map Val.content) := by
  induction xs generalizing xs' with
  | nil =>
      obtain rfl := List.length_eq_zero_iff.mp hlen.symm
      refine ⟨[], by rw [encodeItems], ?_⟩
      intro _ m ys _ hfound
      exact ⟨m, [], fun rest => rfl, SameBut.refl _ m, by simpa using hfound, rfl⟩
  | cons x xs ih =>
      obtain ⟨x', xs', rfl⟩ := List.exists_cons_of_length_eq_add_one hlen.symm
      obtain ⟨p, henc, hread⟩ := h x x' (by simp)
      obtain ⟨ps, hencs, hreads⟩ := @ih xs' (by simpa using hlen) fun y y' hy =>
        h y y' (by simp [hy])
      refine ⟨tagBytes f.number f.type.wire ++ p ++ ps, ?_, ?_⟩
      · rw [encodeItems, tagged_eq f.type.wire_lt, henc, hencs]
        rfl
      · intro hfits m ys hf hfound
        obtain ⟨w, hcontent, hdec⟩ := hread hfits.of_append_left.of_append_right
        have hstore : storeField S' f w m = .ok (m.put f.name (.arr .blessed (ys ++ [w]))) := by
          simp [storeField, storedValue, hshape, hfound, storeItem_itemsFound, Except.map]
        obtain ⟨m', ws, hrun, hsame, hfound', hws⟩ := hreads hfits.of_append_right
          (m.put f.name (.arr .blessed (ys ++ [w]))) (ys ++ [w]) hf (by
            rw [Msg.put_fields, Assoc.find_store_self, itemsFound_append_singleton])
        refine ⟨m', w :: ws, ?_, (SameBut.put _ _ _).trans hsame, by simpa using hfound', ?_⟩
        · intro rest
          rw [List.append_assoc, parseInto_tagged hf (hdec (ps ++ rest)) hstore, hrun]
        · simp [hcontent, hws]

theorem setContent_itemsFound (ws : List Val) :
    (itemsFound ws).bind Val.setContent = (Val.arr .blessed ws).setContent := by
  cases ws <;> rfl

theorem fieldReread_repeated {f : FieldDef} {kind kind' : ArrKind} {xs xs' : List Val}
    (hS : f.shape S = .repeated) (hS' : f.shape S' = .repeated) (hlen : xs.length = xs'.length)
    (h : ∀ x x', (x, x') ∈ xs.zip xs' → Reread S S' f.type x x') :
    FieldReread S S' f (.arr kind xs) (Val.arr kind' xs').setContent := by
  obtain ⟨p, henc, hread⟩ := encodeItems_reread hS' hlen h
  refine ⟨p, by simp [serializeField, hS, henc], ?_⟩
  intro hfits m hf hnone
  obtain ⟨m', ws, hrun, hsame, hfound, hws⟩ := hread hfits m [] hf hnone
  refine ⟨m', hrun, hsame, ?_⟩
  rw [fieldContent_eq, hfound, List.nil_append, setContent_itemsFound]
  exact setContent_congr (by simp [hws])

/-! ### Map fields -/

/-- What the parser has stored for a map field after the entries `es`. -/
def entriesFound : List (PerlStr × Val) → Option Val
  | [] => none
  | e :: es => some (.hash (e :: es))

theorem entriesFound_store (es : List (PerlStr × Val)) (k : PerlStr) (w : Val) :
    entriesFound (Assoc.store es k w) = some (.hash (Assoc.store es k w)) := by
  obtain ⟨e, es', h⟩ := Assoc.store_ne_nil es k w
  rw [h]
  rfl

/-- Storing an entry that has both its key and its value. -/
theorem storeEntry_entriesFound {entry : Msg} {wk wv : Val} {k : PerlStr}
    (hkey : Assoc.find entry.fields (ps "key") = some wk)
    (hval : Assoc.find entry.fields (ps "value") = some wv) (hk : wk.stringify = .ok k)
    (es : List (PerlStr × Val)) :
    storeEntry S entry.toVal (entriesFound es) = .ok (.hash (Assoc.store es k wv)) := by
  simp only [storeEntry, Msg.toVal, get, hkey, hval, hk, ok_bind]
  cases es <;> rfl

/-- The bytes of one entry are parsed to an entry message with both fields. -/
theorem parse_entry {c : String} {kt vt : FieldType}
    (hentry : (S.descriptor c).fields = entryFields kt vt)
    {pk pv : PerlStr} {wk wv : Val}
    (hk : ∀ rest, decodeField (parse S) kt.wire kt (pk ++ rest) = .ok (wk, rest))
    (hv : ∀ rest, decodeField (parse S) vt.wire vt (pv ++ rest) = .ok (wv, rest)) :
    ∃ entry, parse S c (tagBytes 1 kt.wire ++ pk ++ (tagBytes 2 vt.wire ++ pv)) = .ok entry ∧
      Assoc.find entry.fields (ps "key") = some wk ∧
      Assoc.find entry.fields (ps "value") = some wv := by
  let key : FieldDef := ⟨ps "key", 1, kt, .optional⟩
  let value : FieldDef := ⟨ps "value", 2, vt, .optional⟩
  let withKey : Msg := (Msg.create c).put (ps "key") wk
  have hkeyMem : key ∈ (S.descriptor c).fields := by simp [hentry, entryFields, key]
  have hvalueMem : value ∈ (S.descriptor c).fields := by simp [hentry, entryFields, value]
  have hkeyRun := parseInto_tagged (m := .create c) hkeyMem
    (hk (tagBytes 2 vt.wire ++ pv))
    (storeField_singular (FieldDef.shape_singular_of_optional rfl) wk _)
  have hvalueRun := parseInto_tagged (m := withKey) hvalueMem (hv [])
    (storeField_singular (FieldDef.shape_singular_of_optional rfl) wv _)
  refine ⟨withKey.put (ps "value") wv, ?_, ?_, ?_⟩
  · rw [parse_eq_ok, hkeyRun]
    simpa using hvalueRun
  · rw [Msg.put_fields, Assoc.find_store_of_ne _ _ (by decide)]
    simp [withKey]
  · rw [Msg.put_fields, Assoc.find_store_self]

/-- The loop over the entries, from a field that holds `table` already. -/
theorem encodeEntries_reread {f : FieldDef} {c : String} (hshape : f.shape S' = .map c)
    {kt vt : FieldType} (hentry : (S'.descriptor c).fields = entryFields kt vt)
    {es es' : List (PerlStr × Val)} (hkey : ∀ k ∈ Assoc.keys es, kt.KeyRereads k)
    (h : ∀ k v, (k, v) ∈ es → ∃ v', Assoc.find es' k = some v' ∧ Reread S S' vt v v') :
    ∃ p, encodeEntries S f.number kt vt es = .ok p ∧ (Fits p →
      ∀ (m : Msg) (table : List (PerlStr × Val)), f ∈ (S'.descriptor m.cls).fields →
        Assoc.find m.fields f.name = entriesFound table →
        ∃ m' table', (∀ rest, parseInto S' (p ++ rest) m = parseInto S' rest m') ∧
          SameBut f.name m m' ∧ Assoc.find m'.fields f.name = entriesFound table' ∧
          ∀ k, (Assoc.find table' k).map Val.content =
            if k ∈ Assoc.keys es then (Assoc.find es' k).map Val.content
            else (Assoc.find table k).map Val.content) := by
  have htype : f.type = .message c := (FieldDef.shape_map hshape).1
  induction es with
  | nil =>
      refine ⟨[], by rw [encodeEntries], ?_⟩
      intro _ m table _ hfound
      exact ⟨m, table, fun rest => rfl, SameBut.refl _ m, hfound, by simp [Assoc.keys]⟩
  | cons e es ih =>
      obtain ⟨k, v⟩ := e
      obtain ⟨pk, hencK, hreadK⟩ := keyReread (hkey k (Assoc.mem_keys_cons.mpr (.inl rfl)))
      obtain ⟨v', hv', pv, hencV, hreadV⟩ := h k v (by simp)
      obtain ⟨ps', hencs, hreads⟩ := ih
        (fun k' hk' => hkey k' (Assoc.mem_keys_cons.mpr (.inr hk')))
        (fun k' v' hmem => h k' v' (by simp [hmem]))
      -- an entry is a message with the key in field 1 and the value in field 2
      let entryBytes := tagBytes 1 kt.wire ++ pk ++ (tagBytes 2 vt.wire ++ pv)
      let payload := leb128 entryBytes.length ++ entryBytes
      refine ⟨tagBytes f.number 2 ++ payload ++ ps', ?_, ?_⟩
      · rw [encodeEntries, tagged_eq kt.wire_lt, hencK, tagged_eq vt.wire_lt, hencV]
        simp only [Except.map, ok_bind, tagged_eq (show 2 < 8 by decide), lengthPrefixed_eq, hencs,
          pure_eq_ok]
        simp [payload, entryBytes]
      · intro hfits m table hf hfound
        have hfitsEntry : Fits entryBytes := hfits.of_append_left.of_append_right.of_append_right
        obtain ⟨wk, hwk, hdecK⟩ := hreadK hfitsEntry.of_append_left.of_append_right
        obtain ⟨wv, hcontent, hdecV⟩ := hreadV hfitsEntry.of_append_right.of_append_right
        obtain ⟨entry, hparse, hfindK, hfindV⟩ := parse_entry hentry (hdecK (parse S')) hdecV
        have hdec : ∀ rest, decodeField (parse S') f.type.wire f.type (payload ++ rest) =
            .ok (entry.toVal, rest) := by
          intro rest
          rw [htype]
          exact decodeField_message hfitsEntry.lt hparse rest
        have hstore : storeField S' f entry.toVal m =
            .ok (m.put f.name (.hash (Assoc.store table k wv))) := by
          simp [storeField, storedValue, hshape, hfound,
            storeEntry_entriesFound hfindK hfindV hwk, Except.map]
        obtain ⟨m', table', hrun, hsame, hfound', htable⟩ := hreads hfits.of_append_right
          (m.put f.name (.hash (Assoc.store table k wv))) (Assoc.store table k wv) hf (by
            rw [Msg.put_fields, Assoc.find_store_self, entriesFound_store])
        refine ⟨m', table', ?_, (SameBut.put _ _ _).trans hsame, hfound', ?_⟩
        · intro rest
          have hwire : f.type.wire = 2 := by rw [htype]; rfl
          rw [List.append_assoc, ← hwire, parseInto_tagged hf (hdec (ps' ++ rest)) hstore, hrun]
        · intro k'
          rw [htable]
          by_cases hk' : k' = k
          · subst hk'
            rw [if_pos (Assoc.mem_keys_cons.mpr (.inl rfl)), Assoc.find_store_self, hv']
            split <;> simp [hcontent]
          · simp only [Assoc.mem_keys_cons, hk', false_or, Assoc.find_store_of_ne table wv hk']

theorem setContent_entriesFound (es : List (PerlStr × Val)) :
    (entriesFound es).bind Val.setContent = (Val.hash es).setContent := by
  cases es <;> rfl

theorem fieldReread_map {f : FieldDef} {c : String} {kt vt : FieldType}
    {es es' : List (PerlStr × Val)} (hS : f.shape S = .map c) (hS' : f.shape S' = .map c)
    (hentry : (S.descriptor c).fields = entryFields kt vt)
    (hentry' : (S'.descriptor c).fields = entryFields kt vt)
    (hset : ∀ k, (Assoc.find es' k).isSome = (Assoc.find es k).isSome)
    (hkey : ∀ k ∈ Assoc.keys es, kt.KeyRereads k)
    (h : ∀ k v, (k, v) ∈ es → ∃ v', Assoc.find es' k = some v' ∧ Reread S S' vt v v') :
    FieldReread S S' f (.hash es) (Val.hash es').setContent := by
  obtain ⟨p, henc, hread⟩ := encodeEntries_reread hS' hentry' hkey h
  have hone : (S.descriptor c).findFieldByNumber 1 = some ⟨ps "key", 1, kt, .optional⟩ := by
    rw [MessageDef.findFieldByNumber_eq_some, hentry]
    simp [entryFields]
  have htwo : (S.descriptor c).findFieldByNumber 2 = some ⟨ps "value", 2, vt, .optional⟩ := by
    rw [MessageDef.findFieldByNumber_eq_some, hentry]
    simp [entryFields]
  refine ⟨p, by simp [serializeField, hS, hone, htwo, henc], ?_⟩
  intro hfits m hf hnone
  obtain ⟨m', table, hrun, hsame, hfound, htable⟩ := hread hfits m [] hf hnone
  refine ⟨m', hrun, hsame, ?_⟩
  rw [fieldContent_eq, hfound, setContent_entriesFound]
  apply setContent_congr
  simp only [content_hash, Content.hash.injEq]
  funext k
  rw [htable]
  split
  · rfl
  · rename_i hk
    have hnone : Assoc.find es' k = none := by
      rw [← Option.not_isSome_iff_eq_none, hset, Assoc.find_eq_none_iff.mpr hk]
      simp
    simp [hnone]

end GooglePerl.Protobuf
