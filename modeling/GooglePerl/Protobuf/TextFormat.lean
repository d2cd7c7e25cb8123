import GooglePerl.Lib.Unambiguous
import GooglePerl.Protobuf.Observe

/-!
How `to_text` writes names, numbers and strings, and how its lines and blocks begin and end.

Only quotes and backslashes are escaped, and a name or a number is not quoted at all.
-/

namespace GooglePerl.Protobuf

open GooglePerl.Lib

/-! ### Names -/

def isNameChar (c : ℕ) : Bool :=
  isDigit c || (decide (65 ≤ c) && decide (c ≤ 90)) || (decide (97 ≤ c) && decide (c ≤ 122)) ||
    c == 95

/-- Identifiers of the proto language. -/
def IsIdentifier (s : PerlStr) : Prop :=
  (∃ c t, s = c :: t ∧ isDigit c = false) ∧ ∀ c ∈ s, isNameChar c = true

/-- The values of an enum have distinct names. -/
def FieldType.Named (t : FieldType) : Prop :=
  ∀ values, t = .enum (some values) →
    (∀ p ∈ values, IsIdentifier p.1) ∧ (Assoc.keys values).Nodup

/-- Fields are named as the language has it. -/
structure Pool.Named (S : Pool) : Prop where
  field : ∀ cls, ∀ f ∈ (S.descriptor cls).fields, IsIdentifier f.name
  type : ∀ cls, ∀ f ∈ (S.descriptor cls).fields, f.type.Named

theorem ne_newline_of_mem_decimalText {n : ℤ} {c : ℕ} (h : c ∈ decimalText n) : c ≠ 10 := by
  have hdigit : ∀ {m c : ℕ}, c ∈ natText m → c ≠ 10 := by
    rintro m c hc rfl
    exact absurd (isDigit_of_mem_natText hc) (by decide)
  cases n with
  | ofNat n => exact hdigit h
  | negSucc n =>
      rcases List.mem_cons.mp h with rfl | h
      · decide
      · exact hdigit h

/-- A number does not start like a name. -/
theorem decimalText_ne_of_isIdentifier {s : PerlStr} (h : IsIdentifier s) (n : ℤ) :
    s ≠ decimalText n := by
  obtain ⟨⟨c, t, rfl, hc⟩, hall⟩ := h
  intro heq
  cases n with
  | ofNat n =>
      have hmem : c ∈ natText n := by
        rw [show natText n = c :: t from heq.symm]
        exact List.mem_cons_self
      rw [isDigit_of_mem_natText hmem] at hc
      cases hc
  | negSucc n =>
      obtain ⟨rfl, -⟩ := List.cons.inj heq
      exact absurd (hall 45 List.mem_cons_self) (by decide)

theorem decimalText_inj {n m : ℤ} (h : decimalText n = decimalText m) : n = m := by
  have hread := readDecimal_decimalText n
  rw [h, readDecimal_decimalText] at hread
  exact (Option.some.inj hread).symm

/-! ### Scalars -/

/-- The text of a number as a value of a type that is not a text. -/
def numText (t : FieldType) (n : ℤ) : PerlStr :=
  match t with
  | .bool => if n != 0 then ps "true" else ps "false"
  | .enum (some values) => ((values.find? fun p => p.2 == n).map Prod.fst).getD (decimalText n)
  | _ => decimalText n

theorem formatScalarValue_num {t : FieldType} {n : ℤ} {v : Val} (ht : t.inRange n)
    (hv : v.IsNum n) : formatScalarValue t v = .ok (numText t n) := by
  cases t with
  | enum values => cases values <;> rcases hv with rfl | rfl <;> rfl
  | string | bytes | message c => exact absurd ht not_false
  | _ => rcases hv with rfl | rfl <;> rfl

/-- A number is written on one line. -/
theorem ne_newline_of_mem_numText {t : FieldType} (ht : t.Named) {n : ℤ} :
    ∀ c ∈ numText t n, c ≠ 10 := by
  intro c hc
  unfold numText at hc
  split at hc
  · split at hc <;> revert c <;> decide
  · rename_i values
    cases hfind : values.find? fun p => p.2 == n with
    | none =>
        rw [hfind] at hc
        exact ne_newline_of_mem_decimalText hc
    | some p =>
        rw [hfind] at hc
        have hname := ((ht values rfl).1 p (List.mem_of_find?_eq_some hfind)).2 c hc
        rintro rfl
        exact absurd hname (by decide)
  · exact ne_newline_of_mem_decimalText hc

/-- Different numbers of one type are written in different ways. -/
theorem numText_inj {t : FieldType} (ht : t.Named) {n m : ℤ} (hn : t.inRange n) (hm : t.inRange m)
    (h : numText t n = numText t m) : n = m := by
  cases t with
  | bool =>
      rcases hn with rfl | rfl <;> rcases hm with rfl | rfl
      · rfl
      · exact absurd h (by decide)
      · exact absurd h (by decide)
      · rfl
  | enum values =>
      cases values with
      | none => exact decimalText_inj h
      | some values =>
          obtain ⟨hnames, hnd⟩ := ht values rfl
          simp only [numText] at h
          cases hfn : values.find? fun p => p.2 == n with
          | none =>
              cases hfm : values.find? fun p => p.2 == m with
              | none =>
                  rw [hfn, hfm] at h
                  exact decimalText_inj h
              | some q =>
                  rw [hfn, hfm] at h
                  exact absurd h.symm (decimalText_ne_of_isIdentifier
                    (hnames q (List.mem_of_find?_eq_some hfm)) n)
          | some p =>
              cases hfm : values.find? fun p => p.2 == m with
              | none =>
                  rw [hfn, hfm] at h
                  exact absurd h (decimalText_ne_of_isIdentifier
                    (hnames p (List.mem_of_find?_eq_some hfn)) m)
              | some q =>
                  rw [hfn, hfm] at h
                  have hpq : p = q := List.inj_on_of_nodup_map hnd (List.mem_of_find?_eq_some hfn)
                    (List.mem_of_find?_eq_some hfm) h
                  have hpn : p.2 = n := by simpa using List.find?_some hfn
                  have hqm : q.2 = m := by simpa using List.find?_some hfm
                  rw [← hpn, hpq, hqm]
  | string | bytes | message c => exact absurd hn not_false
  | _ => exact decimalText_inj h

/-! ### Quoted strings -/

/-- What one character is written as between quotes. -/
def escapeChar (c : ℕ) : PerlStr := if c = 92 then [92, 92] else if c = 34 then [92, 34] else [c]

theorem escapeText_cons (c : ℕ) (s : PerlStr) : escapeText (c :: s) = escapeChar c ++ escapeText s := by
  simp only [escapeText, List.flatMap_cons, List.flatMap_append]
  congr 1
  unfold escapeChar
  by_cases h92 : c = 92
  · simp [h92]
  · by_cases h34 : c = 34 <;> simp [h92, h34]

theorem escapeChar_append_ne (c : ℕ) (s t : PerlStr) : escapeChar c ++ s ≠ 34 :: t := by
  unfold escapeChar
  by_cases h92 : c = 92 <;> by_cases h34 : c = 34 <;> simp_all

theorem escapeChar_append_inj {c c' : ℕ} {s s' : PerlStr}
    (h : escapeChar c ++ s = escapeChar c' ++ s') : c = c' ∧ s = s' := by
  unfold escapeChar at h
  by_cases h92 : c = 92 <;> by_cases h34 : c = 34 <;> by_cases h92' : c' = 92 <;>
    by_cases h34' : c' = 34 <;> simp_all

/-- A string ends at the first quote that is not escaped. -/
theorem escapeText_splits (s s' : PerlStr) :
    Splits (fun r => ∃ t, r = 34 :: t) (escapeText s) (escapeText s') (s = s') := by
  induction s generalizing s' with
  | nil =>
      rintro r r' ⟨t, rfl⟩ - heq
      cases s' with
      | nil => exact ⟨rfl, heq⟩
      | cons c s' =>
          rw [escapeText_cons, List.append_assoc] at heq
          exact absurd heq.symm (escapeChar_append_ne c _ t)
  | cons c s ih =>
      rintro r r' hr hr' heq
      cases s' with
      | nil =>
          obtain ⟨t', rfl⟩ := hr'
          rw [escapeText_cons, List.append_assoc] at heq
          exact absurd heq (escapeChar_append_ne c _ t')
      | cons c' s' =>
          rw [escapeText_cons, escapeText_cons, List.append_assoc, List.append_assoc] at heq
          obtain ⟨rfl, htail⟩ := escapeChar_append_inj heq
          obtain ⟨rfl, hrest⟩ := ih s' r r' hr hr' htail
          exact ⟨rfl, hrest⟩

theorem quoted_splits {F : PerlStr → Prop} (s s' : PerlStr) :
    Splits F ([34] ++ escapeText s ++ [34]) ([34] ++ escapeText s' ++ [34]) (s = s') := by
  rw [List.append_assoc, List.append_assoc]
  exact Splits.prepend [34] ((escapeText_splits s s').close [34] fun r => ⟨r, rfl⟩)

/-! ### What a text is about -/

mutual

/-- A value without the unknown fields of its messages. -/
def dropUnknown : Val → Val
  | .arr kind xs => .arr kind (dropUnknownList xs)
  | .hash es => .hash (dropUnknownEntries es)
  | .msg c fs _ => .msg c (dropUnknownEntries fs) none
  | .undef => .undef
  | .iv n => .iv n
  | .big n => .big n
  | .nv p => .nv p
  | .str s => .str s

def dropUnknownList : List Val → List Val
  | [] => []
  | x :: xs => dropUnknown x :: dropUnknownList xs

def dropUnknownEntries : List (PerlStr × Val) → List (PerlStr × Val)
  | [] => []
  | (k, v) :: es => (k, dropUnknown v) :: dropUnknownEntries es

end

theorem dropUnknownList_eq_map (xs : List Val) : dropUnknownList xs = xs.map dropUnknown := by
  induction xs with
  | nil => rfl
  | cons x xs ih => simp [dropUnknownList, ih]

theorem find_dropUnknownEntries (es : List (PerlStr × Val)) (k : PerlStr) :
    Assoc.find (dropUnknownEntries es) k = (Assoc.find es k).map dropUnknown := by
  induction es with
  | nil => rfl
  | cons e es ih =>
      obtain ⟨key, v⟩ := e
      rw [dropUnknownEntries, Assoc.find_cons, Assoc.find_cons, ih]
      split <;> rfl

/-- Two values say the same, apart from unknown fields. -/
def ShowAlike (v w : Val) : Prop := (dropUnknown v).content = (dropUnknown w).content

theorem ShowAlike.refl (v : Val) : ShowAlike v v := rfl

theorem isEmptyContainer_dropUnknown (v : Val) :
    (dropUnknown v).isEmptyContainer = v.isEmptyContainer := by
  cases v with
  | arr kind xs => cases xs <;> simp [dropUnknown, dropUnknownList, Val.isEmptyContainer]
  | hash es => cases es <;> simp [dropUnknown, dropUnknownEntries, Val.isEmptyContainer]
  | _ => simp [dropUnknown, Val.isEmptyContainer]

theorem showAlike_arr {kind kind' : ArrKind} {xs ys : List Val}
    (h : List.Forall₂ ShowAlike xs ys) : ShowAlike (.arr kind xs) (.arr kind' ys) := by
  simp only [ShowAlike, dropUnknown, dropUnknownList_eq_map, content_arr, List.map_map,
    Content.arr.injEq]
  exact (List.forall₂_eq_eq_eq ▸ (List.forall₂_map_left_iff.mpr (List.forall₂_map_right_iff.mpr h)))

theorem showAlike_hash {es es' : List (PerlStr × Val)}
    (h : ∀ k, (Assoc.find es k).map (Val.content ∘ dropUnknown) =
      (Assoc.find es' k).map (Val.content ∘ dropUnknown)) : ShowAlike (.hash es) (.hash es') := by
  simp only [ShowAlike, dropUnknown, content_hash, find_dropUnknownEntries, Option.map_map,
    Content.hash.injEq]
  exact funext h

theorem showAlike_msg {c : String} {fs fs' : List (PerlStr × Val)} {u u' : Option PerlStr}
    (h : ∀ name, ((Assoc.find fs name).bind fun v => (dropUnknown v).setContent) =
      (Assoc.find fs' name).bind fun v => (dropUnknown v).setContent) :
    ShowAlike (.msg c fs u) (.msg c fs' u') := by
  simp only [ShowAlike, dropUnknown, content_msg, Content.msg.injEq, true_and, and_true]
  funext name
  rw [fieldContent_eq, fieldContent_eq, find_dropUnknownEntries, find_dropUnknownEntries,
    Option.bind_map, Option.bind_map]
  exact h name

/-! ### Lines and blocks -/

/-- The text of a field that is there, at some depth. -/
def textFieldAt (S : Pool) (indent : ℕ) (f : FieldDef) : Val → Except Die PerlStr
  | .undef => .ok []
  | val =>
      match f.shape S with
      | .singular => formatFieldForText f indent val (textOfValue S (indent + 1) val)
      | .repeated =>
          match val with
          | .arr _ items => textItems S f indent items
          | _ => .error (.fault .notReference)
      | .map c =>
          match val with
          | .hash es =>
              match (S.descriptor c).findFieldByName (ps "key"),
                (S.descriptor c).findFieldByName (ps "value") with
              | some k, some v =>
                  ((sortByKey (textEntries S f.name k.type v.type indent es)).mapM Prod.snd).map
                    List.flatten
              | _, _ => .error (.fault (.noMethod "type_number"))
          | .big _ | .msg _ _ _ => .error (.fault .internals)
          | _ => .error (.fault .notReference)

theorem find_textChunksAt (S : Pool) (d : MessageDef) (indent : ℕ) (fs : List (PerlStr × Val))
    {f : FieldDef} (hf : f ∈ d.fields) :
    Assoc.find (textChunks S d indent fs) f.name =
      (Assoc.find fs f.name).map (textFieldAt S indent f) := by
  induction fs with
  | nil => simp [textChunks]
  | cons p fs ih =>
      obtain ⟨name, val⟩ := p
      rw [textChunks, Assoc.find_cons, Assoc.find_cons, ih]
      split
      · rename_i hname
        subst hname
        have hfind : d.findFieldByName f.name = some f :=
          MessageDef.findFieldByName_eq_some.mpr ⟨hf, rfl⟩
        rw [hfind]
        rfl
      · rfl

/-- A text that came out, and nothing for one that did not. -/
def printed (text : Except Die PerlStr) : PerlStr := text.toOption.getD []

/-- Texts that all came out, one behind another. -/
theorem mapM_flatten_ok {ι : Type} {g : ι → Except Die PerlStr} {l : List ι} {parts : List PerlStr}
    (h : l.mapM g = .ok parts) :
    parts.flatten = l.flatMap (fun i => printed (g i)) ∧ ∀ i ∈ l, g i = .ok (printed (g i)) := by
  induction l generalizing parts with
  | nil =>
      obtain rfl := Except.ok.inj h
      exact ⟨rfl, fun i hi => absurd hi List.not_mem_nil⟩
  | cons i l ih =>
      rw [List.mapM_cons] at h
      cases hi : g i with
      | error e => rw [hi] at h; cases h
      | ok p =>
          cases hl : l.mapM g with
          | error e => rw [hi, hl] at h; cases h
          | ok ps =>
              rw [hi, hl] at h
              obtain rfl := Except.ok.inj h
              obtain ⟨hflat, hall⟩ := ih hl
              refine ⟨?_, List.forall_mem_cons.mpr ⟨by rw [hi]; rfl, hall⟩⟩
              rw [List.flatten_cons, List.flatMap_cons, hflat, hi]
              rfl

/-- The texts of the fields of a message, at their places. -/
def fieldTextAt (S : Pool) (indent : ℕ) (fs : List (PerlStr × Val)) (f : FieldDef) :
    Except Die PerlStr :=
  ((Assoc.find fs f.name).map (textFieldAt S indent f)).getD (.ok [])

theorem joinText_ok {S : Pool} {d : MessageDef} {indent : ℕ} {fs : List (PerlStr × Val)}
    {p : PerlStr} (h : joinText d (textChunks S d indent fs) = .ok p) :
    p = d.fields.flatMap (fun f => printed (fieldTextAt S indent fs f)) ∧
      ∀ f ∈ d.fields, fieldTextAt S indent fs f = .ok (printed (fieldTextAt S indent fs f)) := by
  rw [joinText, mapM_congr (g := fieldTextAt S indent fs) fun f hf => by
    rw [find_textChunksAt S d indent fs hf]; rfl] at h
  cases hparts : d.fields.mapM (fieldTextAt S indent fs) with
  | error e => rw [hparts] at h; cases h
  | ok parts =>
      rw [hparts] at h
      obtain rfl := Except.ok.inj h
      exact mapM_flatten_ok hparts

/-- The start of a field: its name at some depth, and a colon or a blank. -/
def Begins (indent : ℕ) (name r : PerlStr) : Prop :=
  ∃ c t, r = indentStr indent ++ (name ++ c :: t) ∧ (c = 58 ∨ c = 32)

/-- What may follow the fields of a message: the brace that closes one further out, or nothing. -/
def Closes (indent : ℕ) (r : PerlStr) : Prop :=
  r = [] ∨ ∃ k t, r = indentStr k ++ 125 :: t ∧ k < indent

theorem Begins.name_eq {indent : ℕ} {name name' r : PerlStr} (hname : IsIdentifier name)
    (hname' : IsIdentifier name') (h : Begins indent name r) (h' : Begins indent name' r) :
    name = name' := by
  obtain ⟨c, t, rfl, hc⟩ := h
  obtain ⟨c', t', heq, hc'⟩ := h'
  have hends : ∀ {c : ℕ} (t : PerlStr), c = 58 ∨ c = 32 →
      Splits.EndsWord (fun c => isNameChar c = true) (c :: t) := by
    rintro c t (rfl | rfl)
    · exact ⟨58, t, rfl, by decide⟩
    · exact ⟨32, t, rfl, by decide⟩
  exact (Splits.word hname.2 hname'.2 _ _ (hends t hc) (hends t' hc')
    (List.append_cancel_left heq)).1

theorem Closes.not_begins {indent : ℕ} {name r : PerlStr} (h : Closes indent r) :
    ¬ Begins indent name r := by
  rintro ⟨c, t, heq, hc⟩
  rcases h with rfl | ⟨k, t', rfl, hk⟩
  · simpa using heq.symm
  · have hget := congrArg (·[2 * k]?) heq
    have hlt : 2 * k < (indentStr indent).length := by
      rw [indentStr, List.length_replicate]
      omega
    simp only [List.getElem?_append_left hlt] at hget
    simp [indentStr, List.getElem?_replicate] at hget

end GooglePerl.Protobuf
