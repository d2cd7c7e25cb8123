import GooglePerl.Protobuf.TextFormat

/-!
What can be read out of the text that `to_text` makes of a message.

Whatever the strings of a message contain, its text shows all that it says but for unknown fields
(`toText_inj`). It is about messages without floating-point numbers, which the model does not
print.
-/

namespace GooglePerl.Protobuf

open GooglePerl.Lib

/-! ### Values are told apart -/

section

variable {S : Pool}

/-- Two values of a type are told apart where they are printed. -/
structure ValueSplits (S : Pool) (t : FieldType) (v w : Val) : Prop where
  message : ∀ c, t = .message c → ∀ indent p q, textOfValue S indent v = .ok p →
    textOfValue S indent w = .ok q → Splits (Closes indent) p q (ShowAlike v w)
  scalar : (∀ c, t ≠ .message c) → ∀ p q, formatScalarValue t v = .ok p →
    formatScalarValue t w = .ok q → Splits (Splits.EndsWord (· ≠ 10)) p q (ShowAlike v w)

theorem closes_brace (indent : ℕ) (r : PerlStr) :
    Closes (indent + 1) (indentStr indent ++ 125 :: r) :=
  .inr ⟨indent, r, rfl, Nat.lt_succ_self indent⟩

theorem endsWord_newline (r : PerlStr) : Splits.EndsWord (· ≠ 10) (10 :: r) :=
  ⟨10, r, rfl, fun h => h rfl⟩

/-- What `_format_field_for_text` makes. -/
theorem formatFieldForText_ok {f : FieldDef} {indent : ℕ} {v : Val} {sub : Except Die PerlStr}
    {p : PerlStr} (h : formatFieldForText f indent v sub = .ok p) :
    (∃ c q, f.type = .message c ∧ sub = .ok q ∧
      p = indentStr indent ++ (f.name ++ (ps " \x7b\n" ++ (q ++ (indentStr indent ++ [125, 10]))))) ∨
    (∃ q, (∀ c, f.type ≠ .message c) ∧ formatScalarValue f.type v = .ok q ∧
      p = indentStr indent ++ (f.name ++ (ps ": " ++ (q ++ [10])))) := by
  unfold formatFieldForText at h
  split at h
  · rename_i c ht
    cases sub with
    | error e => cases h
    | ok q =>
        obtain rfl := Except.ok.inj h
        exact .inl ⟨c, q, ht, rfl, by simp [ps]⟩
  · rename_i hne
    cases hq : formatScalarValue f.type v with
    | error e => rw [hq] at h; cases h
    | ok q =>
        rw [hq] at h
        obtain rfl := Except.ok.inj h
        exact .inr ⟨q, hne, rfl, by simp [ps]⟩

theorem formatFieldForText_begins {f : FieldDef} {indent : ℕ} {v : Val} {sub : Except Die PerlStr}
    {p : PerlStr} (h : formatFieldForText f indent v sub = .ok p) (r : PerlStr) :
    Begins indent f.name (p ++ r) := by
  rcases formatFieldForText_ok h with ⟨c, q, -, -, rfl⟩ | ⟨q, -, -, rfl⟩
  · exact ⟨32, _, by simp [ps]; rfl, .inr rfl⟩
  · exact ⟨58, _, by simp [ps]; rfl, .inl rfl⟩

/-- A field with its name is told apart by its value, and ends by itself. -/
theorem field_splits {f : FieldDef} {indent : ℕ} {v w : Val} {p q : PerlStr}
    (hvw : ValueSplits S f.type v w)
    (hp : formatFieldForText f indent v (textOfValue S (indent + 1) v) = .ok p)
    (hq : formatFieldForText f indent w (textOfValue S (indent + 1) w) = .ok q) :
    Splits (fun _ => True) p q (ShowAlike v w) := by
  rcases formatFieldForText_ok hp with ⟨c, p, ht, hsub, rfl⟩ | ⟨p, hne, hfmt, rfl⟩
  · rcases formatFieldForText_ok hq with ⟨c', q, -, hsub', rfl⟩ | ⟨q, hne, -, -⟩
    · have hvalue := hvw.message c ht (indent + 1) p q hsub hsub'
      exact ((hvalue.close (indentStr indent ++ [125, 10]) fun r => by
        rw [List.append_assoc]
        exact closes_brace indent _).prepend _ |>.prepend _ |>.prepend _)
    · exact absurd ht (hne c)
  · rcases formatFieldForText_ok hq with ⟨c, q, ht, -, -⟩ | ⟨q, -, hfmt', rfl⟩
    · exact absurd ht (hne c)
    · have hvalue := hvw.scalar hne p q hfmt hfmt'
      exact ((hvalue.close [10] fun r => endsWord_newline r).prepend _ |>.prepend _ |>.prepend _)

/-- What `textItems` makes. -/
theorem textItems_ok {f : FieldDef} {indent : ℕ} {items : List Val} {p : PerlStr}
    (h : textItems S f indent items = .ok p) :
    p = items.flatMap (fun v =>
        printed (formatFieldForText f indent v (textOfValue S (indent + 1) v))) ∧
      ∀ v ∈ items, formatFieldForText f indent v (textOfValue S (indent + 1) v) =
        .ok (printed (formatFieldForText f indent v (textOfValue S (indent + 1) v))) := by
  induction items generalizing p with
  | nil =>
      rw [textItems] at h
      obtain rfl := Except.ok.inj h
      exact ⟨rfl, fun v hv => absurd hv List.not_mem_nil⟩
  | cons v items ih =>
      rw [textItems] at h
      cases hv : formatFieldForText f indent v (textOfValue S (indent + 1) v) with
      | error e => rw [hv] at h; cases h
      | ok first =>
          cases hitems : textItems S f indent items with
          | error e => rw [hv, hitems] at h; cases h
          | ok rest =>
              rw [hv, hitems] at h
              obtain rfl := Except.ok.inj h
              obtain ⟨hrest, hall⟩ := ih hitems
              refine ⟨?_, List.forall_mem_cons.mpr ⟨by rw [hv]; rfl, hall⟩⟩
              rw [List.flatMap_cons, hv, ← hrest]
              rfl

/-- The elements of a repeated field. -/
theorem items_splits {f : FieldDef} {indent : ℕ} {xs ys : List Val} {p q : PerlStr}
    (hxy : ∀ x ∈ xs, ∀ y ∈ ys, ValueSplits S f.type x y) (hp : textItems S f indent xs = .ok p)
    (hq : textItems S f indent ys = .ok q) :
    Splits (fun r => ¬ Begins indent f.name r) p q (List.Forall₂ ShowAlike xs ys) := by
  obtain ⟨rfl, hxs⟩ := textItems_ok hp
  obtain ⟨rfl, hys⟩ := textItems_ok hq
  exact Splits.flatMap (fun x hx r => formatFieldForText_begins (hxs x hx) r)
    (fun y hy r => formatFieldForText_begins (hys y hy) r)
    fun x hx y hy => field_splits (hxy x hx y hy) (hxs x hx) (hys y hy)

/-! ### Entries of maps -/

/-- What the key of a map entry is in a legal map. -/
def LegalKey (kt : FieldType) (k : PerlStr) : Prop :=
  (kt = .string ∧ IsOctets k) ∨ ∃ n, wireLegal.int kt n ∧ k = decimalText n

theorem named_of_isKey {kt : FieldType} (h : kt.isKey = true) : kt.Named := by
  rintro values rfl
  cases h

theorem formatScalarValue_key {kt : FieldType} {n : ℤ} (hkey : kt.isKey = true)
    (hn : kt.inRange n) : formatScalarValue kt (.str (decimalText n)) = .ok (numText kt n) := by
  cases kt with
  | bool => rcases hn with rfl | rfl <;> rfl
  | string | bytes | message c | enum values | double | float =>
      first | exact absurd hn not_false | cases hkey
  | _ => rfl

/-- Keys are told apart. -/
theorem key_splits {kt : FieldType} {k k' p q : PerlStr} (hkt : kt.isKey = true)
    (hk : LegalKey kt k) (hk' : LegalKey kt k') (hp : formatScalarValue kt (.str k) = .ok p)
    (hq : formatScalarValue kt (.str k') = .ok q) :
    Splits (Splits.EndsWord (· ≠ 10)) p q (k = k') := by
  rcases hk with ⟨rfl, -⟩ | ⟨n, hn, rfl⟩
  · obtain rfl := Except.ok.inj hp
    obtain rfl := Except.ok.inj hq
    exact quoted_splits k k'
  · rcases hk' with ⟨rfl, -⟩ | ⟨m, hm, rfl⟩
    · exact absurd hn.1 not_false
    · rw [formatScalarValue_key hkt hn.1] at hp
      rw [formatScalarValue_key hkt hm.1] at hq
      obtain rfl := Except.ok.inj hp
      obtain rfl := Except.ok.inj hq
      have hnamed := named_of_isKey hkt
      exact (Splits.word (ne_newline_of_mem_numText hnamed) (ne_newline_of_mem_numText hnamed)).mono
        (fun _ hr => hr) fun heq => by rw [numText_inj hnamed hn.1 hm.1 heq]

/-- A value of a map entry is told apart, before the end of its line. -/
theorem value_splits {t : FieldType} {indent : ℕ} {v w : Val} {p q : PerlStr}
    (hvw : ValueSplits S t v w)
    (hp : formatValueForText t indent v (textOfValue S (indent + 1) v) = .ok p)
    (hq : formatValueForText t indent w (textOfValue S (indent + 1) w) = .ok q) :
    Splits (Splits.EndsWord (· ≠ 10)) p q (ShowAlike v w) := by
  by_cases ht : ∃ c, t = .message c
  · obtain ⟨c, rfl⟩ := ht
    simp only [formatValueForText] at hp hq
    cases hv : textOfValue S (indent + 1) v with
    | error e => rw [hv] at hp; cases hp
    | ok p =>
        cases hw : textOfValue S (indent + 1) w with
        | error e => rw [hw] at hq; cases hq
        | ok q =>
            rw [hv] at hp
            rw [hw] at hq
            obtain rfl := Except.ok.inj hp
            obtain rfl := Except.ok.inj hq
            have hvalue := hvw.message c rfl (indent + 1) p q hv hw
            have hclosed := (hvalue.close (F := Splits.EndsWord (· ≠ 10))
              (indentStr indent ++ [125]) fun r => by
                rw [List.append_assoc]
                exact closes_brace indent r).prepend (ps "\x7b\n")
            simpa [ps] using hclosed
  · have hne : ∀ c, t ≠ .message c := fun c hc => ht ⟨c, hc⟩
    have hformat : ∀ (x : Val) sub, formatValueForText t indent x sub = formatScalarValue t x := by
      intro x sub
      cases t with
      | message c => exact absurd rfl (hne c)
      | _ => rfl
    rw [hformat] at hp hq
    exact hvw.scalar hne p q hp hq

/-- The text of an entry. -/
def entryTextOf (S : Pool) (name : PerlStr) (kt vt : FieldType) (indent : ℕ) (e : PerlStr × Val) :
    Except Die PerlStr :=
  entryText name indent (formatScalarValue kt (.str e.1))
    (formatValueForText vt (indent + 2) e.2 (textOfValue S (indent + 3) e.2))

theorem entryText_ok {name : PerlStr} {indent : ℕ} {key val : Except Die PerlStr} {p : PerlStr}
    (h : entryText name indent key val = .ok p) :
    ∃ k v, key = .ok k ∧ val = .ok v ∧
      p = indentStr indent ++ (name ++ (ps " \x7b\n" ++ (indentStr indent ++ (ps "  key: " ++
        (k ++ ([10] ++ (indentStr indent ++ (ps "  value: " ++ (v ++ ([10] ++
          (indentStr indent ++ ps "\x7d\n"))))))))))) := by
  unfold entryText at h
  cases key with
  | error e => cases h
  | ok k =>
      cases val with
      | error e => cases h
      | ok v =>
          obtain rfl := Except.ok.inj h
          exact ⟨k, v, rfl, rfl, by simp [ps]⟩

theorem entryText_begins {name : PerlStr} {indent : ℕ} {key val : Except Die PerlStr} {p : PerlStr}
    (h : entryText name indent key val = .ok p) (r : PerlStr) : Begins indent name (p ++ r) := by
  obtain ⟨k, v, -, -, rfl⟩ := entryText_ok h
  exact ⟨32, _, by simp [ps]; rfl, .inr rfl⟩

theorem entry_splits {name : PerlStr} {kt vt : FieldType} {indent : ℕ} {e e' : PerlStr × Val}
    {p q : PerlStr} (hkt : kt.isKey = true) (hk : LegalKey kt e.1) (hk' : LegalKey kt e'.1)
    (hvw : ValueSplits S vt e.2 e'.2) (hp : entryTextOf S name kt vt indent e = .ok p)
    (hq : entryTextOf S name kt vt indent e' = .ok q) :
    Splits (fun _ => True) p q (e.1 = e'.1 ∧ ShowAlike e.2 e'.2) := by
  obtain ⟨k, v, hkey, hval, rfl⟩ := entryText_ok hp
  obtain ⟨k', v', hkey', hval', rfl⟩ := entryText_ok hq
  have hkeys := key_splits hkt hk hk' hkey hkey'
  have hvalues := value_splits hvw hval hval'
  have htail := (hvalues.close (F := fun _ => True) ([10] ++ (indentStr indent ++ ps "\x7d\n"))
    fun r => endsWord_newline _).prepend (ps "  value: ") |>.prepend (indentStr indent)
      |>.prepend [10]
  exact ((hkeys.append (fun _ => htail) (fun r _ => endsWord_newline _)
    fun r _ => endsWord_newline _).prepend _ |>.prepend _ |>.prepend _ |>.prepend _ |>.prepend _)

theorem textEntries_eq_map (name : PerlStr) (kt vt : FieldType) (indent : ℕ)
    (es : List (PerlStr × Val)) :
    textEntries S name kt vt indent es =
      es.map fun e => (e.1, entryTextOf S name kt vt indent e) := by
  induction es with
  | nil => rw [textEntries, List.map_nil]
  | cons e es ih =>
      obtain ⟨k, v⟩ := e
      rw [textEntries, ih]
      rfl

/-- `sort keys %$val` -/
def sortedEntries (es : List (PerlStr × Val)) : List (PerlStr × Val) :=
  es.insertionSort fun a b => a.1 ≤ b.1

theorem sortedEntries_perm (es : List (PerlStr × Val)) : (sortedEntries es).Perm es :=
  List.perm_insertionSort _ es

theorem sortByKey_ok {name : PerlStr} {kt vt : FieldType} {indent : ℕ} {es : List (PerlStr × Val)}
    {p : PerlStr}
    (h : ((sortByKey (textEntries S name kt vt indent es)).mapM Prod.snd).map List.flatten =
      .ok p) :
    p = (sortedEntries es).flatMap (fun e => printed (entryTextOf S name kt vt indent e)) ∧
      ∀ e ∈ sortedEntries es, entryTextOf S name kt vt indent e =
        .ok (printed (entryTextOf S name kt vt indent e)) := by
  have hsorted : sortByKey (textEntries S name kt vt indent es) =
      (sortedEntries es).map fun e => (e.1, entryTextOf S name kt vt indent e) := by
    rw [textEntries_eq_map, sortByKey, sortedEntries]
    exact (List.map_insertionSort (r := fun a b : PerlStr × Val => a.1 ≤ b.1)
      (s := fun a b : PerlStr × Except Die PerlStr => a.1 ≤ b.1) _ es
      fun _ _ _ _ => Iff.rfl).symm
  rw [hsorted, List.mapM_map] at h
  obtain ⟨parts, hparts, rfl⟩ := map_eq_ok.mp h
  exact mapM_flatten_ok hparts

/-- Entries that correspond in the order of the keys are the same hash. -/
theorem showAlike_of_sorted {es es' : List (PerlStr × Val)} (hnd : (Assoc.keys es).Nodup)
    (hnd' : (Assoc.keys es').Nodup)
    (h : List.Forall₂ (fun e e' => e.1 = e'.1 ∧ ShowAlike e.2 e'.2) (sortedEntries es)
      (sortedEntries es')) : ShowAlike (.hash es) (.hash es') := by
  refine showAlike_hash fun k => ?_
  rw [← Assoc.find_perm (sortedEntries_perm es)
      (((sortedEntries_perm es).map Prod.fst).nodup_iff.mpr hnd),
    ← Assoc.find_perm (sortedEntries_perm es')
      (((sortedEntries_perm es').map Prod.fst).nodup_iff.mpr hnd')]
  generalize sortedEntries es = l at h ⊢
  generalize sortedEntries es' = l' at h ⊢
  induction h with
  | nil => rfl
  | @cons e e' l l' he _ ih =>
      obtain ⟨key, v⟩ := e
      obtain ⟨key', v'⟩ := e'
      obtain ⟨rfl, hv⟩ := he
      rw [Assoc.find_cons, Assoc.find_cons]
      split
      · exact congrArg some hv
      · exact ih

/-- The entries of a map field. -/
theorem entries_splits {name : PerlStr} {kt vt : FieldType} {indent : ℕ}
    {es es' : List (PerlStr × Val)} {p q : PerlStr} (hkt : kt.isKey = true)
    (hk : ∀ k ∈ Assoc.keys es, LegalKey kt k) (hk' : ∀ k ∈ Assoc.keys es', LegalKey kt k)
    (hnd : (Assoc.keys es).Nodup) (hnd' : (Assoc.keys es').Nodup)
    (hvw : ∀ k v k' w, Assoc.find es k = some v → Assoc.find es' k' = some w →
      ValueSplits S vt v w)
    (hp : ((sortByKey (textEntries S name kt vt indent es)).mapM Prod.snd).map List.flatten = .ok p)
    (hq : ((sortByKey (textEntries S name kt vt indent es')).mapM Prod.snd).map List.flatten =
      .ok q) :
    Splits (fun r => ¬ Begins indent name r) p q (ShowAlike (.hash es) (.hash es')) := by
  obtain ⟨rfl, hes⟩ := sortByKey_ok hp
  obtain ⟨rfl, hes'⟩ := sortByKey_ok hq
  refine (Splits.flatMap (fun e he r => entryText_begins (hes e he) r)
    (fun e he r => entryText_begins (hes' e he) r) fun e he e' he' => ?_).mono (fun _ hr => hr)
    (showAlike_of_sorted hnd hnd')
  have hmem := (sortedEntries_perm es).mem_iff.mp he
  have hmem' := (sortedEntries_perm es').mem_iff.mp he'
  exact entry_splits hkt (hk e.1 (Assoc.mem_keys_of_mem hmem)) (hk' e'.1 (Assoc.mem_keys_of_mem hmem'))
    (hvw e.1 e.2 e'.1 e'.2 (Assoc.find_of_mem hnd hmem) (Assoc.find_of_mem hnd' hmem'))
    (hes e he) (hes' e' he')

/-! ### Whole messages -/

/-- The text of a field, by its shape. -/
theorem textFieldAt_singular {f : FieldDef} {indent : ℕ} {v : Val} (hv : v ≠ .undef)
    (hshape : f.shape S = .singular) :
    textFieldAt S indent f v = formatFieldForText f indent v (textOfValue S (indent + 1) v) := by
  cases v with
  | undef => exact absurd rfl hv
  | _ => simp only [textFieldAt, hshape]

theorem textFieldAt_repeated {f : FieldDef} {indent : ℕ} {kind : ArrKind} {xs : List Val}
    (hshape : f.shape S = .repeated) :
    textFieldAt S indent f (.arr kind xs) = textItems S f indent xs := by
  simp only [textFieldAt, hshape]

theorem textFieldAt_map {f : FieldDef} {indent : ℕ} {c : String} {kt vt : FieldType}
    {es : List (PerlStr × Val)} (hshape : f.shape S = .map c)
    (hentry : (S.descriptor c).fields = entryFields kt vt) :
    textFieldAt S indent f (.hash es) =
      ((sortByKey (textEntries S f.name kt vt indent es)).mapM Prod.snd).map List.flatten := by
  have hkey : (S.descriptor c).findFieldByName (ps "key") = some ⟨ps "key", 1, kt, .optional⟩ := by
    rw [MessageDef.findFieldByName_eq_some, hentry]
    simp [entryFields]
  have hvalue : (S.descriptor c).findFieldByName (ps "value") =
      some ⟨ps "value", 2, vt, .optional⟩ := by
    rw [MessageDef.findFieldByName_eq_some, hentry]
    simp [entryFields]
  simp only [textFieldAt, hshape, hkey, hvalue]

theorem Legal.ne_undef {sh : Shape} {t : FieldType} {v : Val} (h : Legal wireLegal S sh t v) :
    v ≠ .undef := by
  cases h with
  | int _ hv => rcases hv with rfl | rfl <;> simp
  | _ => simp

/-- A field is printed as nothing if it holds nothing, and else from its name on. -/
theorem textFieldAt_begins {f : FieldDef} {indent : ℕ} {v : Val} {p : PerlStr}
    (h : Legal wireLegal S (f.shape S) f.type v) (hp : textFieldAt S indent f v = .ok p) :
    (p = [] ∧ v.isEmptyContainer = true) ∨ ∀ r, Begins indent f.name (p ++ r) := by
  cases hshape : f.shape S with
  | singular =>
      rw [textFieldAt_singular h.ne_undef hshape] at hp
      exact .inr (formatFieldForText_begins hp)
  | repeated =>
      rw [hshape] at h
      cases h with
      | @repeated _ kind xs _ =>
          rw [textFieldAt_repeated hshape] at hp
          obtain ⟨rfl, hxs⟩ := textItems_ok hp
          cases xs with
          | nil => exact .inl ⟨rfl, rfl⟩
          | cons x xs =>
              refine .inr fun r => ?_
              rw [List.flatMap_cons, List.append_assoc]
              exact formatFieldForText_begins (hxs x List.mem_cons_self) _
  | map c =>
      rw [hshape] at h
      cases h with
      | @map _ _ kt vt es hentry _ _ _ =>
          rw [textFieldAt_map hshape hentry] at hp
          obtain ⟨rfl, hes⟩ := sortByKey_ok hp
          cases es with
          | nil => exact .inl ⟨rfl, rfl⟩
          | cons e es =>
              obtain ⟨d, l, hsorted⟩ := List.exists_cons_of_ne_nil
                (l := sortedEntries (e :: es)) fun hnil => by
                  simpa [hnil] using (sortedEntries_perm (e :: es)).length_eq
              refine .inr fun r => ?_
              rw [hsorted, List.flatMap_cons, List.append_assoc]
              exact entryText_begins (hes d (hsorted ▸ List.mem_cons_self)) _

/-- What is proved of a legal value: as a value, and as what a field holds. -/
structure ToldApart (S : Pool) (sh : Shape) (t : FieldType) (v : Val) : Prop where
  value : sh = .singular → ∀ w, Legal wireLegal S .singular t w → ValueSplits S t v w
  field : ∀ (f : FieldDef) (indent : ℕ) (w : Val) (p q : PerlStr), f.shape S = sh → f.type = t →
    Legal wireLegal S sh t w → textFieldAt S indent f v = .ok p →
    textFieldAt S indent f w = .ok q →
    Splits (fun r => ¬ Begins indent f.name r) p q (ShowAlike v w)

/-- A singular field is told apart by its value. -/
theorem ToldApart.of_value {t : FieldType} {v : Val} (hv : Legal wireLegal S .singular t v)
    (h : ∀ w, Legal wireLegal S .singular t w → ValueSplits S t v w) :
    ToldApart S .singular t v where
  value _ := h
  field f indent w p q hshape ht hw hp hq := by
    rw [textFieldAt_singular hv.ne_undef hshape] at hp
    rw [textFieldAt_singular hw.ne_undef hshape] at hq
    exact (field_splits (ht ▸ h w hw) hp hq).mono (fun _ _ => trivial) id

/-- Numbers and texts. -/
theorem scalar_splits {t : FieldType} (ht : t.Named) (hne : ∀ c, t ≠ .message c) {v w : Val}
    (hv : Legal wireLegal S .singular t v) (hw : Legal wireLegal S .singular t w) :
    ValueSplits S t v w := by
  refine ⟨fun c hc => absurd hc (hne c), fun _ p q hp hq => ?_⟩
  cases hv with
  | @int _ n _ hn hnum =>
      cases hw with
      | @int _ m _ hm hnum' =>
          rw [formatScalarValue_num hn.1 hnum] at hp
          rw [formatScalarValue_num hm.1 hnum'] at hq
          obtain rfl := Except.ok.inj hp
          obtain rfl := Except.ok.inj hq
          refine (Splits.word (ne_newline_of_mem_numText ht) (ne_newline_of_mem_numText ht)).mono
            (fun _ hr => hr) fun heq => ?_
          obtain rfl := numText_inj ht hn.1 hm.1 heq
          rcases hnum with rfl | rfl <;> rcases hnum' with rfl | rfl <;>
            simp [ShowAlike, dropUnknown]
      | float h _ => rcases h with ⟨rfl, -⟩ | ⟨rfl, -⟩ <;> exact absurd hn.1 not_false
      | text h _ => rcases h with rfl | rfl <;> exact absurd hn.1 not_false
      | msg => exact absurd rfl (hne _)
  | float h _ => rcases h with ⟨rfl, -⟩ | ⟨rfl, -⟩ <;> cases hp
  | @text _ s h _ =>
      cases hw with
      | int hn _ => rcases h with rfl | rfl <;> exact absurd hn.1 not_false
      | float h' _ => rcases h with rfl | rfl <;> simp at h'
      | @text _ s' _ _ =>
          have hp' : formatScalarValue t (.str s) = .ok ([34] ++ escapeText s ++ [34]) := by
            rcases h with rfl | rfl <;> rfl
          have hq' : formatScalarValue t (.str s') = .ok ([34] ++ escapeText s' ++ [34]) := by
            rcases h with rfl | rfl <;> rfl
          rw [hp'] at hp
          rw [hq'] at hq
          obtain rfl := Except.ok.inj hp
          obtain rfl := Except.ok.inj hq
          exact (quoted_splits s s').mono (fun _ hr => hr) fun heq => heq ▸ ShowAlike.refl _
      | msg => exact absurd rfl (hne _)
  | msg => exact absurd rfl (hne _)

/-- What a field says, or that it is not set. -/
def shownContent (fs : List (PerlStr × Val)) (name : PerlStr) : Option Content :=
  (Assoc.find fs name).bind fun v => (dropUnknown v).setContent

theorem setContent_dropUnknown_of_empty {v : Val} (h : v.isEmptyContainer = true) :
    (dropUnknown v).setContent = none := by
  rw [Val.setContent, isEmptyContainer_dropUnknown, if_pos h]

/-- The text at the place of a field shows what the field says. -/
theorem place_splits {f : FieldDef} {indent : ℕ} {fs fs' : List (PerlStr × Val)} {p q : PerlStr}
    (happart : ∀ v, Assoc.find fs f.name = some v → ToldApart S (f.shape S) f.type v)
    (hfs : ∀ v, Assoc.find fs f.name = some v → Legal wireLegal S (f.shape S) f.type v)
    (hfs' : ∀ v, Assoc.find fs' f.name = some v → Legal wireLegal S (f.shape S) f.type v)
    (hp : fieldTextAt S indent fs f = .ok p) (hq : fieldTextAt S indent fs' f = .ok q) :
    Splits (fun r => ¬ Begins indent f.name r) p q
      (shownContent fs f.name = shownContent fs' f.name) := by
  -- a field that is set on one side only would have to be printed as nothing
  have hone : ∀ {v : Val} {p : PerlStr}, Legal wireLegal S (f.shape S) f.type v →
      textFieldAt S indent f v = .ok p → ∀ r r', ¬ Begins indent f.name r' → p ++ r = r' →
      (dropUnknown v).setContent = none ∧ r = r' := by
    intro v p hv hp r r' hr' heq
    rcases textFieldAt_begins hv hp with ⟨rfl, hempty⟩ | hbegins
    · exact ⟨setContent_dropUnknown_of_empty hempty, heq⟩
    · exact absurd (heq ▸ hbegins r) hr'
  unfold fieldTextAt at hp hq
  unfold shownContent
  cases hv : Assoc.find fs f.name with
  | none =>
      rw [hv] at hp
      obtain rfl := Except.ok.inj hp
      cases hw : Assoc.find fs' f.name with
      | none =>
          rw [hw] at hq
          obtain rfl := Except.ok.inj hq
          exact (Splits.refl []).mono (fun _ hr => hr) fun _ => rfl
      | some w =>
          rw [hw] at hq
          intro r r' hr hr' heq
          obtain ⟨hnone, hrr⟩ := hone (hfs' w hw) hq r' r hr heq.symm
          exact ⟨hnone.symm, hrr.symm⟩
  | some v =>
      rw [hv] at hp
      cases hw : Assoc.find fs' f.name with
      | none =>
          rw [hw] at hq
          obtain rfl := Except.ok.inj hq
          intro r r' hr hr' heq
          exact hone (hfs v hv) hp r r' hr' heq
      | some w =>
          rw [hw] at hq
          exact ((happart v hv).field f indent w p q rfl rfl (hfs' w hw) hp hq).mono
            (fun _ hr => hr) setContent_congr

/-- A message is told apart by its fields. -/
theorem message_splits (hS : S.Named) {cls : String} {fs fs' : List (PerlStr × Val)}
    {u u' : Option PerlStr} {indent : ℕ} {p q : PerlStr}
    (hknown : ∀ name ∈ Assoc.keys fs, (S.descriptor cls).findFieldByName name ≠ none)
    (hknown' : ∀ name ∈ Assoc.keys fs', (S.descriptor cls).findFieldByName name ≠ none)
    (hplaces : ∀ f ∈ (S.descriptor cls).fields, ∀ p q, fieldTextAt S indent fs f = .ok p →
      fieldTextAt S indent fs' f = .ok q → Splits (fun r => ¬ Begins indent f.name r) p q
        (shownContent fs f.name = shownContent fs' f.name))
    (hp : joinText (S.descriptor cls) (textChunks S (S.descriptor cls) indent fs) = .ok p)
    (hq : joinText (S.descriptor cls) (textChunks S (S.descriptor cls) indent fs') = .ok q)
    (hbegins : ∀ f ∈ (S.descriptor cls).fields, printed (fieldTextAt S indent fs f) = [] ∨
      ∀ r, Begins indent f.name (printed (fieldTextAt S indent fs f) ++ r))
    (hbegins' : ∀ f ∈ (S.descriptor cls).fields, printed (fieldTextAt S indent fs' f) = [] ∨
      ∀ r, Begins indent f.name (printed (fieldTextAt S indent fs' f) ++ r)) :
    Splits (Closes indent) p q (ShowAlike (.msg cls fs u) (.msg cls fs' u')) := by
  obtain ⟨rfl, hfs⟩ := joinText_ok hp
  obtain ⟨rfl, hfs'⟩ := joinText_ok hq
  have hnames := (S.descriptor cls).names_nodup
  refine (Splits.places (H := fun f => Begins indent f.name)
    (R := fun f => shownContent fs f.name = shownContent fs' f.name) hnames.of_map
    (fun f hf g hg r hr hr' => MessageDef.eq_of_name_eq hf hg
      (hr.name_eq (hS.field cls f hf) (hS.field cls g hg) hr')) hbegins hbegins'
    fun f hf => hplaces f hf _ _ (hfs f hf) (hfs' f hf)).mono
    (fun r hr f _ => hr.not_begins) fun hshown => showAlike_msg fun name => ?_
  cases hfind : (S.descriptor cls).findFieldByName name with
  | none =>
      have hnone : ∀ l : List (PerlStr × Val),
          (∀ n ∈ Assoc.keys l, (S.descriptor cls).findFieldByName n ≠ none) →
          Assoc.find l name = none := fun l hl =>
        Assoc.find_eq_none_iff.mpr fun hmem => hl name hmem hfind
      rw [hnone fs hknown, hnone fs' hknown']
  | some f =>
      obtain ⟨hf, rfl⟩ := MessageDef.findFieldByName_eq_some.mp hfind
      exact hshown f hf

theorem fieldTextAt_begins {cls : String} {fs : List (PerlStr × Val)} {indent : ℕ}
    {f : FieldDef} (hf : f ∈ (S.descriptor cls).fields)
    (hfield : ∀ f ∈ (S.descriptor cls).fields, ∀ v, Assoc.find fs f.name = some v →
      Legal wireLegal S (f.shape S) f.type v)
    (hok : fieldTextAt S indent fs f = .ok (printed (fieldTextAt S indent fs f))) :
    printed (fieldTextAt S indent fs f) = [] ∨
      ∀ r, Begins indent f.name (printed (fieldTextAt S indent fs f) ++ r) := by
  cases hv : Assoc.find fs f.name with
  | none =>
      left
      rw [fieldTextAt, hv]
      rfl
  | some v =>
      have htext : textFieldAt S indent f v = .ok (printed (fieldTextAt S indent fs f)) := by
        rw [← hok, fieldTextAt, hv]
        rfl
      exact (textFieldAt_begins (hfield f hf v hv) htext).imp And.left id

/-- Legal values are told apart by their texts. -/
theorem Legal.toldApart (hS : S.Named) {sh : Shape} {t : FieldType} {v : Val}
    (h : Legal wireLegal S sh t v) (ht : t.Named) : ToldApart S sh t v := by
  induction h with
  | @int t n v hn hv =>
      have hlegal : Legal wireLegal S .singular t v := .int hn hv
      refine .of_value hlegal fun w hw => scalar_splits ht ?_ hlegal hw
      rintro c rfl
      exact hn.1
  | float h ho =>
      have hlegal := Legal.float (L := wireLegal) (S := S) h ho
      refine .of_value hlegal fun w hw => scalar_splits ht ?_ hlegal hw
      rintro c rfl
      simp at h
  | text h ho =>
      have hlegal := Legal.text (L := wireLegal) (S := S) h ho
      refine .of_value hlegal fun w hw => scalar_splits ht ?_ hlegal hw
      rintro c rfl
      simp at h
  | @msg cls fs u hnd hknown hfield hmsg ih =>
      refine .of_value (.msg hnd hknown hfield hmsg) fun w hw =>
        ⟨fun c hc indent p q hp hq => ?_, fun hne => absurd rfl (hne cls)⟩
      cases hw with
      | int hn _ => exact absurd hn.1 not_false
      | float h _ => simp at h
      | text h _ => simp at h
      | @msg _ fs' u' hnd' hknown' hfield' hmsg' =>
          rw [textOfValue] at hp hq
          have hfs := (joinText_ok hp).2
          have hfs' := (joinText_ok hq).2
          exact message_splits hS hknown hknown'
            (fun f hf p q => place_splits
              (fun v hv => ih f hf v hv (hS.type cls f hf)) (hfield f hf) (hfield' f hf)) hp hq
            (fun f hf => fieldTextAt_begins hf hfield (hfs f hf))
            fun f hf => fieldTextAt_begins hf hfield' (hfs' f hf)
  | @repeated t kind xs hxs ih =>
      refine ⟨fun h => absurd h (by simp), fun f indent w p q hshape hft hw hp hq => ?_⟩
      subst hft
      cases hw with
      | @repeated _ kind' ys hys =>
          rw [textFieldAt_repeated hshape] at hp hq
          exact (items_splits (fun x hx y hy => (ih x hx ht).value rfl y (hys y hy)) hp hq).mono
            (fun _ hr => hr) showAlike_arr
  | @map c t kt vt es hentry hnd hkey hes ih =>
      refine ⟨fun h => absurd h (by simp), fun f indent w p q hshape hft hw hp hq => ?_⟩
      cases hw with
      | @map _ _ kt' vt' es' hentry' hnd' hkey' hes' =>
          obtain ⟨rfl, rfl⟩ := entryFields_inj (hentry.symm.trans hentry')
          rw [textFieldAt_map hshape hentry] at hp hq
          obtain ⟨k, v, hk, hfields, -, -⟩ := S.entry_fields (FieldDef.shape_map hshape).2
          obtain ⟨rfl, rfl⟩ := entryFields_inj (hentry.symm.trans hfields)
          have hvt : vt.Named := hS.type c ⟨ps "value", 2, vt, .optional⟩ (by
            rw [hentry]
            simp [entryFields])
          exact entries_splits hk hkey hkey' hnd hnd'
            (fun k v k' w hv hw => (ih k v hv hvt).value rfl w (hes' k' w hw)) hp hq

end

/-- Messages that are all of the type `Simple`. -/
def simplePool : Pool where
  descriptor _ := simpleDef

theorem simplePool_named : simplePool.Named where
  field cls f hf := by
    rw [List.mem_singleton.mp hf]
    exact ⟨⟨110, ps "ame", rfl, by decide⟩, by decide⟩
  type cls f hf values hvalues := by
    rw [List.mem_singleton.mp hf] at hvalues
    cases hvalues

theorem simplePool_legal {name : PerlStr} {u : Option PerlStr} (hname : IsOctets name)
    (hunknown : UnknownFields simpleDef (u.getD [])) :
    (⟨"Simple", [(ps "name", .str name)], u⟩ : Msg).Legal wireLegal simplePool := by
  have hknown : ∀ n ∈ [ps "name"], simpleDef.findFieldByName n ≠ none := by decide
  refine .msg (List.nodup_singleton _) hknown ?_ ⟨rfl, hunknown⟩
  intro f hf v hv
  obtain rfl : f = ⟨ps "name", 1, .string, .optional⟩ := List.mem_singleton.mp hf
  obtain rfl := Option.some.inj hv
  exact .text (.inl rfl) hname

end GooglePerl.Protobuf
