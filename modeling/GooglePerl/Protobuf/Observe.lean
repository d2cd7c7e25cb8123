import GooglePerl.Protobuf.RoundTrip
import GooglePerl.Protobuf.ToPerl
import Mathlib.Data.List.Find

/-!
What a caller can see of a pure-Perl message: `has`, `has_field`, `fields`,
`which_oneof`, `to_perl`, `to_text` and `serialize`.

`get` puts an empty container into the message when a repeated or map field is
read for the first time. The table it goes into is the one that `has`, `fields`
and `to_perl` take for the set of present fields, so these three can tell that
the field was read, while the others cannot.
-/

namespace GooglePerl.Protobuf

open GooglePerl.Lib

/-- `fields`. The descriptor is looked up under `$self->{_mdef}`, which no
message of this engine has, so the first name already calls a method on `undef`. -/
def fields (m : Msg) : Except Die (List FieldDef) :=
  match m.fields with
  | [] => .ok []
  | _ :: _ => .error (.fault (.noMethod "find_field_by_name"))

/-! ### `to_text` -/

/-- `'  ' x $indent` -/
def indentStr (indent : ℕ) : PerlStr := List.replicate (2 * indent) 32

/-- The two substitutions of `_format_scalar_value`: a backslash before every
backslash, then one before every quote. -/
def escapeText (s : PerlStr) : PerlStr :=
  (s.flatMap fun c => if c = 92 then [92, 92] else [c]).flatMap fun c =>
    if c = 34 then [92, 34] else [c]

/-- `_format_scalar_value` -/
def formatScalarValue (t : FieldType) (val : Val) : Except Die PerlStr :=
  match t with
  | .string | .bytes => do
      let s ← val.stringify
      return [34] ++ escapeText s ++ [34]
  | .bool => .ok (if val.truthy then ps "true" else ps "false")
  | .enum (some values) =>
      match val with
      | .iv n | .big n =>
          .ok (((values.find? fun p => p.2 == n).map Prod.fst).getD (decimalText n))
      -- `$value->number == $number` compares numerically
      | .undef => .ok (((values.find? fun p => p.2 == 0).map Prod.fst).getD [])
      | .str s =>
          match readDecimal s with
          | some n => .ok (((values.find? fun p => p.2 == n).map Prod.fst).getD s)
          | none => .error (.fault .floating)
      | val => val.stringify
  | _ => val.stringify

/-- The loop over the descriptor's fields, given the text of each stored value. -/
def joinText (d : MessageDef) (chunks : List (PerlStr × Except Die PerlStr)) :
    Except Die PerlStr := do
  let parts ← d.fields.mapM fun f => (Assoc.find chunks f.name).getD (.ok [])
  return parts.flatten

/-- `sort keys %$val`, with the text of each entry. -/
def sortByKey (entries : List (PerlStr × Except Die PerlStr)) :
    List (PerlStr × Except Die PerlStr) :=
  entries.insertionSort fun p q => p.1 ≤ q.1

/-- `_format_field_for_text`, given the text of the sub-message. -/
def formatFieldForText (f : FieldDef) (indent : ℕ) (val : Val) (subText : Except Die PerlStr) :
    Except Die PerlStr :=
  match f.type with
  | .message _ => do
      let sub ← subText
      return indentStr indent ++ f.name ++ ps " \x7b\n" ++ sub ++ indentStr indent ++ ps "\x7d\n"
  | t => do
      let fmt ← formatScalarValue t val
      return indentStr indent ++ f.name ++ ps ": " ++ fmt ++ ps "\n"

/-- `_format_value_for_text`, given the text of the sub-message. -/
def formatValueForText (t : FieldType) (indent : ℕ) (val : Val) (subText : Except Die PerlStr) :
    Except Die PerlStr :=
  match t with
  | .message _ => do
      let sub ← subText
      return ps "\x7b\n" ++ sub ++ indentStr indent ++ ps "\x7d"
  | t => formatScalarValue t val

/-- The four lines of a map entry. -/
def entryText (name : PerlStr) (indent : ℕ) (key val : Except Die PerlStr) :
    Except Die PerlStr := do
  let key ← key
  let val ← val
  return indentStr indent ++ name ++ ps " \x7b\n" ++
    indentStr indent ++ ps "  key: " ++ key ++ ps "\n" ++
    indentStr indent ++ ps "  value: " ++ val ++ ps "\n" ++
    indentStr indent ++ ps "\x7d\n"

mutual

/-- `to_text` of what a message field holds. `_mdef` finds no descriptor for
`undef` and for objects of other classes, and the text is then empty. -/
def textOfValue (S : Pool) (indent : ℕ) : Val → Except Die PerlStr
  | .msg cls fs _ => joinText (S.descriptor cls) (textChunks S (S.descriptor cls) indent fs)
  | .undef => .ok []
  | .big _ => .ok []
  | .hash es =>
      if (Assoc.find es (ps "_mdef")).any Val.isDefined then .error (.fault .internals)
      else .ok []
  | .iv _ => .error (.fault .notReference)
  | .nv _ => .error (.fault .notReference)
  | .str _ => .error (.fault .notReference)
  | .arr _ _ => .error (.fault .notReference)

/-- The `foreach my $item (@$val)` loop of a repeated field. -/
def textItems (S : Pool) (f : FieldDef) (indent : ℕ) : List Val → Except Die PerlStr
  | [] => .ok []
  | item :: items => do
      let first ← formatFieldForText f indent item (textOfValue S (indent + 1) item)
      let rest ← textItems S f indent items
      return first ++ rest

/-- The text of each entry of a map field, in iteration order. The value is
formatted with `$indent + 2`, its sub-message one step further in. -/
def textEntries (S : Pool) (name : PerlStr) (keyType valType : FieldType) (indent : ℕ) :
    List (PerlStr × Val) → List (PerlStr × Except Die PerlStr)
  | [] => []
  | (k, v) :: es =>
      (k, entryText name indent (formatScalarValue keyType (.str k))
        (formatValueForText valType (indent + 2) v (textOfValue S (indent + 3) v))) ::
      textEntries S name keyType valType indent es

/-- The text of every stored value, under its name. -/
def textChunks (S : Pool) (d : MessageDef) (indent : ℕ) :
    List (PerlStr × Val) → List (PerlStr × Except Die PerlStr)
  | [] => []
  | (name, val) :: fs =>
      (name,
        match d.findFieldByName name with
        | none => .ok []
        | some f =>
            match val with
            | .undef => .ok []
            | val =>
                match f.shape S with
                | .singular => formatFieldForText f indent val (textOfValue S (indent + 1) val)
                | .repeated =>
                    match val with
                    | .arr _ items => textItems S f indent items
                    | _ => .error (.fault .notReference)
                | .map c =>
                    match val with
                    | .hash es =>
                        match (S.descriptor c).findFieldByName (ps "key"),
                          (S.descriptor c).findFieldByName (ps "value") with
                        | some k, some v =>
                            ((sortByKey (textEntries S name k.type v.type indent es)).mapM
                              Prod.snd).map List.flatten
                        | _, _ => .error (.fault (.noMethod "type_number"))
                    -- an object that is a hash inside: its own keys are gone over
                    | .big _ | .msg _ _ _ => .error (.fault .internals)
                    | _ => .error (.fault .notReference)) ::
      textChunks S d indent fs

end

/-- `to_text` -/
def toText (S : Pool) (m : Msg) : Except Die PerlStr :=
  joinText (S.descriptor m.cls) (textChunks S (S.descriptor m.cls) 0 m.fields)

/-- One turn of the loop of `to_text`, for a value that is there. -/
def textField (S : Pool) (f : FieldDef) : Val → Except Die PerlStr
  | .undef => .ok []
  | val =>
      match f.shape S with
      | .singular => formatFieldForText f 0 val (textOfValue S 1 val)
      | .repeated =>
          match val with
          | .arr _ items => textItems S f 0 items
          | _ => .error (.fault .notReference)
      | .map c =>
          match val with
          | .hash es =>
              match (S.descriptor c).findFieldByName (ps "key"),
                (S.descriptor c).findFieldByName (ps "value") with
              | some k, some v =>
                  ((sortByKey (textEntries S f.name k.type v.type 0 es)).mapM Prod.snd).map
                    List.flatten
              | _, _ => .error (.fault (.noMethod "type_number"))
          | .big _ | .msg _ _ _ => .error (.fault .internals)
          | _ => .error (.fault .notReference)

theorem find_textChunks (S : Pool) (d : MessageDef) (fs : List (PerlStr × Val))
    {f : FieldDef} (hf : f ∈ d.fields) :
    Assoc.find (textChunks S d 0 fs) f.name = (Assoc.find fs f.name).map (textField S f) := by
  induction fs with
  | nil => simp [textChunks]
  | cons p fs ih =>
      obtain ⟨name, val⟩ := p
      rw [textChunks, Assoc.find_cons, Assoc.find_cons, ih]
      split
      · rename_i hname
        subst hname
        have hfind : d.findFieldByName f.name = some f :=
          MessageDef.findFieldByName_eq_some.mpr ⟨hf, rfl⟩
        rw [hfind]
        rfl
      · rfl

/-! ### Observers -/

/-- A question about a message. -/
inductive Observer where
  | has (name : PerlStr)
  | hasField (name : PerlStr)
  | fields
  | whichOneof (oneof : PerlStr)
  | toPerl
  | toText
  | serialize

/-- An answer. -/
inductive Observed where
  | flag (b : Bool)
  | defs (r : Except Die (List FieldDef))
  | member (r : Except Die (Option PerlStr))
  | data (r : Except Die PerlData)
  | text (r : Except Die PerlStr)

def observe (S : Pool) (m : Msg) : Observer → Observed
  | .has name => .flag (has m name)
  | .hasField name => .flag (has m name)
  | .fields => .defs (fields m)
  | .whichOneof oneof => .member (whichOneof S m oneof)
  | .toPerl => .data (toPerl S m)
  | .toText => .text (toText S m)
  | .serialize => .text (serialize S m)

/-- The fields that `get` creates when they are not there. -/
def CreatedByGet (S : Pool) (m : Msg) (name : PerlStr) : Prop :=
  has m name = false ∧
    ∃ f, (S.descriptor m.cls).findFieldByName name = some f ∧ f.shape S ≠ .singular

/-- What `get` leaves: the message, or the message with an empty container in
place of the field that was read. -/
theorem get_cases (S : Pool) (m : Msg) (name : PerlStr) :
    (¬ CreatedByGet S m name ∧ (get S m name).2 = m) ∨
    ∃ f e, has m name = false ∧ (S.descriptor m.cls).findFieldByName name = some f ∧
      (get S m name).2 = m.put name e ∧
      ((f.shape S = .repeated ∧ e = .arr .tied []) ∨ ∃ c, f.shape S = .map c ∧ e = .hash []) := by
  unfold CreatedByGet get has
  cases hfind : Assoc.find m.fields name with
  | some v => exact .inl ⟨by simp, rfl⟩
  | none =>
      cases hdef : (S.descriptor m.cls).findFieldByName name with
      | none => exact .inl ⟨by simp, rfl⟩
      | some f =>
          cases hshape : f.shape S with
          | singular => exact .inl ⟨by simp [hshape], by simp [hshape]⟩
          | repeated => exact .inr ⟨f, _, rfl, rfl, by simp [hshape], .inl ⟨hshape, rfl⟩⟩
          | map c => exact .inr ⟨f, _, rfl, rfl, by simp [hshape], .inr ⟨c, hshape, rfl⟩⟩

section Blind

variable {S : Pool} {m : Msg} {name : PerlStr} {f : FieldDef} {e : Val}

/-- A loop over the descriptor that has nothing to say about an empty container
does not notice that one was put in. -/
theorem mapM_put_empty {d : MessageDef} {fs : List (PerlStr × Val)}
    (turn : FieldDef → Val → Except Die PerlStr)
    (hdef : d.findFieldByName name = some f) (hnew : Assoc.find fs name = none)
    (hempty : turn f e = .ok []) :
    (d.fields.mapM fun g => ((Assoc.find (Assoc.store fs name e) g.name).map (turn g)).getD
        (.ok [])) =
      d.fields.mapM fun g => ((Assoc.find fs g.name).map (turn g)).getD (.ok []) := by
  obtain ⟨hf, hname⟩ := MessageDef.findFieldByName_eq_some.mp hdef
  have hturn : ∀ g ∈ d.fields,
      ((Assoc.find (Assoc.store fs name e) g.name).map (turn g)).getD (.ok []) =
        ((Assoc.find fs g.name).map (turn g)).getD (.ok []) := by
    intro g hg
    by_cases hgn : g.name = name
    · have hgf : g = f := MessageDef.eq_of_name_eq hg hf (hgn.trans hname.symm)
      subst hgf
      rw [hgn, hnew]
      simp [hempty]
    · rw [Assoc.find_store_of_ne _ _ hgn]
  exact mapM_congr hturn

/-- A container that `get` creates has nothing to encode. -/
theorem serializeField_empty
    (hshape : (f.shape S = .repeated ∧ e = .arr .tied []) ∨
      ∃ c, f.shape S = .map c ∧ e = .hash []) :
    serializeField S f e = .ok [] := by
  rcases hshape with ⟨hs, rfl⟩ | ⟨c, hs, rfl⟩
  · simp [serializeField, hs, encodeItems]
  · obtain ⟨k, v, -, -, hk, hv⟩ := S.entry_fields (FieldDef.shape_map hs).2
    simp [serializeField, hs, hk, hv, encodeEntries]

/-- Nor has it anything to print. -/
theorem textField_empty
    (hshape : (f.shape S = .repeated ∧ e = .arr .tied []) ∨
      ∃ c, f.shape S = .map c ∧ e = .hash []) :
    textField S f e = .ok [] := by
  rcases hshape with ⟨hs, rfl⟩ | ⟨c, hs, rfl⟩
  · simp [textField, hs, textItems]
  · obtain ⟨k, v, -, hfields, -, -⟩ := S.entry_fields (FieldDef.shape_map hs).2
    have hk : (S.descriptor c).findFieldByName (ps "key") = some ⟨ps "key", 1, k, .optional⟩ := by
      rw [MessageDef.findFieldByName_eq_some, hfields]
      simp [entryFields]
    have hv : (S.descriptor c).findFieldByName (ps "value") =
        some ⟨ps "value", 2, v, .optional⟩ := by
      rw [MessageDef.findFieldByName_eq_some, hfields]
      simp [entryFields]
    simp [textField, hs, hk, hv, textEntries, sortByKey, Except.map]

theorem toText_eq (S : Pool) (m : Msg) :
    toText S m = do
      let parts ← (S.descriptor m.cls).fields.mapM fun f =>
        ((Assoc.find m.fields f.name).map (textField S f)).getD (.ok [])
      return parts.flatten := by
  unfold toText joinText
  rw [mapM_congr fun f hf => by rw [find_textChunks S _ _ hf]]

theorem toText_get (S : Pool) (m : Msg) (name : PerlStr) :
    toText S (get S m name).2 = toText S m := by
  rcases get_cases S m name with ⟨-, h⟩ | ⟨f, e, hnew, hdef, h, hshape⟩
  · rw [h]
  · have hnone : Assoc.find m.fields name = none := by simpa [has] using hnew
    rw [h, toText_eq, toText_eq, Msg.put_cls, Msg.put_fields,
      mapM_put_empty (textField S) hdef hnone (textField_empty hshape)]

theorem missingRequired_put (hdef : (S.descriptor m.cls).findFieldByName name = some f)
    (hshape : f.shape S ≠ .singular) (v : Val) :
    missingRequired (S.descriptor m.cls) (Assoc.store m.fields name v) =
      missingRequired (S.descriptor m.cls) m.fields := by
  unfold missingRequired
  congr 1
  apply List.filter_congr
  intro g hg
  by_cases hgn : g.name = name
  · obtain ⟨hf, hname⟩ := MessageDef.findFieldByName_eq_some.mp hdef
    have hgf : g = f := MessageDef.eq_of_name_eq hg hf (hgn.trans hname.symm)
    have hlabel : g.label ≠ .required := by
      intro hreq
      apply hshape
      rw [← hgf]
      unfold FieldDef.shape
      rw [hreq]
    have hbeq : (g.label == .required) = false := beq_eq_false_iff_ne.mpr hlabel
    rw [hbeq, Bool.false_and, Bool.false_and]
  · rw [Assoc.find_store_of_ne _ _ hgn]

theorem serialize_get (S : Pool) (m : Msg) (name : PerlStr) :
    serialize S (get S m name).2 = serialize S m := by
  rcases get_cases S m name with ⟨-, h⟩ | ⟨f, e, hnew, hdef, h, hshape⟩
  · rw [h]
  · have hnone : Assoc.find m.fields name = none := by simpa [has] using hnew
    have hsing : f.shape S ≠ .singular := by
      rcases hshape with ⟨hs, -⟩ | ⟨c, hs, -⟩ <;> simp [hs]
    rw [h, serialize_eq, serialize_eq, Msg.put_cls, Msg.put_fields, Msg.put_unknown,
      missingRequired_put hdef hsing,
      mapM_put_empty (serializeField S) hdef hnone (serializeField_empty hshape)]

theorem has_put_of_ne {n : PerlStr} (hne : n ≠ name) (v : Val) :
    has (m.put name v) n = has m n := by
  simp only [has, Msg.put_fields, Assoc.find_store_of_ne _ _ hne]

/-- The members of a oneof are singular, so none of them is created by a read. -/
theorem whichOneof_get (S : Pool) (m : Msg) (name oneof : PerlStr) :
    whichOneof S (get S m name).2 oneof = whichOneof S m oneof := by
  rcases get_cases S m name with ⟨-, h⟩ | ⟨f, e, -, hdef, h, hshape⟩
  · rw [h]
  · obtain ⟨hf, hname⟩ := MessageDef.findFieldByName_eq_some.mp hdef
    rw [h]
    unfold whichOneof
    rw [Msg.put_cls]
    cases ho : (S.descriptor m.cls).findOneofByName oneof with
    | none => rfl
    | some o =>
        have hmember : ∀ g ∈ o.fields, has (m.put name e) g.name = has m g.name := by
          intro g hg
          obtain ⟨hgmem, hglabel⟩ := (S.descriptor m.cls).oneofs_singular o
            (List.mem_of_find?_eq_some ho) g hg
          apply has_put_of_ne
          intro hgn
          have hgf : g = f := MessageDef.eq_of_name_eq hgmem hf (hgn.trans hname.symm)
          have hsing : f.shape S = .singular := by
            rw [← hgf]
            exact FieldDef.shape_singular_of_optional hglabel
          rcases hshape with ⟨hs, -⟩ | ⟨c, hs, -⟩ <;> simp [hs] at hsing
        have hfirst : (o.fields.find? fun g => has (m.put name e) g.name) =
            o.fields.find? fun g => has m g.name := List.find?_congr hmember
        simp only [hfirst]

end Blind

/-- The observers that can tell a created field from a missing one. -/
def Observer.Notices (name : PerlStr) : Observer → Prop
  | .has n => n = name
  | .hasField n => n = name
  | .fields => True
  | .whichOneof _ => False
  | .toPerl => True
  | .toText => False
  | .serialize => False

/-- A read is never noticed by `which_oneof`, `to_text` and `serialize`, nor by
`has` of another field. -/
theorem observe_get (S : Pool) (m : Msg) (name : PerlStr) (o : Observer) (h : ¬ o.Notices name) :
    observe S (get S m name).2 o = observe S m o := by
  have hhas : ∀ n, n ≠ name → has (get S m name).2 n = has m n := by
    intro n hne
    rcases get_cases S m name with ⟨-, hg⟩ | ⟨f, e, -, -, hg, -⟩
    · rw [hg]
    · rw [hg, has_put_of_ne hne]
  cases o with
  | has n => exact congrArg Observed.flag (hhas n h)
  | hasField n => exact congrArg Observed.flag (hhas n h)
  | fields => exact absurd trivial h
  | whichOneof oneof => exact congrArg Observed.member (whichOneof_get S m name oneof)
  | toPerl => exact absurd trivial h
  | toText => exact congrArg Observed.text (toText_get S m name)
  | serialize => exact congrArg Observed.text (serialize_get S m name)

end GooglePerl.Protobuf
