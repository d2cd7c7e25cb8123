import GooglePerl.Lib.Except
import GooglePerl.Protobuf.Access

/-!
`merge` and `copy` of `Protobuf::Engine::PurePerl`.

Every field of the source is merged into the field of the same name of the
destination, by the shape of the field. Unknown fields are not looked at. A
value in a message field need not be a message object: a field that occurred
with another wire type left a number or `undef` there, and `merge` goes on with
whatever it finds. Dying leaves what was merged so far, so errors carry it.
-/

namespace GooglePerl.Protobuf

open GooglePerl.Lib

/-- `foreach my $k (keys %$val) { $hash->{$k} = _deep_clone($val->{$k}) }` -/
def mergeEntries : List (PerlStr × Val) → List (PerlStr × Val) → List (PerlStr × Val)
  | [], table => table
  | (k, v) :: es, table => mergeEntries es (Assoc.store table k (deepClone v))

/-- The map branch: the field's new value, given the old one. -/
def mergeMap (val : Val) (old : Option Val) : Except (Die × Val) Val :=
  match (old.filter Val.truthy).getD (.hash []) with
  | .hash table =>
      match val with
      | .hash es => .ok (.hash (mergeEntries es table))
      | .big _ | .msg _ _ _ => .error (.fault .internals, .hash table)
      | _ => .error (.fault .notReference, .hash table)
  | .big n => .error (.fault .internals, .big n)
  | .msg c fs u => .error (.fault .internals, .msg c fs u)
  | v => .error (.fault .notReference, v)

/-- The repeated branch. -/
def mergeRepeated (S : Pool) (f : FieldDef) (val : Val) (old : Option Val) :
    Except (Die × Val) Val :=
  match (old.filter Val.truthy).getD (.arr .blessed []) with
  | .arr kind xs =>
      match val with
      | .arr _ ys =>
          match kind with
          | .tied =>
              match pushTied S f xs (deepCloneList ys) with
              | .ok zs => .ok (.arr .tied zs)
              | .error (e, zs) => .error (e, .arr .tied zs)
          | kind => .ok (.arr kind (xs ++ deepCloneList ys))
      | _ => .error (.fault .notReference, .arr kind xs)
  | v => .error (.fault .notReference, v)

/-- The body of the loop for a defined value: the field's new value, given the old
one and the recursive call. -/
def mergedValue (S : Pool) (f : FieldDef) (val : Val) (mergeSub : Val → Except (Die × Val) Val)
    (old : Option Val) : Except (Die × Val) Val :=
  match f.shape S with
  | .map _ => mergeMap val old
  | .repeated => mergeRepeated S f val old
  | .singular =>
      match f.type, old with
      | .message _, some x => mergeSub x
      | _, _ => .ok (deepClone val)

mutual

/-- `$self->merge($dst, $val)` on the values of a message field. A number or
`undef` has no descriptor, which matters only when there is a field to look up;
a `Math::BigInt` in place of the source has no fields. -/
def mergeVal (S : Pool) : Val → Val → Except (Die × Val) Val
  | .msg _ fs _, .msg c dst u =>
      match mergeFields S (S.descriptor c) fs dst with
      | .ok r => .ok (.msg c r u)
      | .error (e, r) => .error (e, .msg c r u)
  -- a field that was set to undef exists, but has no descriptor: the first defined value dies
  | .msg _ fs _, .undef =>
      if fs.all fun p => !p.2.isDefined then .ok .undef
      else .error (.fault (.noMethod "find_field_by_name"), .undef)
  | .msg _ fs _, .big n =>
      if fs.all fun p => !p.2.isDefined then .ok (.big n)
      else .error (.fault (.noMethod "find_field_by_name"), .big n)
  | .msg _ fs _, .hash es =>
      if fs.all fun p => !p.2.isDefined then .ok (.hash es)
      else .error (.fault (.noMethod "find_field_by_name"), .hash es)
  | .big _, .msg c dst u => .ok (.msg c dst u)
  | .big _, .undef => .ok .undef
  | .big _, .big n => .ok (.big n)
  | .big _, .hash es => .ok (.hash es)
  | .hash _, dst => .error (.fault .internals, dst)
  | _, dst => .error (.fault .notReference, dst)

/-- The loop of `merge` over the source's fields. -/
def mergeFields (S : Pool) (d : MessageDef) :
    List (PerlStr × Val) → List (PerlStr × Val) →
      Except (Die × List (PerlStr × Val)) (List (PerlStr × Val))
  | [], dst => .ok dst
  | (name, val) :: fs, dst =>
      match val with
      | .undef => mergeFields S d fs dst
      | val =>
          match d.findFieldByName name with
          | none => mergeFields S d fs dst
          | some f =>
              match mergedValue S f val (mergeVal S val) (Assoc.find dst name) with
              | .ok x => mergeFields S d fs (Assoc.store dst name x)
              | .error (e, x) => .error (e, Assoc.store dst name x)

end

/-- `merge` -/
def merge (S : Pool) (dst src : Msg) : Except (Die × Msg) Msg :=
  match mergeFields S (S.descriptor dst.cls) src.fields dst.fields with
  | .ok fields => .ok { dst with fields := fields }
  | .error (e, fields) => .error (e, { dst with fields := fields })

/-- `copy`: the field table is replaced by a new one, which is filled from the
source. `_unknown_fields` stay as they are on both sides. -/
def copy (dst src : Msg) : Msg := { dst with fields := mergeEntries src.fields [] }

/-- `copy` of a message to itself: the table it reads is the new one. -/
def copySelf (m : Msg) : Msg := { m with fields := [] }

/-! ### Name by name -/

/-- What one name holds after the merge. -/
def mergedField (S : Pool) (d : MessageDef) (fs dst : List (PerlStr × Val)) (name : PerlStr) :
    Except (Die × Val) (Option Val) :=
  match Assoc.find fs name, d.findFieldByName name with
  | some val, some f =>
      if val.isDefined then
        (mergedValue S f val (mergeVal S val) (Assoc.find dst name)).map some
      else .ok (Assoc.find dst name)
  | _, _ => .ok (Assoc.find dst name)

/-- A field that is skipped: `undef`, or not in the descriptor. -/
theorem mergeFields_skip (S : Pool) {d : MessageDef} {name : PerlStr} {val : Val}
    (h : val.isDefined = false ∨ d.findFieldByName name = none) (fs dst : List (PerlStr × Val)) :
    mergeFields S d ((name, val) :: fs) dst = mergeFields S d fs dst := by
  cases val with
  | undef => rw [mergeFields]
  | _ =>
      rw [mergeFields]
      · rw [h.resolve_left (by simp [Val.isDefined])]
      · simp

theorem mergeFields_cons (S : Pool) {d : MessageDef} {name : PerlStr} {val : Val} {f : FieldDef}
    (hval : val.isDefined = true) (hf : d.findFieldByName name = some f)
    (fs dst : List (PerlStr × Val)) :
    mergeFields S d ((name, val) :: fs) dst =
      match mergedValue S f val (mergeVal S val) (Assoc.find dst name) with
      | .ok x => mergeFields S d fs (Assoc.store dst name x)
      | .error (e, x) => .error (e, Assoc.store dst name x) := by
  cases val with
  | undef => cases hval
  | _ =>
      rw [mergeFields]
      · rw [hf]
      · simp

theorem mergedField_cons_self (S : Pool) {d : MessageDef} {name : PerlStr} {val : Val}
    {f : FieldDef} (hval : val.isDefined = true) (hf : d.findFieldByName name = some f)
    (fs dst : List (PerlStr × Val)) :
    mergedField S d ((name, val) :: fs) dst name =
      (mergedValue S f val (mergeVal S val) (Assoc.find dst name)).map some := by
  simp [mergedField, Assoc.find_cons, hf, hval]

/-- A name that the rest of the loop does not touch. -/
theorem mergedField_of_not_mem (S : Pool) (d : MessageDef) {fs : List (PerlStr × Val)}
    {name : PerlStr} (h : name ∉ Assoc.keys fs) (dst : List (PerlStr × Val)) :
    mergedField S d fs dst name = .ok (Assoc.find dst name) := by
  simp [mergedField, Assoc.find_eq_none_iff.mpr h]

theorem mergedField_congr (S : Pool) (d : MessageDef) (fs : List (PerlStr × Val))
    {dst dst' : List (PerlStr × Val)} {name : PerlStr}
    (h : Assoc.find dst name = Assoc.find dst' name) :
    mergedField S d fs dst name = mergedField S d fs dst' name := by
  simp [mergedField, h]

theorem mergedField_cons_of_ne (S : Pool) (d : MessageDef) {k name : PerlStr} (hne : name ≠ k)
    (val : Val) (fs dst : List (PerlStr × Val)) :
    mergedField S d ((k, val) :: fs) dst name = mergedField S d fs dst name := by
  simp [mergedField, Assoc.find_cons, hne]

/-- A name that fails is one of the source's. -/
theorem ne_of_mergedField_error {d : MessageDef} {fs dst : List (PerlStr × Val)} {k name : PerlStr}
    {e : Die × Val} (hk : k ∉ Assoc.keys fs) (h : mergedField S d fs dst name = .error e) :
    name ≠ k := by
  rintro rfl
  rw [mergedField_of_not_mem S d hk] at h
  cases h

/-- The loop succeeds exactly when every name does, and then leaves for each name
what the merge of that name gives. -/
theorem mergeFields_spec (S : Pool) (d : MessageDef) {fs : List (PerlStr × Val)}
    (hnd : (Assoc.keys fs).Nodup) (dst : List (PerlStr × Val)) :
    (∃ r, mergeFields S d fs dst = .ok r ∧
        ∀ name, mergedField S d fs dst name = .ok (Assoc.find r name)) ∨
      (∃ e, mergeFields S d fs dst = .error e) ∧
        ∃ name e, mergedField S d fs dst name = .error e := by
  induction fs generalizing dst with
  | nil =>
      refine .inl ⟨dst, by rw [mergeFields], fun name => ?_⟩
      exact mergedField_of_not_mem S d (by simp [Assoc.keys]) dst
  | cons p fs ih =>
      obtain ⟨k, val⟩ := p
      obtain ⟨hk, hnd'⟩ : k ∉ Assoc.keys fs ∧ (Assoc.keys fs).Nodup := by
        simpa [Assoc.keys] using hnd
      by_cases hskip : val.isDefined = false ∨ d.findFieldByName k = none
      · -- the turn changes nothing: undef, or a name that is no field
        have hself : mergedField S d ((k, val) :: fs) dst k = .ok (Assoc.find dst k) := by
          rcases hskip with hval | hf
          · cases hf : d.findFieldByName k <;> simp [mergedField, Assoc.find_cons, hf, hval]
          · simp [mergedField, Assoc.find_cons, hf]
        rw [mergeFields_skip S hskip]
        rcases ih hnd' dst with ⟨r, hr, hall⟩ | ⟨herr, name, e, hname⟩
        · refine .inl ⟨r, hr, fun name => ?_⟩
          by_cases hne : name = k
          · subst hne
            rw [hself, ← hall, mergedField_of_not_mem S d hk]
          · rw [mergedField_cons_of_ne S d hne, hall]
        · refine .inr ⟨herr, name, e, ?_⟩
          rw [mergedField_cons_of_ne S d (ne_of_mergedField_error hk hname), hname]
      · push Not at hskip
        have hval : val.isDefined = true := by simpa using hskip.1
        obtain ⟨f, hf⟩ := Option.ne_none_iff_exists'.mp hskip.2
        have hself := mergedField_cons_self S hval hf fs dst
        rw [mergeFields_cons S hval hf]
        cases hx : mergedValue S f val (mergeVal S val) (Assoc.find dst k) with
        | error e =>
            obtain ⟨e, x⟩ := e
            exact .inr ⟨⟨_, rfl⟩, k, (e, x), by rw [hself, hx]; rfl⟩
        | ok x =>
            -- the later turns see the new value under `k` only, and no later name is `k`
            have hother : ∀ name, name ≠ k →
                mergedField S d fs (Assoc.store dst k x) name =
                  mergedField S d ((k, val) :: fs) dst name := by
              intro name hne
              rw [mergedField_cons_of_ne S d hne]
              exact mergedField_congr S d fs (Assoc.find_store_of_ne dst x hne)
            rcases ih hnd' (Assoc.store dst k x) with ⟨r, hr, hall⟩ | ⟨herr, name, e, hname⟩
            · refine .inl ⟨r, hr, fun name => ?_⟩
              by_cases hne : name = k
              · subst hne
                rw [hself, hx, ← hall, mergedField_of_not_mem S d hk, Assoc.find_store_self]
                rfl
              · rw [← hother name hne, hall]
            · refine .inr ⟨herr, name, e, ?_⟩
              rw [← hother name (ne_of_mergedField_error hk hname), hname]

theorem find_mergeEntries {es : List (PerlStr × Val)} (hnd : (Assoc.keys es).Nodup)
    (table : List (PerlStr × Val)) (k : PerlStr) :
    Assoc.find (mergeEntries es table) k =
      ((Assoc.find es k).map deepClone).or (Assoc.find table k) := by
  induction es generalizing table with
  | nil => simp [mergeEntries]
  | cons p es ih =>
      obtain ⟨k', v⟩ := p
      obtain ⟨hk', hnd'⟩ : k' ∉ Assoc.keys es ∧ (Assoc.keys es).Nodup := by
        simpa [Assoc.keys] using hnd
      rw [mergeEntries, ih hnd', Assoc.find_store, Assoc.find_cons]
      by_cases hk : k = k'
      · subst hk
        simp [Assoc.find_eq_none_iff.mpr hk']
      · simp [hk]

end GooglePerl.Protobuf
