import GooglePerl.Protobuf.Accepted
import GooglePerl.Protobuf.Merge

/-!
Parsing into a message, and merging into one, field by field.

Parsing `b` into a message lays what `b` says over what the message says
(`parseInto_overlay`): the last value of a singular field stays, items and
entries are added. `merge` does the same for items and entries
(`mergedField_container`); what it does in a singular field depends on what is
there.
-/

namespace GooglePerl.Protobuf

open GooglePerl.Lib

variable {S : Pool}

/-! ### Parsing over a message -/

/-- Field by field: `both` is `old` with what is in `new` laid over it. -/
def Overlaid (sh : Shape) (old new both : Option Val) : Prop :=
  match sh with
  | .singular => both = new.or old
  | .repeated => itemsOf both = itemsOf old ++ itemsOf new
  | .map _ => ∀ k, Assoc.find (entriesOf both) k =
      (Assoc.find (entriesOf new) k).or (Assoc.find (entriesOf old) k)

theorem Overlaid.refl (sh : Shape) (old : Option Val) : Overlaid sh old none old := by
  cases sh <;> simp [Overlaid]

structure OverlaidMsg (S : Pool) (old new both : Msg) : Prop where
  newCls : new.cls = old.cls
  cls : both.cls = old.cls
  unknown : both.unknown.getD [] = old.unknown.getD [] ++ new.unknown.getD []
  fields : ∀ f ∈ (S.descriptor old.cls).fields, Overlaid (f.shape S) (Assoc.find old.fields f.name)
    (Assoc.find new.fields f.name) (Assoc.find both.fields f.name)

theorem OverlaidMsg.start (m : Msg) : OverlaidMsg S m (.create m.cls) m :=
  ⟨rfl, rfl, by simp, fun _ _ => Overlaid.refl _ _⟩

/-- One more value, stored on both sides. -/
theorem Overlaid.stored {f : FieldDef} {v : Val} {old new both : Option Val} {x : Val}
    (h : Overlaid (f.shape S) old new both) (hv : Parsed S .singular f.type v)
    (hnew : ∀ y, new = some y → Parsed S (f.shape S) f.type y)
    (hboth : ∀ y, both = some y → Parsed S (f.shape S) f.type y)
    (hx : storedValue S f v new = .ok x) :
    ∃ x', storedValue S f v both = .ok x' ∧ Overlaid (f.shape S) old (some x) (some x') := by
  cases hshape : f.shape S with
  | singular =>
      simp only [storedValue, hshape] at hx ⊢
      obtain rfl := Except.ok.inj hx
      exact ⟨v, rfl, by simp [Overlaid]⟩
  | repeated =>
      rw [hshape] at h hnew hboth
      rw [storedValue_items hshape hnew] at hx
      obtain rfl := Except.ok.inj hx
      refine ⟨_, storedValue_items hshape hboth v, ?_⟩
      simp only [Overlaid] at h
      simp [Overlaid, h]
  | map c =>
      rw [hshape] at h hnew hboth
      obtain ⟨htype, hmap⟩ := FieldDef.shape_map hshape
      obtain ⟨kt, vt, -, hentry, -⟩ := S.entry_fields hmap
      rw [htype] at hv
      cases hv with
      | scalar hscalar _ =>
          simp only [storedValue, hshape] at hx
          cases v <;> first
            | exact hscalar.elim
            | cases hx
      | @msg _ fs u hnd hknown hfield =>
          obtain ⟨k, w, -, hstored⟩ :=
            storedValue_entries (u := u) hshape (.msg hnd hknown hfield) hentry
          rw [hstored new hnew] at hx
          obtain rfl := Except.ok.inj hx
          refine ⟨_, hstored both hboth, ?_⟩
          -- the entry is stored over both tables
          intro k'
          simp only [entriesOf_hash, Assoc.find_store]
          by_cases hk : k' = k
          · simp [hk]
          · simp only [hk, if_false]
            exact h k'

theorem parseStep_overlay {data rest : PerlStr} {old new both new' : Msg}
    (h : OverlaidMsg S old new both) (hnew : new.Parsed S) (hboth : both.Parsed S)
    (hstep : parseStep S (parse S) data new = .ok (new', rest)) :
    ∃ both', parseStep S (parse S) data both = .ok (both', rest) ∧
      OverlaidMsg S old new' both' := by
  have hcls : S.descriptor both.cls = S.descriptor new.cls := by rw [h.cls, h.newCls]
  obtain ⟨tagWire, afterTag, hread, ⟨hfind, hskip, rfl⟩ | ⟨f, v, hfind, hdec, hstore⟩⟩ :=
    parseStep_cases hstep
  · refine ⟨_, parseStep_unknown (parse S) hread (hcls ▸ hfind) hskip, h.newCls, h.cls, ?_,
      h.fields⟩
    simp [Msg.keepUnknown, h.unknown]
  · have hf := (MessageDef.findFieldByNumber_eq_some.mp hfind).1
    have hfold : f ∈ (S.descriptor old.cls).fields := h.newCls ▸ hf
    obtain ⟨x, hx, rfl⟩ := map_eq_ok.mp hstore
    have hv := decodeField_parsed hdec fun c bytes inner _ hinner => parse_parsed hinner
    obtain ⟨x', hx', hover⟩ := (h.fields f hfold).stored hv (hnew.inv.2.2 f hf)
      (hboth.inv.2.2 f (hcls ▸ hf)) hx
    have hstore' : storeField S f v both = .ok (both.put f.name x') := by
      simp [storeField, hx', Except.map]
    refine ⟨_, parseStep_known hread (hcls ▸ hfind) hdec hstore', h.newCls, h.cls, h.unknown, ?_⟩
    intro g hg
    simp only [Msg.put_fields, Assoc.find_store]
    by_cases hname : g.name = f.name
    · obtain rfl := MessageDef.eq_of_name_eq hg hfold hname
      simpa using hover
    · simpa [hname] using h.fields g hg

theorem parseInto_overlay {b : PerlStr} {old new both new' : Msg} (h : OverlaidMsg S old new both)
    (hnew : new.Parsed S) (hboth : both.Parsed S) (hrun : parseInto S b new = .ok new') :
    ∃ both', parseInto S b both = .ok both' ∧ OverlaidMsg S old new' both' := by
  have hgoal : OverlaidMsg S old new both → new.Parsed S → both.Parsed S →
      ∃ both', parseInto S b both = .ok both' ∧ OverlaidMsg S old new' both' := by
    refine parseInto_run (motive := fun b new new' => ∀ {both}, OverlaidMsg S old new both →
      new.Parsed S → both.Parsed S →
      ∃ both', parseInto S b both = .ok both' ∧ OverlaidMsg S old new' both') ?_ ?_ hrun
    · intro new both h _ _
      exact ⟨both, parseInto_nil both, h⟩
    · intro data new new₁ rest new' hstep _ ih both h hnew hboth
      obtain ⟨both₁, hstep', h₁⟩ := parseStep_overlay h hnew hboth hstep
      obtain ⟨both', hrun', h'⟩ := ih h₁ (parseStep_parsed hnew hstep)
        (parseStep_parsed hboth hstep')
      exact ⟨both', (parseInto_step hstep').trans hrun', h'⟩
  exact hgoal h hnew hboth

/-! ### Merging over a message -/

/-- What a message says about a field after the overlay. -/
def overlayContent (sh : Shape) (old new : Option Val) : Option Content :=
  match sh with
  | .singular => (new.or old).bind Val.setContent
  | .repeated => (Val.arr .blessed (itemsOf old ++ itemsOf new)).setContent
  | .map _ => (Val.hash (mergeEntries (entriesOf new) (entriesOf old))).setContent

/-- What a parser leaves in a repeated field is told by its items. -/
theorem setContent_items {t : FieldType} {o : Option Val}
    (h : ∀ y, o = some y → Parsed S .repeated t y) :
    o.bind Val.setContent = (Val.arr .blessed (itemsOf o)).setContent := by
  cases o with
  | none => rfl
  | some y =>
      obtain ⟨xs, rfl, -, -⟩ := (h y rfl).repeated_inv
      rfl

theorem setContent_entries {c : String} {t : FieldType} {o : Option Val}
    (h : ∀ y, o = some y → Parsed S (.map c) t y) :
    o.bind Val.setContent = (Val.hash (entriesOf o)).setContent := by
  cases o with
  | none => rfl
  | some y =>
      obtain ⟨_, _, es, rfl, -⟩ := (h y rfl).map_inv
      rfl

theorem nodup_entriesOf {c : String} {t : FieldType} {o : Option Val}
    (h : ∀ y, o = some y → Parsed S (.map c) t y) : (Assoc.keys (entriesOf o)).Nodup := by
  cases o with
  | none => exact List.nodup_nil
  | some y =>
      obtain ⟨_, _, es, rfl, -, -, hnd, -⟩ := (h y rfl).map_inv
      exact hnd

theorem Overlaid.content {sh : Shape} {t : FieldType} {old new both : Option Val}
    (h : Overlaid sh old new both) (hnew : ∀ y, new = some y → Parsed S sh t y)
    (hboth : ∀ y, both = some y → Parsed S sh t y) :
    both.bind Val.setContent = overlayContent sh old new := by
  cases sh with
  | singular => rw [h, overlayContent]
  | repeated => rw [setContent_items hboth, h, overlayContent]
  | map c =>
      rw [setContent_entries hboth, overlayContent]
      apply setContent_congr
      simp only [content_hash, Content.hash.injEq]
      funext k
      rw [h k, find_mergeEntries (nodup_entriesOf hnew)]
      cases Assoc.find (entriesOf new) k <;> simp

variable {d : MessageDef} {fs dst : List (PerlStr × Val)} {f : FieldDef}

theorem mergedField_of_none (h : Assoc.find fs f.name = none) :
    mergedField S d fs dst f.name = .ok (Assoc.find dst f.name) := by
  simp [mergedField, h]

theorem mergedField_of_some (S : Pool) (dst : List (PerlStr × Val))
    (hf : d.findFieldByName f.name = some f) {y : Val}
    (h : Assoc.find fs f.name = some y) (hy : y.isDefined = true) :
    mergedField S d fs dst f.name =
      (mergedValue S f y (mergeVal S y) (Assoc.find dst f.name)).map some := by
  simp [mergedField, h, hf, hy]

/-- A singular field takes a copy, unless there is something to merge a message into. -/
theorem mergedValue_clone (hshape : f.shape S = .singular) {old : Option Val}
    (h : old = none ∨ ∀ c, f.type ≠ .message c) (val : Val)
    (mergeSub : Val → Except (Die × Val) Val) :
    mergedValue S f val mergeSub old = .ok (deepClone val) := by
  simp only [mergedValue, hshape]
  split
  · next htype =>
      rcases h with h | h
      · cases h
      · exact absurd htype (h _)
  · rfl

theorem mergedValue_message (hshape : f.shape S = .singular) {c : String}
    (htype : f.type = .message c) (x val : Val) (mergeSub : Val → Except (Die × Val) Val) :
    mergedValue S f val mergeSub (some x) = mergeSub x := by
  simp [mergedValue, hshape, htype]

/-- Items and entries are merged as they are parsed. -/
theorem mergedField_container (hf : d.findFieldByName f.name = some f)
    (hne : f.shape S ≠ .singular)
    (hold : ∀ y, Assoc.find dst f.name = some y → Parsed S (f.shape S) f.type y)
    (hnew : ∀ y, Assoc.find fs f.name = some y → Parsed S (f.shape S) f.type y) :
    ∃ o, mergedField S d fs dst f.name = .ok o ∧ o.bind Val.setContent =
      overlayContent (f.shape S) (Assoc.find dst f.name) (Assoc.find fs f.name) := by
  cases hshape : f.shape S with
  | singular => exact absurd hshape hne
  | repeated =>
      rw [hshape] at hold hnew
      cases hy : Assoc.find fs f.name with
      | none =>
          refine ⟨_, mergedField_of_none hy, ?_⟩
          rw [setContent_items hold]
          simp [overlayContent]
      | some y =>
          obtain ⟨ys, rfl, -, -⟩ := (hnew y hy).repeated_inv
          refine
            ⟨some (.arr .blessed (itemsOf (Assoc.find dst f.name) ++ deepCloneList ys)), ?_, ?_⟩
          · rw [mergedField_of_some S dst hf hy rfl]
            simp only [mergedValue, hshape]
            cases hx : Assoc.find dst f.name with
            | none => rfl
            | some x =>
                obtain ⟨xs, rfl, -, -⟩ := (hold x hx).repeated_inv
                rfl
          · apply setContent_congr
            simp [deepCloneList_eq_map]
  | map c =>
      rw [hshape] at hold hnew
      cases hy : Assoc.find fs f.name with
      | none =>
          refine ⟨_, mergedField_of_none hy, ?_⟩
          rw [setContent_entries hold]
          simp [overlayContent, mergeEntries]
      | some y =>
          obtain ⟨_, _, es, rfl, -⟩ := (hnew y hy).map_inv
          refine ⟨some (.hash (mergeEntries es (entriesOf (Assoc.find dst f.name)))), ?_, rfl⟩
          rw [mergedField_of_some S dst hf hy rfl]
          simp only [mergedValue, hshape]
          cases hx : Assoc.find dst f.name with
          | none => rfl
          | some x =>
              obtain ⟨_, _, es', rfl, -⟩ := (hold x hx).map_inv
              rfl

end GooglePerl.Protobuf
