import GooglePerl.Protobuf.Overlay
import GooglePerl.Protobuf.RoundTrip

/-!
Parsing a concatenation is merging, as far as it goes.

Parsing `b` into the message parsed from `a` is parsing `a ++ b`. `merge` of the
message parsed from `b` differs in two ways. It does not look at unknown fields,
and it merges a sub-message into the one that is there where the parser replaces
it. `concat_merge_iff` says for which messages the difference cannot be seen.
-/

namespace GooglePerl.Protobuf

open GooglePerl.Lib

variable {S : Pool}

/-! ### What merging is for -/

/-- The items of a repeated field, as a message tells them. -/
def Content.items : Option Content → List Content
  | some (.arr xs) => xs
  | _ => []

def Content.entry : Option Content → PerlStr → Option Content
  | some (.hash e) => e
  | _ => fun _ => none

def Content.IsMessage : Content → Prop
  | .msg _ _ _ => True
  | _ => False

/-- The rules of merging a message into another one: the last value of a singular
field stays, two sub-messages are merged, items and unknown fields are appended,
entries are overwritten. -/
inductive Combined (S : Pool) : Content → Content → Content → Prop where
  | msg {cls : String} {old new both : PerlStr → Option Content} {u u' : PerlStr}
      (hlast : ∀ f ∈ (S.descriptor cls).fields, f.shape S = .singular →
        (∀ x y, old f.name = some x → new f.name = some y → ¬ (x.IsMessage ∧ y.IsMessage)) →
        both f.name = (new f.name).or (old f.name))
      (hsub : ∀ f ∈ (S.descriptor cls).fields, f.shape S = .singular → ∀ x y z,
        old f.name = some x → new f.name = some y → both f.name = some z →
        x.IsMessage → y.IsMessage → Combined S x y z)
      (hset : ∀ f ∈ (S.descriptor cls).fields, f.shape S = .singular →
        both f.name = none → new f.name = none)
      (hitems : ∀ f ∈ (S.descriptor cls).fields, f.shape S = .repeated →
        Content.items (both f.name) = Content.items (old f.name) ++ Content.items (new f.name))
      (hentries : ∀ f ∈ (S.descriptor cls).fields, ∀ c, f.shape S = .map c → ∀ k,
        Content.entry (both f.name) k =
          (Content.entry (new f.name) k).or (Content.entry (old f.name) k)) :
      Combined S (.msg cls old u) (.msg cls new u') (.msg cls both (u ++ u'))

/-- The rules for one field. -/
def CombinedField (S : Pool) (f : FieldDef) (old new both : Option Content) : Prop :=
  match f.shape S with
  | .singular =>
      ((∀ x y, old = some x → new = some y → ¬ (x.IsMessage ∧ y.IsMessage)) → both = new.or old) ∧
      (∀ x y z, old = some x → new = some y → both = some z → x.IsMessage → y.IsMessage →
        Combined S x y z) ∧
      (both = none → new = none)
  | .repeated => Content.items both = Content.items old ++ Content.items new
  | .map _ => ∀ k, Content.entry both k = (Content.entry new k).or (Content.entry old k)

theorem combined_msg_iff {cls : String} {old new both : PerlStr → Option Content}
    {u u' w : PerlStr} :
    Combined S (.msg cls old u) (.msg cls new u') (.msg cls both w) ↔ w = u ++ u' ∧
      ∀ f ∈ (S.descriptor cls).fields,
        CombinedField S f (old f.name) (new f.name) (both f.name) := by
  constructor
  · intro h
    cases h with
    | msg hlast hsub hset hitems hentries =>
        refine ⟨rfl, fun f hf => ?_⟩
        unfold CombinedField
        split
        · next hshape => exact ⟨hlast f hf hshape, hsub f hf hshape, hset f hf hshape⟩
        · next hshape => exact hitems f hf hshape
        · next c hshape => exact hentries f hf c hshape
  · rintro ⟨rfl, h⟩
    refine .msg ?_ ?_ ?_ ?_ ?_
    · intro f hf hshape
      have hfield := h f hf
      simp only [CombinedField, hshape] at hfield
      exact hfield.1
    · intro f hf hshape
      have hfield := h f hf
      simp only [CombinedField, hshape] at hfield
      exact hfield.2.1
    · intro f hf hshape
      have hfield := h f hf
      simp only [CombinedField, hshape] at hfield
      exact hfield.2.2
    · intro f hf hshape
      have hfield := h f hf
      simpa only [CombinedField, hshape] using hfield
    · intro f hf c hshape
      have hfield := h f hf
      simpa only [CombinedField, hshape] using hfield

/-! ### Contents of fields -/

@[simp] theorem items_setContent (kind : ArrKind) (xs : List Val) :
    Content.items (Val.arr kind xs).setContent = xs.map Val.content := by
  cases xs <;> simp [Val.setContent, Val.isEmptyContainer, Content.items]

@[simp] theorem entry_setContent (es : List (PerlStr × Val)) (k : PerlStr) :
    Content.entry (Val.hash es).setContent k = (Assoc.find es k).map Val.content := by
  cases es <;> simp [Val.setContent, Val.isEmptyContainer, Content.entry]

theorem setContent_hash_iff {es es' : List (PerlStr × Val)} :
    (Val.hash es).setContent = (Val.hash es').setContent ↔
      ∀ k, (Assoc.find es k).map Val.content = (Assoc.find es' k).map Val.content := by
  constructor
  · intro h k
    simpa using congrFun (congrArg Content.entry h) k
  · intro h
    exact setContent_congr (by simp [h])

theorem Parsed.setContent {t : FieldType} {v : Val} (h : Parsed S .singular t v) :
    v.setContent = some v.content := by
  cases h with
  | scalar hscalar _ => cases v <;> first | exact hscalar.elim | rfl
  | msg hnd hknown hfield => rfl

theorem eq_content_of_setContent {v : Val} {c : Content} (h : v.setContent = some c) :
    v.content = c := by
  unfold Val.setContent at h
  split at h
  · cases h
  · exact Option.some.inj h

theorem content_eq_undef {v : Val} : v.content = .undef ↔ v = .undef := by
  cases v <;> simp [Val.content]

/-! ### Where merging and parsing agree -/

/-- `new` says at least what `old` says about a field, so that nothing of `old` shows
below it. -/
def Covers (sh : Shape) (old new : Option Val) : Prop :=
  match sh with
  | .singular => new = none → old = none
  | .repeated => old = none
  | .map _ => ∀ k ∈ Assoc.keys (entriesOf old), k ∈ Assoc.keys (entriesOf new)

/-- Merging the value `y` of a message field into `x` gives `y`. -/
inductive Absorbed (S : Pool) : Val → Val → Prop where
  | big (n : ℤ) : Absorbed S (.big n) (.big n)
  | msg {cls : String} {dst fs : List (PerlStr × Val)} {u u' : Option PerlStr}
      (hu : u.getD [] = []) (hu' : u'.getD [] = [])
      (hcovers : ∀ f ∈ (S.descriptor cls).fields,
        Covers (f.shape S) (Assoc.find dst f.name) (Assoc.find fs f.name))
      (hundef : ∀ f ∈ (S.descriptor cls).fields, f.shape S = .singular →
        Assoc.find fs f.name = some .undef → Assoc.find dst f.name = some .undef)
      (hsub : ∀ f ∈ (S.descriptor cls).fields, f.shape S = .singular → ∀ c, f.type = .message c →
        ∀ x y, Assoc.find dst f.name = some x → Assoc.find fs f.name = some y → y ≠ .undef →
        Absorbed S x y) :
      Absorbed S (.msg cls dst u) (.msg cls fs u')

/-- In this field merging leaves what parsing leaves. -/
def MergesField (S : Pool) (f : FieldDef) (old new : Option Val) : Prop :=
  f.shape S = .singular → ∀ y, new = some y → (y = .undef → old = some .undef) ∧
    (y ≠ .undef → ∀ c, f.type = .message c → ∀ x, old = some x → Absorbed S x y)

theorem overlayContent_eq_new_iff {sh : Shape} {t : FieldType} {old new : Option Val}
    (hold : ∀ y, old = some y → Parsed S sh t y) (hnew : ∀ y, new = some y → Parsed S sh t y) :
    overlayContent sh old new = new.bind Val.setContent ↔ Covers sh old new := by
  cases sh with
  | singular =>
      cases new with
      | some y => simp [overlayContent, Covers]
      | none =>
          cases old with
          | none => simp [overlayContent, Covers]
          | some x => simp [overlayContent, Covers, (hold x rfl).setContent]
  | repeated =>
      rw [setContent_items hnew, overlayContent, setContent_arr_inj]
      cases old with
      | none => simp [Covers]
      | some x =>
          obtain ⟨xs, rfl, hne, -⟩ := (hold x rfl).repeated_inv
          simp [Covers, hne]
  | map c =>
      rw [setContent_entries hnew, overlayContent, setContent_hash_iff]
      simp only [Covers]
      refine forall_congr' fun k => ?_
      rw [find_mergeEntries (nodup_entriesOf hnew), ← not_imp_not, ← Assoc.find_eq_none_iff,
        ← Assoc.find_eq_none_iff]
      cases Assoc.find (entriesOf new) k with
      | none => simp
      | some y => simp

/-- A field that obeys the rules and shows only `new` is covered by it. -/
theorem CombinedField.covers {f : FieldDef} {old new : Option Val}
    (hold : ∀ y, old = some y → Parsed S (f.shape S) f.type y)
    (hnew : ∀ y, new = some y → Parsed S (f.shape S) f.type y)
    (h : CombinedField S f (old.bind Val.setContent) (new.bind Val.setContent)
      (new.bind Val.setContent)) :
    overlayContent (f.shape S) old new = new.bind Val.setContent := by
  cases hshape : f.shape S with
  | singular =>
      simp only [CombinedField, hshape] at h
      cases new with
      | some y => rfl
      | none =>
          have hlast := h.1 (by simp)
          simpa [overlayContent] using hlast.symm
  | repeated =>
      simp only [CombinedField, hshape] at h hold hnew
      rw [setContent_items hold, setContent_items hnew] at h
      rw [setContent_items hnew, overlayContent, setContent_arr_inj, List.map_append]
      simpa using h.symm
  | map c =>
      simp only [CombinedField, hshape] at h hold hnew
      rw [setContent_entries hold, setContent_entries hnew] at h
      rw [setContent_entries hnew, overlayContent, setContent_hash_iff]
      intro k
      have hk := h k
      rw [entry_setContent, entry_setContent] at hk
      rw [find_mergeEntries (nodup_entriesOf hnew), hk]
      cases Assoc.find (entriesOf new) k <;> simp

/-- The merge of two sub-messages is what the parser leaves, and is what the rules say. -/
def SubMerges (S : Pool) (x y : Val) : Prop :=
  (∃ z, mergeVal S y x = .ok z ∧ z.content = y.content) ∧
    (x.content.IsMessage → y.content.IsMessage → Combined S x.content y.content y.content)

variable {d : MessageDef} {fs dst : List (PerlStr × Val)} {f : FieldDef}

theorem Parsed.not_isMessage {t : FieldType} {v : Val} (h : Parsed S .singular t v)
    (ht : ∀ c, t ≠ .message c) : ¬ v.content.IsMessage := by
  cases h with
  | scalar hscalar _ =>
      cases v <;> first | exact hscalar.elim | simp [Val.content, Content.IsMessage]
  | msg hnd hknown hfield => exact absurd rfl (ht _)

/-- In a singular field the last value stays, unless there are two messages. -/
theorem combinedField_last (hshape : f.shape S = .singular) (old new : Option Content)
    (h : ∀ x y, old = some x → new = some y → ¬ (x.IsMessage ∧ y.IsMessage)) :
    CombinedField S f old new (new.or old) := by
  simp only [CombinedField, hshape]
  refine ⟨fun _ => trivial, fun x y z hx hy _ hxm hym => absurd ⟨hxm, hym⟩ (h x y hx hy), ?_⟩
  intro hnone
  exact (Option.or_eq_none_iff.mp hnone).1

theorem combinedField_messages (hshape : f.shape S = .singular) (x y : Content) :
    CombinedField S f (some x) (some y) (some y) ↔
      (x.IsMessage → y.IsMessage → Combined S x y y) := by
  simp [CombinedField, hshape]

theorem mergedField_singular_iff (hf : d.findFieldByName f.name = some f)
    (hshape : f.shape S = .singular)
    (hold : ∀ y, Assoc.find dst f.name = some y → Parsed S .singular f.type y)
    (hnew : ∀ y, Assoc.find fs f.name = some y → Parsed S .singular f.type y)
    (hsub : ∀ c, f.type = .message c → ∀ x y, Assoc.find dst f.name = some x →
      Assoc.find fs f.name = some y → y ≠ .undef → (SubMerges S x y ↔ Absorbed S x y)) :
    ((∃ o, mergedField S d fs dst f.name = .ok o ∧ o.bind Val.setContent =
        overlayContent .singular (Assoc.find dst f.name) (Assoc.find fs f.name)) ∧
      CombinedField S f ((Assoc.find dst f.name).bind Val.setContent)
        ((Assoc.find fs f.name).bind Val.setContent)
        (overlayContent .singular (Assoc.find dst f.name) (Assoc.find fs f.name))) ↔
      MergesField S f (Assoc.find dst f.name) (Assoc.find fs f.name) := by
  simp only [overlayContent]
  cases hy : Assoc.find fs f.name with
  | none =>
      have hlast := combinedField_last hshape ((Assoc.find dst f.name).bind Val.setContent) none
        (by simp)
      simpa [MergesField, mergedField_of_none hy] using hlast
  | some y =>
      have hyc := (hnew y hy).setContent
      simp only [MergesField, hshape, forall_const, Option.some.injEq, forall_eq',
        Option.bind_some, hyc, Option.some_or]
      by_cases hundef : y = .undef
      · subst hundef
        -- undef leaves the destination as it is
        have hmerged : mergedField S d fs dst f.name = .ok (Assoc.find dst f.name) := by
          simp [mergedField, hy, hf, Val.isDefined]
        have hlast := combinedField_last hshape ((Assoc.find dst f.name).bind Val.setContent)
          (some Val.undef.content) (by
            rintro x y - hy ⟨-, hm⟩
            obtain rfl := Option.some.inj hy
            exact hm)
        rw [Option.some_or] at hlast
        simp only [hmerged, Except.ok.injEq, exists_eq_left', hlast, and_true, ne_eq,
          not_true_eq_false, false_implies, forall_const]
        cases hx : Assoc.find dst f.name with
        | none => simp
        | some x =>
            simp only [Option.bind_some, (hold x hx).setContent, Option.some.injEq]
            exact content_eq_undef
      · have hdef : y.isDefined = true := by
          cases y <;> first | rfl | exact absurd rfl hundef
        have hmerged := mergedField_of_some S dst hf hy hdef
        simp only [hundef, false_implies, true_and, ne_eq, not_false_eq_true, forall_const]
        by_cases hclone : Assoc.find dst f.name = none ∨ ∀ c, f.type ≠ .message c
        · -- nothing to merge with: the field is replaced by a clone
          rw [mergedValue_clone hshape hclone] at hmerged
          have hlast := combinedField_last hshape ((Assoc.find dst f.name).bind Val.setContent)
            (some y.content) (by
              rintro x y' hx hy' ⟨-, hm⟩
              obtain rfl := Option.some.inj hy'
              rcases hclone with hnone | htype
              · simp [hnone] at hx
              · exact (hnew y hy).not_isMessage htype hm)
          rw [Option.some_or] at hlast
          refine iff_of_true ⟨⟨_, hmerged, ?_⟩, hlast⟩ ?_
          · exact (setContent_congr (content_deepClone y)).trans hyc
          · intro c htype x hx
            rcases hclone with hnone | hother
            · simp [hnone] at hx
            · exact absurd htype (hother c)
        · push Not at hclone
          -- two submessages, for which the claim is given
          obtain ⟨hsome, c, htype⟩ := hclone
          obtain ⟨x, hx⟩ := Option.ne_none_iff_exists'.mp hsome
          rw [hx, mergedValue_message hshape htype] at hmerged
          have hiff := hsub c htype x y hx hy hundef
          have hmeant : (∃ o, mergedField S d fs dst f.name = .ok o ∧
              o.bind Val.setContent = some y.content) ↔
              ∃ z, mergeVal S y x = .ok z ∧ z.content = y.content := by
            rw [hmerged]
            constructor
            · rintro ⟨o, ho, hcontent⟩
              obtain ⟨z, hz, rfl⟩ := map_eq_ok.mp ho
              exact ⟨z, hz, eq_content_of_setContent hcontent⟩
            · rintro ⟨z, hz, hcontent⟩
              exact ⟨some z, by simp [hz, Except.map], (setContent_congr hcontent).trans hyc⟩
          simp only [hx, Option.bind_some, (hold x hx).setContent, combinedField_messages hshape,
            hmeant, htype, FieldType.message.injEq, forall_eq', Option.some.injEq]
          exact hiff

/-- One field of the loop, given the claim for the sub-messages in it. -/
theorem mergedField_meant_iff (hf : d.findFieldByName f.name = some f)
    (hold : ∀ y, Assoc.find dst f.name = some y → Parsed S (f.shape S) f.type y)
    (hnew : ∀ y, Assoc.find fs f.name = some y → Parsed S (f.shape S) f.type y)
    (hsub : f.shape S = .singular → ∀ c, f.type = .message c → ∀ x y,
      Assoc.find dst f.name = some x → Assoc.find fs f.name = some y → y ≠ .undef →
      (SubMerges S x y ↔ Absorbed S x y)) :
    ((∃ o, mergedField S d fs dst f.name = .ok o ∧ o.bind Val.setContent =
        overlayContent (f.shape S) (Assoc.find dst f.name) (Assoc.find fs f.name)) ∧
      CombinedField S f ((Assoc.find dst f.name).bind Val.setContent)
        ((Assoc.find fs f.name).bind Val.setContent)
        (overlayContent (f.shape S) (Assoc.find dst f.name) (Assoc.find fs f.name))) ↔
      MergesField S f (Assoc.find dst f.name) (Assoc.find fs f.name) := by
  cases hshape : f.shape S with
  | repeated =>
      have hmerged := mergedField_container hf (by simp [hshape]) hold hnew
      rw [hshape] at hmerged hold hnew
      refine ⟨fun _ => by simp [MergesField, hshape], fun _ => ⟨hmerged, ?_⟩⟩
      simp only [CombinedField, hshape]
      rw [setContent_items hold, setContent_items hnew]
      simp [overlayContent]
  | map c =>
      have hmerged := mergedField_container hf (by simp [hshape]) hold hnew
      rw [hshape] at hmerged hold hnew
      refine ⟨fun _ => by simp [MergesField, hshape], fun _ => ⟨hmerged, ?_⟩⟩
      simp only [CombinedField, hshape]
      rw [setContent_entries hold, setContent_entries hnew]
      intro k
      rw [overlayContent, entry_setContent, entry_setContent, entry_setContent,
        find_mergeEntries (nodup_entriesOf hnew)]
      cases Assoc.find (entriesOf (Assoc.find fs f.name)) k <;> simp
  | singular =>
      rw [hshape] at hold hnew
      exact mergedField_singular_iff hf hshape hold hnew (hsub hshape)

theorem mergedField_absorbs_iff (hf : d.findFieldByName f.name = some f)
    (hold : ∀ y, Assoc.find dst f.name = some y → Parsed S (f.shape S) f.type y)
    (hnew : ∀ y, Assoc.find fs f.name = some y → Parsed S (f.shape S) f.type y)
    (hsub : f.shape S = .singular → ∀ c, f.type = .message c → ∀ x y,
      Assoc.find dst f.name = some x → Assoc.find fs f.name = some y → y ≠ .undef →
      (SubMerges S x y ↔ Absorbed S x y)) :
    ((∃ o, mergedField S d fs dst f.name = .ok o ∧
        o.bind Val.setContent = (Assoc.find fs f.name).bind Val.setContent) ∧
      CombinedField S f ((Assoc.find dst f.name).bind Val.setContent)
        ((Assoc.find fs f.name).bind Val.setContent)
        ((Assoc.find fs f.name).bind Val.setContent)) ↔
      Covers (f.shape S) (Assoc.find dst f.name) (Assoc.find fs f.name) ∧
        MergesField S f (Assoc.find dst f.name) (Assoc.find fs f.name) := by
  have hmeant := mergedField_meant_iff hf hold hnew hsub
  have hcovers := overlayContent_eq_new_iff hold hnew
  constructor
  · intro h
    have hover := CombinedField.covers hold hnew h.2
    exact ⟨hcovers.mp hover, hmeant.mp (hover ▸ h)⟩
  · rintro ⟨hcov, hmerges⟩
    have hover := hcovers.mpr hcov
    exact hover ▸ hmeant.mpr hmerges

theorem mergeFields_content_iff (hnd : (Assoc.keys fs).Nodup)
    (hfs : ∀ name ∈ Assoc.keys fs, d.findFieldByName name ≠ none)
    (hdst : ∀ name ∈ Assoc.keys dst, d.findFieldByName name ≠ none)
    {target : PerlStr → Option Content}
    (htarget : ∀ name, d.findFieldByName name = none → target name = none) :
    (∃ r, mergeFields S d fs dst = .ok r ∧ fieldContent r = target) ↔
      ∀ f ∈ d.fields, ∃ o, mergedField S d fs dst f.name = .ok o ∧
        o.bind Val.setContent = target f.name := by
  constructor
  · rintro ⟨r, hr, rfl⟩ f -
    rcases mergeFields_spec S d hnd dst with ⟨r', hr', hall⟩ | ⟨⟨e, herr⟩, -⟩
    · obtain rfl := Except.ok.inj (hr.symm.trans hr')
      exact ⟨_, hall f.name, (fieldContent_eq r f.name).symm⟩
    · rw [hr] at herr
      cases herr
  · intro h
    -- outside the descriptor neither message has a field
    have hname : ∀ name, ∃ o, mergedField S d fs dst name = .ok o ∧
        o.bind Val.setContent = target name := by
      intro name
      cases hfind : d.findFieldByName name with
      | some f =>
          obtain ⟨hmem, rfl⟩ := MessageDef.findFieldByName_eq_some.mp hfind
          exact h f hmem
      | none =>
          have hnone : Assoc.find dst name = none :=
            Assoc.find_eq_none_iff.mpr fun hmem => hdst name hmem hfind
          refine ⟨none, ?_, (htarget name hfind).symm⟩
          rw [mergedField_of_not_mem S d (fun hmem => hfs name hmem hfind), hnone]
    rcases mergeFields_spec S d hnd dst with ⟨r, hr, hall⟩ | ⟨-, name, e, herr⟩
    · refine ⟨r, hr, ?_⟩
      funext name
      obtain ⟨o, ho, htar⟩ := hname name
      obtain rfl := Except.ok.inj ((hall name).symm.trans ho)
      rw [fieldContent_eq, htar]
    · obtain ⟨o, ho, -⟩ := hname name
      rw [ho] at herr
      cases herr

theorem mergeVal_msg (c c' : String) (fs dst : List (PerlStr × Val)) (u u' : Option PerlStr) :
    (∃ z, mergeVal S (.msg c fs u) (.msg c' dst u') = .ok z ∧
        z.content = (Val.msg c fs u).content) ↔
      c' = c ∧ u'.getD [] = u.getD [] ∧
        ∃ r, mergeFields S (S.descriptor c') fs dst = .ok r ∧ fieldContent r = fieldContent fs := by
  rw [mergeVal]
  cases mergeFields S (S.descriptor c') fs dst with
  | error e => simp
  | ok r => simp [and_comm]

theorem fieldContent_of_unknown (hfs : ∀ name ∈ Assoc.keys fs, d.findFieldByName name ≠ none)
    {name : PerlStr} (h : d.findFieldByName name = none) : fieldContent fs name = none := by
  have hnone : Assoc.find fs name = none :=
    Assoc.find_eq_none_iff.mpr fun hmem => hfs name hmem h
  simp [fieldContent_eq, hnone]

/-- Of the values that are no messages only a `Math::BigInt` can be merged, and it
leaves the number that is there. -/
theorem mergeVal_scalar {x y z : Val} (hy : y.IsScalar) (hundef : y ≠ .undef)
    (h : mergeVal S y x = .ok z) (hcontent : z.content = y.content) :
    ∃ n, x = .big n ∧ y = .big n := by
  cases y with
  | undef => exact absurd rfl hundef
  | arr _ _ | hash _ | msg _ _ _ => exact hy.elim
  | iv n | nv p | str s => cases x <;> simp [mergeVal] at h
  | big n =>
      cases x <;> simp only [mergeVal, Except.ok.injEq, reduceCtorEq] at h
      all_goals
        subst h
        simp [Val.content] at hcontent
      exact ⟨n, by rw [hcontent], rfl⟩

theorem mergeVal_into_scalar {c : String} {fs : List (PerlStr × Val)} {u : Option PerlStr}
    {x z : Val} (hx : x.IsScalar) (h : mergeVal S (.msg c fs u) x = .ok z) :
    z.content ≠ (Val.msg c fs u).content := by
  cases x with
  | arr _ _ | hash _ | msg _ _ _ => exact hx.elim
  | iv n | nv p | str s => simp [mergeVal] at h
  | undef | big n =>
      rw [mergeVal] at h
      split at h
      · obtain rfl := Except.ok.inj h
        simp [Val.content]
      · cases h

theorem subMerges_scalar_iff {x y : Val} (hy : y.IsScalar) (hundef : y ≠ .undef) :
    SubMerges S x y ↔ Absorbed S x y := by
  constructor
  · rintro ⟨⟨z, hz, hcontent⟩, -⟩
    obtain ⟨n, rfl, rfl⟩ := mergeVal_scalar hy hundef hz hcontent
    exact .big n
  · intro h
    cases h with
    | big n => exact ⟨⟨.big n, by rw [mergeVal], rfl⟩, fun hm => by simp [Content.IsMessage] at hm⟩
    | msg => exact hy.elim

/-- Two messages of one class, given the claim for the fields. -/
theorem subMerges_msg_iff {c : String} {fs dst : List (PerlStr × Val)} {u u' : Option PerlStr}
    (hnd : (Assoc.keys fs).Nodup)
    (hfs : ∀ name ∈ Assoc.keys fs, (S.descriptor c).findFieldByName name ≠ none)
    (hdst : ∀ name ∈ Assoc.keys dst, (S.descriptor c).findFieldByName name ≠ none) :
    SubMerges S (.msg c dst u) (.msg c fs u') ↔ (u.getD [] = [] ∧ u'.getD [] = []) ∧
      ∀ f ∈ (S.descriptor c).fields,
        (∃ o, mergedField S (S.descriptor c) fs dst f.name = .ok o ∧
          o.bind Val.setContent = (Assoc.find fs f.name).bind Val.setContent) ∧
        CombinedField S f ((Assoc.find dst f.name).bind Val.setContent)
          ((Assoc.find fs f.name).bind Val.setContent)
          ((Assoc.find fs f.name).bind Val.setContent) := by
  have hfields := mergeFields_content_iff (S := S) hnd hfs hdst
    fun _ => fieldContent_of_unknown hfs
  rw [SubMerges, mergeVal_msg, hfields, content_msg, content_msg, combined_msg_iff]
  simp only [fieldContent_eq, Content.IsMessage, true_and, forall_const, List.self_eq_append_left,
    forall_and]
  constructor
  · rintro ⟨⟨hu, hmerged⟩, hnil, hcombined⟩
    exact ⟨⟨hnil, hu ▸ hnil⟩, hmerged, hcombined⟩
  · rintro ⟨⟨hnil, hnil'⟩, hmerged, hcombined⟩
    exact ⟨⟨hnil.trans hnil'.symm, hmerged⟩, hnil, hcombined⟩

theorem absorbed_msg_iff {c : String} {fs dst : List (PerlStr × Val)} {u u' : Option PerlStr} :
    Absorbed S (.msg c dst u) (.msg c fs u') ↔ (u.getD [] = [] ∧ u'.getD [] = []) ∧
      ∀ f ∈ (S.descriptor c).fields,
        Covers (f.shape S) (Assoc.find dst f.name) (Assoc.find fs f.name) ∧
        MergesField S f (Assoc.find dst f.name) (Assoc.find fs f.name) := by
  constructor
  · intro h
    cases h with
    | msg hu hu' hcovers hundef hsub =>
        refine ⟨⟨hu, hu'⟩, fun f hf => ⟨hcovers f hf, ?_⟩⟩
        intro hshape y hy
        refine ⟨?_, fun hne c htype x hx => hsub f hf hshape c htype x y hx hy hne⟩
        rintro rfl
        exact hundef f hf hshape hy
  · rintro ⟨⟨hu, hu'⟩, h⟩
    refine .msg hu hu' (fun f hf => (h f hf).1) ?_ ?_
    · intro f hf hshape hy
      exact ((h f hf).2 hshape _ hy).1 rfl
    · intro f hf hshape c htype x y hx hy hne
      exact ((h f hf).2 hshape y hy).2 hne c htype x hx

/-- Merging and parsing agree on a sub-message that is there twice exactly when the
first one is absorbed. By induction on the second one. -/
theorem subMerges_iff {cls : String} {x y : Val} (hx : Parsed S .singular (.message cls) x)
    (hy : Parsed S .singular (.message cls) y) (hundef : y ≠ .undef) :
    SubMerges S x y ↔ Absorbed S x y := by
  induction y using Val.induct generalizing cls x with
  | undef | iv n | big n | nv p | str s => exact subMerges_scalar_iff trivial hundef
  | arr kind xs ih | hash es ih => cases hy with | scalar h _ => exact h.elim
  | msg c fs u ih =>
      cases hy with
      | scalar h _ => exact h.elim
      | msg hnd hknown hfield =>
          cases hx with
          | scalar h _ =>
              constructor
              · rintro ⟨⟨z, hz, hcontent⟩, -⟩
                exact absurd hcontent (mergeVal_into_scalar h hz)
              · intro habs
                cases habs
                exact h.elim
          | msg hnd' hknown' hfield' =>
              rw [subMerges_msg_iff hnd hknown hknown', absorbed_msg_iff]
              refine and_congr_right fun _ => forall₂_congr fun f hf => ?_
              refine mergedField_absorbs_iff (MessageDef.findFieldByName_eq_some.mpr ⟨hf, rfl⟩)
                (hfield' f hf) (hfield f hf) fun hshape c htype x y hx hy hundef => ?_
              have hxp := hfield' f hf x hx
              have hyp := hfield f hf y hy
              rw [hshape, htype] at hxp hyp
              exact ih f.name y (Assoc.mem_of_find hy) hxp hyp hundef

theorem overlayContent_congr {sh : Shape} {t : FieldType} {old new new' : Option Val}
    (hnew : ∀ y, new = some y → Parsed S sh t y) (hnew' : ∀ y, new' = some y → Parsed S sh t y)
    (h : new.bind Val.setContent = new'.bind Val.setContent) :
    overlayContent sh old new = overlayContent sh old new' := by
  cases sh with
  | singular =>
      cases new with
      | none =>
          cases new' with
          | none => rfl
          | some y => simp [(hnew' y rfl).setContent] at h
      | some x =>
          cases new' with
          | none => simp [(hnew x rfl).setContent] at h
          | some y => simpa [overlayContent] using h
  | repeated =>
      rw [setContent_items hnew, setContent_items hnew', setContent_arr_inj] at h
      simp [overlayContent, setContent_arr_inj, h]
  | map c =>
      rw [setContent_entries hnew, setContent_entries hnew', setContent_hash_iff] at h
      rw [overlayContent, overlayContent, setContent_hash_iff]
      intro k
      have hk := h k
      rw [find_mergeEntries (nodup_entriesOf hnew), find_mergeEntries (nodup_entriesOf hnew')]
      cases hx : Assoc.find (entriesOf new) k <;> cases hy : Assoc.find (entriesOf new') k <;>
        simp_all

/-- Merging `src` into `m` gives what parsing the bytes of `src` into `m` gives. -/
structure Absorbs (S : Pool) (m src : Msg) : Prop where
  unknown : src.unknown.getD [] = []
  field : ∀ f ∈ (S.descriptor m.cls).fields,
    MergesField S f (Assoc.find m.fields f.name) (Assoc.find src.fields f.name)

/-- What is parsed into a message is laid over it. -/
theorem parseInto_fieldContent {b : PerlStr} {ma mb src r : Msg} (hma : ma.Parsed S)
    (hb : parse S ma.cls b = .ok mb) (hsrc : src.Parsed S) (hsame : src.content = mb.content)
    (hr : parseInto S b ma = .ok r) :
    r.cls = ma.cls ∧ r.unknown.getD [] = ma.unknown.getD [] ++ src.unknown.getD [] ∧
      ∀ f ∈ (S.descriptor ma.cls).fields, fieldContent r.fields f.name =
        overlayContent (f.shape S) (Assoc.find ma.fields f.name)
          (Assoc.find src.fields f.name) := by
  obtain ⟨hmbcls, hmb⟩ := parse_parsed hb
  rw [Msg.content_eq, Msg.content_eq, Content.msg.injEq] at hsame
  obtain ⟨hcls, hfields, hunknown⟩ := hsame
  obtain ⟨r', hr', hover⟩ :=
    parseInto_overlay (.start ma) (Msg.create_parsed ma.cls) hma (parse_eq_ok.mp hb)
  obtain rfl := Except.ok.inj (hr.symm.trans hr')
  refine ⟨hover.cls, by rw [hover.unknown, hunknown], fun f hf => ?_⟩
  have hmbFields := hmb.inv.2.2 f (hmbcls ▸ hf)
  have hsrcFields := hsrc.inv.2.2 f (hcls ▸ hmbcls ▸ hf)
  have hrFields := (parseInto_parsed hma hr).inv.2.2 f (hover.cls ▸ hf)
  rw [fieldContent_eq, (hover.fields f hf).content hmbFields hrFields]
  refine overlayContent_congr hmbFields hsrcFields ?_
  rw [← fieldContent_eq, ← fieldContent_eq, hfields]

theorem merge_content_iff {ma src r : Msg} (hcls : r.cls = ma.cls) :
    (∃ r', merge S ma src = .ok r' ∧ r'.content = r.content) ↔
      ma.unknown.getD [] = r.unknown.getD [] ∧
        ∃ fs, mergeFields S (S.descriptor ma.cls) src.fields ma.fields = .ok fs ∧
          fieldContent fs = fieldContent r.fields := by
  unfold merge
  cases mergeFields S (S.descriptor ma.cls) src.fields ma.fields with
  | error e => simp
  | ok fs => simp [Msg.content_eq, hcls, and_comm]

/-- A `Complex` whose sub-message has this name. -/
def named (name : PerlStr) : Msg :=
  ⟨"Complex", [(ps "simple", .msg "Simple" [(ps "name", .str name)] none)], none⟩

theorem named_find {name : PerlStr} {f : FieldDef} {v : Val}
    (hf : f ∈ (hardening.descriptor "Complex").fields)
    (hv : Assoc.find (named name).fields f.name = some v) :
    f = ⟨ps "simple", 1, .message "Simple", .optional⟩ ∧
      v = .msg "Simple" [(ps "name", .str name)] none := by
  obtain ⟨hname, rfl⟩ : f.name = ps "simple" ∧ .msg "Simple" [(ps "name", .str name)] none = v := by
    simpa [named, Assoc.find_cons] using hv
  exact ⟨MessageDef.eq_of_name_eq hf (by decide) hname, rfl⟩

theorem named_parsed (name : PerlStr) : (named name).Parsed hardening := by
  have hknown : ∀ n ∈ [ps "name"], (hardening.descriptor "Simple").findFieldByName n ≠ none := by
    decide
  have hknown' : ∀ n ∈ [ps "simple"],
      (hardening.descriptor "Complex").findFieldByName n ≠ none := by
    decide
  refine .msg (List.nodup_singleton _) hknown' ?_
  intro f hf v hv
  obtain ⟨rfl, rfl⟩ := named_find hf hv
  refine .msg (List.nodup_singleton _) hknown ?_
  intro g hg w hw
  obtain rfl : g = ⟨ps "name", 1, .string, .optional⟩ := List.mem_singleton.mp hg
  obtain rfl : Val.str name = w := Option.some.inj hw
  exact .scalar trivial fun _ => ⟨name, rfl⟩

theorem named_absorbs (name name' : PerlStr) : Absorbs hardening (named name) (named name') := by
  refine ⟨rfl, ?_⟩
  intro f hf _ y hy
  obtain ⟨rfl, rfl⟩ := named_find hf hy
  refine ⟨fun h => (by cases h), fun _ _ _ x hx => ?_⟩
  obtain ⟨-, rfl⟩ := named_find hf hx
  refine absorbed_msg_iff.mpr ⟨⟨rfl, rfl⟩, fun g hg => ?_⟩
  obtain rfl : g = ⟨ps "name", 1, .string, .optional⟩ := List.mem_singleton.mp hg
  refine ⟨fun h => (by cases h), fun _ w hw => ⟨?_, fun _ c htype => (by cases htype)⟩⟩
  rintro rfl
  cases hw

end GooglePerl.Protobuf
