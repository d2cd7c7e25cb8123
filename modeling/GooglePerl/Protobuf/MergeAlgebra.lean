import GooglePerl.Protobuf.Overlay
import GooglePerl.Protobuf.RoundTrip
import Mathlib.Logic.Function.Basic

/-!
The algebra of `merge`.

On well-typed messages `merge` never dies, and what the result says about each
field is determined by what the two messages say about it (`Joined`): a list is
appended, a map is overridden key by key, a sub-message is joined field by
field, anything else is replaced. Joining is associative, and the empty message
is its unit.
-/

namespace GooglePerl.Protobuf

open GooglePerl.Lib

/-! ### Well-typed messages -/

/-- A copy of the element passes the type check of its field as it is. -/
def Pool.Passes (S : Pool) (t : FieldType) (x : Val) : Prop :=
  ∀ f : FieldDef, f.type = t → S.checkItem f (deepClone x) = some (deepClone x)

/-- Defined values of the shape and the kind that their field has. -/
inductive WellTyped (S : Pool) : Shape → FieldType → Val → Prop where
  | scalar {t : FieldType} {v : Val} (ht : ∀ c, t ≠ .message c) (hv : v.IsScalar)
      (hdef : v.isDefined = true) : WellTyped S .singular t v
  | msg {cls : String} {fs : List (PerlStr × Val)} {u : Option PerlStr}
      (hnd : (Assoc.keys fs).Nodup)
      (hknown : ∀ name ∈ Assoc.keys fs, (S.descriptor cls).findFieldByName name ≠ none)
      (hfield : ∀ f ∈ (S.descriptor cls).fields, ∀ v, Assoc.find fs f.name = some v →
        WellTyped S (f.shape S) f.type v) :
      WellTyped S .singular (.message cls) (.msg cls fs u)
  | repeated {t : FieldType} {kind : ArrKind} {xs : List Val}
      (h : ∀ x ∈ xs, WellTyped S .singular t x) (hpass : ∀ x ∈ xs, S.Passes t x) :
      WellTyped S .repeated t (.arr kind xs)
  | map {c : String} {t kt vt : FieldType} {es : List (PerlStr × Val)}
      (hentry : (S.descriptor c).fields = entryFields kt vt) (hnd : (Assoc.keys es).Nodup)
      (h : ∀ k v, Assoc.find es k = some v → WellTyped S .singular vt v) :
      WellTyped S (.map c) t (.hash es)

def Msg.WellTyped (S : Pool) (m : Msg) : Prop :=
  Protobuf.WellTyped S .singular (.message m.cls) m.toVal

variable {S : Pool}

theorem deepClone_deepClone (v : Val) : deepClone (deepClone v) = deepClone v := by
  induction v using Val.induct with
  | undef => rfl
  | iv n => rfl
  | big n => rfl
  | nv p => rfl
  | str s => rfl
  | arr kind xs ih =>
      have hlist : deepCloneList (deepCloneList xs) = deepCloneList xs := by
        simp only [deepCloneList_eq_map, List.map_map]
        exact List.map_congr_left fun x hx => ih x hx
      cases kind <;> simp [deepClone, hlist]
  | hash es ih =>
      simp only [deepClone, deepCloneEntries_eq_map, List.map_map, Val.hash.injEq]
      exact List.map_congr_left fun p hp => by simp [ih p.1 p.2 hp]
  | msg c fs u ih =>
      simp only [deepClone, deepCloneEntries_eq_map, List.map_map, Val.msg.injEq, true_and,
        and_true]
      exact List.map_congr_left fun p hp => by simp [ih p.1 p.2 hp]

theorem Pool.Passes.deepClone {t : FieldType} {x : Val} (h : S.Passes t x) :
    S.Passes t (deepClone x) := by
  intro f hf
  rw [deepClone_deepClone]
  exact h f hf

theorem keys_deepCloneEntries (es : List (PerlStr × Val)) :
    Assoc.keys (deepCloneEntries es) = Assoc.keys es := by
  simp [deepCloneEntries_eq_map, Assoc.keys, Function.comp_def]

theorem WellTyped.deepClone {sh : Shape} {t : FieldType} {v : Val} (h : WellTyped S sh t v) :
    WellTyped S sh t (deepClone v) := by
  have hfind : ∀ {P : Val → Prop} {es : List (PerlStr × Val)} {k : PerlStr} {v : Val},
      (∀ w, Assoc.find es k = some w → P (Protobuf.deepClone w)) →
      Assoc.find (deepCloneEntries es) k = some v → P v := by
    intro P es k v hP hv
    rw [find_deepCloneEntries] at hv
    obtain ⟨w, hw, rfl⟩ := Option.map_eq_some_iff.mp hv
    exact hP w hw
  induction h with
  | @scalar t v ht hv hdef =>
      have hsame : Protobuf.deepClone v = v := by
        cases v <;> first | rfl | exact hv.elim
      rw [hsame]
      exact .scalar ht hv hdef
  | @msg cls fs u hnd hknown hfield ih =>
      rw [Protobuf.deepClone]
      refine .msg (by rwa [keys_deepCloneEntries]) (by rwa [keys_deepCloneEntries]) ?_
      intro f hf v hv
      exact hfind (fun w hw => ih f hf w hw) hv
  | @repeated t kind xs h hpass ih =>
      have hall : ∀ {kind'}, WellTyped S .repeated t (.arr kind' (deepCloneList xs)) := by
        intro kind'
        rw [deepCloneList_eq_map]
        refine .repeated ?_ ?_
        · intro y hy
          obtain ⟨x, hx, rfl⟩ := List.mem_map.mp hy
          exact ih x hx
        · intro y hy
          obtain ⟨x, hx, rfl⟩ := List.mem_map.mp hy
          exact (hpass x hx).deepClone
      cases kind <;> exact hall
  | @map c t kt vt es hentry hnd h ih =>
      rw [Protobuf.deepClone]
      refine .map hentry (by rwa [keys_deepCloneEntries]) ?_
      intro k v hv
      exact hfind (fun w hw => ih k w hw) hv

theorem WellTyped.isDefined {sh : Shape} {t : FieldType} {v : Val} (h : WellTyped S sh t v) :
    v.isDefined = true := by
  cases h with
  | scalar _ _ hdef => exact hdef
  | msg => rfl
  | repeated => rfl
  | map => rfl

/-! ### Joining contents -/

/-- What the value of a field says after another one is merged into it. The
unknown bytes of the first message stay. -/
inductive Joined (S : Pool) : Shape → FieldType → Content → Content → Content → Prop where
  | scalar {t : FieldType} {a b : Content} (ht : ∀ c, t ≠ .message c) :
      Joined S .singular t a b b
  | repeated {t : FieldType} {xs ys : List Content} :
      Joined S .repeated t (.arr xs) (.arr ys) (.arr (xs ++ ys))
  | map {c : String} {t : FieldType} {f g : PerlStr → Option Content} :
      Joined S (.map c) t (.hash f) (.hash g) (.hash fun k => (g k).or (f k))
  | msg {c : String} {a b r : PerlStr → Option Content} {u w : PerlStr}
      (hout : ∀ name, (S.descriptor c).findFieldByName name = none → r name = none)
      (hleft : ∀ f ∈ (S.descriptor c).fields, b f.name = none → r f.name = a f.name)
      (hright : ∀ f ∈ (S.descriptor c).fields, a f.name = none → r f.name = b f.name)
      (hset : ∀ f ∈ (S.descriptor c).fields, ∀ x y, a f.name = some x → b f.name = some y →
        (r f.name).isSome = true)
      (hboth : ∀ f ∈ (S.descriptor c).fields, ∀ x y z, a f.name = some x → b f.name = some y →
        r f.name = some z → Joined S (f.shape S) f.type x y z) :
      Joined S .singular (.message c) (.msg c a u) (.msg c b w) (.msg c r u)

theorem Joined.unique {sh : Shape} {t : FieldType} {a b r r' : Content}
    (h : Joined S sh t a b r) (h' : Joined S sh t a b r') : r = r' := by
  induction h generalizing r' with
  | scalar ht =>
      cases h' with
      | scalar _ => rfl
      | msg => exact absurd rfl (ht _)
  | repeated =>
      cases h'
      rfl
  | map =>
      cases h'
      rfl
  | @msg c a b r u w hout hleft hright hset hboth ih =>
      cases h' with
      | scalar ht => exact absurd rfl (ht c)
      | @msg _ _ _ r' _ _ hout' hleft' hright' hset' hboth' =>
          congr 1
          funext name
          cases hf : (S.descriptor c).findFieldByName name with
          | none => rw [hout name hf, hout' name hf]
          | some f =>
              obtain ⟨hmem, rfl⟩ := MessageDef.findFieldByName_eq_some.mp hf
              cases hb : b f.name with
              | none => rw [hleft f hmem hb, hleft' f hmem hb]
              | some y =>
                  cases ha : a f.name with
                  | none => rw [hright f hmem ha, hright' f hmem ha]
                  | some x =>
                      obtain ⟨z, hz⟩ := Option.isSome_iff_exists.mp (hset f hmem x y ha hb)
                      obtain ⟨z', hz'⟩ := Option.isSome_iff_exists.mp (hset' f hmem x y ha hb)
                      rw [hz, hz', ih f hmem x y z ha hb hz (hboth' f hmem x y z' ha hb hz')]

/-- What the two messages and the result say about one field. -/
structure JoinedField (S : Pool) (f : FieldDef) (a b r : Option Content) : Prop where
  left : b = none → r = a
  right : a = none → r = b
  both : ∀ x y, a = some x → b = some y → ∃ z, r = some z ∧ Joined S (f.shape S) f.type x y z

theorem JoinedField.unique {f : FieldDef} {a b r r' : Option Content}
    (h : JoinedField S f a b r) (h' : JoinedField S f a b r') : r = r' := by
  cases a with
  | none => rw [h.right rfl, h'.right rfl]
  | some x =>
      cases b with
      | none => rw [h.left rfl, h'.left rfl]
      | some y =>
          obtain ⟨z, rfl, hz⟩ := h.both x y rfl rfl
          obtain ⟨z', rfl, hz'⟩ := h'.both x y rfl rfl
          rw [hz.unique hz']

/-- Fields are joined associatively, if the values are. -/
theorem JoinedField.assoc {f : FieldDef} {a b c ab bc abc abc' : Option Content}
    (hvalues : ∀ x y z xy yz xyz xyz', a = some x → b = some y → ab = some xy →
      Joined S (f.shape S) f.type xy z xyz → Joined S (f.shape S) f.type y z yz →
      Joined S (f.shape S) f.type x yz xyz' → xyz = xyz')
    (hab : JoinedField S f a b ab) (habc : JoinedField S f ab c abc)
    (hbc : JoinedField S f b c bc) (habc' : JoinedField S f a bc abc') : abc = abc' := by
  cases c with
  | none =>
      obtain rfl := habc.left rfl
      obtain rfl := hbc.left rfl
      exact hab.unique habc'
  | some z =>
      cases b with
      | none =>
          obtain rfl := hab.left rfl
          obtain rfl := hbc.right rfl
          exact habc.unique habc'
      | some y =>
          cases a with
          | none =>
              obtain rfl := hab.right rfl
              obtain rfl := habc'.right rfl
              exact habc.unique hbc
          | some x =>
              obtain ⟨xy, rfl, -⟩ := hab.both x y rfl rfl
              obtain ⟨yz, rfl, hyz⟩ := hbc.both y z rfl rfl
              obtain ⟨xyz, rfl, hxyz⟩ := habc.both xy z rfl rfl
              obtain ⟨xyz', rfl, hxyz'⟩ := habc'.both x yz rfl rfl
              rw [hvalues x y z xy yz xyz xyz' rfl rfl rfl hxyz hyz hxyz']

theorem Joined.of_fields {c : String} {a b r : PerlStr → Option Content}
    (hout : ∀ name, (S.descriptor c).findFieldByName name = none → r name = none)
    (h : ∀ f ∈ (S.descriptor c).fields, JoinedField S f (a f.name) (b f.name) (r f.name))
    (u w : PerlStr) : Joined S .singular (.message c) (.msg c a u) (.msg c b w) (.msg c r u) := by
  refine .msg hout (fun f hf => (h f hf).left) (fun f hf => (h f hf).right) ?_ ?_
  · intro f hf x y hx hy
    obtain ⟨z, hz, -⟩ := (h f hf).both x y hx hy
    rw [hz]
    rfl
  · intro f hf x y z hx hy hz
    obtain ⟨z', hz', hjoined⟩ := (h f hf).both x y hx hy
    obtain rfl := Option.some.inj (hz.symm.trans hz')
    exact hjoined

theorem Joined.fields {c : String} {a : PerlStr → Option Content} {u : PerlStr} {B R : Content}
    (h : Joined S .singular (.message c) (.msg c a u) B R) :
    ∃ b w r, B = .msg c b w ∧ R = .msg c r u ∧
      (∀ name, (S.descriptor c).findFieldByName name = none → r name = none) ∧
      ∀ f ∈ (S.descriptor c).fields, JoinedField S f (a f.name) (b f.name) (r f.name) := by
  cases h with
  | scalar ht => exact absurd rfl (ht c)
  | @msg _ _ b r _ w hout hleft hright hset hboth =>
      refine ⟨b, w, r, rfl, rfl, hout, fun f hf => ⟨hleft f hf, hright f hf, ?_⟩⟩
      intro x y hx hy
      obtain ⟨z, hz⟩ := Option.isSome_iff_exists.mp (hset f hf x y hx hy)
      exact ⟨z, hz, hboth f hf x y z hx hy hz⟩

theorem Joined.assoc {sh : Shape} {t : FieldType} {a b c ab bc abc abc' : Content}
    (hab : Joined S sh t a b ab) (habc : Joined S sh t ab c abc) (hbc : Joined S sh t b c bc)
    (habc' : Joined S sh t a bc abc') : abc = abc' := by
  induction hab generalizing c bc abc abc' with
  | scalar ht =>
      cases habc with
      | msg => exact absurd rfl (ht _)
      | scalar _ =>
          cases habc' with
          | msg => exact absurd rfl (ht _)
          | scalar _ =>
              cases hbc with
              | msg => exact absurd rfl (ht _)
              | scalar _ => rfl
  | repeated =>
      cases habc
      cases hbc
      cases habc'
      rw [List.append_assoc]
  | map =>
      cases habc
      cases hbc
      cases habc'
      simp only [Option.or_assoc]
  | @msg cls a b ab u w hout hleft hright hset hboth ih =>
      obtain ⟨b', w', ab', heq, heq', -, hab⟩ :=
        (@Joined.msg S cls a b ab u w hout hleft hright hset hboth).fields
      obtain ⟨-, rfl, rfl⟩ := Content.msg.inj heq
      obtain ⟨-, rfl, -⟩ := Content.msg.inj heq'
      obtain ⟨c, w₁, abc, rfl, rfl, hout₁, habc⟩ := habc.fields
      obtain ⟨c', w₂, bc, heq, rfl, -, hbc⟩ := hbc.fields
      obtain ⟨-, rfl, rfl⟩ := Content.msg.inj heq
      obtain ⟨bc', w₃, abc', heq, rfl, hout₂, habc'⟩ := habc'.fields
      obtain ⟨-, rfl, rfl⟩ := Content.msg.inj heq
      congr 1
      funext name
      cases hf : (S.descriptor cls).findFieldByName name with
      | none => rw [hout₁ name hf, hout₂ name hf]
      | some f =>
          obtain ⟨hmem, rfl⟩ := MessageDef.findFieldByName_eq_some.mp hf
          refine JoinedField.assoc ?_ (hab f hmem) (habc f hmem) (hbc f hmem) (habc' f hmem)
          intro x y z xy yz xyz xyz' hx hy hxy hxyz hyz hxyz'
          exact ih f hmem x y xy hx hy hxy hxyz hyz hxyz'

/-! ### Merging well-typed values -/

theorem pushTied_of_pass {f : FieldDef} {ys : List Val}
    (h : ∀ y ∈ ys, S.checkItem f y = some y) (items : List Val) :
    pushTied S f items ys = .ok (items ++ ys) := by
  induction ys generalizing items with
  | nil => simp [pushTied]
  | cons y ys ih =>
      rw [pushTied, h y List.mem_cons_self]
      simp only
      rw [ih (fun z hz => h z (List.mem_cons_of_mem _ hz)), List.append_assoc]
      rfl

@[simp] theorem filter_truthy_arr (kind : ArrKind) (xs : List Val) :
    (some (Val.arr kind xs)).filter Val.truthy = some (.arr kind xs) := rfl

@[simp] theorem filter_truthy_hash (es : List (PerlStr × Val)) :
    (some (Val.hash es)).filter Val.truthy = some (.hash es) := rfl

theorem nodup_mergeEntries {table : List (PerlStr × Val)} (hnd : (Assoc.keys table).Nodup)
    (es : List (PerlStr × Val)) : (Assoc.keys (mergeEntries es table)).Nodup := by
  induction es generalizing table with
  | nil => exact hnd
  | cons p es ih =>
      obtain ⟨k, v⟩ := p
      exact ih (Assoc.nodup_keys_store hnd k _)

theorem mergeFields_nodup {d : MessageDef} {fs dst r : List (PerlStr × Val)}
    (hnd : (Assoc.keys dst).Nodup) (h : mergeFields S d fs dst = .ok r) :
    (Assoc.keys r).Nodup := by
  induction fs generalizing dst with
  | nil =>
      rw [mergeFields] at h
      exact Except.ok.inj h ▸ hnd
  | cons p fs ih =>
      obtain ⟨name, val⟩ := p
      by_cases hskip : val.isDefined = false ∨ d.findFieldByName name = none
      · rw [mergeFields_skip S hskip] at h
        exact ih hnd h
      · push Not at hskip
        obtain ⟨f, hf⟩ := Option.ne_none_iff_exists'.mp hskip.2
        rw [mergeFields_cons S (by simpa using hskip.1) hf] at h
        split at h
        · exact ih (Assoc.nodup_keys_store hnd _ _) h
        · cases h

theorem WellTyped.msg_inv {c : String} {fs : List (PerlStr × Val)} {u : Option PerlStr}
    (h : WellTyped S .singular (.message c) (.msg c fs u)) :
    (Assoc.keys fs).Nodup ∧
      (∀ name ∈ Assoc.keys fs, (S.descriptor c).findFieldByName name ≠ none) ∧
      ∀ f ∈ (S.descriptor c).fields, ∀ v, Assoc.find fs f.name = some v →
        WellTyped S (f.shape S) f.type v := by
  cases h with
  | scalar ht => exact absurd rfl (ht c)
  | msg hnd hknown hfield => exact ⟨hnd, hknown, hfield⟩

theorem WellTyped.repeated_inv {t : FieldType} {v : Val} (h : WellTyped S .repeated t v) :
    ∃ kind xs, v = .arr kind xs ∧ (∀ x ∈ xs, WellTyped S .singular t x) ∧
      ∀ x ∈ xs, S.Passes t x := by
  cases h with
  | repeated h hpass => exact ⟨_, _, rfl, h, hpass⟩

theorem WellTyped.map_inv {c : String} {t : FieldType} {v : Val} (h : WellTyped S (.map c) t v) :
    ∃ kt vt es, v = .hash es ∧ (S.descriptor c).fields = entryFields kt vt ∧
      (Assoc.keys es).Nodup ∧ ∀ k x, Assoc.find es k = some x → WellTyped S .singular vt x := by
  cases h with
  | map hentry hnd h => exact ⟨_, _, _, rfl, hentry, hnd, h⟩

theorem WellTyped.setContent_singular {t : FieldType} {v : Val} (h : WellTyped S .singular t v) :
    v.setContent = some v.content := by
  cases h with
  | scalar _ hv _ => cases v <;> first | rfl | exact hv.elim
  | msg => rfl

/-- A list, after another one or alone. -/
theorem joinedField_items {f : FieldDef} (hshape : f.shape S = .repeated)
    (kind kind' kind₁ : ArrKind)
    (xs ys : List Val) :
    JoinedField S f (Val.arr kind xs).setContent (Val.arr kind' ys).setContent
      (Val.arr kind₁ (xs ++ deepCloneList ys)).setContent := by
  have hys : (deepCloneList ys).map Val.content = ys.map Val.content := by
    simp [deepCloneList_eq_map]
  cases xs with
  | nil =>
      have hsame : (Val.arr kind₁ ([] ++ deepCloneList ys)).setContent =
          (Val.arr kind' ys).setContent := by
        rw [setContent_arr_inj, List.nil_append, hys]
      rw [hsame]
      refine ⟨fun hnone => ?_, fun _ => rfl, fun x _ hx => (by cases hx)⟩
      rw [hnone]
      rfl
  | cons x xs =>
      cases ys with
      | nil =>
          refine ⟨fun _ => ?_, fun hnone => (by cases hnone), fun _ y _ hy => (by cases hy)⟩
          rw [setContent_arr_inj]
          simp [deepCloneList]
      | cons y ys =>
          refine ⟨fun hnone => (by cases hnone), fun hnone => (by cases hnone), ?_⟩
          intro a b ha hb
          obtain rfl := Option.some.inj ha
          obtain rfl := Option.some.inj hb
          refine ⟨_, rfl, ?_⟩
          rw [content_arr, content_arr, content_arr, List.map_append, hys, hshape]
          exact .repeated

/-- A map, over another one or alone. -/
theorem joinedField_entries {f : FieldDef} {c : String} (hshape : f.shape S = .map c)
    {es : List (PerlStr × Val)} (hnd : (Assoc.keys es).Nodup) (table : List (PerlStr × Val)) :
    JoinedField S f (Val.hash table).setContent (Val.hash es).setContent
      (Val.hash (mergeEntries es table)).setContent := by
  -- the new entries come first
  have hfind : ∀ k, (Assoc.find (mergeEntries es table) k).map Val.content =
      ((Assoc.find es k).map Val.content).or ((Assoc.find table k).map Val.content) := by
    intro k
    rw [find_mergeEntries hnd]
    cases Assoc.find es k <;> simp
  cases es with
  | nil =>
      rw [mergeEntries]
      refine ⟨fun _ => rfl, id, fun _ y _ hy => (by cases hy)⟩
  | cons p es =>
      obtain ⟨k, v⟩ := p
      refine ⟨fun hnone => (by cases hnone), ?_, ?_⟩
      · intro hnone
        have hempty : table = [] := by
          cases table with
          | nil => rfl
          | cons q table => cases hnone
        subst hempty
        apply setContent_congr
        rw [content_hash, content_hash]
        congr 1
        funext k
        rw [hfind]
        simp
      · intro a b ha hb
        -- a field with an entry is set
        have hne : (Val.hash (mergeEntries ((k, v) :: es) table)).isEmptyContainer = false := by
          cases hm : mergeEntries ((k, v) :: es) table with
          | cons q r => rfl
          | nil =>
              have hself := hfind k
              rw [hm] at hself
              simp [Assoc.find_cons] at hself
        cases table with
        | nil => cases ha
        | cons q table =>
            obtain rfl := Option.some.inj ha
            obtain rfl := Option.some.inj hb
            refine ⟨_, by rw [Val.setContent, hne]; rfl, ?_⟩
            simp only [content_hash, hfind, hshape]
            exact .map

section OneField

variable {f : FieldDef} {y : Val} {old : Option Val}

/-- Two submessages are merged; anything else is replaced by a clone. -/
theorem mergedValue_joined_singular (hshape : f.shape S = .singular)
    (hy : WellTyped S .singular f.type y)
    (hold : ∀ x, old = some x → WellTyped S .singular f.type x)
    (hsub : ∀ c, f.type = .message c → ∀ x, WellTyped S .singular (.message c) x →
      ∃ r, mergeVal S y x = .ok r ∧ WellTyped S .singular (.message c) r ∧
        Joined S .singular (.message c) x.content y.content r.content) :
    ∃ v, mergedValue S f y (mergeVal S y) old = .ok v ∧ WellTyped S .singular f.type v ∧
      JoinedField S f (old.bind Val.setContent) y.setContent v.setContent := by
  have hclone : WellTyped S .singular f.type (deepClone y) := hy.deepClone
  by_cases hmerge : ∃ c x, f.type = .message c ∧ old = some x
  · obtain ⟨c, x, htype, rfl⟩ := hmerge
    have hx := hold x rfl
    rw [htype] at hx hy
    obtain ⟨r, hr, hrtyped, hjoined⟩ := hsub c htype x hx
    refine ⟨r, by rw [mergedValue_message hshape htype, hr], by rwa [htype], ?_⟩
    rw [Option.bind_some, hx.setContent_singular, hy.setContent_singular,
      hrtyped.setContent_singular]
    refine ⟨fun hnone => (by cases hnone), fun hnone => (by cases hnone), ?_⟩
    intro a b ha hb
    obtain rfl := Option.some.inj ha
    obtain rfl := Option.some.inj hb
    exact ⟨_, rfl, by rwa [hshape, htype]⟩
  · have hplain : old = none ∨ ∀ c, f.type ≠ .message c := by
      cases old with
      | none => exact .inl rfl
      | some x => exact .inr fun c htype => hmerge ⟨c, x, htype, rfl⟩
    refine ⟨deepClone y, mergedValue_clone hshape hplain y _, hclone, ?_⟩
    rw [hy.setContent_singular, hclone.setContent_singular, content_deepClone]
    refine ⟨fun hnone => (by cases hnone), fun _ => rfl, ?_⟩
    intro a b ha hb
    obtain rfl := Option.some.inj hb
    refine ⟨_, rfl, ?_⟩
    rw [hshape]
    refine .scalar (hplain.resolve_left ?_)
    rintro rfl
    cases ha

/-- Clones of the elements go behind those that are there. -/
theorem mergedValue_joined_repeated (hshape : f.shape S = .repeated)
    (hy : WellTyped S .repeated f.type y)
    (hold : ∀ x, old = some x → WellTyped S .repeated f.type x) :
    ∃ v, mergedValue S f y (mergeVal S y) old = .ok v ∧ WellTyped S .repeated f.type v ∧
      JoinedField S f (old.bind Val.setContent) y.setContent v.setContent := by
  obtain ⟨kind', ys, rfl, hys, hpass⟩ := hy.repeated_inv
  have hclones : ∀ z ∈ deepCloneList ys, WellTyped S .singular f.type z ∧
      S.Passes f.type z ∧ S.checkItem f z = some z := by
    intro z hz
    rw [deepCloneList_eq_map] at hz
    obtain ⟨w, hw, rfl⟩ := List.mem_map.mp hz
    exact ⟨(hys w hw).deepClone, (hpass w hw).deepClone, hpass w hw f rfl⟩
  have htyped : ∀ (kind : ArrKind) (xs : List Val), WellTyped S .repeated f.type (.arr kind xs) →
      WellTyped S .repeated f.type (.arr kind (xs ++ deepCloneList ys)) := by
    intro kind xs hxs
    obtain ⟨_, _, heq, hxs, hxpass⟩ := hxs.repeated_inv
    obtain ⟨-, rfl⟩ := Val.arr.inj heq
    refine .repeated (fun z hz => ?_) (fun z hz => ?_) <;>
      rcases List.mem_append.mp hz with hz | hz
    · exact hxs z hz
    · exact (hclones z hz).1
    · exact hxpass z hz
    · exact (hclones z hz).2.1
  cases old with
  | none =>
      refine ⟨.arr .blessed ([] ++ deepCloneList ys), ?_,
        htyped .blessed [] (.repeated (fun _ h => by cases h) fun _ h => by cases h),
        joinedField_items hshape .blessed kind' .blessed [] ys⟩
      simp only [mergedValue, hshape, mergeRepeated, Option.filter_none, Option.getD_none]
  | some x =>
      obtain ⟨kind, xs, rfl, -, -⟩ := (hold x rfl).repeated_inv
      refine ⟨.arr kind (xs ++ deepCloneList ys), ?_, htyped kind xs (hold _ rfl),
        joinedField_items hshape kind kind' kind xs ys⟩
      -- a tied array checks what is pushed on it, and the clones pass
      have hpush := pushTied_of_pass (fun z hz => (hclones z hz).2.2) xs
      cases kind <;> simp [mergedValue, hshape, mergeRepeated, hpush]

/-- Clones of the entries replace those under the same key. -/
theorem mergedValue_joined_map {c : String} (hshape : f.shape S = .map c)
    (hy : WellTyped S (.map c) f.type y)
    (hold : ∀ x, old = some x → WellTyped S (.map c) f.type x) :
    ∃ v, mergedValue S f y (mergeVal S y) old = .ok v ∧ WellTyped S (.map c) f.type v ∧
      JoinedField S f (old.bind Val.setContent) y.setContent v.setContent := by
  obtain ⟨kt, vt, es, rfl, hentry, hnd, hes⟩ := hy.map_inv
  have htyped : ∀ table, WellTyped S (.map c) f.type (.hash table) →
      WellTyped S (.map c) f.type (.hash (mergeEntries es table)) := by
    intro table htable
    obtain ⟨kt', vt', _, heq, hentry', hnd', htable⟩ := htable.map_inv
    obtain rfl := Val.hash.inj heq
    obtain ⟨rfl, rfl⟩ := entryFields_inj (hentry'.symm.trans hentry)
    refine .map hentry (nodup_mergeEntries hnd' es) ?_
    intro k v hv
    rw [find_mergeEntries hnd] at hv
    cases hk : Assoc.find es k with
    | none => exact htable k v (by simpa [hk] using hv)
    | some w =>
        obtain rfl : deepClone w = v := by simpa [hk] using hv
        exact (hes k w hk).deepClone
  cases old with
  | none =>
      refine ⟨.hash (mergeEntries es []), ?_,
        htyped [] (.map hentry List.nodup_nil fun _ _ h => by cases h),
        joinedField_entries hshape hnd []⟩
      simp [mergedValue, hshape, mergeMap]
  | some x =>
      obtain ⟨_, _, table, rfl, -⟩ := (hold x rfl).map_inv
      refine ⟨.hash (mergeEntries es table), ?_, htyped table (hold _ rfl),
        joinedField_entries hshape hnd table⟩
      simp [mergedValue, hshape, mergeMap]

/-- Merging one field of two well-typed messages. -/
theorem mergedValue_joined (hy : WellTyped S (f.shape S) f.type y)
    (hold : ∀ x, old = some x → WellTyped S (f.shape S) f.type x)
    (hsub : ∀ c, f.type = .message c → f.shape S = .singular → ∀ x,
      WellTyped S .singular (.message c) x →
      ∃ r, mergeVal S y x = .ok r ∧ WellTyped S .singular (.message c) r ∧
        Joined S .singular (.message c) x.content y.content r.content) :
    ∃ v, mergedValue S f y (mergeVal S y) old = .ok v ∧ WellTyped S (f.shape S) f.type v ∧
      JoinedField S f (old.bind Val.setContent) y.setContent v.setContent := by
  cases hshape : f.shape S with
  | singular =>
      rw [hshape] at hy hold
      exact mergedValue_joined_singular hshape hy hold fun c htype => hsub c htype hshape
  | repeated =>
      rw [hshape] at hy hold
      exact mergedValue_joined_repeated hshape hy hold
  | map c =>
      rw [hshape] at hy hold
      exact mergedValue_joined_map hshape hy hold

end OneField

/-- Under one name: what `merge` leaves there is set when one of the two was, is
well typed, and joins them. -/
structure JoinedAt (S : Pool) (c : String) (fs gs : List (PerlStr × Val)) (name : PerlStr)
    (o : Option Val) : Prop where
  isSome : o.isSome = ((Assoc.find fs name).isSome || (Assoc.find gs name).isSome)
  unknown : (S.descriptor c).findFieldByName name = none → o = none
  typed : ∀ f ∈ (S.descriptor c).fields, f.name = name → ∀ v, o = some v →
    WellTyped S (f.shape S) f.type v
  joined : ∀ f ∈ (S.descriptor c).fields, f.name = name →
    JoinedField S f (fieldContent fs name) (fieldContent gs name) (o.bind Val.setContent)

section AllFields

variable {c : String} {fs gs : List (PerlStr × Val)} {u w : Option PerlStr}

theorem find_eq_none_of_unknown
    (hknown : ∀ n ∈ Assoc.keys fs, (S.descriptor c).findFieldByName n ≠ none) {name : PerlStr}
    (hnone : (S.descriptor c).findFieldByName name = none) : Assoc.find fs name = none :=
  Assoc.find_eq_none_iff.mpr fun hmem => hknown name hmem hnone

theorem mergedField_joined (hx : WellTyped S .singular (.message c) (.msg c fs u))
    (hy : WellTyped S .singular (.message c) (.msg c gs w))
    (hsub : ∀ f ∈ (S.descriptor c).fields, ∀ y, Assoc.find gs f.name = some y → ∀ c',
      f.type = .message c' → f.shape S = .singular → ∀ x, WellTyped S .singular (.message c') x →
      ∃ r, mergeVal S y x = .ok r ∧ WellTyped S .singular (.message c') r ∧
        Joined S .singular (.message c') x.content y.content r.content) (name : PerlStr) :
    ∃ o, mergedField S (S.descriptor c) gs fs name = .ok o ∧ JoinedAt S c fs gs name o := by
  obtain ⟨-, hknownx, hfieldx⟩ := hx.msg_inv
  obtain ⟨-, hknowny, hfieldy⟩ := hy.msg_inv
  cases hf : (S.descriptor c).findFieldByName name with
  | none =>
      have hxnone := find_eq_none_of_unknown hknownx hf
      have hynone := find_eq_none_of_unknown hknowny hf
      -- outside the descriptor both are without the field
      have hno : ∀ f ∈ (S.descriptor c).fields, f.name ≠ name :=
        MessageDef.findFieldByName_eq_none.mp hf
      exact ⟨none, by simp [mergedField, hxnone, hynone], by simp [hxnone, hynone], fun _ => rfl,
        fun f hmem hname => absurd hname (hno f hmem), fun f hmem hname =>
          absurd hname (hno f hmem)⟩
  | some f =>
      obtain ⟨hmem, rfl⟩ := MessageDef.findFieldByName_eq_some.mp hf
      cases hg : Assoc.find gs f.name with
      | none =>
          refine ⟨Assoc.find fs f.name, mergedField_of_none hg, by simp [hg], by simp [hf], ?_, ?_⟩
          · intro g hgmem hname
            obtain rfl := MessageDef.eq_of_name_eq hgmem hmem hname
            exact hfieldx g hgmem
          · intro g _ _
            rw [fieldContent_eq, fieldContent_eq, hg]
            exact ⟨fun _ => rfl, id, fun _ _ _ h => by cases h⟩
      | some y =>
          obtain ⟨v, hv, hvtyped, hjoined⟩ := mergedValue_joined (hfieldy f hmem y hg)
            (hfieldx f hmem) (hsub f hmem y hg)
          refine ⟨some v, ?_, by simp [hg], by simp [hf], ?_, ?_⟩
          · rw [mergedField_of_some S fs hf hg (hfieldy f hmem y hg).isDefined, hv]
            rfl
          · intro g hgmem hname v' hv'
            obtain rfl := MessageDef.eq_of_name_eq hgmem hmem hname
            obtain rfl := Option.some.inj hv'
            exact hvtyped
          · intro g hgmem hname
            obtain rfl := MessageDef.eq_of_name_eq hgmem hmem hname
            rw [fieldContent_eq, fieldContent_eq, hg]
            exact hjoined

/-- The fields of two well-typed messages: the loop of `merge` goes through, and
joins them name by name. -/
theorem mergeFields_joined (hx : WellTyped S .singular (.message c) (.msg c fs u))
    (hy : WellTyped S .singular (.message c) (.msg c gs w))
    (hsub : ∀ f ∈ (S.descriptor c).fields, ∀ y, Assoc.find gs f.name = some y → ∀ c',
      f.type = .message c' → f.shape S = .singular → ∀ x, WellTyped S .singular (.message c') x →
      ∃ r, mergeVal S y x = .ok r ∧ WellTyped S .singular (.message c') r ∧
        Joined S .singular (.message c') x.content y.content r.content) :
    ∃ r, mergeFields S (S.descriptor c) gs fs = .ok r ∧
      WellTyped S .singular (.message c) (.msg c r u) ∧
      (∀ name, (Assoc.find r name).isSome =
        ((Assoc.find fs name).isSome || (Assoc.find gs name).isSome)) ∧
      Joined S .singular (.message c) (Val.msg c fs u).content (Val.msg c gs w).content
        (Val.msg c r u).content := by
  obtain ⟨hndx, -, -⟩ := hx.msg_inv
  obtain ⟨hndy, -, -⟩ := hy.msg_inv
  have hone := mergedField_joined hx hy hsub
  rcases mergeFields_spec S (S.descriptor c) hndy fs with ⟨r, hr, hall⟩ | ⟨-, name, e, herr⟩
  · have hfound : ∀ name, JoinedAt S c fs gs name (Assoc.find r name) := by
      intro name
      obtain ⟨o, ho, hjoined⟩ := hone name
      obtain rfl := Except.ok.inj ((hall name).symm.trans ho)
      exact hjoined
    refine ⟨r, hr, ?_, fun name => (hfound name).isSome, ?_⟩
    · refine .msg (mergeFields_nodup hndx hr) ?_ ?_
      · intro name hmem hnone
        exact absurd hmem (Assoc.find_eq_none_iff.mp ((hfound name).unknown hnone))
      · intro f hf
        exact (hfound f.name).typed f hf rfl
    · rw [content_msg, content_msg, content_msg]
      refine Joined.of_fields ?_ (fun f hf => ?_) _ _
      · intro name hnone
        rw [fieldContent_eq, (hfound name).unknown hnone]
        rfl
      · rw [fieldContent_eq r]
        exact (hfound f.name).joined f hf rfl
  · -- no name fails, so the loop does not
    obtain ⟨o, ho, -⟩ := hone name
    cases ho.symm.trans herr

end AllFields

/-- Merging one well-typed message into another. -/
theorem WellTyped.mergeVal {sh : Shape} {t : FieldType} {y : Val} (h : WellTyped S sh t y)
    {c : String} (hsh : sh = .singular) (ht : t = .message c) {x : Val}
    (hx : WellTyped S .singular (.message c) x) :
    ∃ r, mergeVal S y x = .ok r ∧ WellTyped S .singular (.message c) r ∧
      Joined S .singular (.message c) x.content y.content r.content := by
  induction h generalizing c x with
  | scalar hne => exact absurd ht (hne c)
  | repeated => cases hsh
  | map => cases hsh
  | @msg cls gs w hnd hknown hfield ih =>
      obtain rfl := FieldType.message.inj ht
      cases hx with
      | scalar hne => exact absurd rfl (hne cls)
      | @msg _ fs u hnd' hknown' hfield' =>
          obtain ⟨r, hr, hrtyped, -, hjoined⟩ := mergeFields_joined (u := u) (w := w)
            (.msg hnd' hknown' hfield') (.msg hnd hknown hfield)
            (fun f hf y hy c' htype hshape x hx => ih f hf y hy hshape htype hx)
          exact ⟨.msg cls r u, by rw [Protobuf.mergeVal, hr], hrtyped, hjoined⟩

/-! ### Messages -/

/-- `merge_from` on a store of message objects. Dying leaves the destination half
merged. -/
def mergeFrom (S : Pool) (h : ℕ → Msg) (dst src : ℕ) : Except (Die × (ℕ → Msg)) (ℕ → Msg) :=
  match merge S (h dst) (h src) with
  | .ok m => .ok (Function.update h dst m)
  | .error (e, m) => .error (e, Function.update h dst m)

theorem merge_joined {m src : Msg} (hcls : src.cls = m.cls) (hm : m.WellTyped S)
    (hsrc : src.WellTyped S) :
    ∃ r, merge S m src = .ok r ∧ r.WellTyped S ∧ r.cls = m.cls ∧ r.unknown = m.unknown ∧
      (∀ name, has r name = (has m name || has src name)) ∧
      Joined S .singular (.message m.cls) m.content src.content r.content := by
  obtain ⟨c, fs, u⟩ := m
  obtain ⟨c', gs, w⟩ := src
  obtain rfl : c' = c := hcls
  obtain ⟨r, hr, htyped, hset, hjoined⟩ := mergeFields_joined hm hsrc
    (fun f hf y hy c htype hshape x hx =>
      ((WellTyped.msg_inv hsrc).2.2 f hf y hy).mergeVal hshape htype hx)
  refine ⟨⟨c', r, u⟩, ?_, htyped, rfl, rfl, hset, hjoined⟩
  simp [merge, hr]

theorem Msg.create_wellTyped (cls : String) : (Msg.create cls).WellTyped S :=
  .msg List.nodup_nil (fun _ h => by cases h) (fun _ _ _ h => by cases h)

theorem mergeFrom_joined (h : ℕ → Msg) (dst src : ℕ) (hcls : (h src).cls = (h dst).cls)
    (hdst : (h dst).WellTyped S) (hsrc : (h src).WellTyped S) :
    ∃ h', mergeFrom S h dst src = .ok h' ∧ (∀ r, r ≠ dst → h' r = h r) ∧
      (h' dst).WellTyped S ∧ (h' dst).cls = (h dst).cls ∧
      (∀ name, has (h' dst) name = (has (h dst) name || has (h src) name)) ∧
      Joined S .singular (.message (h dst).cls) (h dst).content (h src).content
        (h' dst).content := by
  obtain ⟨m, hm, htyped, hmcls, -, hset, hjoined⟩ := merge_joined hcls hdst hsrc
  refine ⟨Function.update h dst m, by rw [mergeFrom, hm], ?_, ?_⟩
  · intro r hr
    exact Function.update_of_ne hr _ _
  · rw [Function.update_self]
    exact ⟨htyped, hmcls, hset, hjoined⟩

/-- The empty message on either side. -/
theorem merge_empty {m : Msg} (hm : m.WellTyped S) :
    merge S m (.create m.cls) = .ok m ∧
      ∃ r, merge S (.create m.cls) m = .ok r ∧ fieldContent r.fields = fieldContent m.fields ∧
        ∀ name, has r name = has m name := by
  refine ⟨by simp [merge, mergeFields], ?_⟩
  obtain ⟨r, hr, -, -, -, hset, hjoined⟩ :=
    @merge_joined S (.create m.cls) m rfl (Msg.create_wellTyped m.cls) hm
  refine ⟨r, hr, ?_, by simpa [has] using hset⟩
  rw [Msg.content_eq, Msg.content_eq, Msg.content_eq] at hjoined
  obtain ⟨b, w, rf, heq, heq', hout, hfields⟩ := hjoined.fields
  obtain ⟨-, rfl, -⟩ := Content.msg.inj heq
  obtain ⟨-, rfl, -⟩ := Content.msg.inj heq'
  funext name
  cases hf : (S.descriptor m.cls).findFieldByName name with
  | none =>
      rw [hout name hf, fieldContent_eq, Assoc.find_eq_none_iff.mpr fun hmem =>
        (WellTyped.msg_inv hm).2.1 name hmem hf]
      rfl
  | some f =>
      obtain ⟨hmem, rfl⟩ := MessageDef.findFieldByName_eq_some.mp hf
      exact (hfields f hmem).right rfl

/-- Legal messages are well typed, where the check of a repeated field lets every
element pass. -/
theorem Legal.wellTyped {L : Legality} (hint : ∀ t n, L.int t n → ∀ c, t ≠ .message c)
    (hpass : ∀ t x, S.Passes t x) {sh : Shape} {t : FieldType} {v : Val} (h : Legal L S sh t v) :
    WellTyped S sh t v := by
  induction h with
  | int h hv => rcases hv with rfl | rfl <;> exact .scalar (hint _ _ h) trivial rfl
  | float h _ => exact .scalar (by rcases h with ⟨rfl, -⟩ | ⟨rfl, -⟩ <;> simp) trivial rfl
  | text ht _ => exact .scalar (by rcases ht with rfl | rfl <;> simp) trivial rfl
  | msg hnd hknown _ _ ih => exact .msg hnd hknown ih
  | repeated _ ih => exact .repeated ih fun x _ => hpass _ x
  | map hentry hnd _ _ ih => exact .map hentry hnd ih

theorem complex_wellTyped : complex.WellTyped hardening := by
  refine Legal.wellTyped (L := wireLegal) ?_ (fun _ _ _ _ => rfl) complex_legal
  rintro t n ⟨hrange, -⟩ c rfl
  exact hrange

end GooglePerl.Protobuf
