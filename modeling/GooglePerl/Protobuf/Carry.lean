import GooglePerl.Protobuf.Reread

/-!
From one program to another over the wire.

A message is serialized with the descriptors of `S` and parsed with those of
`S'`, which may know more fields. `Carries S S' shape t v v'` says, by rules
that follow the structure of the value, that what is `v` at the sender is `v'`
at the receiver. The main result of this module, `Carries.reread`, is that it
comes out so: the sender does not die, and the receiver reads a value with the
content of `v'` and nothing beyond it.
-/

namespace GooglePerl.Protobuf

open GooglePerl.Lib

/-- `S'` adds fields to message types of `S`; map entry types are the same. -/
structure Extends (S S' : Pool) : Prop where
  fields : ∀ c, ∀ f ∈ (S.descriptor c).fields, f ∈ (S'.descriptor c).fields
  mapEntry : ∀ c, (S'.descriptor c).mapEntry = (S.descriptor c).mapEntry
  entry : ∀ c, (S.descriptor c).mapEntry = true → (S'.descriptor c).fields = (S.descriptor c).fields

theorem Extends.refl (S : Pool) : Extends S S :=
  ⟨fun _ _ hf => hf, fun _ => rfl, fun _ _ => rfl⟩

theorem Extends.shape {S S' : Pool} (h : Extends S S') (f : FieldDef) : f.shape S' = f.shape S := by
  unfold FieldDef.shape
  simp only [h.mapEntry]

/-- Some message in the value, at any depth, lacks a required field. -/
inductive Incomplete (S : Pool) : Val → Prop where
  | missing {cls : String} {fs : List (PerlStr × Val)} {u : Option PerlStr}
      (h : missingRequired (S.descriptor cls) fs ≠ []) : Incomplete S (.msg cls fs u)
  | field {cls : String} {fs : List (PerlStr × Val)} {u : Option PerlStr} {f : FieldDef} {v : Val}
      (hf : f ∈ (S.descriptor cls).fields) (hv : Assoc.find fs f.name = some v)
      (h : Incomplete S v) :
      Incomplete S (.msg cls fs u)
  | item {kind : ArrKind} {xs : List Val} {x : Val} (hx : x ∈ xs) (h : Incomplete S x) :
      Incomplete S (.arr kind xs)
  | entry {es : List (PerlStr × Val)} {k : PerlStr} {v : Val} (hv : Assoc.find es k = some v)
      (h : Incomplete S v) : Incomplete S (.hash es)

inductive Carries (S S' : Pool) : Shape → FieldType → Val → Val → Prop where
  | int {t : FieldType} {n : ℤ} {v v' : Val} (h : t.rereads n) (hv : v.IsNum n) (hv' : v'.IsNum n) :
      Carries S S' .singular t v v'
  | float {t : FieldType} {p : PerlStr}
      (h : (t = .double ∧ p.length = 8) ∨ (t = .float ∧ p.length = 4)) :
      Carries S S' .singular t (.nv p) (.nv p)
  | text {t : FieldType} {s : PerlStr} (h : t = .string ∨ t = .bytes) :
      Carries S S' .singular t (.str s) (.str s)
  /-- The fields the sender knows are carried one by one; the others travel as
  unknown bytes and are what the receiver parses out of these. -/
  | msg {cls : String} {fs fs' : List (PerlStr × Val)} {u u' : Option PerlStr} {extra : Msg}
      (hset : ∀ f ∈ (S.descriptor cls).fields,
        (Assoc.find fs' f.name).isSome = (Assoc.find fs f.name).isSome)
      (hfield : ∀ f ∈ (S.descriptor cls).fields, ∀ v v', Assoc.find fs f.name = some v →
        Assoc.find fs' f.name = some v' → Carries S S' (f.shape S) f.type v v')
      (hunknown : UnknownFields (S.descriptor cls) (u.getD []))
      (hextra : parse S' cls (u.getD []) = .ok extra)
      (hnew : ∀ name, (S.descriptor cls).findFieldByName name = none →
        fieldContent fs' name = fieldContent extra.fields name)
      (hrest : u'.getD [] = extra.unknown.getD []) :
      Carries S S' .singular (.message cls) (.msg cls fs u) (.msg cls fs' u')
  | repeated {t : FieldType} {kind kind' : ArrKind} {xs xs' : List Val}
      (hlen : xs.length = xs'.length)
      (h : ∀ x x', (x, x') ∈ xs.zip xs' → Carries S S' .singular t x x') :
      Carries S S' .repeated t (.arr kind xs) (.arr kind' xs')
  | map {c : String} {t kt vt : FieldType} {es es' : List (PerlStr × Val)}
      (hentry : (S.descriptor c).fields = entryFields kt vt) (hnd : (Assoc.keys es).Nodup)
      (hset : ∀ k, (Assoc.find es' k).isSome = (Assoc.find es k).isSome)
      (hkey : ∀ k ∈ Assoc.keys es, kt.KeyRereads k)
      (h : ∀ k v v', Assoc.find es k = some v → Assoc.find es' k = some v' →
        Carries S S' .singular vt v v') :
      Carries S S' (.map c) t (.hash es) (.hash es')

variable {S S' : Pool}

/-! ### Messages -/

/-- The loop over the descriptor's fields, from a message that has none of them. -/
theorem fields_reread {fields : List (PerlStr × Val)} {target : FieldDef → Option Content}
    {fs : List FieldDef} (hnd : (fs.map FieldDef.name).Nodup)
    (hnone : ∀ f ∈ fs, Assoc.find fields f.name = none → target f = none)
    (hsome : ∀ f ∈ fs, ∀ v, Assoc.find fields f.name = some v → FieldReread S S' f v (target f)) :
    ∃ parts, (fs.mapM fun f =>
        ((Assoc.find fields f.name).map (serializeField S f)).getD (.ok [])) = .ok parts ∧
      (Fits parts.flatten → ∀ m : Msg, (∀ f ∈ fs, f ∈ (S'.descriptor m.cls).fields) →
        (∀ f ∈ fs, Assoc.find m.fields f.name = none) →
        ∃ m', (∀ rest, parseInto S' (parts.flatten ++ rest) m = parseInto S' rest m') ∧
          m'.cls = m.cls ∧ m'.unknown = m.unknown ∧
          (∀ name, (∀ f ∈ fs, f.name ≠ name) →
            Assoc.find m'.fields name = Assoc.find m.fields name) ∧
          ∀ f ∈ fs, fieldContent m'.fields f.name = target f) := by
  induction fs with
  | nil =>
      refine ⟨[], rfl, fun _ m _ _ => ⟨m, fun rest => rfl, rfl, rfl, fun _ _ => rfl, ?_⟩⟩
      intro f hf
      cases hf
  | cons f fs ih =>
      simp only [List.map_cons, List.nodup_cons] at hnd
      have hother : ∀ g ∈ fs, g.name ≠ f.name := by
        intro g hg heq
        exact hnd.1 (heq ▸ List.mem_map_of_mem hg)
      obtain ⟨parts, hparts, hrest⟩ := ih hnd.2
        (fun g hg => hnone g (List.mem_cons_of_mem _ hg))
        (fun g hg => hsome g (List.mem_cons_of_mem _ hg))
      -- a field that is not set writes nothing and leaves the message as it is
      have hfirst : ∃ p, ((Assoc.find fields f.name).map (serializeField S f)).getD (.ok []) =
          .ok p ∧ (Fits p → ∀ m : Msg, f ∈ (S'.descriptor m.cls).fields →
            Assoc.find m.fields f.name = none →
            ∃ m', (∀ rest, parseInto S' (p ++ rest) m = parseInto S' rest m') ∧
              SameBut f.name m m' ∧ fieldContent m'.fields f.name = target f) := by
        cases hv : Assoc.find fields f.name with
        | none =>
            refine ⟨[], rfl, fun _ m _ hm => ⟨m, fun rest => rfl, SameBut.refl _ m, ?_⟩⟩
            rw [fieldContent_eq, hm, hnone f List.mem_cons_self hv]
            rfl
        | some v => exact hsome f List.mem_cons_self v hv
      obtain ⟨p, hp, hstep⟩ := hfirst
      refine ⟨p :: parts, mapM_ok_cons hp hparts, ?_⟩
      intro hfits m hmem hempty
      rw [List.flatten_cons] at hfits
      obtain ⟨m₁, hrun₁, hsame, htarget⟩ := hstep hfits.of_append_left m
        (hmem f List.mem_cons_self) (hempty f List.mem_cons_self)
      obtain ⟨m', hrun, hcls, hunknown, hframe, hcontent⟩ := hrest hfits.of_append_right m₁
        (fun g hg => hsame.cls ▸ hmem g (List.mem_cons_of_mem _ hg))
        (fun g hg => (hsame.fields g.name (hother g hg)).trans
          (hempty g (List.mem_cons_of_mem _ hg)))
      refine ⟨m', ?_, hcls.trans hsame.cls, hunknown.trans hsame.unknown, ?_, ?_⟩
      · intro rest
        rw [List.flatten_cons, List.append_assoc, hrun₁, hrun]
      · intro name hname
        rw [hframe name fun g hg => hname g (List.mem_cons_of_mem _ hg),
          hsame.fields name (hname f List.mem_cons_self).symm]
      · intro g hg
        rcases List.mem_cons.mp hg with rfl | hg
        · rw [fieldContent_eq, hframe g.name hother, ← fieldContent_eq, htarget]
        · exact hcontent g hg

/-- A whole message: its known fields field by field, then its unknown bytes. -/
theorem serialize_reread (hext : Extends S S') {cls : String} {fs fs' : List (PerlStr × Val)}
    {u u' : Option PerlStr} {extra : Msg} (hrequired : missingRequired (S.descriptor cls) fs = [])
    (hset : ∀ f ∈ (S.descriptor cls).fields,
      (Assoc.find fs' f.name).isSome = (Assoc.find fs f.name).isSome)
    (hfield : ∀ f ∈ (S.descriptor cls).fields, ∀ v v', Assoc.find fs f.name = some v →
      Assoc.find fs' f.name = some v' → FieldReread S S' f v v'.setContent)
    (hunknown : UnknownFields (S.descriptor cls) (u.getD []))
    (hextra : parse S' cls (u.getD []) = .ok extra)
    (hnew : ∀ name, (S.descriptor cls).findFieldByName name = none →
      fieldContent fs' name = fieldContent extra.fields name)
    (hrest : u'.getD [] = extra.unknown.getD []) :
    ∃ bytes, serialize S ⟨cls, fs, u⟩ = .ok bytes ∧ (Fits bytes →
      ∃ m', parse S' cls bytes = .ok m' ∧ m'.content = Msg.content ⟨cls, fs', u'⟩) := by
  -- a field is set in both messages or in none
  have hnone : ∀ f ∈ (S.descriptor cls).fields, Assoc.find fs f.name = none →
      fieldContent fs' f.name = none := by
    intro f hf hn
    have hn' : Assoc.find fs' f.name = none := by
      rw [← Option.not_isSome_iff_eq_none, hset f hf, hn]
      simp
    rw [fieldContent_eq, hn']
    rfl
  have hsome : ∀ f ∈ (S.descriptor cls).fields, ∀ v, Assoc.find fs f.name = some v →
      FieldReread S S' f v (fieldContent fs' f.name) := by
    intro f hf v hv
    obtain ⟨v', hv'⟩ : ∃ v', Assoc.find fs' f.name = some v' := by
      rw [← Option.isSome_iff_exists, hset f hf, hv]
      rfl
    rw [fieldContent_eq, hv']
    exact hfield f hf v v' hv hv'
  obtain ⟨parts, hparts, hread⟩ := fields_reread (S.descriptor cls).names_nodup hnone hsome
  refine ⟨parts.flatten ++ u.getD [], ?_, ?_⟩
  · rw [serialize_eq, if_neg (by simp [hrequired]), hparts]
    rfl
  · intro hfits
    obtain ⟨m₁, hrun, hcls, hunk, hframe, hcontent⟩ := hread hfits.of_append_left (.create cls)
      (hext.fields cls) (fun f _ => rfl)
    -- the known fields are read; the unknown ones go to a message of their own
    have hag : AgreeOutside (S.descriptor cls) m₁ (.create cls) := by
      refine ⟨hcls, hunk, fun name hname => ?_⟩
      exact hframe name (MessageDef.findFieldByName_eq_none.mp hname)
    obtain ⟨m', hm', hout, hin⟩ :=
      parseInto_outside hunknown (hext.fields cls) (parse_eq_ok.mp hextra) hag
    refine ⟨m', ?_, ?_⟩
    · rw [parse_eq_ok, hrun, hm']
    · have hcls' : m'.cls = cls := (parseInto_cls hm').trans hcls
      rw [Msg.content_eq, Msg.content_eq, hcls', hout.unknown, hrest]
      congr 1
      funext name
      cases hname : (S.descriptor cls).findFieldByName name with
      | none => rw [fieldContent_eq, hout.fields name hname, ← fieldContent_eq, hnew name hname]
      | some f =>
          obtain ⟨hf, rfl⟩ := MessageDef.findFieldByName_eq_some.mp hname
          rw [fieldContent_eq, hin f.name (by simp [hname]), ← fieldContent_eq, hcontent f hf]

/-- A value of a singular field is there. -/
theorem Carries.ne_undef {t : FieldType} {v v' : Val} (h : Carries S S' .singular t v v') :
    v ≠ .undef := by
  cases h with
  | int _ hv _ => rcases hv with rfl | rfl <;> simp
  | float _ => simp
  | text _ => simp
  | msg => simp

/-- What holds of a carried value of each shape, from what holds of the values
inside it. -/
def RereadAs (S S' : Pool) : Shape → FieldType → Val → Val → Prop
  | .singular, t, v, v' => v ≠ .undef ∧ Reread S S' t v v'
  | sh, t, v, v' => ∀ f : FieldDef, f.type = t → f.shape S = sh →
      FieldReread S S' f v v'.setContent

theorem RereadAs.field (hext : Extends S S') {f : FieldDef} {v v' : Val}
    (h : RereadAs S S' (f.shape S) f.type v v') : FieldReread S S' f v v'.setContent := by
  cases hshape : f.shape S with
  | singular =>
      rw [hshape] at h
      exact fieldReread_singular hshape ((hext.shape f).trans hshape) h.1 h.2
  | repeated =>
      rw [hshape] at h
      exact h f rfl hshape
  | map c =>
      rw [hshape] at h
      exact h f rfl hshape

theorem Carries.rereadAs (hext : Extends S S') {sh : Shape} {t : FieldType} {v v' : Val}
    (h : Carries S S' sh t v v') (hcomplete : ¬ Incomplete S v) : RereadAs S S' sh t v v' := by
  induction h with
  | int h hv hv' => exact ⟨(@Carries.int S S' _ _ _ _ h hv hv').ne_undef, reread_int h hv hv'⟩
  | float h => exact ⟨by simp, reread_float h⟩
  | text h => exact ⟨by simp, reread_text h⟩
  | @msg cls fs fs' u u' extra hset hfield hunknown hextra hnew hrest ih =>
      have hrequired : missingRequired (S.descriptor cls) fs = [] := by
        by_contra hmissing
        exact hcomplete (.missing hmissing)
      obtain ⟨bytes, hser, hread⟩ := serialize_reread hext hrequired hset
        (fun f hf v v' hv hv' =>
          (ih f hf v v' hv hv' fun h => hcomplete (.field hf hv h)).field hext)
        hunknown hextra hnew hrest
      refine ⟨by simp, leb128 bytes.length ++ bytes, ?_, ?_⟩
      · rw [encodePayload_msg, hser, ok_bind, lengthPrefixed_eq]
      · intro hfits
        obtain ⟨m', hm', hcontent⟩ := hread hfits.of_append_right
        exact ⟨m'.toVal, hcontent, fun rest =>
          decodeField_message hfits.of_append_right.lt hm' rest⟩
  | @repeated t kind kind' xs xs' hlen h ih =>
      intro f ht hshape
      subst ht
      refine fieldReread_repeated hshape ((hext.shape f).trans hshape) hlen fun x x' hx => ?_
      exact (ih x x' hx fun h => hcomplete (.item (List.of_mem_zip hx).1 h)).2
  | @map c t kt vt es es' hentry hnd hset hkey h ih =>
      intro f ht hshape
      have hmap := (FieldDef.shape_map hshape).2
      refine fieldReread_map hshape ((hext.shape f).trans hshape) hentry
        ((hext.entry c hmap).trans hentry) hset hkey ?_
      intro k v hmem
      have hv := Assoc.find_of_mem hnd hmem
      obtain ⟨v', hv'⟩ : ∃ v', Assoc.find es' k = some v' := by
        rw [← Option.isSome_iff_exists, hset, hv]
        rfl
      exact ⟨v', hv', (ih k v v' hv hv' fun h => hcomplete (.entry hv h)).2⟩

/-- What the sender holds as `m` arrives as `m'`, unless a required field is
missing somewhere. -/
theorem Carries.reread (hext : Extends S S') {m m' : Msg} (hcls : m'.cls = m.cls)
    (h : Carries S S' .singular (.message m.cls) m.toVal m'.toVal)
    (hcomplete : ¬ Incomplete S m.toVal) :
    ∃ bytes, serialize S m = .ok bytes ∧
      (Fits bytes → ∃ r, parse S' m.cls bytes = .ok r ∧ r.content = m'.content) := by
  obtain ⟨cls, fs, u⟩ := m
  obtain ⟨cls', fs', u'⟩ := m'
  obtain rfl : cls' = cls := hcls
  cases h with
  | int _ hv _ => rcases hv with hv | hv <;> cases hv
  | msg hset hfield hunknown hextra hnew hrest =>
      have hrequired : missingRequired (S.descriptor cls') fs = [] := by
        by_contra hmissing
        exact hcomplete (.missing hmissing)
      refine serialize_reread hext hrequired hset ?_ hunknown hextra hnew hrest
      intro f hf v v' hv hv'
      exact ((hfield f hf v v' hv hv').rereadAs hext fun h => hcomplete (.field hf hv h)).field hext

/-! ### Hash order -/

/-- The same value, with the keys of its hashes in another order, at any depth. -/
inductive Reordered : Val → Val → Prop where
  | refl (v : Val) : Reordered v v
  | arr {kind : ArrKind} {xs ys : List Val} (hlen : xs.length = ys.length)
      (h : ∀ x y, (x, y) ∈ xs.zip ys → Reordered x y) : Reordered (.arr kind xs) (.arr kind ys)
  | hash {es es' : List (PerlStr × Val)} (hnd : (Assoc.keys es').Nodup)
      (hset : ∀ k, (Assoc.find es' k).isSome = (Assoc.find es k).isSome)
      (h : ∀ k v v', Assoc.find es k = some v → Assoc.find es' k = some v' → Reordered v v') :
      Reordered (.hash es) (.hash es')
  | msg {cls : String} {fs fs' : List (PerlStr × Val)} {u : Option PerlStr}
      (hset : ∀ name, (Assoc.find fs' name).isSome = (Assoc.find fs name).isSome)
      (h : ∀ name v v', Assoc.find fs name = some v → Assoc.find fs' name = some v' →
        Reordered v v') :
      Reordered (.msg cls fs u) (.msg cls fs' u)

theorem Reordered.isNum {n : ℤ} {v w : Val} (h : Reordered v w) (hv : v.IsNum n) : w.IsNum n := by
  rcases hv with rfl | rfl <;> cases h
  · exact .inl rfl
  · exact .inr rfl

theorem Reordered.cls_eq {m m₀ : Msg} (h : Reordered m.toVal m₀.toVal) : m₀.cls = m.cls := by
  obtain ⟨cls, fs, u⟩ := m
  obtain ⟨cls', fs', u'⟩ := m₀
  cases h <;> rfl

theorem exists_zip_left {α β γ : Type} {xs : List α} {ys : List β} {zs : List γ}
    (hlen : xs.length = ys.length) {y : β} {z : γ} (h : (y, z) ∈ ys.zip zs) :
    ∃ x, (x, y) ∈ xs.zip ys ∧ (x, z) ∈ xs.zip zs := by
  induction ys generalizing xs zs with
  | nil => cases h
  | cons y' ys ih =>
      obtain ⟨x, xs, rfl⟩ := List.exists_cons_of_length_eq_add_one hlen
      cases zs with
      | nil => cases h
      | cons z' zs =>
          rcases List.mem_cons.mp h with heq | h
          · obtain ⟨rfl, rfl⟩ := Prod.mk.inj heq
            exact ⟨x, List.mem_cons_self, List.mem_cons_self⟩
          · obtain ⟨x', hx, hx'⟩ := ih (by simpa using hlen) h
            exact ⟨x', List.mem_cons_of_mem _ hx, List.mem_cons_of_mem _ hx'⟩

theorem exists_find_of_isSome_eq {es es' : List (PerlStr × Val)} {k : PerlStr}
    (hset : (Assoc.find es' k).isSome = (Assoc.find es k).isSome) {v' : Val}
    (h : Assoc.find es' k = some v') : ∃ v, Assoc.find es k = some v := by
  rw [← Option.isSome_iff_exists, ← hset, h]
  rfl

/-- The order of the sender's hashes does not matter. -/
theorem Carries.reordered {sh : Shape} {t : FieldType} {v v' w : Val}
    (h : Carries S S' sh t v v') (hw : Reordered v w) : Carries S S' sh t w v' := by
  induction h generalizing w with
  | int h hv hv' => exact .int h (hw.isNum hv) hv'
  | float h =>
      cases hw
      exact .float h
  | text h =>
      cases hw
      exact .text h
  | @msg cls fs fs' u u' extra hset hfield hunknown hextra hnew hrest ih =>
      cases hw with
      | refl => exact .msg hset hfield hunknown hextra hnew hrest
      | @msg _ _ gs _ hset' hsub =>
          refine .msg (fun f hf => (hset f hf).trans (hset' f.name).symm) ?_ hunknown hextra hnew
            hrest
          intro f hf x x' hx hx'
          obtain ⟨y, hy⟩ := exists_find_of_isSome_eq (hset' f.name) hx
          exact ih f hf y x' hy hx' (hsub f.name y x hy hx)
  | @repeated t kind kind' xs xs' hlen h ih =>
      cases hw with
      | refl => exact .repeated hlen h
      | @arr _ _ ys hlen' hsub =>
          refine .repeated (hlen'.symm.trans hlen) fun y x' hy => ?_
          obtain ⟨x, hxy, hxx'⟩ := exists_zip_left hlen' hy
          exact ih x x' hxx' (hsub x y hxy)
  | @map c t kt vt es es' hentry hnd hset hkey h ih =>
      cases hw with
      | refl => exact .map hentry hnd hset hkey h
      | @hash _ gs hnd' hset' hsub =>
          refine .map hentry hnd' (fun k => (hset k).trans (hset' k).symm) ?_ ?_
          · intro k hk
            refine hkey k ?_
            by_contra hnone
            rw [← Assoc.find_eq_none_iff] at hnone
            refine absurd hk (Assoc.find_eq_none_iff.mp ?_)
            rw [← Option.not_isSome_iff_eq_none, hset' k, hnone]
            simp
          · intro k x x' hx hx'
            obtain ⟨y, hy⟩ := exists_find_of_isSome_eq (hset' k) hx
            exact ih k y x' hy hx' (hsub k y x hy hx)

end GooglePerl.Protobuf
