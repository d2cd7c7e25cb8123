import GooglePerl.Protobuf.Copy
import GooglePerl.Xs.MapKeys

/-!
`copy_from` of a map, in both engines.

The destination is cleared before the source is looked at. So a map that is copied to itself is
lost, and whatever makes the copy die then (a plain hash, of which the XS engine asks a method; an
entry that the field refuses) leaves an emptied or a half-filled map behind (`copyFrom_iff`).
-/

namespace GooglePerl.Xs.MapCopy

open GooglePerl.Lib GooglePerl.Protobuf

/-! ### The source -/

/-- The fields of a map's entries. -/
structure MapType where
  key : FieldDef
  val : FieldDef
  key_type : isKeyType key.type = true

abbrev Entries := List (MessageValue × MessageValue)

/-- `upb_Map_Get` -/
def mapGet (x : MessageValue) (entries : Entries) : Option MessageValue :=
  (entries.find? fun e => x.sameKey e.1).map Prod.snd

/-- `PerlUpb_UpbToSv_Element`: of a message an object. -/
def itemSv (t : FieldType) : MessageValue → Sv
  | .msg c slots rest => .message c slots rest
  | v => .scalar (perlScalar t v)

/-- `FETCH`: `PerlUpb_Map_GetItem` -/
def fetch (t : MapType) (entries : Entries) (key : Scalar) : Except Fault Sv :=
  (convertScalar t.key key).map fun x => ((mapGet x entries).map (itemSv t.val.type)).getD
    (.scalar .undef)

/-- The loop of `as_hash` over the keys. -/
def asHashFrom (t : MapType) (entries : Entries) (hash : List (HashKey × Sv)) :
    Entries → Except Fault (List (HashKey × Sv))
  | [] => .ok hash
  | e :: es =>
      match fetch t entries (perlScalar t.key.type e.1) with
      | .error f => .error f
      | .ok sv => asHashFrom t entries (Assoc.store hash (fileKey t.key.type e.1) sv) es

/-- `as_hash` -/
def asHash (t : MapType) (entries : Entries) : Except Fault (List (HashKey × Sv)) :=
  asHashFrom t entries [] entries

section

variable (S : DefPool) (address : Sv → ℕ)

/-- What an entry of a hash is for a map, if the fields take it. -/
def convert (t : MapType) (e : HashKey × Sv) : Except Fault (MessageValue × MessageValue) :=
  match convertScalar t.key (.str e.1.pv e.1.utf8) with
  | .error f => .error f
  | .ok x => (convertSingular S address t.val e.2).map fun y => (x, y)

/-- A map behind a call, and whether the call died. -/
structure Outcome where
  entries : Entries
  died : Bool

/-- The loop of `copy_from`: `STORE` of one entry after another, which may croak. -/
def storeAll (t : MapType) (entries : Entries) : List (HashKey × Sv) → Outcome
  | [] => ⟨entries, false⟩
  | e :: es =>
      match convert S address t e with
      | .error _ => ⟨entries, true⟩
      | .ok (x, y) => storeAll t (mapSet x y entries) es

/-- What a map holds. -/
structure Contents (t : MapType) where
  entries : Entries
  key_of : ∀ e ∈ entries, KeyOf S t.key.type e.1
  distinct : entries.Pairwise fun a b => b.1.sameKey a.1 = false

/-- What is copied: the map itself, a plain hash, or another map. -/
inductive Source where
  | itself
  | hash (es : List (HashKey × Sv))
  | map (t : MapType) (c : Contents S t)

/-- `copy_from` of a tied map: `CLEAR`, then `as_hash` of the source (which a plain hash has no
method for), then the loop. -/
def copyFrom (ord : Assoc.KeyOrder (HashKey × Sv)) (t : MapType) : Source S → Outcome
  | .itself =>
      match asHash t [] with
      | .error _ => ⟨[], true⟩
      | .ok h => storeAll S address t [] (ord.order h)
  | .hash _ => ⟨[], true⟩
  | .map t' c =>
      match asHash t' c.entries with
      | .error _ => ⟨[], true⟩
      | .ok h => storeAll S address t [] (ord.order h)

end

namespace PurePerl

/-- What is copied: the map itself, or a plain hash or another map with its entries. -/
inductive Source where
  | itself
  | other (es : List (PerlStr × Val)) (once : (Assoc.keys es).Nodup)

/-- `copy_from` of a plain map: `%$self = ()`, then a clone of each entry of the source. -/
def copyFrom (ord : Assoc.KeyOrder (PerlStr × Val)) : Source → List (PerlStr × Val)
  | .itself => Assoc.assignAll [] ((ord.order []).map fun e => (e.1, deepClone e.2))
  | .other es _ => Assoc.assignAll [] ((ord.order es).map fun e => (e.1, deepClone e.2))

end PurePerl

/-! ### What it should do -/

/-- The entries of a map as a Perl program sees them. -/
def view (t : MapType) (entries : Entries) : List (PerlStr × Sv) :=
  entries.map fun e => (keyText t.key.type e.1, itemSv t.val.type e.2)

/-- How values are compared: in the XS engine any way will do, and in the other one any that takes
a clone for what it was made from. -/
structure Comparison where
  sv : Sv → Sv → Prop
  val : Val → Val → Prop
  clone : ∀ v, val (deepClone v) v

section

variable (cmp : Comparison) {S : DefPool} (address : Sv → ℕ) (ord : Assoc.KeyOrder (HashKey × Sv))
  (t : MapType)

/-- The entries of the source before the call. -/
def Source.view (D : Contents S t) : Source S → List (PerlStr × Sv)
  | .itself => MapCopy.view t D.entries
  | .hash es => es.map fun e => (e.1.text, e.2)
  | .map t' c => MapCopy.view t' c.entries

/-- The destination has the entries of the source, or the call has died and it is unchanged. -/
def CopiesOrKeeps (D : Contents S t) (src : Source S) : Prop :=
  let r := copyFrom S address ord t src
  (r.died = false ∧ Assoc.Agree cmp.sv (view t r.entries) (src.view t D)) ∨
    (r.died = true ∧ r.entries.Perm D.entries)

/-- An entry of another map is taken by the fields, and reads as it did. -/
def Kept (t' : MapType) (e : MessageValue × MessageValue) : Prop :=
  ∃ x y, convert S address t (fileKey t'.key.type e.1, itemSv t'.val.type e.2) = .ok (x, y) ∧
    keyText t.key.type x = keyText t'.key.type e.1 ∧
    cmp.sv (itemSv t.val.type y) (itemSv t'.val.type e.2)

/-- The map of entries that the fields take. -/
def tableOf (es : List (HashKey × Sv)) : Entries :=
  (es.filterMap fun e => (convert S address t e).toOption).foldl (fun m e => mapSet e.1 e.2 m) []

/-- The map has just the entries in front of the first one that is refused. -/
def HoldsBeforeRefused (D : Contents S t) (h : List (HashKey × Sv)) : Prop :=
  ∃ before e behind, h = before ++ e :: behind ∧
    (∀ d ∈ before, ∃ p, convert S address t d = .ok p) ∧
    (∃ f, convert S address t e = .error f) ∧ (tableOf (S := S) address t before).Perm D.entries

/-- When it does what it should. -/
def Sound (D : Contents S t) : Source S → Prop
  | .itself => D.entries = []
  | .hash _ => D.entries = []
  | .map t' c =>
      (∀ e ∈ c.entries, Kept cmp (S := S) address t t' e) ∨
        HoldsBeforeRefused address t D
          (ord.order (c.entries.map fun e => (fileKey t'.key.type e.1, itemSv t'.val.type e.2)))

end

/-! ### Reading the source -/

section

variable {S : DefPool} {t : MapType}

theorem Contents.pairwise_ne (c : Contents S t) :
    c.entries.Pairwise fun a b => a.1 ≠ b.1 := by
  refine c.distinct.imp_of_mem fun {a b} ha hb hsame heq => ?_
  have htrue := (sameKey_iff t.key_type (c.key_of b hb) (c.key_of a ha)).mpr heq.symm
  rw [hsame] at htrue
  cases htrue

/-- The texts of the keys of a map are different. -/
theorem Contents.nodup_keyText (c : Contents S t) :
    (c.entries.map fun e => keyText t.key.type e.1).Nodup := by
  rw [List.Nodup, List.pairwise_map]
  exact c.pairwise_ne.imp_of_mem fun ha hb hne heq =>
    hne (keyText_inj t.key_type (c.key_of _ ha) (c.key_of _ hb) heq)

theorem Contents.nodup_fileKey (c : Contents S t) :
    (c.entries.map fun e => fileKey t.key.type e.1).Nodup := by
  have h := c.nodup_keyText
  rw [List.Nodup, List.pairwise_map] at h ⊢
  exact h.imp fun hne heq => hne (congrArg HashKey.text heq)

theorem mapGet_of_mem (c : Contents S t) {e : MessageValue × MessageValue} (he : e ∈ c.entries) :
    mapGet e.1 c.entries = some e.2 := by
  have hfind : c.entries.find? (fun d => e.1.sameKey d.1) = some e := by
    obtain ⟨before, behind, hsplit⟩ := List.append_of_mem he
    have hpair := c.pairwise_ne
    rw [hsplit, List.pairwise_append] at hpair
    rw [List.find?_eq_some_iff_append]
    refine ⟨(sameKey_iff t.key_type (c.key_of e he) (c.key_of e he)).mpr rfl, before, behind,
      hsplit, fun d hd => ?_⟩
    have hdmem : d ∈ c.entries := hsplit ▸ List.mem_append_left _ hd
    rw [Bool.not_eq_true', ← Bool.not_eq_true,
      sameKey_iff t.key_type (c.key_of e he) (c.key_of d hdmem)]
    exact (hpair.2.2 d hd e List.mem_cons_self).symm
  rw [mapGet, hfind]
  rfl

theorem fetch_of_mem (c : Contents S t) {e : MessageValue × MessageValue} (he : e ∈ c.entries) :
    fetch t c.entries (perlScalar t.key.type e.1) = .ok (itemSv t.val.type e.2) := by
  rw [fetch, convertScalar_key t.key_type (c.key_of e he)]
  simp only [Except.map, mapGet_of_mem c he, Option.map_some, Option.getD_some]

/-- What `as_hash` makes of a map. -/
def hashOf (t : MapType) (entries : Entries) : List (HashKey × Sv) :=
  entries.map fun e => (fileKey t.key.type e.1, itemSv t.val.type e.2)

theorem asHash_eq (c : Contents S t) : asHash t c.entries = .ok (hashOf t c.entries) := by
  have hloop : ∀ es : Entries, (∀ e ∈ es, e ∈ c.entries) → ∀ hash,
      asHashFrom t c.entries hash es = .ok (Assoc.assignAll hash (hashOf t es)) := by
    intro es hes
    induction es with
    | nil => exact fun hash => rfl
    | cons e es ih =>
        intro hash
        rw [asHashFrom, fetch_of_mem c (hes e List.mem_cons_self)]
        exact ih (fun d hd => hes d (List.mem_cons_of_mem _ hd)) _
  have hkeys : (Assoc.keys (hashOf t c.entries)).Nodup := by
    rw [Assoc.keys, hashOf, List.map_map]
    exact c.nodup_fileKey
  rw [asHash, hloop c.entries (fun e he => he) [], Assoc.assignAll_eq_self hkeys]

end

/-! ### Storing -/

section

variable {S : DefPool} (address : Sv → ℕ) {t : MapType}

/-- An entry as it reads once it is stored. -/
def storedAs (S : DefPool) (t : MapType) (e : HashKey × Sv) : PerlStr × Sv :=
  match convert S address t e with
  | .ok p => (keyText t.key.type p.1, itemSv t.val.type p.2)
  | .error _ => (e.1.text, e.2)

theorem convertScalar_of_convert {e : HashKey × Sv} {x y : MessageValue}
    (h : convert S address t e = .ok (x, y)) :
    convertScalar t.key (.str e.1.pv e.1.utf8) = .ok x := by
  rw [convert] at h
  split at h
  · cases h
  · rename_i z hz
    obtain ⟨y', -, heq⟩ := map_eq_ok.mp h
    obtain ⟨rfl, -⟩ := Prod.mk.inj heq
    exact hz

theorem keyOf_convert {e : HashKey × Sv} {x y : MessageValue}
    (h : convert S address t e = .ok (x, y)) : KeyOf S t.key.type x :=
  keyOf_convertScalar t.key_type (convertScalar_of_convert address h)

theorem view_mapSet {entries : Entries} (hkeys : ∀ e ∈ entries, KeyOf S t.key.type e.1)
    {x : MessageValue} (hx : KeyOf S t.key.type x) (y : MessageValue) :
    view t (mapSet x y entries) =
      Assoc.store (view t entries) (keyText t.key.type x) (itemSv t.val.type y) := by
  induction entries with
  | nil => rfl
  | cons e entries ih =>
      have he := hkeys e List.mem_cons_self
      have hrest := ih fun d hd => hkeys d (List.mem_cons_of_mem _ hd)
      obtain ⟨x', y'⟩ := e
      rw [mapSet]
      by_cases hsame : x.sameKey x' = true
      · obtain rfl := (sameKey_iff t.key_type hx he).mp hsame
        rw [if_pos hsame]
        simp [view, Assoc.store]
      · have hne : keyText t.key.type x ≠ keyText t.key.type x' := by
          intro heq
          exact hsame ((sameKey_iff t.key_type hx he).mpr (keyText_inj t.key_type hx he heq))
        rw [if_neg hsame]
        simp only [view, List.map_cons] at hrest ⊢
        rw [hrest, Assoc.store, if_neg hne]

theorem keyOf_mapSet {entries : Entries} (hkeys : ∀ e ∈ entries, KeyOf S t.key.type e.1)
    {x : MessageValue} (hx : KeyOf S t.key.type x) (y : MessageValue) :
    ∀ e ∈ mapSet x y entries, KeyOf S t.key.type e.1 := by
  induction entries with
  | nil =>
      intro e he
      rw [mapSet, List.mem_singleton] at he
      rw [he]
      exact hx
  | cons d entries ih =>
      have hrest := ih fun d hd => hkeys d (List.mem_cons_of_mem _ hd)
      have hd := hkeys d List.mem_cons_self
      obtain ⟨x', y'⟩ := d
      intro e he
      rw [mapSet] at he
      split at he
      · rcases List.mem_cons.mp he with rfl | he
        · exact hd
        · exact hkeys e (List.mem_cons_of_mem _ he)
      · rcases List.mem_cons.mp he with rfl | he
        · exact hd
        · exact hrest e he

/-- The loop over entries that the fields take. -/
theorem storeAll_of_taken {h : List (HashKey × Sv)}
    (htaken : ∀ e ∈ h, ∃ p, convert S address t e = .ok p) {entries : Entries}
    (hkeys : ∀ e ∈ entries, KeyOf S t.key.type e.1) :
    (storeAll S address t entries h).died = false ∧
      view t (storeAll S address t entries h).entries =
        Assoc.assignAll (view t entries) (h.map (storedAs address S t)) := by
  induction h generalizing entries with
  | nil => exact ⟨rfl, rfl⟩
  | cons e h ih =>
      obtain ⟨⟨x, y⟩, hconvert⟩ := htaken e List.mem_cons_self
      have hx := keyOf_convert address hconvert
      have hstored : storedAs address S t e =
          (keyText t.key.type x, itemSv t.val.type y) := by
        rw [storedAs, hconvert]
      have hrest := ih (fun d hd => htaken d (List.mem_cons_of_mem _ hd)) (keyOf_mapSet hkeys hx y)
      rw [view_mapSet hkeys hx] at hrest
      rw [storeAll, hconvert, List.map_cons, hstored]
      exact hrest

/-- The loop up to an entry that is refused. -/
theorem storeAll_of_refused {before : List (HashKey × Sv)} {e : HashKey × Sv} {f : Fault}
    (htaken : ∀ d ∈ before, ∃ p, convert S address t d = .ok p)
    (hrefused : convert S address t e = .error f) (behind : List (HashKey × Sv))
    (entries : Entries) :
    storeAll S address t entries (before ++ e :: behind) =
      ⟨(before.filterMap fun e => (convert S address t e).toOption).foldl
        (fun m e => mapSet e.1 e.2 m) entries, true⟩ := by
  induction before generalizing entries with
  | nil => rw [List.nil_append, storeAll, hrefused, List.filterMap_nil, List.foldl_nil]
  | cons d before ih =>
      obtain ⟨⟨x, y⟩, hconvert⟩ := htaken d List.mem_cons_self
      rw [List.cons_append, storeAll, hconvert]
      simp only [List.filterMap_cons, hconvert, Except.toOption, List.foldl_cons]
      exact ih (fun d hd => htaken d (List.mem_cons_of_mem _ hd)) _

/-- All entries are taken, or there is a first one that is refused. -/
theorem taken_or_refused (h : List (HashKey × Sv)) :
    (∀ e ∈ h, ∃ p, convert S address t e = .ok p) ∨
      ∃ before e behind f, h = before ++ e :: behind ∧
        (∀ d ∈ before, ∃ p, convert S address t d = .ok p) ∧ convert S address t e = .error f := by
  induction h with
  | nil => exact .inl fun e he => absurd he List.not_mem_nil
  | cons e h ih =>
      cases hconvert : convert S address t e with
      | error f =>
          exact .inr ⟨[], e, h, f, rfl, fun d hd => absurd hd List.not_mem_nil, hconvert⟩
      | ok p =>
          rcases ih with hall | ⟨before, d, behind, f, rfl, htaken, hrefused⟩
          · exact .inl (List.forall_mem_cons.mpr ⟨⟨p, hconvert⟩, hall⟩)
          · exact .inr ⟨e :: before, d, behind, f, rfl,
              List.forall_mem_cons.mpr ⟨⟨p, hconvert⟩, htaken⟩, hrefused⟩

end

/-! ### The whole copy -/

theorem agree_perm {α β κ : Type} [DecidableEq κ] {same : α → β → Prop} {t : List (κ × α)}
    {u u' : List (κ × β)} (hp : u.Perm u') (hnd : (Assoc.keys u).Nodup) :
    Assoc.Agree same t u ↔ Assoc.Agree same t u' := by
  have hkeys : (Assoc.keys u).Perm (Assoc.keys u') := hp.map Prod.fst
  simp only [Assoc.Agree, Assoc.find_perm hp hnd, hkeys.mem_iff]

theorem agree_nil_iff {α β κ : Type} [DecidableEq κ] {same : α → β → Prop} {u : List (κ × β)} :
    Assoc.Agree same [] u ↔ u = [] := by
  constructor
  · intro h
    cases u with
    | nil => rfl
    | cons e u => exact absurd ((h.1 e.1).mpr (by simp [Assoc.keys])) (by simp [Assoc.keys])
  · rintro rfl
    exact ⟨fun _ => Iff.rfl, fun k v w hv => by simp at hv⟩

section

variable (cmp : Comparison) {S : DefPool} (address : Sv → ℕ) (ord : Assoc.KeyOrder (HashKey × Sv))
  (t : MapType) (D : Contents S t)

/-- Entries that are all taken are copied exactly if they are all kept. -/
theorem copies_iff_kept {t' : MapType} (c : Contents S t')
    (htaken : ∀ e ∈ ord.order (hashOf t' c.entries), ∃ p, convert S address t e = .ok p) :
    Assoc.Agree cmp.sv
        (Assoc.assignAll [] ((ord.order (hashOf t' c.entries)).map (storedAs address S t)))
        (view t' c.entries) ↔
      ∀ e ∈ c.entries, Kept cmp (S := S) address t t' e := by
  have hperm := ord.perm (hashOf t' c.entries)
  have hview : view t' c.entries = (hashOf t' c.entries).map fun e => (e.1.text, e.2) := by
    rw [hashOf, List.map_map]
    rfl
  have hnodup : (Assoc.keys (view t' c.entries)).Nodup := by
    rw [Assoc.keys, view, List.map_map]
    exact c.nodup_keyText
  -- the keys of a hash have different texts
  have htexts : ((ord.order (hashOf t' c.entries)).map fun e => e.1.text).Nodup := by
    rw [(hperm.map _).nodup_iff]
    rw [hview, Assoc.keys, List.map_map] at hnodup
    exact hnodup
  rw [agree_perm (hview ▸ (hperm.map fun e : HashKey × Sv => (e.1.text, e.2)).symm) hnodup]
  have hmem : ∀ e, e ∈ ord.order (hashOf t' c.entries) ↔
      ∃ d ∈ c.entries, (fileKey t'.key.type d.1, itemSv t'.val.type d.2) = e := by
    intro e
    rw [hperm.mem_iff, hashOf, List.mem_map]
  refine (Assoc.agree_assignAll_iff (k := fun e : HashKey × Sv => e.1.text)
    (c := fun e => (storedAs address S t e).1) (v := fun e => (storedAs address S t e).2)
    (w := Prod.snd) htexts ?_).trans ?_
  -- two keys that are filed alike are read alike
  · intro i hi j hj hij
    obtain ⟨d, hd, rfl⟩ := (hmem i).mp hi
    obtain ⟨⟨x, y⟩, hi⟩ := htaken _ hi
    obtain ⟨⟨x', y'⟩, hj⟩ := htaken j hj
    simp only [storedAs, hi, hj] at hij ⊢
    have hx' := keyOf_convert address hj
    have hread := convertScalar_of_convert address hi
    have hagain := convertScalar_fileKey t.key_type hx'
    rw [convertScalar_text t.key_type (text_fileKey t'.key_type (c.key_of d hd)), ← hij] at hread
    rw [convertScalar_text t.key_type (text_fileKey t.key_type hx')] at hagain
    obtain rfl := Except.ok.inj (hread.symm.trans hagain)
    exact hij
  · constructor
    · intro h e he
      have hmem' := (hmem _).mpr ⟨e, he, rfl⟩
      obtain ⟨⟨x, y⟩, hconvert⟩ := htaken _ hmem'
      have hkept := h _ hmem'
      simp only [storedAs, hconvert] at hkept
      exact ⟨x, y, hconvert, hkept⟩
    · intro h e he
      obtain ⟨d, hd, rfl⟩ := (hmem e).mp he
      obtain ⟨x, y, hconvert, hkept⟩ := h d hd
      simp only [storedAs, hconvert]
      exact hkept

/-- A map is copied as it should be exactly if its entries are kept, or the destination held what
comes before a refused one. -/
theorem copies_map_iff {t' : MapType} (c : Contents S t') :
    CopiesOrKeeps cmp address ord t D (.map t' c) ↔ Sound cmp address ord t D (.map t' c) := by
  have hcopy : copyFrom S address ord t (.map t' c) =
      storeAll S address t [] (ord.order (hashOf t' c.entries)) := by
    rw [copyFrom, asHash_eq]
  have hnone : ∀ e ∈ ([] : Entries), KeyOf S t.key.type e.1 := fun e he =>
    absurd he List.not_mem_nil
  rw [CopiesOrKeeps, hcopy]
  rcases taken_or_refused address (t := t) (ord.order (hashOf t' c.entries)) with
    htaken | ⟨before, e, behind, f, hsplit, htaken, hrefused⟩
  · obtain ⟨hdied, hview⟩ := storeAll_of_taken address htaken hnone
    have hkept := copies_iff_kept cmp address ord t c htaken
    simp only [hdied, true_and, Bool.false_eq_true, false_and, or_false]
    rw [hview]
    refine hkept.trans ⟨.inl, ?_⟩
    rintro (hall | ⟨before, e, behind, hsplit, -, ⟨f, hrefused⟩, -⟩)
    · exact hall
    · obtain ⟨p, hp⟩ := htaken e (hsplit ▸ by simp)
      rw [hrefused] at hp
      cases hp
  · have hstore := storeAll_of_refused address htaken hrefused behind []
    rw [hsplit, hstore]
    simp only [Bool.true_eq_false, false_and, true_and, false_or]
    constructor
    · exact fun hperm => .inr ⟨before, e, behind, hsplit, htaken, ⟨f, hrefused⟩, hperm⟩
    · rintro (hall | ⟨before', e', behind', hsplit', htaken', ⟨f', hrefused'⟩, hperm⟩)
      · have he : e ∈ ord.order (hashOf t' c.entries) := hsplit ▸ by simp
        rw [(ord.perm _).mem_iff, hashOf, List.mem_map] at he
        obtain ⟨d, hd, rfl⟩ := he
        obtain ⟨x, y, hconvert, -⟩ := hall d hd
        rw [hrefused] at hconvert
        cases hconvert
      · have hstore' := storeAll_of_refused address htaken' hrefused' behind' []
        have hsame : before ++ e :: behind = before' ++ e' :: behind' := hsplit.symm.trans hsplit'
        rw [← hsame, hstore] at hstore'
        exact (Outcome.mk.inj hstore').1 ▸ hperm

/-- A map of the XS engine is copied as it should be, or kept, exactly if this is sound. -/
theorem copiesOrKeeps_iff (src : Source S) :
    CopiesOrKeeps cmp address ord t D src ↔ Sound cmp address ord t D src := by
  cases src with
  | itself =>
      have horder : ord.order [] = [] := (ord.perm []).eq_nil
      have hcopy : copyFrom S address ord t .itself = ⟨[], false⟩ := by
        rw [copyFrom]
        show storeAll S address t [] (ord.order []) = _
        rw [horder]
        rfl
      rw [CopiesOrKeeps, hcopy]
      simp only [true_and, Bool.false_eq_true, false_and, or_false]
      show Assoc.Agree cmp.sv [] (view t D.entries) ↔ D.entries = []
      rw [agree_nil_iff, view, List.map_eq_nil_iff]
  | hash es =>
      show (_ ∨ true = true ∧ ([] : Entries).Perm D.entries) ↔ D.entries = []
      simp only [copyFrom, Bool.true_eq_false, false_and, true_and, false_or]
      rw [List.nil_perm]
  | map t' c => exact copies_map_iff cmp address ord t D c

end

namespace PurePerl

variable (cmp : Comparison) (ord : Assoc.KeyOrder (PerlStr × Val)) (D : List (PerlStr × Val))

/-- The entries of the source before the call. -/
def Source.view : Source → List (PerlStr × Val)
  | .itself => D
  | .other es _ => es

/-- The destination has the entries of the source; nothing dies here. -/
def Copies (src : Source) : Prop := Assoc.Agree cmp.val (copyFrom ord src) (src.view D)

/-- A map of the other engine is copied exactly if it is not copied to itself, or is empty. -/
theorem copies_iff (src : Source) : Copies cmp ord D src ↔ (src = .itself → D = []) := by
  cases src with
  | itself =>
      have horder : ord.order [] = [] := (ord.perm []).eq_nil
      rw [Copies, copyFrom, horder]
      show Assoc.Agree cmp.val [] D ↔ _
      rw [agree_nil_iff]
      simp
  | other es once =>
      refine ⟨fun _ h => (by cases h), fun _ => ?_⟩
      have hperm := ord.perm es
      have honce : (Assoc.keys (ord.order es)).Nodup := ((hperm.map Prod.fst).nodup_iff).mpr once
      rw [Copies, copyFrom]
      show Assoc.Agree cmp.val _ es
      rw [← agree_perm hperm honce]
      have hagree : Assoc.Agree cmp.val
          (Assoc.assignAll [] ((ord.order es).map fun e => (e.1, deepClone e.2)))
          ((ord.order es).map fun e => (e.1, e.2)) ↔
            ∀ e ∈ ord.order es, e.1 = e.1 ∧ cmp.val (deepClone e.2) e.2 :=
        Assoc.agree_assignAll_iff honce fun _ _ _ _ _ => rfl
      have hcopied := hagree.mpr fun e _ => ⟨rfl, cmp.clone e.2⟩
      rwa [List.map_id'] at hcopied

end PurePerl

/-- Values of the other engine compared by what they are on the wire. -/
def byWire : Comparison where
  sv := Eq
  val v w := ∀ S t, encodePayload S t v = encodePayload S t w
  clone v S t := (encode_deepClone S v).1 t

end GooglePerl.Xs.MapCopy
