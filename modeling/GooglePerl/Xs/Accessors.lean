import GooglePerl.Lib.Run
import GooglePerl.Protobuf.RoundTrip

/-!
The generated accessors of the XS engine (`xs/protobuf/fast_accessors.c`), the
generic ones (`Message.xs.part`, `Protobuf::Engine::XS`), and the memo that the
generated getter keeps in `$msg->{_cache}`.

A message object is the upb message together with the memo, the dirty bit in
the object's magic and `$msg->{_wrappers}`. Of the conversions, of the parser
and of merging nothing is assumed: they are parameters. A container is a
pointer, so that a setter that stores a new array leaves the old one, with its
old contents, to whoever still holds it.
-/

namespace GooglePerl.Xs

open GooglePerl.Lib GooglePerl.Protobuf

/-- What a field's storage holds: a scalar, or the address of a sub-message, an
array or a map. -/
inductive Kind where
  | scalar
  | message
  | container
  deriving DecidableEq

def fieldKind (S : Pool) (f : FieldDef) : Kind :=
  match f.shape S with
  | .repeated => .container
  | .map _ => .container
  | .singular =>
      match f.type with
      | .message _ => .message
      | _ => .scalar

inductive Held (V : Type) where
  | scalar (v : V)
  | message (p : ℕ)
  | container (p : ℕ)

/-- A `upb_Message` and the arrays and maps in its arena. -/
structure Store (V C : Type) where
  held : PerlStr → Option (Held V)
  contents : ℕ → C
  /-- the next address that the arena gives out -/
  fresh : ℕ

/-- The packages a container reaches Perl in. -/
inductive ContainerClass where
  /-- `Protobuf::Internal::Repeated` or `Protobuf::Internal::Map` -/
  | internal
  /-- the tied proxy: `…::Public` -/
  | proxy
  deriving DecidableEq

/-- What a getter returns. -/
inductive Got (V : Type) where
  | undef
  | scalar (v : V)
  | message (p : ℕ)
  | container (cls : ContainerClass) (p : ℕ)

/-- `SvOK` -/
def Got.isDefined {V : Type} : Got V → Bool
  | .undef => false
  | _ => true

/-- What the accessors call: defaults and conversions of single fields, and the
operations on a whole message, also when they fail half-way. -/
structure Reflection (V C α : Type) where
  /-- the value of an unset scalar, as a getter returns it -/
  default : FieldDef → Option V
  empty : FieldDef → C
  /-- `PerlUpb_SvToUpb`, which croaks on a value it cannot convert -/
  scalarOf : FieldDef → α → Option V
  messageOf : FieldDef → α → Bool
  containerOf : FieldDef → α → Option C
  parseFrom : PerlStr → Store V C → Store V C
  mergeFrom : Store V C → Store V C → Store V C
  copyFrom : Store V C → Store V C → Store V C

section

variable {V C α : Type} (R : Reflection V C α) (S : Pool) (d : MessageDef)

/-- A new container or message in the arena. -/
def Store.allocate (s : Store V C) (c : C) : Store V C :=
  { s with contents := Function.update s.contents s.fresh c, fresh := s.fresh + 1 }

/-- `PerlUpb_UpbToSv` of a field's storage; `none` is a container that is not there. -/
def readHeld (f : FieldDef) (held : Option (Held V)) : Option (Got V) :=
  match fieldKind S f, held with
  | .container, some (.container p) => some (.container .proxy p)
  | .container, _ => none
  | .message, some (.message p) => some (.message p)
  | .message, _ => some .undef
  | .scalar, some (.scalar v) => some (.scalar v)
  | .scalar, _ => some ((R.default f).elim .undef .scalar)

/-- `PerlUpb_Message_GetField`. A container is made if there is none
(`upb_Message_Mutable`), and returned as its proxy (`wrap_container_native`). -/
def getField (s : Store V C) (f : FieldDef) : Got V × Store V C :=
  match readHeld R S f (s.held f.name) with
  | some r => (r, s)
  | none => (.container .proxy s.fresh,
      { s.allocate (R.empty f) with
        held := Function.update s.held f.name (some (.container s.fresh)) })

/-- The members of the oneof that a field belongs to. -/
def rivals (f : FieldDef) : List PerlStr :=
  (d.oneofs.filter fun o => f ∈ o.fields).flatMap fun o => o.fields.map FieldDef.name

/-- `upb_Message_SetFieldByDef`: the members of a oneof share their storage. -/
def Store.assign (s : Store V C) (f : FieldDef) (x : Held V) : Store V C :=
  { s with
    held := fun name =>
      if name = f.name then some x else if name ∈ rivals d f then none else s.held name }

/-- `PerlUpb_Message_SetField`; `none` is a croak, with nothing stored yet. -/
def setField (s : Store V C) (f : FieldDef) (value : α) : Option (Store V C) :=
  match fieldKind S f with
  | .scalar => (R.scalarOf f value).map fun v => s.assign d f (.scalar v)
  | .message =>
      if R.messageOf f value then
        some ({ s with fresh := s.fresh + 1 }.assign d f (.message s.fresh))
      else none
  | .container =>
      (R.containerOf f value).map fun c => (s.allocate c).assign d f (.container s.fresh)

/-- `PerlUpb_Message_ClearField` -/
def clearField (s : Store V C) (f : FieldDef) : Store V C :=
  { s with held := Function.update s.held f.name none }

end

/-- A message object of the XS engine. -/
structure Wrapped (V C : Type) where
  msg : Store V C
  /-- `PERL_UPB_MG_PROFILE_WRITE_HEAVY`; the other profiles behave alike here -/
  writeHeavy : Bool
  /-- `PERL_UPB_MG_CACHE_DIRTY` -/
  dirty : Bool
  /-- `$msg->{_cache}` -/
  cache : Option (List (PerlStr × Got V))
  /-- `$msg->{_wrappers}` -/
  wrappers : List (PerlStr × Got V)

section

variable {V C α : Type} (R : Reflection V C α) (S : Pool) (d : MessageDef)

/-- The part of the getter after a miss: read and memoise. -/
def readAndStore (w : Wrapped V C) (f : FieldDef) : Got V × Wrapped V C :=
  let r := getField R S w.msg f
  (r.1, { w with msg := r.2, cache := some (Assoc.store (w.cache.getD []) f.name r.1) })

/-- The check for coarse invalidation. -/
def dropIfDirty (w : Wrapped V C) : Wrapped V C :=
  if w.dirty then { w with cache := none, dirty := false } else w

/-- The memo is asked; an undefined answer in it counts as none. -/
def memoGet (w : Wrapped V C) (f : FieldDef) : Got V × Wrapped V C :=
  match (Assoc.find (w.cache.getD []) f.name).filter Got.isDefined with
  | some r => (r, { w with cache := some (w.cache.getD []) })
  | none => readAndStore R S w f

/-- `PerlUpb_FastAccessor` without a value. -/
def fastGet (w : Wrapped V C) (f : FieldDef) : Got V × Wrapped V C :=
  if w.writeHeavy then
    let r := getField R S w.msg f
    (r.1, { w with msg := r.2 })
  else memoGet R S (dropIfDirty w) f

/-- `mg->mg_private |= PERL_UPB_MG_CACHE_DIRTY`, unless the memo is not used. -/
def markDirty (w : Wrapped V C) : Wrapped V C :=
  if w.writeHeavy then w else { w with dirty := true }

/-- `PerlUpb_FastAccessor` with a value, and `PerlUpb_FastSetter`. -/
def fastSet (w : Wrapped V C) (f : FieldDef) (value : α) : Wrapped V C :=
  match setField R S d w.msg f value with
  | none => w
  | some s => markDirty { w with msg := s }

/-- `PerlUpb_FastClear` -/
def fastClear (w : Wrapped V C) (f : FieldDef) : Wrapped V C :=
  markDirty { w with msg := clearField w.msg f }

/-- `_xs_set` -/
def xsSet (w : Wrapped V C) (f : FieldDef) (value : α) : Wrapped V C :=
  match setField R S d w.msg f value with
  | none => w
  | some s => { w with msg := s }

/-- `_xs_clear` -/
def xsClear (w : Wrapped V C) (f : FieldDef) : Wrapped V C :=
  { w with msg := clearField w.msg f }

/-- `Protobuf::Engine::XS::get`: a container of an internal class is tied to a
proxy, which is kept; one that is a proxy already is not. -/
def xsGet (w : Wrapped V C) (f : FieldDef) : Got V × Wrapped V C :=
  match Assoc.find w.wrappers f.name with
  | some r => (r, w)
  | none =>
      let r := getField R S w.msg f
      match r.1 with
      | .container .internal p =>
          (.container .proxy p,
            { w with
              msg := r.2
              wrappers := Assoc.store w.wrappers f.name (.container .proxy p) })
      | got => (got, { w with msg := r.2 })

/-- `_xs_clear_memoization_cache` -/
def clearMemoizationCache (w : Wrapped V C) : Wrapped V C := { w with cache := none }

/-- The calls on a message. The names are those of fields: a generated method of
another name does not exist, and `GET_FIELD_DEF_OR_CROAK` refuses one. -/
inductive Call (V C α : Type) where
  /-- `$msg->field` -/
  | getter (name : PerlStr)
  /-- `$msg->field($value)` -/
  | setter (name : PerlStr) (value : α)
  /-- `$msg->set_field($value)` -/
  | setterByName (name : PerlStr) (value : α)
  /-- `$msg->clear_field` for the field's own name -/
  | clearer (name : PerlStr)
  | get (name : PerlStr)
  | set (name : PerlStr) (value : α)
  | clear (name : PerlStr)
  | clearField (name : PerlStr)
  | parseFrom (data : PerlStr)
  | mergeFrom (src : Store V C)
  | copyFrom (src : Store V C)

/-- A call that names a field. -/
def onField (w : Wrapped V C) (name : PerlStr) (act : FieldDef → Wrapped V C) : Wrapped V C :=
  (d.findFieldByName name).elim w act

/-- The object after a call. -/
def Call.step (w : Wrapped V C) : Call V C α → Wrapped V C
  | .getter name => onField d w name fun f => (fastGet R S w f).2
  | .setter name value => onField d w name fun f => fastSet R S d w f value
  | .setterByName name value => onField d w name fun f => fastSet R S d w f value
  | .clearer name => onField d w name (fastClear w)
  | .get name => onField d w name fun f => (xsGet R S w f).2
  | .set name value => onField d w name fun f => xsSet R S d w f value
  | .clear name => onField d w name (xsClear w)
  | .clearField name => onField d w name (xsClear w)
  | .parseFrom data =>
      let w := clearMemoizationCache w
      { w with msg := R.parseFrom data w.msg }
  | .mergeFrom src =>
      let w := clearMemoizationCache w
      { w with msg := R.mergeFrom src w.msg }
  | .copyFrom src =>
      let w := clearMemoizationCache w
      { w with msg := R.copyFrom src w.msg }

/-! ### Reading -/

variable {R S d}

theorem readHeld_created {f : FieldDef} {held : Option (Held V)}
    (h : readHeld R S f held = none) (p : ℕ) :
    readHeld R S f (some (.container p)) = some (.container .proxy p) := by
  unfold readHeld at h ⊢
  cases hk : fieldKind S f with
  | container => rfl
  | scalar => rcases held with _ | (_ | _ | _) <;> simp [hk] at h
  | message => rcases held with _ | (_ | _ | _) <;> simp [hk] at h

/-- What a read can do: nothing but answer, or create the container it returns. -/
theorem getField_cases (s : Store V C) (f : FieldDef) :
    (∃ r, readHeld R S f (s.held f.name) = some r ∧ getField R S s f = (r, s)) ∨
    (readHeld R S f (s.held f.name) = none ∧
      (getField R S s f).1 = .container .proxy s.fresh ∧
      (getField R S s f).2.held =
        Function.update s.held f.name (some (.container s.fresh))) := by
  cases hr : readHeld R S f (s.held f.name) with
  | some r => exact .inl ⟨r, rfl, by simp [getField, hr]⟩
  | none => exact .inr ⟨rfl, by simp [getField, hr], by simp [getField, hr]⟩

theorem getField_of_readHeld {s : Store V C} {f : FieldDef} {r : Got V}
    (h : readHeld R S f (s.held f.name) = some r) : getField R S s f = (r, s) := by
  simp [getField, h]

/-- After a read the field's storage is read as what was returned. -/
theorem readHeld_getField (s : Store V C) (f : FieldDef) :
    readHeld R S f ((getField R S s f).2.held f.name) = some (getField R S s f).1 := by
  rcases getField_cases (R := R) (S := S) s f with ⟨r, hr, hg⟩ | ⟨hnone, hval, hheld⟩
  · rw [hg]
    exact hr
  · rw [hval, hheld, Function.update_self]
    exact readHeld_created hnone _

/-- Reading a field leaves the storage of the others alone. -/
theorem getField_held (s : Store V C) (f : FieldDef) {name : PerlStr} (h : name ≠ f.name) :
    (getField R S s f).2.held name = s.held name := by
  rcases getField_cases (R := R) (S := S) s f with ⟨r, -, hg⟩ | ⟨-, -, hheld⟩
  · rw [hg]
  · rw [hheld, Function.update_of_ne h]

/-- No read ever hands out a container of an internal class. -/
theorem getField_ne_internal (s : Store V C) (f : FieldDef) (p : ℕ) :
    (getField R S s f).1 ≠ .container .internal p := by
  intro h
  rcases getField_cases (R := R) (S := S) s f with ⟨r, hr, hg⟩ | ⟨-, hval, -⟩
  · rw [hg] at h
    simp only at h
    subst h
    unfold readHeld at hr
    split at hr <;> simp at hr
    cases hd : R.default f <;> simp [hd] at hr
  · rw [hval] at h
    cases h

/-! ### The memo -/

variable (R S d)

/-- The generated getter of the field would answer from the memo. -/
def Wrapped.Memoised (w : Wrapped V C) (name : PerlStr) : Prop :=
  w.writeHeavy = false ∧ w.dirty = false ∧
    ∃ r, Assoc.find (w.cache.getD []) name = some r ∧ r.isDefined = true

/-- Every answer in the memo is what the storage is read as, unless the memo is
not used or is to be thrown away. -/
structure Coherent (w : Wrapped V C) : Prop where
  wrappers : w.wrappers = []
  memo : w.writeHeavy = false → w.dirty = false → ∀ f ∈ d.fields, ∀ r,
    Assoc.find (w.cache.getD []) f.name = some r → r.isDefined = true →
      readHeld R S f (w.msg.held f.name) = some r

/-- The condition on a call: `set`, `clear` and `clear_field`, which do not touch
the memo, are not used on a field that is in it, nor `set` on one that shares a
oneof with a field that is in it. -/
def Call.Clean (w : Wrapped V C) : Call V C α → Prop
  | .set name _ => ¬ w.Memoised name ∧
      ∀ f, d.findFieldByName name = some f → ∀ n ∈ rivals d f, ¬ w.Memoised n
  | .clear name => ¬ w.Memoised name
  | .clearField name => ¬ w.Memoised name
  | _ => True

variable {R S d}

/-- A write that the memo does not know of keeps it right if the fields it
changes are not in it. -/
theorem Coherent.write {w : Wrapped V C} (h : Coherent R S d w) (s : Store V C)
    (hsame : ∀ f ∈ d.fields, s.held f.name ≠ w.msg.held f.name → ¬ w.Memoised f.name) :
    Coherent R S d { w with msg := s } := by
  refine ⟨h.wrappers, ?_⟩
  intro hheavy hdirty f hf r hr hdef
  have hheld : s.held f.name = w.msg.held f.name := by
    by_contra hne
    exact hsame f hf hne ⟨hheavy, hdirty, r, hr, hdef⟩
  rw [hheld]
  exact h.memo hheavy hdirty f hf r hr hdef

theorem Coherent.dirty {w : Wrapped V C} (h : Coherent R S d w) (s : Store V C) :
    Coherent R S d (markDirty { w with msg := s }) := by
  unfold markDirty
  cases hheavy : w.writeHeavy with
  | true =>
      refine ⟨h.wrappers, ?_⟩
      intro hheavy'
      simp at hheavy'
  | false =>
      refine ⟨h.wrappers, ?_⟩
      intro _ hdirty
      simp at hdirty

theorem Coherent.forget {w : Wrapped V C} (h : Coherent R S d w) (s : Store V C) :
    Coherent R S d { w with cache := none, msg := s } := by
  refine ⟨h.wrappers, ?_⟩
  intro _ _ f _ r hr
  simp at hr

theorem Coherent.read {w : Wrapped V C} (h : Coherent R S d w) {f : FieldDef}
    (hf : f ∈ d.fields) : Coherent R S d { w with msg := (getField R S w.msg f).2 } := by
  refine ⟨h.wrappers, ?_⟩
  intro hheavy hdirty g hg r hr hdef
  have hold := h.memo hheavy hdirty g hg r hr hdef
  by_cases hname : g.name = f.name
  · obtain rfl : g = f := MessageDef.eq_of_name_eq hg hf hname
    rw [getField_of_readHeld hold]
    exact hold
  · simp only [getField_held w.msg f hname]
    exact hold

theorem Coherent.readAndStore {w : Wrapped V C} (h : Coherent R S d w) {f : FieldDef}
    (hf : f ∈ d.fields) : Coherent R S d (readAndStore R S w f).2 := by
  refine ⟨h.wrappers, ?_⟩
  intro hheavy hdirty g hg r hr hdef
  by_cases hname : g.name = f.name
  · obtain rfl : g = f := MessageDef.eq_of_name_eq hg hf hname
    obtain rfl : (getField R S w.msg g).1 = r := by simpa [Xs.readAndStore] using hr
    exact readHeld_getField w.msg g
  · have hr' : Assoc.find (w.cache.getD []) g.name = some r := by
      simpa [Xs.readAndStore, Assoc.find_store_of_ne _ _ hname] using hr
    exact (h.read hf).memo hheavy hdirty g hg r hr' hdef

theorem Coherent.dropIfDirty {w : Wrapped V C} (h : Coherent R S d w) :
    Coherent R S d (dropIfDirty w) := by
  unfold Xs.dropIfDirty
  split
  · refine ⟨h.wrappers, ?_⟩
    intro _ _ f _ r hr
    simp at hr
  · exact h

theorem dropIfDirty_msg (w : Wrapped V C) : (dropIfDirty w).msg = w.msg := by
  unfold dropIfDirty
  split <;> rfl

theorem dropIfDirty_dirty (w : Wrapped V C) : (dropIfDirty w).dirty = false := by
  unfold dropIfDirty
  split
  · rfl
  · simpa using ‹¬ w.dirty = true›

theorem dropIfDirty_writeHeavy (w : Wrapped V C) : (dropIfDirty w).writeHeavy = w.writeHeavy := by
  unfold dropIfDirty
  split <;> rfl

/-- The getter gives what an uncached read gives, and the object stays coherent. -/
theorem Coherent.fastGet {w : Wrapped V C} (h : Coherent R S d w) {f : FieldDef}
    (hf : f ∈ d.fields) :
    (fastGet R S w f).1 = (getField R S w.msg f).1 ∧
      (fastGet R S w f).2.msg = (getField R S w.msg f).2 ∧
      Coherent R S d (fastGet R S w f).2 := by
  unfold Xs.fastGet
  cases hheavy : w.writeHeavy with
  | true => exact ⟨rfl, rfl, by simpa [hheavy] using h.read hf⟩
  | false =>
      simp only [Bool.false_eq_true, if_false]
      have hdrop := h.dropIfDirty
      unfold memoGet
      cases hmemo : (Assoc.find ((Xs.dropIfDirty w).cache.getD []) f.name).filter Got.isDefined with
      | none =>
          refine ⟨?_, ?_, hdrop.readAndStore hf⟩
          · simp [Xs.readAndStore, dropIfDirty_msg]
          · simp [Xs.readAndStore, dropIfDirty_msg]
      | some r =>
          obtain ⟨hr, hdef⟩ := Option.filter_eq_some_iff.mp hmemo
          have hheld := hdrop.memo (by rw [dropIfDirty_writeHeavy, hheavy])
            (dropIfDirty_dirty w) f hf r hr hdef
          rw [dropIfDirty_msg] at hheld
          rw [getField_of_readHeld hheld]
          refine ⟨rfl, dropIfDirty_msg w, hdrop.wrappers, ?_⟩
          simpa using hdrop.memo

/-- So does the generic `get`, which never has a proxy of its own to keep. -/
theorem Coherent.xsGet {w : Wrapped V C} (h : Coherent R S d w) {f : FieldDef}
    (hf : f ∈ d.fields) :
    (xsGet R S w f).1 = (getField R S w.msg f).1 ∧
      (xsGet R S w f).2.msg = (getField R S w.msg f).2 ∧
      Coherent R S d (xsGet R S w f).2 := by
  have heq : Xs.xsGet R S w f =
      ((getField R S w.msg f).1, { w with msg := (getField R S w.msg f).2 }) := by
    unfold Xs.xsGet
    rw [h.wrappers]
    simp only [Assoc.find_nil]
    have hne := getField_ne_internal (R := R) (S := S) w.msg f
    split
    · rename_i p hp
      exact absurd hp (hne p)
    · rfl
  rw [heq]
  exact ⟨rfl, rfl, h.read hf⟩

/-- What `set` changes: the field, and what shares a oneof with it. -/
theorem setField_held {s s' : Store V C} {f : FieldDef} {value : α}
    (h : setField R S d s f value = some s') {name : PerlStr} (hname : name ≠ f.name)
    (hrival : name ∉ rivals d f) : s'.held name = s.held name := by
  have hassign : ∀ (t : Store V C) (x : Held V), (t.assign d f x).held name = t.held name := by
    intro t x
    simp [Store.assign, hname, hrival]
  unfold setField at h
  cases hk : fieldKind S f with
  | scalar =>
      simp only [hk, Option.map_eq_some_iff] at h
      obtain ⟨v, -, rfl⟩ := h
      exact hassign s _
  | message =>
      simp only [hk, Option.ite_none_right_eq_some, Option.some.injEq] at h
      obtain ⟨-, rfl⟩ := h
      exact hassign { s with fresh := s.fresh + 1 } _
  | container =>
      simp only [hk, Option.map_eq_some_iff] at h
      obtain ⟨c, -, rfl⟩ := h
      exact hassign (s.allocate c) _

theorem Coherent.onField {w : Wrapped V C} (h : Coherent R S d w) {name : PerlStr}
    {act : FieldDef → Wrapped V C}
    (hact : ∀ f, d.findFieldByName name = some f → Coherent R S d (act f)) :
    Coherent R S d (onField d w name act) := by
  unfold Xs.onField
  cases hfind : d.findFieldByName name with
  | none => exact h
  | some f => exact hact f hfind

theorem Coherent.xsSet {w : Wrapped V C} (h : Coherent R S d w) {f : FieldDef} {value : α}
    (hself : ¬ w.Memoised f.name) (hrivals : ∀ n ∈ rivals d f, ¬ w.Memoised n) :
    Coherent R S d (xsSet R S d w f value) := by
  unfold Xs.xsSet
  cases hset : setField R S d w.msg f value with
  | none => exact h
  | some s =>
      apply h.write
      intro g _ hne
      by_cases hname : g.name = f.name
      · rw [hname]
        exact hself
      · apply hrivals
        by_contra hrival
        exact hne (setField_held hset hname hrival)

theorem Coherent.xsClear {w : Wrapped V C} (h : Coherent R S d w) {f : FieldDef}
    (hself : ¬ w.Memoised f.name) : Coherent R S d (xsClear w f) := by
  apply h.write
  intro g _ hne
  by_cases hname : g.name = f.name
  · rw [hname]
    exact hself
  · exact absurd (Function.update_of_ne hname _ _) hne

theorem Coherent.fastSet {w : Wrapped V C} (h : Coherent R S d w) (f : FieldDef) (value : α) :
    Coherent R S d (fastSet R S d w f value) := by
  unfold Xs.fastSet
  cases setField R S d w.msg f value with
  | none => exact h
  | some s => exact h.dirty s

/-- One call keeps the memo right. -/
theorem Coherent.step {w : Wrapped V C} (h : Coherent R S d w) (call : Call V C α)
    (hclean : call.Clean d w) : Coherent R S d (call.step R S d w) := by
  have hfield : ∀ {name : PerlStr} {f : FieldDef}, d.findFieldByName name = some f →
      f ∈ d.fields ∧ f.name = name := fun hf => MessageDef.findFieldByName_eq_some.mp hf
  cases call with
  | getter name => exact h.onField fun f hf => (h.fastGet (hfield hf).1).2.2
  | setter name value => exact h.onField fun f _ => h.fastSet f value
  | setterByName name value => exact h.onField fun f _ => h.fastSet f value
  | clearer name => exact h.onField fun f _ => h.dirty _
  | get name => exact h.onField fun f hf => (h.xsGet (hfield hf).1).2.2
  | set name value =>
      apply h.onField
      intro f hf
      apply h.xsSet
      · rw [(hfield hf).2]
        exact hclean.1
      · exact hclean.2 f hf
  | clear name =>
      apply h.onField
      intro f hf
      apply h.xsClear
      rw [(hfield hf).2]
      exact hclean
  | clearField name =>
      apply h.onField
      intro f hf
      apply h.xsClear
      rw [(hfield hf).2]
      exact hclean
  | parseFrom data => exact h.forget _
  | mergeFrom src => exact h.forget _
  | copyFrom src => exact h.forget _

/-! ### Getters are never stale -/

/-- Two answers that a caller cannot tell apart: the same, or two containers
with the same contents. -/
def Got.Shows (contents : ℕ → C) (a b : Got V) : Prop :=
  a = b ∨ ∃ c c' p q, a = .container c p ∧ b = .container c' q ∧ contents p = contents q

variable (R S d)

/-- Each getter of each field shows what an uncached read would. -/
def NeverStale (w : Wrapped V C) : Prop :=
  ∀ name f, d.findFieldByName name = some f →
    (fastGet R S w f).1.Shows (getField R S w.msg f).2.contents (getField R S w.msg f).1 ∧
    (xsGet R S w f).1.Shows (getField R S w.msg f).2.contents (getField R S w.msg f).1

/-- A message object as it is created or parsed. -/
def Wrapped.create (s : Store V C) (writeHeavy : Bool) : Wrapped V C :=
  ⟨s, writeHeavy, false, none, []⟩

end

/-- Strings and lists of strings, as they are given. -/
def textFields : Reflection PerlStr (List PerlStr) PerlStr where
  default _ := some []
  empty _ := []
  scalarOf _ v := some v
  messageOf _ _ := false
  containerOf _ v := some [v]
  parseFrom _ s := s
  mergeFrom _ s := s
  copyFrom src _ := src

/-- A new `Simple`. -/
def newSimple : Wrapped PerlStr (List PerlStr) :=
  Wrapped.create ⟨fun _ => none, fun _ => [], 0⟩ false

end GooglePerl.Xs
