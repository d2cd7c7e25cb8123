import GooglePerl.Protobuf.ElementCheck
import GooglePerl.Protobuf.Message
import GooglePerl.Protobuf.Occurs
import GooglePerl.Protobuf.Repeated

/-!
Which elements of repeated fields have been checked.

`ElementsChecked` is about the fields of one message; a message inside it is a
message of its own. The check lives in the tie, so the question for each
operation is whether it goes through one, or brings elements that pass anyway.
-/

namespace GooglePerl.Protobuf

open GooglePerl.Lib

/-- `delete $a[i]`: the slot becomes one that was never filled, and at the end the
array gets shorter, also by the slots before it that were never filled. The
array keeps no record of those, so `holes` says how many they are. -/
def deleteSlot (a : List Val) (i : ℤ) (holes : ℕ) : List Val :=
  match slotOf a.length i with
  | none => a
  | some k =>
      if k + 1 ≠ a.length then a.set k .undef else a.take (k - holes)

/-- Operations on a message and on the containers that its `get` returns. -/
inductive ContainerOp where
  | set (name : PerlStr) (value : Val)
  | get (name : PerlStr)
  | clear (name : PerlStr)
  /-- the class method; the message is the one it returns -/
  | parse (data : PerlStr)
  | parseFrom (data : PerlStr)
  | mergeFrom (src : Msg)
  | copyFrom (src : Msg)
  /-- `$msg->copy_from($msg)` -/
  | copyFromSelf
  /-- an array operation on `$msg->get($name)` -/
  | array (name : PerlStr) (op : ArrayOp Val)
  /-- `delete $msg->get($name)->[i]` -/
  | delete (name : PerlStr) (i : ℤ) (holes : ℕ)

/-- An operation on the container of a field. -/
def onContainer (S : Pool) (m : Msg) (name : PerlStr)
    (g : FieldDef → ArrKind → List Val → List Val) : Msg :=
  match (S.descriptor m.cls).findFieldByName name, (get S m name).1 with
  | some f, .arr kind xs => (get S m name).2.put name (.arr kind (g f kind xs))
  | _, _ => (get S m name).2

/-- The message after an operation, whether it returned or died. -/
def ContainerOp.apply (S : Pool) (m : Msg) : ContainerOp → Msg
  | .set name value => (Protobuf.set S m name value).toOption.getD m
  | .get name => (Protobuf.get S m name).2
  | .clear name => Protobuf.clear m name
  | .parse data => (Protobuf.parse S m.cls data).toOption.getD m
  | .parseFrom data => left (parseInto S data m)
  | .mergeFrom src => left (merge S m src)
  | .copyFrom src => copy m src
  | .copyFromSelf => copySelf m
  | .array name op => onContainer S m name fun f kind xs => (containerApply S f kind xs op).1
  | .delete name i holes => onContainer S m name fun _ _ xs => deleteSlot xs i holes

section

variable (S : Pool) (whole : PerlStr → Option ℤ)

/-! ### The invariant -/

/-- Every element passes, if the value is an array. -/
def ValChecked (t : FieldType) (v : Val) : Prop :=
  ∀ kind xs, v = .arr kind xs → ∀ x ∈ xs, elementCheck whole t x = true

def TableChecked (d : MessageDef) (table : List (PerlStr × Val)) : Prop :=
  ∀ f ∈ d.fields, f.shape S = .repeated → ∀ v, Assoc.find table f.name = some v →
    ValChecked whole f.type v

/-- Every element of every repeated field passes the check of the field. -/
def ElementsChecked (m : Msg) : Prop := TableChecked S whole (S.descriptor m.cls) m.fields

/-- The check refuses what does not pass. -/
def Refuses : Prop :=
  ∀ f v w, S.checkItem f v = some w → elementCheck whole f.type w = true

/-! ### What the operations have to meet -/

/-- The container of a name is tied. -/
def TiedIn (table : List (PerlStr × Val)) (name : PerlStr) : Prop :=
  ∃ xs, Assoc.find table name = some (.arr .tied xs)

/-- The records of an input, with the wire type and what follows the tag. -/
inductive Record (cls : String) : PerlStr → FieldDef → ℕ → PerlStr → Prop where
  | here {data afterTag : PerlStr} {tagWire : ℕ} {f : FieldDef}
      (hread : decodeVarint data = .ok (tagWire, afterTag))
      (hfind : (S.descriptor cls).findFieldByNumber (tagWire >>> 3) = some f) :
      Record cls data f (tagWire &&& 7) afterTag
  | afterUnknown {data afterTag rest payload : PerlStr} {tagWire wire : ℕ} {f : FieldDef}
      (hread : decodeVarint data = .ok (tagWire, afterTag))
      (hfind : (S.descriptor cls).findFieldByNumber (tagWire >>> 3) = none)
      (hskip : skipField afterTag (tagWire &&& 7) = .ok rest)
      (h : Record cls rest f wire payload) : Record cls data f wire payload
  | afterKnown {data afterTag rest payload : PerlStr} {tagWire wire : ℕ} {f g : FieldDef}
      (hread : decodeVarint data = .ok (tagWire, afterTag))
      (hfind : (S.descriptor cls).findFieldByNumber (tagWire >>> 3) = some g)
      (hpass : passPayload afterTag (tagWire &&& 7) = .ok rest)
      (h : Record cls rest f wire payload) : Record cls data f wire payload

/-- Every record of a repeated field goes to a tied container or decodes to an
element that passes. -/
def ParseFits (m : Msg) (data : PerlStr) : Prop :=
  ∀ f wire payload, Record S m.cls data f wire payload → f.shape S = .repeated →
    TiedIn m.fields f.name ∨ recordPasses whole f.type wire payload = true

/-- Every array of the source goes to a tied container or holds elements that pass. -/
def MergeFits (d : MessageDef) (src dst : List (PerlStr × Val)) : Prop :=
  ∀ f ∈ d.fields, f.shape S = .repeated → ∀ v, (f.name, v) ∈ src →
    TiedIn dst f.name ∨ ValChecked whole f.type v

/-- No gap is left, or `undef` passes. -/
def GapFits (t : FieldType) (n : ℕ) (op : ArrayOp Val) : Prop :=
  op.Reaches n ∨ elementCheck whole t .undef = true

/-- What an operation has to meet in the message that it is performed on:
- `set` gets a plain array, or elements that pass;
- a parse, a merge or a copy brings elements that pass, where it does not add them
  to a tied container;
- an array operation leaves no gap (unless `undef` passes), and what it puts into an
  untied container passes;
- `delete` is of the last element (unless `undef` passes). -/
def ContainerOp.Fits (m : Msg) : ContainerOp → Prop
  | .set name value =>
      ∀ f ∈ (S.descriptor m.cls).fields, f.name = name → f.shape S = .repeated →
        ∀ kind xs, value = .arr kind xs → kind = .plain ∨ ValChecked whole f.type value
  | .get _ | .clear _ | .copyFromSelf => True
  | .parse data => ParseFits S whole (.create m.cls) data
  | .parseFrom data => ParseFits S whole m data
  | .mergeFrom src => MergeFits S whole (S.descriptor m.cls) src.fields m.fields
  | .copyFrom src => MergeFits S whole (S.descriptor m.cls) src.fields []
  | .array name op =>
      ∀ f ∈ (S.descriptor m.cls).fields, f.name = name → f.shape S = .repeated →
        ∀ kind xs, (Protobuf.get S m name).1 = .arr kind xs →
          (kind = .tied ∨ ∀ v ∈ op.values, elementCheck whole f.type v = true) ∧
            GapFits whole f.type xs.length op
  | .delete name i _ =>
      ∀ f ∈ (S.descriptor m.cls).fields, f.name = name → f.shape S = .repeated →
        ∀ kind xs, (Protobuf.get S m name).1 = .arr kind xs →
          (∀ k, slotOf xs.length i = some k → xs.length ≤ k + 1) ∨
            elementCheck whole f.type .undef = true

/-! ### One step -/

variable {S whole}

theorem ElementsChecked.put {m : Msg} (h : ElementsChecked S whole m) {name : PerlStr} {v : Val}
    (hv : ∀ f ∈ (S.descriptor m.cls).fields, f.name = name → f.shape S = .repeated →
      ValChecked whole f.type v) : ElementsChecked S whole (m.put name v) := by
  intro f hf hshape w hw
  rw [Msg.put_fields, Assoc.find_store] at hw
  split at hw
  · rename_i hname
    obtain rfl := Option.some.inj hw
    exact hv f hf hname hshape
  · exact h f hf hshape w hw

theorem elementsChecked_create (cls : String) : ElementsChecked S whole (.create cls) := by
  intro f _ _ v hv
  cases hv

theorem valChecked_of_not_array {t : FieldType} {v : Val} (h : ∀ kind xs, v ≠ .arr kind xs) :
    ValChecked whole t v :=
  fun kind xs hv => absurd hv (h kind xs)

theorem valChecked_array {t : FieldType} {kind : ArrKind} {xs : List Val}
    (h : ∀ x ∈ xs, elementCheck whole t x = true) : ValChecked whole t (.arr kind xs) := by
  rintro _ _ ⟨⟩
  exact h

theorem ValChecked.items {t : FieldType} {kind : ArrKind} {xs : List Val}
    (h : ValChecked whole t (.arr kind xs)) : ∀ x ∈ xs, elementCheck whole t x = true :=
  h kind xs rfl

theorem Refuses.passed (hS : Refuses S whole) {f : FieldDef} {x : Val} (h : Passed S f x) :
    elementCheck whole f.type x = true := by
  obtain ⟨v, hv⟩ := h
  exact hS f v x hv

theorem ValChecked.deepClone {t : FieldType} {v : Val} (h : ValChecked whole t v) :
    ValChecked whole t (deepClone v) := by
  cases v with
  | arr kind xs =>
      have hclones : ∀ x ∈ deepCloneList xs, elementCheck whole t x = true := by
        intro x hx
        rw [deepCloneList_eq_map] at hx
        obtain ⟨y, hy, rfl⟩ := List.mem_map.mp hx
        rw [elementCheck_deepClone]
        exact h.items y hy
      cases kind <;> rw [Protobuf.deepClone] <;> exact valChecked_array hclones
  | _ =>
      rw [Protobuf.deepClone]
      exact valChecked_of_not_array (by simp)

theorem pushTied_checked (hS : Refuses S whole) {f : FieldDef} {xs : List Val}
    (h : ∀ x ∈ xs, elementCheck whole f.type x = true) (vs : List Val) :
    ∀ x ∈ leftItems (pushTied S f xs vs), elementCheck whole f.type x = true := by
  intro x hx
  rcases mem_pushTied hx with hx | hx
  · exact h x hx
  · exact hS.passed hx

/-- An enum name is replaced by a number, and everything else stays as it is. -/
theorem resolveEnum_cases {f : FieldDef} {v w : Val} (h : resolveEnum f v = .ok w) :
    w = v ∨ ∃ n, w = .iv n := by
  unfold resolveEnum at h
  split at h
  · cases v with
    | str s =>
        simp only at h
        split at h
        · exact .inl (Except.ok.inj h).symm
        · -- a name: the number the enum has for it, if any
          split at h
          · exact .inr ⟨_, (Except.ok.inj h).symm⟩
          · cases h
    | undef => exact .inl (Except.ok.inj h).symm
    | iv n => exact .inl (Except.ok.inj h).symm
    | big n => exact .inl (Except.ok.inj h).symm
    | nv p => exact .inl (Except.ok.inj h).symm
    | arr kind xs => cases h
    | hash es => cases h
    | msg c fs u => cases h
  · exact .inl (Except.ok.inj h).symm

theorem nativeIfFits_big (t : FieldType) (n : ℤ) :
    nativeIfFits t (.big n) = .iv n ∨ nativeIfFits t (.big n) = .big n := by
  cases t with
  | int64 | uint64 | sfixed64 | sint64 =>
      simp only [nativeIfFits]
      split
      · exact .inl rfl
      · exact .inr rfl
  | _ => exact .inr rfl

theorem nativeIfFits_checked {t u : FieldType} {v : Val} (h : ValChecked whole t v) :
    ValChecked whole t (nativeIfFits u v) := by
  cases v with
  | big n =>
      rcases nativeIfFits_big u n with heq | heq
      · rw [heq]
        exact valChecked_of_not_array (by simp)
      · rwa [heq]
  | _ => exact h

/-- A plain array is checked, element by element. -/
theorem cloneForSet_checked (hS : Refuses S whole) {f : FieldDef} (hshape : f.shape S = .repeated)
    {v w : Val} (hv : ∀ kind xs, v = .arr kind xs → kind = .plain ∨ ValChecked whole f.type v)
    (h : cloneForSet S f v = .ok w) : ValChecked whole f.type w := by
  simp only [cloneForSet, hshape] at h
  by_cases hplain : ∃ xs, v = .arr .plain xs
  · obtain ⟨xs, rfl⟩ := hplain
    simp only [deepClone] at h
    obtain ⟨ys, hys, rfl⟩ := map_eq_ok.mp h
    have hpush := pushTied_checked hS (f := f) (List.forall_mem_nil _) (deepCloneList xs)
    rw [mapError_eq_ok.mp hys] at hpush
    exact valChecked_array hpush
  · have hclone : w = deepClone v := by
      cases v with
      | arr kind xs =>
          cases kind with
          | plain => exact absurd ⟨xs, rfl⟩ hplain
          | blessed | tied =>
              simp only [deepClone] at h ⊢
              exact (Except.ok.inj h).symm
      | _ =>
          simp only [deepClone] at h ⊢
          exact (Except.ok.inj h).symm
    rw [hclone]
    refine ValChecked.deepClone ?_
    intro kind xs hxs
    rcases hv kind xs hxs with rfl | hv
    · exact absurd ⟨xs, hxs⟩ hplain
    · exact hv kind xs hxs

theorem set_checked (hS : Refuses S whole) {m m' : Msg} {name : PerlStr} {value : Val}
    (h : ElementsChecked S whole m) (hfits : (ContainerOp.set name value).Fits S whole m)
    (hset : set S m name value = .ok m') : ElementsChecked S whole m' := by
  unfold set at hset
  cases hfind : (S.descriptor m.cls).findFieldByName name with
  | none =>
      rw [hfind] at hset
      obtain rfl := Except.ok.inj hset
      refine h.put fun f hf hname => ?_
      exact absurd hname (MessageDef.findFieldByName_eq_none.mp hfind f hf)
  | some f =>
      rw [hfind] at hset
      obtain ⟨v, hv, hset⟩ := bind_eq_ok.mp hset
      obtain ⟨w, hw, hset⟩ := bind_eq_ok.mp hset
      obtain rfl := Except.ok.inj hset
      obtain ⟨hf, hname⟩ := MessageDef.findFieldByName_eq_some.mp hfind
      refine h.put fun g hg hgname hshape => ?_
      obtain rfl := MessageDef.eq_of_name_eq hg hf (hgname.trans hname.symm)
      refine nativeIfFits_checked (cloneForSet_checked hS hshape ?_ hw)
      intro kind xs hxs
      rcases resolveEnum_cases hv with rfl | ⟨n, rfl⟩
      · exact hfits g hg hname hshape kind xs hxs
      · cases hxs

theorem get_checked {m : Msg} (h : ElementsChecked S whole m) (name : PerlStr) :
    ElementsChecked S whole (get S m name).2 := by
  unfold get
  split
  · exact h
  · split
    · exact h
    · split
      · exact h.put fun _ _ _ _ => valChecked_of_not_array (by simp)
      · exact h.put fun _ _ _ _ => valChecked_array (by simp)
      · exact h

theorem clear_checked {m : Msg} (h : ElementsChecked S whole m) (name : PerlStr) :
    ElementsChecked S whole (clear m name) := by
  intro f hf hshape v hv
  rw [clear, Assoc.find_delete] at hv
  split at hv
  · cases hv
  · exact h f hf hshape v hv

/-- What `get` returns is checked. -/
theorem get_fst_checked {m : Msg} (h : ElementsChecked S whole m) {f : FieldDef}
    (hf : f ∈ (S.descriptor m.cls).fields) (hshape : f.shape S = .repeated) :
    ValChecked whole f.type (get S m f.name).1 := by
  unfold get
  split
  · rename_i v hv
    exact h f hf hshape v hv
  · rw [MessageDef.findFieldByName_eq_some.mpr ⟨hf, rfl⟩]
    simp only [hshape]
    exact valChecked_array (by simp)

theorem get_cls (m : Msg) (name : PerlStr) : (get S m name).2.cls = m.cls := by
  unfold get
  split
  · rfl
  · split
    · rfl
    · split <;> rfl

/-- An operation on a container, which takes its elements to elements that pass. -/
theorem onContainer_checked {m : Msg} (h : ElementsChecked S whole m) {name : PerlStr}
    {g : FieldDef → ArrKind → List Val → List Val}
    (hg : ∀ f ∈ (S.descriptor m.cls).fields, f.name = name → f.shape S = .repeated →
      ∀ kind xs, (get S m name).1 = .arr kind xs →
        (∀ x ∈ xs, elementCheck whole f.type x = true) →
        ∀ x ∈ g f kind xs, elementCheck whole f.type x = true) :
    ElementsChecked S whole (onContainer S m name g) := by
  unfold onContainer
  split
  · rename_i f kind xs hfind hget
    obtain ⟨hf, hname⟩ := MessageDef.findFieldByName_eq_some.mp hfind
    refine (get_checked h name).put fun f' hf' hname' hshape => ?_
    rw [get_cls] at hf'
    obtain rfl := MessageDef.eq_of_name_eq hf' hf (hname'.trans hname.symm)
    have hitems := get_fst_checked h hf' hshape
    rw [hname, hget] at hitems
    exact valChecked_array (hg f' hf' hname hshape kind xs hget hitems.items)
  · exact get_checked h name

theorem array_checked (hS : Refuses S whole) {m : Msg} {name : PerlStr} {op : ArrayOp Val}
    (h : ElementsChecked S whole m) (hfits : (ContainerOp.array name op).Fits S whole m) :
    ElementsChecked S whole ((ContainerOp.array name op).apply S m) := by
  refine onContainer_checked h fun f hf hname hshape kind xs hget hxs x hx => ?_
  obtain ⟨hvalues, hgap⟩ := hfits f hf hname hshape kind xs hget
  rcases mem_containerApply hx with hx | ⟨-, hx⟩ | ⟨hkind, hx⟩ | ⟨rfl, hreach⟩
  · exact hxs x hx
  · exact hS.passed hx
  · exact hvalues.resolve_left hkind x hx
  · exact hgap.resolve_left hreach

theorem delete_checked {m : Msg} {name : PerlStr} {i : ℤ} {holes : ℕ}
    (h : ElementsChecked S whole m) (hfits : (ContainerOp.delete name i holes).Fits S whole m) :
    ElementsChecked S whole ((ContainerOp.delete name i holes).apply S m) := by
  refine onContainer_checked h fun f hf hname hshape kind xs hget hxs x hx => ?_
  unfold deleteSlot at hx
  cases hslot : slotOf xs.length i with
  | none =>
      rw [hslot] at hx
      exact hxs x hx
  | some k =>
      rw [hslot] at hx
      simp only at hx
      split at hx
      · rename_i hlast
        rcases hfits f hf hname hshape kind xs hget with hend | hundef
        · -- past the end there is nothing to delete
          have hk := hend k hslot
          rw [List.set_eq_of_length_le (by omega)] at hx
          exact hxs x hx
        · rcases List.mem_or_eq_of_mem_set hx with hx | rfl
          · exact hxs x hx
          · exact hundef
      · exact hxs x (List.mem_of_mem_take hx)

/-! ### Parsing -/

theorem storeItem_checked (hS : Refuses S whole) {f : FieldDef} {v w : Val} {old : Option Val}
    (hold : ∀ u, old = some u → ValChecked whole f.type u)
    (hv : (∃ xs, old = some (.arr .tied xs)) ∨ elementCheck whole f.type v = true)
    (h : storeItem S f v old = .ok w) : ValChecked whole f.type w := by
  unfold storeItem at h
  cases hold' : old.filter Val.truthy with
  | none =>
      rw [hold'] at h
      obtain rfl := Except.ok.inj h
      refine valChecked_array ?_
      rw [List.forall_mem_singleton]
      refine hv.resolve_left ?_
      rintro ⟨xs, rfl⟩
      cases hold'
  | some u =>
      rw [hold'] at h
      obtain ⟨rfl, -⟩ := Option.filter_eq_some_iff.mp hold'
      cases u with
      | arr kind xs =>
          have hxs := (hold _ rfl).items
          cases kind with
          | tied =>
              obtain ⟨ys, hys, rfl⟩ := map_eq_ok.mp h
              have hpush := pushTied_checked hS hxs [v]
              rw [mapError_eq_ok.mp hys] at hpush
              exact valChecked_array hpush
          | plain | blessed =>
              obtain rfl := Except.ok.inj h
              refine valChecked_array ?_
              rw [List.forall_mem_append, List.forall_mem_singleton]
              exact ⟨hxs, hv.resolve_left (by simp)⟩
      | _ => cases h

theorem storeItem_tied {f : FieldDef} {v w : Val} {xs : List Val}
    (h : storeItem S f v (some (.arr .tied xs)) = .ok w) : ∃ ys, w = .arr .tied ys := by
  simp only [storeItem, Option.filter, Val.truthy] at h
  obtain ⟨ys, -, rfl⟩ := map_eq_ok.mp h
  exact ⟨ys, rfl⟩

theorem Record.mem {cls : String} {data payload : PerlStr} {f : FieldDef} {wire : ℕ}
    (h : Record S cls data f wire payload) : f ∈ (S.descriptor cls).fields := by
  induction h with
  | here _ hfind => exact (MessageDef.findFieldByNumber_eq_some.mp hfind).1
  | afterUnknown _ _ _ _ ih => exact ih
  | afterKnown _ _ _ _ ih => exact ih

/-- A tied container stays tied. -/
theorem storeField_tied {f : FieldDef} {v : Val} {m m' : Msg} {g : FieldDef}
    (hf : f ∈ (S.descriptor m.cls).fields) (hg : g ∈ (S.descriptor m.cls).fields)
    (hshape : g.shape S = .repeated) (h : storeField S f v m = .ok m')
    (htied : TiedIn m.fields g.name) : TiedIn m'.fields g.name := by
  obtain ⟨w, hw, rfl⟩ := map_eq_ok.mp h
  unfold TiedIn
  rw [Msg.put_fields, Assoc.find_store]
  split
  · rename_i hname
    obtain rfl := MessageDef.eq_of_name_eq hg hf hname
    obtain ⟨xs, hxs⟩ := htied
    rw [storedValue, hshape, hxs] at hw
    obtain ⟨ys, rfl⟩ := storeItem_tied hw
    exact ⟨ys, rfl⟩
  · exact htied

theorem storeField_checked (hS : Refuses S whole) {f : FieldDef} {v : Val} {m m' : Msg}
    (hf : f ∈ (S.descriptor m.cls).fields) (h : ElementsChecked S whole m)
    (hv : f.shape S = .repeated →
      TiedIn m.fields f.name ∨ elementCheck whole f.type v = true)
    (hstore : storeField S f v m = .ok m') : ElementsChecked S whole m' := by
  obtain ⟨w, hw, rfl⟩ := map_eq_ok.mp hstore
  refine h.put fun g hg hname hshape => ?_
  obtain rfl := MessageDef.eq_of_name_eq hg hf hname
  rw [storedValue, hshape] at hw
  exact storeItem_checked hS (fun u hu => h g hg hshape u hu) (hv hshape) hw

/-- One record. -/
theorem parseStep_checked (hS : Refuses S whole) {data rest : PerlStr} {m m' : Msg}
    (h : ElementsChecked S whole m) (hfits : ParseFits S whole m data)
    (hstep : parseStep S (parse S) data m = .ok (m', rest)) :
    ElementsChecked S whole m' ∧ ParseFits S whole m' rest := by
  have hcls := parseStep_cls hstep
  obtain ⟨tagWire, afterTag, hread, hcase⟩ := parseStep_cases hstep
  rcases hcase with ⟨hfind, hskip, rfl⟩ | ⟨f, v, hfind, hdec, hstore⟩
  · exact ⟨h, fun g wire payload hrecord hshape =>
      hfits g wire payload (.afterUnknown hread hfind hskip hrecord) hshape⟩
  · obtain ⟨hf, -⟩ := MessageDef.findFieldByNumber_eq_some.mp hfind
    have hpasses := decodeField_passes whole (fun c bytes m hm => ?_) hdec
    · refine ⟨storeField_checked hS hf h (fun hshape => ?_) hstore, ?_⟩
      · rw [hpasses]
        exact hfits f _ afterTag (.here hread hfind) hshape
      · intro g wire payload hrecord hshape
        rw [hcls] at hrecord
        refine (hfits g wire payload (.afterKnown hread hfind (decodeField_pass hdec) hrecord)
          hshape).imp_left ?_
        exact storeField_tied hf hrecord.mem hshape hstore
    · rw [parse_eq_ok] at hm
      exact parseInto_cls hm

theorem parseInto_checked (hS : Refuses S whole) {data : PerlStr} {m : Msg}
    (h : ElementsChecked S whole m) (hfits : ParseFits S whole m data) :
    ElementsChecked S whole (left (parseInto S data m)) := by
  induction hn : data.length using Nat.strong_induction_on generalizing data m with
  | _ n ih =>
      subst hn
      by_cases hne : data = []
      · subst hne
        rw [parseInto_nil]
        exact h
      · rw [parseInto_cons m hne]
        cases hstep : parseStep S (parse S) data m with
        | error e => exact h
        | ok r =>
            obtain ⟨m', rest⟩ := r
            obtain ⟨h', hfits'⟩ := parseStep_checked hS h hfits hstep
            exact ih _ (parseStep_length hstep) h' hfits' rfl

theorem parse_checked (hS : Refuses S whole) {cls : String} {data : PerlStr} {m : Msg}
    (hfits : ParseFits S whole (.create cls) data) (h : parse S cls data = .ok m) :
    ElementsChecked S whole m := by
  have hleft := parseInto_checked hS (elementsChecked_create cls) hfits
  rw [parse_eq_ok.mp h] at hleft
  exact hleft

/-! ### Merging and copying -/

/-- The value that a merge leaves. -/
def leftVal : Except (Die × Val) Val → Val
  | .ok v => v
  | .error (_, v) => v

theorem mergeRepeated_tied (f : FieldDef) (v : Val) (xs : List Val) :
    leftVal (mergeRepeated S f v (some (.arr .tied xs))) =
      match v with
      | .arr _ ys => .arr .tied (leftItems (pushTied S f xs (deepCloneList ys)))
      | _ => .arr .tied xs := by
  cases v with
  | arr kind ys =>
      simp only [mergeRepeated, Option.filter, Val.truthy, if_true, Option.getD_some]
      cases pushTied S f xs (deepCloneList ys) <;> rfl
  | _ => rfl

theorem mergeRepeated_checked (hS : Refuses S whole) {f : FieldDef} {v : Val} {old : Option Val}
    (hold : ∀ u, old = some u → ValChecked whole f.type u)
    (hv : (∃ xs, old = some (.arr .tied xs)) ∨ ValChecked whole f.type v) :
    ValChecked whole f.type (leftVal (mergeRepeated S f v old)) := by
  -- a tied array checks what is pushed; into any other the values go as they are
  by_cases htied : ∃ xs, old = some (.arr .tied xs)
  · obtain ⟨xs, rfl⟩ := htied
    have hxs := (hold _ rfl).items
    rw [mergeRepeated_tied]
    cases v with
    | arr kind ys => exact valChecked_array (pushTied_checked hS hxs _)
    | _ => exact valChecked_array hxs
  have hv := hv.resolve_left htied
  have hbase : ValChecked whole f.type ((old.filter Val.truthy).getD (.arr .blessed [])) := by
    cases hold' : old.filter Val.truthy with
    | none => exact valChecked_array (by simp)
    | some u => exact hold u (Option.filter_eq_some_iff.mp hold').1
  have hnot : ∀ xs, (old.filter Val.truthy).getD (.arr .blessed []) ≠ .arr .tied xs := by
    intro xs hxs
    cases hold' : old.filter Val.truthy with
    | none =>
        rw [hold'] at hxs
        cases hxs
    | some u =>
        rw [hold'] at hxs
        obtain rfl : u = .arr .tied xs := hxs
        exact htied ⟨xs, (Option.filter_eq_some_iff.mp hold').1⟩
  unfold mergeRepeated
  revert hbase hnot
  generalize (old.filter Val.truthy).getD (.arr .blessed []) = base
  intro hbase hnot
  cases base with
  | arr kind xs =>
      cases v with
      | arr kind' ys =>
          have hitems : ∀ x ∈ xs ++ deepCloneList ys, elementCheck whole f.type x = true := by
            have hclone := hv.deepClone
            rw [List.forall_mem_append]
            refine ⟨hbase.items, ?_⟩
            cases kind' <;> rw [deepClone] at hclone <;> exact hclone.items
          cases kind with
          | tied => exact absurd rfl (hnot xs)
          | plain => exact valChecked_array hitems
          | blessed => exact valChecked_array hitems
      | _ => exact hbase
  | _ => exact hbase

theorem mergedValue_repeated {f : FieldDef} (hshape : f.shape S = .repeated) (v : Val)
    (mergeSub : Val → Except (Die × Val) Val) (old : Option Val) :
    mergedValue S f v mergeSub old = mergeRepeated S f v old := by
  simp only [mergedValue, hshape]

/-- One field of the source. -/
theorem mergedValue_checked (hS : Refuses S whole) {d : MessageDef} {f : FieldDef}
    {fs table : List (PerlStr × Val)} {v : Val} {mergeSub : Val → Except (Die × Val) Val}
    (hf : f ∈ d.fields) (h : TableChecked S whole d table)
    (hfits : MergeFits S whole d ((f.name, v) :: fs) table) {x : Val}
    (hx : leftVal (mergedValue S f v mergeSub (Assoc.find table f.name)) = x) :
    TableChecked S whole d (Assoc.store table f.name x) ∧
      MergeFits S whole d fs (Assoc.store table f.name x) := by
  constructor
  · intro g hg hshape w hw
    rw [Assoc.find_store] at hw
    split at hw
    · rename_i hname
      obtain rfl := MessageDef.eq_of_name_eq hg hf hname
      obtain rfl := Option.some.inj hw
      rw [mergedValue_repeated hshape] at hx
      rw [← hx]
      exact mergeRepeated_checked hS (fun u hu => h g hg hshape u hu)
        (hfits g hg hshape v List.mem_cons_self)
    · exact h g hg hshape w hw
  · intro g hg hshape w hw
    refine (hfits g hg hshape w (List.mem_cons_of_mem _ hw)).imp_left ?_
    rintro ⟨xs, hxs⟩
    unfold TiedIn
    rw [Assoc.find_store]
    split
    · rename_i hname
      obtain rfl := MessageDef.eq_of_name_eq hg hf hname
      rw [mergedValue_repeated hshape, hxs, mergeRepeated_tied] at hx
      subst hx
      cases v <;> exact ⟨_, rfl⟩
    · exact ⟨xs, hxs⟩

/-- The table that a merge leaves. -/
def leftTable : Except (Die × List (PerlStr × Val)) (List (PerlStr × Val)) → List (PerlStr × Val)
  | .ok r => r
  | .error (_, r) => r

theorem mergeFields_checked (hS : Refuses S whole) {d : MessageDef}
    {fs table : List (PerlStr × Val)} (h : TableChecked S whole d table)
    (hfits : MergeFits S whole d fs table) :
    TableChecked S whole d (leftTable (mergeFields S d fs table)) := by
  induction fs generalizing table with
  | nil =>
      rw [mergeFields]
      exact h
  | cons p fs ih =>
      obtain ⟨name, v⟩ := p
      by_cases hskip : v.isDefined = false ∨ d.findFieldByName name = none
      · rw [mergeFields_skip S hskip]
        exact ih h fun f hf hshape w hw => hfits f hf hshape w (List.mem_cons_of_mem _ hw)
      · push Not at hskip
        obtain ⟨f, hfind⟩ := Option.ne_none_iff_exists'.mp hskip.2
        obtain ⟨hf, rfl⟩ := MessageDef.findFieldByName_eq_some.mp hfind
        rw [mergeFields_cons S (by simpa using hskip.1) hfind]
        cases hx : mergedValue S f v (mergeVal S v) (Assoc.find table f.name) with
        | error e =>
            obtain ⟨e, x⟩ := e
            exact (mergedValue_checked hS hf h hfits (by rw [hx]; rfl)).1
        | ok x =>
            obtain ⟨h', hfits'⟩ := mergedValue_checked hS hf h hfits (x := x) (by rw [hx]; rfl)
            exact ih h' hfits'

theorem merge_checked (hS : Refuses S whole) {m src : Msg} (h : ElementsChecked S whole m)
    (hfits : MergeFits S whole (S.descriptor m.cls) src.fields m.fields) :
    ElementsChecked S whole (left (merge S m src)) := by
  have hfields := mergeFields_checked hS h hfits
  unfold merge
  cases hr : mergeFields S (S.descriptor m.cls) src.fields m.fields with
  | error e =>
      obtain ⟨e, r⟩ := e
      rw [hr] at hfields
      exact hfields
  | ok r =>
      rw [hr] at hfields
      exact hfields

theorem mergeEntries_checked {d : MessageDef} {fs table : List (PerlStr × Val)}
    (h : TableChecked S whole d table) (hfits : MergeFits S whole d fs []) :
    TableChecked S whole d (mergeEntries fs table) := by
  induction fs generalizing table with
  | nil => exact h
  | cons p fs ih =>
      obtain ⟨name, v⟩ := p
      refine ih ?_ fun f hf hshape w hw => hfits f hf hshape w (List.mem_cons_of_mem _ hw)
      intro f hf hshape w hw
      rw [Assoc.find_store] at hw
      split at hw
      · rename_i hname
        subst hname
        obtain rfl := Option.some.inj hw
        refine ValChecked.deepClone ((hfits f hf hshape v List.mem_cons_self).resolve_left ?_)
        rintro ⟨xs, hxs⟩
        cases hxs
      · exact h f hf hshape w hw

/-! ### Runs -/

theorem apply_checked (hS : Refuses S whole) {m : Msg} {op : ContainerOp}
    (h : ElementsChecked S whole m) (hfits : op.Fits S whole m) :
    ElementsChecked S whole (op.apply S m) := by
  cases op with
  | set name value =>
      simp only [ContainerOp.apply]
      cases hset : set S m name value with
      | error e => exact h
      | ok m' => exact set_checked hS h hfits hset
  | get name => exact get_checked h name
  | clear name => exact clear_checked h name
  | parse data =>
      simp only [ContainerOp.apply]
      cases hparse : parse S m.cls data with
      | error e => exact h
      | ok m' => exact parse_checked hS hfits hparse
  | parseFrom data => exact parseInto_checked hS h hfits
  | mergeFrom src => exact merge_checked hS h hfits
  | copyFrom src =>
      refine mergeEntries_checked ?_ hfits
      intro f _ _ v hv
      cases hv
  | copyFromSelf =>
      intro f _ _ v hv
      cases hv
  | array name op => exact array_checked hS h hfits
  | delete name i holes => exact delete_checked h hfits

/-- In a run whose operations all fit, every element of every repeated field passes
its check in the message that is reached. -/
theorem run_checked (hS : Refuses S whole) {m : Msg} (h : ElementsChecked S whole m)
    {ops : List ContainerOp}
    (hfits : Allowed (ContainerOp.apply S) (fun m op => op.Fits S whole m) m ops) :
    ElementsChecked S whole (run (ContainerOp.apply S) m ops) :=
  run_invariant (ElementsChecked S whole) (fun _ _ h hop => apply_checked hS h hop) h hfits

end

/-- `repeated int32 ints = 1` -/
def ints : FieldDef := ⟨ps "ints", 1, .int32, .repeated⟩

/-- One message type with that field, and the check itself for elements. No double
has a whole number for its text here. -/
def checkingPool : Pool where
  descriptor := fun _ => { fields := [ints] }
  checkItem := fun f v => if elementCheck (fun _ => none) f.type v then some v else none

theorem checkingPool_refuses : Refuses checkingPool fun _ => none := by
  intro f v w h
  simp only [checkingPool] at h
  split at h
  · rename_i hv
    obtain rfl := Option.some.inj h
    exact hv
  · cases h

theorem run_checked_of_push :
    ElementsChecked checkingPool (fun _ => none)
      (run (ContainerOp.apply checkingPool) (.create "M")
        [.set (ps "ints") (.arr .plain [.iv 1, .iv 2]),
          .array (ps "ints") (.push [.iv 3, .str (ps "x")]), .array (ps "ints") (.resize 1)]) := by
  refine run_checked checkingPool_refuses (elementsChecked_create "M") ⟨?_, ?_, ?_, trivial⟩
  · rintro f - - - kind xs ⟨⟩
    exact .inl rfl
  · rintro f - - - kind xs hxs
    obtain ⟨rfl, rfl⟩ : kind = .tied ∧ xs = [.iv 1, .iv 2] := by
      cases hxs
      exact ⟨rfl, rfl⟩
    exact ⟨.inl rfl, .inl trivial⟩
  · rintro f - - - kind xs hxs
    obtain ⟨rfl, rfl⟩ : kind = .tied ∧ xs = [.iv 1, .iv 2, .iv 3] := by
      cases hxs
      exact ⟨rfl, rfl⟩
    exact ⟨.inl rfl, .inl (show 1 ≤ 3 by decide)⟩

/-- A parsed element is a `Math::BigInt`, which is no `Int`; a longer array has an
`undef` at its end. -/
theorem run_checked_fails :
    Refuses checkingPool (fun _ => none) ∧
      ¬ ElementsChecked checkingPool (fun _ => none)
        (run (ContainerOp.apply checkingPool) (.create "M") [.parse [8, 1]]) ∧
      ¬ ElementsChecked checkingPool (fun _ => none)
        (run (ContainerOp.apply checkingPool) (.create "M") [.array (ps "ints") (.resize 1)]) := by
  refine ⟨checkingPool_refuses, fun h => ?_, fun h => ?_⟩
  · have hitems := h ints List.mem_cons_self rfl (.arr .blessed [.big 1]) rfl
    exact absurd (hitems.items _ List.mem_cons_self) (by decide)
  · have hitems := h ints List.mem_cons_self rfl (.arr .tied [.undef]) rfl
    exact absurd (hitems.items _ List.mem_cons_self) (by decide)

end GooglePerl.Protobuf
