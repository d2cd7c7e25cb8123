import GooglePerl.Protobuf.Message

/-!
Oneofs over runs of operations.

No operation of the pure-Perl engine clears the other members of a oneof when
it writes one. So a run keeps its oneofs exclusive exactly as long as none of
its steps writes a member next to another one: `Exclusive` says this about one
step, `oneofs_exclusive_iff` about all states of a run.
-/

namespace GooglePerl.Protobuf

open GooglePerl.Lib

/-! ### Which fields are set after an operation -/

theorem has_iff {m : Msg} {name : PerlStr} : has m name = true ↔ name ∈ Assoc.keys m.fields := by
  rw [has, ← not_iff_not, Bool.not_eq_true, Option.isSome_eq_false_iff, Option.isNone_iff_eq_none,
    Assoc.find_eq_none_iff]

/-- The message has got the named fields, and has lost none. -/
structure Adds (m m' : Msg) (names : List PerlStr) : Prop where
  cls : m'.cls = m.cls
  sets : ∀ x, has m' x = true ↔ has m x = true ∨ x ∈ names

theorem Adds.refl (m : Msg) : Adds m m [] :=
  ⟨rfl, by simp⟩

theorem Adds.put (m : Msg) (name : PerlStr) (v : Val) : Adds m (m.put name v) [name] := by
  refine ⟨rfl, fun x => ?_⟩
  rw [has_iff, has_iff, Msg.put_fields, Assoc.mem_keys_store, List.mem_singleton, or_comm]

theorem Adds.trans {m m₁ m' : Msg} {names names' : List PerlStr} (h : Adds m m₁ names)
    (h' : Adds m₁ m' names') : Adds m m' (names ++ names') :=
  ⟨h'.cls.trans h.cls, fun x => by rw [h'.sets, h.sets, List.mem_append, or_assoc]⟩

theorem Adds.set {S : Pool} {m m' : Msg} {name : PerlStr} {value : Val}
    (h : set S m name value = .ok m') : Adds m m' [name] := by
  unfold Protobuf.set at h
  split at h
  · obtain rfl := Except.ok.inj h
    exact .put m name value
  · obtain ⟨v, -, h⟩ := bind_eq_ok.mp h
    obtain ⟨w, -, h⟩ := bind_eq_ok.mp h
    obtain rfl := Except.ok.inj h
    exact .put m name _

theorem Adds.accessor {S : Pool} {m m' : Msg} {f : FieldDef} {value : Val}
    (h : accessor S m f value = .ok m') : Adds m m' [f.name] := by
  unfold Protobuf.accessor at h
  split at h
  · cases h
  · exact .set h

theorem Adds.fromPerl (S : Pool) (args : List (PerlStr × Val)) (m : Msg) :
    Adds m (left (fromPerl S args m)) (fromPerlNames S args m) := by
  induction args generalizing m with
  | nil => exact .refl m
  | cons arg args ih =>
      obtain ⟨key, value⟩ := arg
      rw [Protobuf.fromPerl, fromPerlNames]
      cases hf : (S.descriptor m.cls).findFieldByName key with
      | none => exact .refl m
      | some f =>
          obtain ⟨-, rfl⟩ := MessageDef.findFieldByName_eq_some.mp hf
          cases hset : Protobuf.accessor S m f value with
          | error e =>
              simp only [hset]
              exact .refl m
          | ok m' =>
              simp only [hset]
              exact (Adds.accessor hset).trans (ih m')

theorem Adds.setOneof {S : Pool} {m m' : Msg} {oneof name : PerlStr} {value : Val}
    (h : setOneof S m oneof value = .ok (m', name)) : Adds m m' [name] := by
  unfold Protobuf.setOneof at h
  split at h
  · cases h
  · split at h
    · rename_i r hr
      obtain rfl := Except.ok.inj h
      obtain ⟨f, -, hf⟩ := List.exists_of_findSome?_eq_some hr
      split at hf
      · rename_i m₁ hset
        obtain ⟨rfl, rfl⟩ := Prod.mk.inj (Option.some.inj hf)
        exact .accessor hset
      · cases hf
    · cases h

/-- One turn of the parse loop writes the field that its tag names. -/
theorem Adds.parseStep {S : Pool} {parseSub : String → PerlStr → Except Die Msg}
    {data rest : PerlStr} {m m' : Msg} (h : parseStep S parseSub data m = .ok (m', rest)) :
    Adds m m' ((nextField S m.cls data).toList.map FieldDef.name) := by
  obtain ⟨tagWire, afterTag, hread, ⟨hfind, -, rfl⟩ | ⟨f, v, hfind, -, hstore⟩⟩ :=
    parseStep_cases h
  · simp only [nextField, hread, hfind]
    exact ⟨rfl, by simp [has, Msg.keepUnknown]⟩
  · obtain ⟨x, -, rfl⟩ := map_eq_ok.mp hstore
    simp only [nextField, hread, hfind]
    exact .put m f.name x

theorem Adds.parseInto (S : Pool) {fuel : ℕ} {data : PerlStr} (m : Msg)
    (h : data.length ≤ fuel) : Adds m (left (parseInto S data m)) (storedNames S fuel data m) := by
  induction fuel generalizing data m with
  | zero =>
      obtain rfl := List.length_eq_zero_iff.mp (Nat.le_zero.mp h)
      rw [parseInto_nil]
      exact .refl m
  | succ fuel ih =>
      rw [storedNames]
      cases hstep : Protobuf.parseStep S (parse S) data m with
      | error e =>
          by_cases hne : data = []
          · subst hne
            rw [parseInto_nil]
            exact .refl m
          · rw [parseInto_cons m hne, hstep]
            exact .refl m
      | ok r =>
          obtain ⟨m', rest⟩ := r
          have hlen := parseStep_length hstep
          rw [parseInto_step hstep]
          exact (Adds.parseStep hstep).trans (ih m' (by omega))

theorem mergedNames_skip (S : Pool) {d : MessageDef} {name : PerlStr} {val : Val}
    (h : val.isDefined = false ∨ d.findFieldByName name = none) (fs dst : List (PerlStr × Val)) :
    mergedNames S d ((name, val) :: fs) dst = mergedNames S d fs dst := by
  cases val with
  | undef => rw [mergedNames]
  | _ =>
      rw [mergedNames]
      · rw [h.resolve_left (by simp [Val.isDefined])]
      · simp

theorem mergedNames_cons (S : Pool) {d : MessageDef} {name : PerlStr} {val : Val} {f : FieldDef}
    (hval : val.isDefined = true) (hf : d.findFieldByName name = some f)
    (fs dst : List (PerlStr × Val)) :
    mergedNames S d ((name, val) :: fs) dst =
      match mergedValue S f val (mergeVal S val) (Assoc.find dst name) with
      | .ok x => name :: mergedNames S d fs (Assoc.store dst name x)
      | .error _ => [name] := by
  cases val with
  | undef => cases hval
  | _ =>
      rw [mergedNames]
      · generalize mergeVal S _ = sub
        cases hx : mergedValue S f _ sub (Assoc.find dst name) <;> simp [hf, hx]
      · simp

theorem keys_mergeFields (S : Pool) (d : MessageDef) (fs dst : List (PerlStr × Val))
    (x : PerlStr) :
    x ∈ Assoc.keys (match mergeFields S d fs dst with | .ok r => r | .error (_, r) => r) ↔
      x ∈ Assoc.keys dst ∨ x ∈ mergedNames S d fs dst := by
  induction fs generalizing dst with
  | nil => simp [mergeFields, mergedNames]
  | cons p fs ih =>
      obtain ⟨name, val⟩ := p
      by_cases hskip : val.isDefined = false ∨ d.findFieldByName name = none
      · rw [mergeFields_skip S hskip, mergedNames_skip S hskip]
        exact ih dst
      · push Not at hskip
        have hval : val.isDefined = true := by simpa using hskip.1
        obtain ⟨f, hf⟩ := Option.ne_none_iff_exists'.mp hskip.2
        rw [mergeFields_cons S hval hf, mergedNames_cons S hval hf]
        cases mergedValue S f val (mergeVal S val) (Assoc.find dst name) with
        | error e => simp [Assoc.mem_keys_store, or_comm]
        | ok v =>
            simp only [ih, Assoc.mem_keys_store, List.mem_cons]
            tauto

theorem Adds.merge (S : Pool) (m src : Msg) :
    Adds m (left (merge S m src)) (mergedNames S (S.descriptor m.cls) src.fields m.fields) := by
  have hkeys := keys_mergeFields S (S.descriptor m.cls) src.fields m.fields
  unfold Protobuf.merge
  cases hmerge : mergeFields S (S.descriptor m.cls) src.fields m.fields with
  | ok fields =>
      rw [hmerge] at hkeys
      exact ⟨rfl, fun x => by rw [has_iff, has_iff]; exact hkeys x⟩
  | error e =>
      obtain ⟨e, fields⟩ := e
      rw [hmerge] at hkeys
      exact ⟨rfl, fun x => by rw [has_iff, has_iff]; exact hkeys x⟩

theorem keys_mergeEntries (es table : List (PerlStr × Val)) (x : PerlStr) :
    x ∈ Assoc.keys (mergeEntries es table) ↔ x ∈ Assoc.keys es ∨ x ∈ Assoc.keys table := by
  induction es generalizing table with
  | nil => simp [mergeEntries, Assoc.keys]
  | cons p es ih =>
      obtain ⟨k, v⟩ := p
      rw [mergeEntries, ih, Assoc.mem_keys_store, Assoc.mem_keys_cons]
      tauto

/-- Whether an operation lets a field that is set stay so. -/
def Op.keeps : Op → PerlStr → Prop
  | .clear name, x => x ≠ name
  | .copyFrom _, _ => False
  | .copyFromSelf, _ => False
  | _, _ => True

/-- A field of the message is involved in an operation that writes it, or keeps it. -/
def Involved (S : Pool) (m : Msg) (op : Op) (f : FieldDef) : Prop :=
  (has m f.name = true ∧ op.keeps f.name) ∨ f.name ∈ op.writes S m

/-- What an operation can be: one that only adds the fields it writes, or one of
four others. -/
theorem Op.adds_or (S : Pool) (m : Msg) (op : Op) :
    (Adds m (op.apply S m) (op.writes S m) ∧ ∀ x, op.keeps x) ∨
      (∃ name, op = .clear name) ∨ (∃ name, op = .get name) ∨ (∃ src, op = .copyFrom src) ∨
      op = .copyFromSelf := by
  cases op with
  | set name value =>
      refine .inl ⟨?_, fun _ => trivial⟩
      cases h : Protobuf.set S m name value with
      | error e =>
          simp only [Op.apply, Op.writes, h]
          exact .refl m
      | ok m' =>
          simp only [Op.apply, Op.writes, h]
          exact .set h
  | accessor name value =>
      refine .inl ⟨?_, fun _ => trivial⟩
      -- a setter of the class is `from_perl` with one name
      have hadds := Adds.fromPerl S [(name, value)] m
      cases hf : (S.descriptor m.cls).findFieldByName name with
      | none => simpa [Op.apply, Op.writes, Protobuf.fromPerl, hf, left] using hadds
      | some f =>
          cases h : Protobuf.accessor S m f value with
          | error e =>
              simpa [Op.apply, Op.writes, Protobuf.fromPerl, hf, h, left, Except.toOption]
                using hadds
          | ok m' =>
              simpa [Op.apply, Op.writes, Protobuf.fromPerl, hf, h, left, Except.toOption]
                using hadds
  | setOneof oneof value =>
      refine .inl ⟨?_, fun _ => trivial⟩
      cases h : Protobuf.setOneof S m oneof value with
      | error e =>
          simp only [Op.apply, Op.writes, h]
          exact .refl m
      | ok r =>
          simp only [Op.apply, Op.writes, h]
          exact .setOneof h
  | clear name => exact .inr (.inl ⟨name, rfl⟩)
  | get name => exact .inr (.inr (.inl ⟨name, rfl⟩))
  | fromPerl args => exact .inl ⟨.fromPerl S args m, fun _ => trivial⟩
  | parseFrom data => exact .inl ⟨.parseInto S m le_rfl, fun _ => trivial⟩
  | mergeFrom src => exact .inl ⟨.merge S m src, fun _ => trivial⟩
  | copyFrom src => exact .inr (.inr (.inr (.inl ⟨src, rfl⟩)))
  | copyFromSelf => exact .inr (.inr (.inr (.inr rfl)))

theorem Op.apply_cls (S : Pool) (m : Msg) (op : Op) : (op.apply S m).cls = m.cls := by
  obtain ⟨hadds, -⟩ | ⟨name, rfl⟩ | ⟨name, rfl⟩ | ⟨src, rfl⟩ | rfl := Op.adds_or S m op
  · exact hadds.cls
  · rfl
  · simp only [Op.apply, Protobuf.get]
    split
    · rfl
    · split
      · rfl
      · split <;> rfl
  · rfl
  · rfl

/-- Reading a singular field stores nothing. -/
theorem has_get (S : Pool) {m : Msg} {f : FieldDef} (hmem : f ∈ (S.descriptor m.cls).fields)
    (hshape : f.shape S = .singular) (name : PerlStr) :
    has (get S m name).2 f.name = has m f.name := by
  unfold Protobuf.get
  split
  · rfl
  · split
    · rfl
    · rename_i g hg
      obtain ⟨hgmem, rfl⟩ := MessageDef.findFieldByName_eq_some.mp hg
      by_cases hname : f.name = g.name
      · obtain rfl := MessageDef.eq_of_name_eq hmem hgmem hname
        simp only [hshape]
      · have hput : ∀ v, has (m.put g.name v) f.name = has m f.name := fun v => by
          simp [has, Assoc.find_store_of_ne _ _ hname]
        split
        · exact hput _
        · exact hput _
        · rfl

/-- A singular field is set after an operation exactly when it was involved. -/
theorem has_apply_iff (S : Pool) (m : Msg) (op : Op) {f : FieldDef}
    (hmem : f ∈ (S.descriptor m.cls).fields) (hlabel : f.label = .optional) :
    has (op.apply S m) f.name = true ↔ Involved S m op f := by
  obtain ⟨hadds, hkeeps⟩ | ⟨name, rfl⟩ | ⟨name, rfl⟩ | ⟨src, rfl⟩ | rfl := Op.adds_or S m op
  · rw [hadds.sets, Involved, and_iff_left (hkeeps f.name)]
  · by_cases hname : f.name = name <;>
      simp [Involved, Op.apply, Op.writes, Op.keeps, has, clear, Assoc.find_delete, hname]
  · simp [Involved, Op.apply, Op.writes, Op.keeps,
      has_get S hmem (FieldDef.shape_singular_of_optional hlabel)]
  · rw [has_iff, Op.apply, copy, keys_mergeEntries]
    simp [Involved, Op.writes, Op.keeps, Assoc.keys]
  · simp [Involved, Op.apply, Op.writes, Op.keeps, has, copySelf]

/-! ### Runs -/

/-- A message and the names written on the way to it, the latest first. -/
structure MsgRun where
  msg : Msg
  history : List PerlStr

def MsgRun.start (cls : String) : MsgRun := ⟨.create cls, []⟩

def MsgRun.step (S : Pool) (r : MsgRun) (op : Op) : MsgRun :=
  ⟨op.apply S r.msg, (op.writes S r.msg).reverse ++ r.history⟩

/-- The member written last. -/
def OneofDef.latest (o : OneofDef) (history : List PerlStr) : Option PerlStr :=
  history.find? fun name => o.fields.any fun f => f.name == name

/-- At most one member of each oneof is set, and `which_oneof` names the one
written last. -/
def OneofsOk (S : Pool) (r : MsgRun) : Prop :=
  ∀ o ∈ (S.descriptor r.msg.cls).oneofs,
    (∀ f ∈ o.fields, ∀ g ∈ o.fields, has r.msg f.name = true → has r.msg g.name = true → f = g) ∧
    ∀ f ∈ o.fields, has r.msg f.name = true →
      ∃ name, o.latest r.history = some name ∧ whichOneof S r.msg o.name = .ok (some name)

/-- The operation does not write a member of a oneof next to another one. -/
def Exclusive (S : Pool) (m : Msg) (op : Op) : Prop :=
  ∀ o ∈ (S.descriptor m.cls).oneofs, ∀ f ∈ o.fields, ∀ g ∈ o.fields,
    Involved S m op f → Involved S m op g → f = g

/-- Every operation of the run is exclusive in the state it meets. -/
def Guarded (S : Pool) : MsgRun → List Op → Prop
  | _, [] => True
  | r, op :: ops => Exclusive S r.msg op ∧ Guarded S (r.step S op) ops

theorem whichOneof_eq {S : Pool} {m : Msg} {o : OneofDef} (ho : o ∈ (S.descriptor m.cls).oneofs)
    {f : FieldDef} (hf : f ∈ o.fields) (hhas : has m f.name = true)
    (honly : ∀ g ∈ o.fields, has m g.name = true → g = f) :
    whichOneof S m o.name = .ok (some f.name) := by
  rw [whichOneof, MessageDef.findOneofByName_eq_some ho]
  cases hfind : o.fields.find? fun g => has m g.name with
  | none => exact absurd hhas (List.find?_eq_none.mp hfind f hf)
  | some g =>
      have hg := honly g (List.mem_of_find?_eq_some hfind) (by simpa using List.find?_some hfind)
      simp [hfind, hg]

/-- In a good state the member that is set is the latest. -/
theorem OneofsOk.latest_eq {S : Pool} {r : MsgRun} (h : OneofsOk S r) {o : OneofDef}
    (ho : o ∈ (S.descriptor r.msg.cls).oneofs) {f : FieldDef} (hf : f ∈ o.fields)
    (hhas : has r.msg f.name = true) : o.latest r.history = some f.name := by
  obtain ⟨honly, hlatest⟩ := h o ho
  obtain ⟨name, hname, hwhich⟩ := hlatest f hf hhas
  rw [whichOneof_eq ho hf hhas fun g hg hgh => honly g hg f hf hgh hhas] at hwhich
  rw [hname, Option.some.inj (Except.ok.inj hwhich)]

theorem latest_append_of_mem {o : OneofDef} {f : FieldDef} {names : List PerlStr}
    (hmem : f.name ∈ names) (hf : f ∈ o.fields)
    (honly : ∀ g ∈ o.fields, g.name ∈ names → g = f) (history : List PerlStr) :
    o.latest (names ++ history) = some f.name := by
  unfold OneofDef.latest
  rw [List.find?_append]
  cases hfind : names.find? fun name => o.fields.any fun g => g.name == name with
  | none => exact absurd (List.find?_eq_none.mp hfind _ hmem) (by simpa using ⟨f, hf, rfl⟩)
  | some name =>
      obtain ⟨g, hg, rfl⟩ : ∃ g ∈ o.fields, g.name = name := by
        simpa using List.find?_some hfind
      rw [honly g hg (List.mem_of_find?_eq_some hfind)]
      rfl

theorem latest_append_of_not_mem {o : OneofDef} {names : List PerlStr}
    (h : ∀ g ∈ o.fields, g.name ∉ names) (history : List PerlStr) :
    o.latest (names ++ history) = o.latest history := by
  have hnone : (names.find? fun name => o.fields.any fun g => g.name == name) = none := by
    rw [List.find?_eq_none]
    intro name hname hany
    obtain ⟨g, hg, rfl⟩ : ∃ g ∈ o.fields, g.name = name := by simpa using hany
    exact h g hg hname
  unfold OneofDef.latest
  rw [List.find?_append, hnone, Option.none_or]

/-- From a good state, exactly the exclusive operations lead to a good state. -/
theorem oneofsOk_step_iff {S : Pool} {r : MsgRun} (h : OneofsOk S r) (op : Op) :
    OneofsOk S (r.step S op) ↔ Exclusive S r.msg op := by
  have hcls : (r.step S op).msg.cls = r.msg.cls := Op.apply_cls S r.msg op
  have hset : ∀ o ∈ (S.descriptor r.msg.cls).oneofs, ∀ f ∈ o.fields,
      (has (r.step S op).msg f.name = true ↔ Involved S r.msg op f) := by
    intro o ho f hf
    obtain ⟨hmem, hlabel⟩ := (S.descriptor r.msg.cls).oneofs_singular o ho f hf
    exact has_apply_iff S r.msg op hmem hlabel
  unfold OneofsOk
  rw [hcls]
  constructor
  · intro hok o ho f hf g hg hfi hgi
    exact (hok o ho).1 f hf g hg ((hset o ho f hf).mpr hfi) ((hset o ho g hg).mpr hgi)
  · intro hex o ho
    have honly : ∀ f ∈ o.fields, ∀ g ∈ o.fields, has (r.step S op).msg f.name = true →
        has (r.step S op).msg g.name = true → f = g := fun f hf g hg hfh hgh =>
      hex o ho f hf g hg ((hset o ho f hf).mp hfh) ((hset o ho g hg).mp hgh)
    refine ⟨honly, fun f hf hfh => ⟨f.name, ?_, ?_⟩⟩
    · have hfi := (hset o ho f hf).mp hfh
      -- a member that was written is the only one of this step; otherwise the step wrote none
      by_cases hwritten : f.name ∈ op.writes S r.msg
      · refine latest_append_of_mem (by simpa using hwritten) hf (fun g hg hgw => ?_) _
        exact hex o ho g hg f hf (.inr (by simpa using hgw)) hfi
      · have hkept := (hfi.resolve_right hwritten).1
        rw [← h.latest_eq ho hf hkept]
        refine latest_append_of_not_mem (fun g hg hgw => hwritten ?_) _
        have hgw : g.name ∈ op.writes S r.msg := by simpa using hgw
        rwa [hex o ho f hf g hg hfi (.inr hgw)]
    · have ho' : o ∈ (S.descriptor (r.step S op).msg.cls).oneofs := by rwa [hcls]
      exact whichOneof_eq ho' hf hfh fun g hg hgh => honly g hg f hf hgh hfh

theorem oneofsOk_start (S : Pool) (cls : String) : OneofsOk S (.start cls) := by
  intro o ho
  constructor
  · intro f hf g hg hfh
    cases hfh
  · intro f hf hfh
    cases hfh

theorem oneofsOk_run_iff {S : Pool} {r : MsgRun} (h : OneofsOk S r) (ops : List Op) :
    (∀ r' ∈ ops.scanl (MsgRun.step S) r, OneofsOk S r') ↔ Guarded S r ops := by
  induction ops generalizing r with
  | nil => simpa [Guarded] using h
  | cons op ops ih =>
      rw [List.scanl_cons, List.forall_mem_cons, and_iff_right h, Guarded,
        ← oneofsOk_step_iff h op]
      constructor
      · intro hall
        have hnext : OneofsOk S (r.step S op) := hall _ (by cases ops <;> simp)
        exact ⟨hnext, (ih hnext).mp hall⟩
      · rintro ⟨hnext, hguard⟩
        exact (ih hnext).mpr hguard

/-- A type with the oneof of `t/c/test.proto`, less its message member. -/
def oneofPool : Pool where
  descriptor _ :=
    { fields := [⟨ps "oneof_string", 3, .string, .optional⟩,
        ⟨ps "oneof_int32", 4, .int32, .optional⟩]
      oneofs := [⟨ps "test_oneof", [⟨ps "oneof_string", 3, .string, .optional⟩,
        ⟨ps "oneof_int32", 4, .int32, .optional⟩]⟩] }

end GooglePerl.Protobuf
