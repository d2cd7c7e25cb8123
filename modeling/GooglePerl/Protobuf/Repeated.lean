import GooglePerl.Lib.Except
import GooglePerl.Lib.TiedArray
import GooglePerl.Protobuf.Access

/-!
`Protobuf::Internal::Repeated::PurePerl`: the class that the container of a
repeated field is tied to, and the container itself, which is an ordinary array
where a parse, a merge or a clone has put one.
-/

namespace GooglePerl.Protobuf

open GooglePerl.Lib

/-- The error of a failed check. -/
def invalidElement (f : FieldDef) : Die :=
  .croak (ps "Invalid value for repeated field '" ++ f.name ++ ps "': ")

/-- perl's own error for an index before the start. -/
def notCreatable (i : ℤ) : Die :=
  .croak (ps "Modification of non-creatable array value attempted, subscript " ++ decimalText i)

/-- The loop of `UNSHIFT`, over the values in reverse. -/
def unshiftTied (S : Pool) (f : FieldDef) (items : List Val) :
    List Val → Except (Die × List Val) (List Val)
  | [] => .ok items
  | v :: vs =>
      match S.checkItem f v with
      | some v' => unshiftTied S f (v' :: items) vs
      | none => .error (invalidElement f, items)

/-- The loop of `SPLICE`, which checks everything before anything is done. -/
def checkAll (S : Pool) (f : FieldDef) : List Val → Except Die (List Val)
  | [] => .ok []
  | v :: vs =>
      match S.checkItem f v with
      | some v' => (checkAll S f vs).map (v' :: ·)
      | none => .error (invalidElement f)

/-- A method that leaves the array also when it dies. -/
def kept : Except (Die × List Val) (List Val) → EStateM.Result Die (List Val) Unit
  | .ok b => .ok () b
  | .error (e, b) => .error e b

/-- `$length` and `$offset` of `SPLICE`: what is not given is `undef`, which is 0 to
the `splice` that follows. -/
def spliceArguments : SpliceArgs Val → ℤ × ℤ
  | .none => (0, 0)
  | .offset o => (o, 0)
  | .range o len _ => (o, len)

/-- The methods of the class, on `$self->{arr}`. -/
def purePerlHooks (S : Pool) (f : FieldDef) : Hooks Val Die (List Val) where
  fetch i a := .ok (((slotOf a.length i).bind (a[·]?)).getD .undef) a
  store i v a :=
    match S.checkItem f v with
    | none => .error (invalidElement f) a
    | some v' =>
        match slotOf a.length i with
        | none => .error (notCreatable i) a
        | some k => .ok () (storeSlot .undef a k v')
  fetchSize a := .ok a.length a
  -- the elements that are new stay undef, and are not checked
  storeSize n a := .ok () (resizeTo .undef a n.toNat)
  clear _ := .ok () []
  push vs a := kept (pushTied S f a vs)
  pop a := .ok (a.getLast?.getD .undef) a.dropLast
  shift a := .ok (a.head?.getD .undef) a.tail
  -- from the last value to the first, each checked before it is put in front
  unshift vs a := kept (unshiftTied S f a vs.reverse)
  splice args a :=
    match checkAll S f args.values with
    | .error e => .error e a
    | .ok list =>
        match spliceWith a (spliceArguments args).1 (spliceArguments args).2 list with
        | (b, .values removed) => .ok removed b
        | (b, _) => .error (notCreatable (spliceArguments args).1) b

/-- An operation on the container of a repeated field. -/
def containerApply (S : Pool) (f : FieldDef) (kind : ArrKind) (a : List Val) (op : ArrayOp Val) :
    List Val × Reply Val :=
  match kind with
  | .tied => (purePerlHooks S f).apply .undef a op
  | .plain | .blessed => op.apply .undef a

/-- What the container takes: an ordinary array takes everything. -/
def containerAccept (S : Pool) (f : FieldDef) : ArrKind → Val → Option Val
  | .tied, v => S.checkItem f v
  | .plain, v | .blessed, v => some v

/-! ### The tied array as an array -/

/-- The container as something that answers array operations. -/
def container (S : Pool) (f : FieldDef) (kind : ArrKind) : ArrayLike where
  V := Val
  σ := List Val
  undef := .undef
  step := containerApply S f kind
  view := id
  accept := containerAccept S f kind

/-- A tied array is not asked to remove a rest that it does not remove: `splice`
without a length comes only where nothing is to be removed. -/
def RestKept (kind : ArrKind) (a : List Val) : ArrayOp Val → Prop
  | .splice .none => kind = .tied → a = []
  | .splice (.offset o) => kind = .tied → a.length ≤ o ∨ o + a.length < 0
  | _ => True

section

variable {S : Pool} {f : FieldDef}

/-- The form in which the check passes a value on. -/
def checkedForm (S : Pool) (f : FieldDef) (v : Val) : Val := (S.checkItem f v).getD v

theorem checkItem_eq {v : Val} (h : (S.checkItem f v).isSome = true) :
    S.checkItem f v = some (checkedForm S f v) := by
  obtain ⟨w, hw⟩ := Option.isSome_iff_exists.mp h
  simp [checkedForm, hw]

theorem pushTied_of_legal {vs : List Val} (h : ∀ v ∈ vs, (S.checkItem f v).isSome = true)
    (a : List Val) : pushTied S f a vs = .ok (a ++ vs.map (checkedForm S f)) := by
  induction vs generalizing a with
  | nil => simp [pushTied]
  | cons v vs ih =>
      rw [List.forall_mem_cons] at h
      rw [pushTied, checkItem_eq h.1]
      simp [ih h.2]

theorem unshiftTied_of_legal {vs : List Val} (h : ∀ v ∈ vs, (S.checkItem f v).isSome = true)
    (a : List Val) : unshiftTied S f a vs = .ok ((vs.map (checkedForm S f)).reverse ++ a) := by
  induction vs generalizing a with
  | nil => simp [unshiftTied]
  | cons v vs ih =>
      rw [List.forall_mem_cons] at h
      rw [unshiftTied, checkItem_eq h.1]
      simp [ih h.2]

theorem checkAll_of_legal {vs : List Val} (h : ∀ v ∈ vs, (S.checkItem f v).isSome = true) :
    checkAll S f vs = .ok (vs.map (checkedForm S f)) := by
  induction vs with
  | nil => rfl
  | cons v vs ih =>
      rw [List.forall_mem_cons] at h
      rw [checkAll, checkItem_eq h.1, ih h.2]
      rfl

/-- `STORE` at the end, value by value. -/
theorem storeAll_of_legal {vs : List Val} (h : ∀ v ∈ vs, (S.checkItem f v).isSome = true)
    (a : List Val) : storeAll (purePerlHooks S f).store a.length vs a =
      .ok () (a ++ vs.map (checkedForm S f)) := by
  induction vs generalizing a with
  | nil => simp [storeAll, pure, EStateM.pure]
  | cons v vs ih =>
      rw [List.forall_mem_cons] at h
      have hstore : (purePerlHooks S f).store a.length v a = .ok () (a ++ [checkedForm S f v]) := by
        simp [purePerlHooks, checkItem_eq h.1, slotOf_natCast, storeSlot]
      have hrest := ih h.2 (a ++ [checkedForm S f v])
      rw [storeAll, bind_of_ok hstore]
      simpa using hrest

/-- `SPLICE`, where a missing length makes no difference. -/
theorem spliceWith_of_restKept {a : List Val} {args : SpliceArgs Val}
    (h : RestKept .tied a (.splice args)) (g : Val → Val) :
    spliceWith a (spliceArguments args).1 (spliceArguments args).2 (args.values.map g) =
      Lib.splice a (args.map g) := by
  cases args with
  | none =>
      obtain rfl := h rfl
      rfl
  | offset o =>
      rcases h rfl with hend | hstart
      · have hslot : slotOf a.length o = some o.toNat := by
          rw [slotOf_eq_some]
          omega
        have hmin : min o.toNat a.length = a.length := by omega
        simp [spliceArguments, SpliceArgs.values, SpliceArgs.map, Lib.splice, spliceWith, hslot,
          hmin, spliceCount]
      · simp [spliceArguments, SpliceArgs.map, Lib.splice, spliceWith,
          slotOf_eq_none.mpr hstart]
  | range o len vs => rfl

/-- A `splice` that returns says what it removed. -/
theorem spliceWith_cases (a : List Val) (o len : ℤ) (vs : List Val) :
    (∃ b removed, spliceWith a o len vs = (b, .values removed)) ∨
      spliceWith a o len vs = (a, .died) := by
  unfold spliceWith
  cases slotOf a.length o with
  | none => exact .inr rfl
  | some k => exact .inl ⟨_, _, rfl⟩

/-- One operation with values that pass. -/
theorem apply_of_legal {a : List Val} {op : ArrayOp Val}
    (h : ∀ v ∈ op.values, (S.checkItem f v).isSome = true) (hrest : RestKept .tied a op) :
    (purePerlHooks S f).apply .undef a op = (op.map (checkedForm S f)).apply .undef a := by
  have hsize : ∀ b, (purePerlHooks S f).fetchSize b = .ok b.length b := fun _ => rfl
  cases op with
  | store i v =>
      have hv := checkItem_eq (h v (by simp [ArrayOp.values]))
      simp only [ArrayOp.map, ArrayOp.apply]
      cases hslot : slotOf a.length i with
      | none => exact Hooks.apply_of_ok (Hooks.call_store_before (hsize a) .undef hslot v)
      | some k =>
          have hstore : (purePerlHooks S f).store k v a =
              .ok () (storeSlot .undef a k (checkedForm S f v)) := by
            simp [purePerlHooks, hv, slotOf_natCast]
          refine Hooks.apply_of_ok ?_
          rw [Hooks.call_store (hsize a) .undef hslot, bind_of_ok hstore]
          rfl
  | assign vs =>
      have hall : storeAll (purePerlHooks S f).store 0 vs [] =
          .ok () (vs.map (checkedForm S f)) := storeAll_of_legal h []
      have hclear : (purePerlHooks S f).clear a = .ok () [] := rfl
      refine Hooks.apply_of_ok ?_
      rw [Hooks.call, bind_of_ok hclear, bind_of_ok hall]
      rfl
  | push vs =>
      have hpush : (purePerlHooks S f).push vs a = .ok () (a ++ vs.map (checkedForm S f)) :=
        congrArg kept (pushTied_of_legal h a)
      refine Hooks.apply_of_ok ?_
      rw [Hooks.call, bind_of_ok hpush, bind_of_ok (hsize _)]
      simp [pure, EStateM.pure]
  | pop => rfl
  | shift => rfl
  | unshift vs =>
      have hunshift : (purePerlHooks S f).unshift vs a =
          .ok () (vs.map (checkedForm S f) ++ a) := by
        have hvs := unshiftTied_of_legal
          (fun v (hv : v ∈ vs.reverse) => h v (List.mem_reverse.mp hv)) a
        rw [List.map_reverse, List.reverse_reverse] at hvs
        exact congrArg kept hvs
      refine Hooks.apply_of_ok ?_
      rw [Hooks.call, bind_of_ok hunshift, bind_of_ok (hsize _)]
      simp [pure, EStateM.pure, Nat.add_comm]
  | splice args =>
      -- the values behind the cut are kept by the check
      have hargs := spliceWith_of_restKept hrest (checkedForm S f)
      have hall : checkAll S f args.values = .ok (args.values.map (checkedForm S f)) :=
        checkAll_of_legal h
      simp only [ArrayOp.map, ArrayOp.apply, ← hargs]
      rcases spliceWith_cases a (spliceArguments args).1 (spliceArguments args).2
        (args.values.map (checkedForm S f)) with ⟨b, removed, heq⟩ | heq
      · simp [Hooks.apply, Hooks.call, bind, EStateM.bind, pure, EStateM.pure, purePerlHooks, hall,
          heq]
      · simp [Hooks.apply, Hooks.call, bind, EStateM.bind, purePerlHooks, hall, heq]
  | resize n => rfl
  | clear => rfl
  | fetch i =>
      simp only [ArrayOp.map, ArrayOp.apply]
      cases hslot : slotOf a.length i with
      | none => exact Hooks.apply_of_ok (Hooks.call_fetch_before (hsize a) .undef hslot)
      | some k =>
          have hfetch : (purePerlHooks S f).fetch k a = .ok (a[k]?.getD .undef) a := by
            simp [purePerlHooks, slotOf_natCast]
          refine Hooks.apply_of_ok ?_
          rw [Hooks.call_fetch (hsize a) .undef hslot, bind_of_ok hfetch]
          rfl
  | length => rfl

/-! ### Where the elements of a tied array come from -/

/-- A value that passed. -/
def Passed (S : Pool) (f : FieldDef) (x : Val) : Prop := ∃ v, S.checkItem f v = some x

/-- The array that a loop over values leaves. -/
def leftItems : Except (Die × List Val) (List Val) → List Val
  | .ok a => a
  | .error (_, a) => a

theorem mem_pushTied {a vs : List Val} {x : Val} (h : x ∈ leftItems (pushTied S f a vs)) :
    x ∈ a ∨ Passed S f x := by
  induction vs generalizing a with
  | nil => exact .inl h
  | cons v vs ih =>
      unfold pushTied at h
      cases hv : S.checkItem f v with
      | none =>
          rw [hv] at h
          exact .inl h
      | some w =>
          rw [hv] at h
          rcases ih h with h | h
          · rcases List.mem_append.mp h with h | h
            · exact .inl h
            · exact .inr ⟨v, by rw [hv, List.mem_singleton.mp h]⟩
          · exact .inr h

theorem mem_unshiftTied {a vs : List Val} {x : Val} (h : x ∈ leftItems (unshiftTied S f a vs)) :
    x ∈ a ∨ Passed S f x := by
  induction vs generalizing a with
  | nil => exact .inl h
  | cons v vs ih =>
      unfold unshiftTied at h
      cases hv : S.checkItem f v with
      | none =>
          rw [hv] at h
          exact .inl h
      | some w =>
          rw [hv] at h
          rcases ih h with h | h
          · rcases List.mem_cons.mp h with rfl | h
            · exact .inr ⟨v, hv⟩
            · exact .inl h
          · exact .inr h

theorem mem_checkAll {vs ws : List Val} {x : Val} (h : checkAll S f vs = .ok ws) (hx : x ∈ ws) :
    Passed S f x := by
  induction vs generalizing ws with
  | nil =>
      obtain rfl := Except.ok.inj h
      cases hx
  | cons v vs ih =>
      unfold checkAll at h
      cases hv : S.checkItem f v with
      | none =>
          rw [hv] at h
          cases h
      | some w =>
          rw [hv] at h
          obtain ⟨ws', hws', rfl⟩ := map_eq_ok.mp h
          rcases List.mem_cons.mp hx with rfl | hx
          · exact ⟨v, hv⟩
          · exact ih hws' hx

theorem mem_store {a : List Val} {k : ℕ} {v x : Val}
    (h : x ∈ leaves ((purePerlHooks S f).store k v) a) :
    x ∈ a ∨ Passed S f x ∨ (x = .undef ∧ a.length < k) := by
  simp only [leaves, purePerlHooks, slotOf_natCast] at h
  cases hv : S.checkItem f v with
  | none =>
      rw [hv] at h
      exact .inl h
  | some w =>
      rw [hv] at h
      refine (mem_storeSlot h).imp_right (Or.imp_left ?_)
      rintro rfl
      exact ⟨v, hv⟩

/-- A list assignment stores at the end, value by value. -/
theorem mem_storeAll {a vs : List Val} {x : Val}
    (h : x ∈ leaves (storeAll (purePerlHooks S f).store a.length vs) a) :
    x ∈ a ∨ Passed S f x := by
  induction vs generalizing a with
  | nil => exact .inl h
  | cons v vs ih =>
      cases hv : S.checkItem f v with
      | none =>
          have hdied : storeAll (purePerlHooks S f).store a.length (v :: vs) a =
              .error (invalidElement f) a := by
            simp [storeAll, bind, EStateM.bind, purePerlHooks, hv]
          rw [leaves, hdied] at h
          exact .inl h
      | some w =>
          have hstore : (purePerlHooks S f).store a.length v a = .ok () (a ++ [w]) := by
            simp [purePerlHooks, hv, slotOf_natCast, storeSlot]
          have hlength : ((a.length : ℤ) + 1) = ((a ++ [w]).length : ℕ) := by simp
          rw [leaves, storeAll, bind_of_ok hstore, hlength] at h
          rcases ih h with h | h
          · rcases List.mem_append.mp h with h | h
            · exact .inl h
            · exact .inr ⟨v, by rw [hv, List.mem_singleton.mp h]⟩
          · exact .inr h

theorem leaves_kept {x : EStateM Die (List Val) Unit} {a : List Val}
    {r : Except (Die × List Val) (List Val)} (h : x a = kept r) : leaves x a = leftItems r := by
  rw [leaves, h]
  cases r with
  | ok b => rfl
  | error e => rfl

theorem mem_spliceHook {a : List Val} {args : SpliceArgs Val} {x : Val}
    (h : x ∈ leaves ((purePerlHooks S f).splice args) a) : x ∈ a ∨ Passed S f x := by
  cases hall : checkAll S f args.values with
  | error e =>
      have hdied : (purePerlHooks S f).splice args a = .error e a := by simp [purePerlHooks, hall]
      rw [leaves, hdied] at h
      exact .inl h
  | ok list =>
      have hleaves : leaves ((purePerlHooks S f).splice args) a =
          (spliceWith a (spliceArguments args).1 (spliceArguments args).2 list).1 := by
        rcases spliceWith_cases a (spliceArguments args).1 (spliceArguments args).2 list with
          ⟨b, removed, heq⟩ | heq
        · simp [leaves, purePerlHooks, hall, heq]
        · simp [leaves, purePerlHooks, hall, heq]
      rw [hleaves] at h
      exact (mem_spliceWith h).imp_right (mem_checkAll hall)

/-- An element of a tied array is an old one or has passed, or fills a gap. -/
theorem mem_hooks_apply {a : List Val} {op : ArrayOp Val} {x : Val}
    (h : x ∈ ((purePerlHooks S f).apply .undef a op).1) :
    x ∈ a ∨ Passed S f x ∨ (x = .undef ∧ ¬op.Reaches a.length) := by
  have hsize : ∀ b, (purePerlHooks S f).fetchSize b = .ok b.length b := fun _ => rfl
  rw [Hooks.apply_fst] at h
  cases op with
  | store i v =>
      cases hslot : slotOf a.length i with
      | none =>
          rw [leaves_of_ok (Hooks.call_store_before (hsize a) .undef hslot v)] at h
          exact .inl h
      | some k =>
          -- a store past the end fills the gap with undef
          have hcall : leaves ((purePerlHooks S f).call .undef (.store i v)) a =
              leaves ((purePerlHooks S f).store k v) a := by
            rw [leaves, Hooks.call_store (hsize a) .undef hslot]
            exact leaves_bind (fun _ _ => rfl) _ a
          rw [hcall] at h
          have hk := slotOf_eq_some.mp hslot
          refine (mem_store h).imp_right (Or.imp_right ?_)
          rintro ⟨rfl, hlt⟩
          exact ⟨rfl, by simp only [ArrayOp.Reaches]; omega⟩
  | assign vs =>
      -- an assignment clears the array and stores one by one
      have hclear : (purePerlHooks S f).clear a = .ok () [] := rfl
      have hcall : leaves ((purePerlHooks S f).call .undef (.assign vs)) a =
          leaves (storeAll (purePerlHooks S f).store 0 vs) [] := by
        rw [leaves, Hooks.call, bind_of_ok hclear]
        exact leaves_bind (fun _ _ => rfl) _ []
      rw [hcall] at h
      rcases mem_storeAll (a := []) h with h | h
      · cases h
      · exact .inr (.inl h)
  | push vs =>
      have hcall : leaves ((purePerlHooks S f).call .undef (.push vs)) a =
          leftItems (pushTied S f a vs) :=
        (leaves_bind (fun _ _ => rfl) _ a).trans (leaves_kept rfl)
      rw [hcall] at h
      exact (mem_pushTied h).imp_right .inl
  | unshift vs =>
      have hcall : leaves ((purePerlHooks S f).call .undef (.unshift vs)) a =
          leftItems (unshiftTied S f a vs.reverse) :=
        (leaves_bind (fun _ _ => rfl) _ a).trans (leaves_kept rfl)
      rw [hcall] at h
      exact (mem_unshiftTied h).imp_right .inl
  | splice args =>
      have hcall : leaves ((purePerlHooks S f).call .undef (.splice args)) a =
          leaves ((purePerlHooks S f).splice args) a := leaves_bind (fun _ _ => rfl) _ a
      rw [hcall] at h
      exact (mem_spliceHook h).imp_right .inl
  | pop => exact .inl (List.dropLast_subset a h)
  | shift => exact .inl (List.mem_of_mem_tail h)
  | resize n =>
      rcases mem_resizeTo (n := n) h with h | ⟨rfl, hlt⟩
      · exact .inl h
      · exact .inr (.inr ⟨rfl, Nat.not_le_of_lt hlt⟩)
  | clear => cases h
  | fetch i =>
      cases hslot : slotOf a.length i with
      | none =>
          rw [leaves_of_ok (Hooks.call_fetch_before (hsize a) .undef hslot)] at h
          exact .inl h
      | some k =>
          have hcall : leaves ((purePerlHooks S f).call .undef (.fetch i)) a = a := by
            rw [leaves, Hooks.call_fetch (hsize a) .undef hslot]
            rfl
          rw [hcall] at h
          exact .inl h
  | length => exact .inl h

/-- An element of a container is an old one, fills a gap, or is new, and then has
passed if the container is tied. -/
theorem mem_containerApply {kind : ArrKind} {a : List Val} {op : ArrayOp Val} {x : Val}
    (h : x ∈ (containerApply S f kind a op).1) :
    x ∈ a ∨ (kind = .tied ∧ Passed S f x) ∨ (kind ≠ .tied ∧ x ∈ op.values) ∨
      (x = .undef ∧ ¬op.Reaches a.length) := by
  cases kind with
  | tied => exact (mem_hooks_apply h).imp_right (Or.imp (⟨rfl, ·⟩) .inr)
  | plain => exact (ArrayOp.mem_apply h).imp_right fun h => .inr (h.imp_left (⟨by simp, ·⟩))
  | blessed => exact (ArrayOp.mem_apply h).imp_right fun h => .inr (h.imp_left (⟨by simp, ·⟩))

theorem container_step {kind : ArrKind} {a : List Val} {op : ArrayOp Val}
    (hlegal : (container S f kind).Legal a op) (hrest : RestKept kind a op) :
    containerApply S f kind a op =
      (op.map (container S f kind).accepted).apply .undef a := by
  cases kind with
  | tied => exact apply_of_legal hlegal.1 hrest
  | plain => exact congrArg (ArrayOp.apply .undef a) op.map_id.symm
  | blessed => exact congrArg (ArrayOp.apply .undef a) op.map_id.symm

end

end GooglePerl.Protobuf
