import GooglePerl.RepeatedFields
import GooglePerl.Xs.Refusal

/-!
What a refused value leaves behind in a repeated field, in both engines.

The tied class of the pure-Perl engine checks value by value in `PUSH` and `UNSHIFT`, and everything
first in `SPLICE`; `GooglePerl.Xs.Refusal` is about the other engine.
-/

namespace GooglePerl.Protobuf

open GooglePerl.Lib

section

variable (S : Pool) (f : FieldDef)

/-- A call of the class that puts values into the array; it has no method that inserts. -/
def runTied : ElementOp Val → EStateM Die (List Val) (Reply Val)
  | .store i v => (purePerlHooks S f).call .undef (.store i v)
  | .push vs => (purePerlHooks S f).call .undef (.push vs)
  | .unshift vs => (purePerlHooks S f).call .undef (.unshift vs)
  | .splice args => (purePerlHooks S f).call .undef (.splice args)
  | .insert _ _ => fun a => .error (.fault (.noMethod "_xs_insert")) a

/-- An element passes the check. -/
def Passes (v : Val) : Prop := (S.checkItem f v).isSome = true

/-- The call croaks on one of its values, which only a tied array does. -/
def RefusedBy (kind : ArrKind) (a : List Val) (op : ElementOp Val) (b : List Val) : Prop :=
  kind = .tied ∧ runTied S f op a = .error (invalidElement f) b

/-- The calls in which nothing has been done when the first value is refused. -/
def CleanFor (kind : ArrKind) : ElementOp Val → Prop
  | .push vs => kind = .tied → ∀ pre v, StopsAt (Passes S f) vs pre v → pre = []
  | .unshift vs => kind = .tied → ∀ pre v, StopsAt (Passes S f) vs.reverse pre v → pre = []
  | .store _ _ | .splice _ | .insert _ _ => True

end

variable {S : Pool} {f : FieldDef}

theorem not_passes_iff {v : Val} : ¬ Passes S f v ↔ S.checkItem f v = none := by
  rw [Passes, Option.not_isSome_iff_eq_none]

theorem pushTied_stops {pre : List Val} {v : Val} (hpre : ∀ x ∈ pre, Passes S f x)
    (hv : S.checkItem f v = none) (a post : List Val) :
    pushTied S f a (pre ++ v :: post) =
      .error (invalidElement f, a ++ pre.map (checkedForm S f)) := by
  induction pre generalizing a with
  | nil => simp [pushTied, hv, invalidElement]
  | cons x pre ih =>
      obtain ⟨hx, hpre⟩ := List.forall_mem_cons.mp hpre
      rw [List.cons_append, pushTied, checkItem_eq hx]
      simp [ih hpre]

theorem unshiftTied_stops {pre : List Val} {v : Val} (hpre : ∀ x ∈ pre, Passes S f x)
    (hv : S.checkItem f v = none) (a post : List Val) :
    unshiftTied S f a (pre ++ v :: post) =
      .error (invalidElement f, (pre.map (checkedForm S f)).reverse ++ a) := by
  induction pre generalizing a with
  | nil => simp [unshiftTied, hv]
  | cons x pre ih =>
      obtain ⟨hx, hpre⟩ := List.forall_mem_cons.mp hpre
      rw [List.cons_append, unshiftTied, checkItem_eq hx]
      simp [ih hpre]

theorem runTied_push {vs a b : List Val} {e : Die} :
    runTied S f (.push vs) a = .error e b ↔ pushTied S f a vs = .error (e, b) := by
  have hcall : runTied S f (.push vs) a = .error e b ↔ kept (pushTied S f a vs) = .error e b :=
    bind_eq_error_iff (x := (purePerlHooks S f).push vs) fun _ _ => ⟨_, _, rfl⟩
  rw [hcall]
  cases pushTied S f a vs with
  | ok b' => simp [kept]
  | error p => simp [kept, Prod.ext_iff]

theorem runTied_unshift {vs a b : List Val} {e : Die} :
    runTied S f (.unshift vs) a = .error e b ↔ unshiftTied S f a vs.reverse = .error (e, b) := by
  have hcall : runTied S f (.unshift vs) a = .error e b ↔
      kept (unshiftTied S f a vs.reverse) = .error e b :=
    bind_eq_error_iff (x := (purePerlHooks S f).unshift vs) fun _ _ => ⟨_, _, rfl⟩
  rw [hcall]
  cases unshiftTied S f a vs.reverse with
  | ok b' => simp [kept]
  | error p => simp [kept, Prod.ext_iff]

/-- A slot is written after the check. -/
theorem runTied_store {a b : List Val} {i : ℤ} {v : Val} {e : Die}
    (h : runTied S f (.store i v) a = .error e b) : b = a := by
  have hsize : (purePerlHooks S f).fetchSize a = .ok a.length a := rfl
  rw [runTied] at h
  cases hslot : slotOf a.length i with
  | none =>
      rw [Hooks.call_store_before hsize _ hslot] at h
      cases h
  | some k =>
      have hstore : (purePerlHooks S f).store k v a = .error e b := by
        rw [Hooks.call_store hsize _ hslot] at h
        exact (bind_eq_error_iff fun _ _ => ⟨_, _, rfl⟩).mp h
      simp only [purePerlHooks, slotOf_natCast] at hstore
      split at hstore
      · cases hstore
        rfl
      · cases hstore

/-- Everything is checked before anything is done. -/
theorem runTied_splice {a b : List Val} {args : SpliceArgs Val} {e : Die}
    (h : runTied S f (.splice args) a = .error e b) : b = a := by
  have hsplice : (purePerlHooks S f).splice args a = .error e b :=
    (bind_eq_error_iff fun _ _ => ⟨_, _, rfl⟩).mp h
  cases hall : checkAll S f args.values with
  | error e' =>
      simp only [purePerlHooks, hall] at hsplice
      cases hsplice
      rfl
  | ok list =>
      rcases spliceWith_cases a (spliceArguments args).1 (spliceArguments args).2 list with
        ⟨b', removed, heq⟩ | heq
      · simp only [purePerlHooks, hall, heq] at hsplice
        cases hsplice
      · simp only [purePerlHooks, hall, heq] at hsplice
        cases hsplice
        rfl

theorem pushTied_unchanged_iff (a vs : List Val) :
    (∀ b, RefusedBy S f .tied a (.push vs) b → b = a) ↔ CleanFor S f .tied (.push vs) := by
  constructor
  · rintro hkeeps - pre v ⟨⟨post, rfl⟩, hpre, hv⟩
    have hstops := pushTied_stops hpre (not_passes_iff.mp hv) a post
    have hkept := hkeeps _ ⟨rfl, runTied_push.mpr hstops⟩
    simpa using hkept
  · rintro hclean b ⟨-, hrun⟩
    rw [runTied_push] at hrun
    obtain hall | ⟨pre, v, hstops⟩ := forall_or_stopsAt (Passes S f) vs
    · cases hrun.symm.trans (pushTied_of_legal hall a)
    · obtain rfl := hclean rfl pre v hstops
      obtain ⟨⟨post, rfl⟩, hpre, hv⟩ := hstops
      cases hrun.symm.trans (pushTied_stops hpre (not_passes_iff.mp hv) a post)
      exact List.append_nil a

theorem unshiftTied_unchanged_iff (a vs : List Val) :
    (∀ b, RefusedBy S f .tied a (.unshift vs) b → b = a) ↔ CleanFor S f .tied (.unshift vs) := by
  constructor
  · rintro hkeeps - pre v ⟨⟨post, hvs⟩, hpre, hv⟩
    have hstops := unshiftTied_stops hpre (not_passes_iff.mp hv) a post
    have hkept := hkeeps _ ⟨rfl, runTied_unshift.mpr (hvs ▸ hstops)⟩
    simpa using hkept
  · rintro hclean b ⟨-, hrun⟩
    rw [runTied_unshift] at hrun
    obtain hall | ⟨pre, v, hstops⟩ := forall_or_stopsAt (Passes S f) vs.reverse
    · cases hrun.symm.trans (unshiftTied_of_legal hall a)
    · obtain rfl := hclean rfl pre v hstops
      obtain ⟨⟨post, hvs⟩, hpre, hv⟩ := hstops
      have hstops := unshiftTied_stops hpre (not_passes_iff.mp hv) a post
      rw [← hvs] at hstops
      cases hrun.symm.trans hstops
      rfl

theorem refusedBy_unchanged_iff (kind : ArrKind) (a : List Val) (op : ElementOp Val) :
    (∀ b, RefusedBy S f kind a op b → b = a) ↔ CleanFor S f kind op := by
  by_cases hkind : kind = .tied
  · subst hkind
    cases op with
    | store i v => exact iff_of_true (fun b h => runTied_store h.2) trivial
    | push vs => exact pushTied_unchanged_iff a vs
    | unshift vs => exact unshiftTied_unchanged_iff a vs
    | splice args => exact iff_of_true (fun b h => runTied_splice h.2) trivial
    | insert i v => exact iff_of_true (fun b h => by cases h.2) trivial
  · refine iff_of_true (fun b h => absurd h.1 hkind) ?_
    cases op with
    | push vs => exact fun h => absurd h hkind
    | unshift vs => exact fun h => absurd h hkind
    | _ => trivial

end GooglePerl.Protobuf

namespace GooglePerl.RepeatedContainer

open GooglePerl.Lib GooglePerl.Protobuf GooglePerl.Xs

/-- A call croaks because a value is not legal for the field, and leaves this behind. -/
def Refused : (C : RepeatedContainer) → C.array.σ → ElementOp C.array.V → C.array.σ → Prop
  | .purePerl S f kind => RefusedBy S f kind
  | .xs R => R.Refused

/-- The calls in which a refusal finds nothing done. -/
def Clean : (C : RepeatedContainer) → C.array.σ → ElementOp C.array.V → Prop
  | .purePerl S f kind => fun _ => CleanFor S f kind
  | .xs R => R.Clean

/-- A refused call changes nothing exactly if it is one of those. -/
theorem refused_unchanged (C : RepeatedContainer) (s : C.array.σ) (op : ElementOp C.array.V) :
    (∀ s', C.Refused s op s' → s' = s) ↔ C.Clean s op := by
  cases C with
  | purePerl S f kind => exact refusedBy_unchanged_iff kind s op
  | xs R => exact R.refused_unchanged_iff s op

/-- `repeated string names = 1` in the XS engine. -/
def namesField : RepeatedField where
  pool := scalarPool
  address := fun _ => 0
  fdef := ⟨ps "names", 1, .string, .repeated⟩
  shape_eq := rfl
  enum_range := fun _ h => by cases h
  fresh := zeroElement .string

/-- A string, and `undef` -/
theorem namesField_stopsAt :
    StopsAt namesField.Takes [.scalar (.str (ps "a") false), .scalar .undef]
        [.scalar (.str (ps "a") false)] (.scalar .undef) ∧
      StopsAt namesField.Takes [.scalar .undef] [] (.scalar .undef) ∧
      namesField.Refuses (.scalar .undef) := by
  have hrefuses : namesField.Refuses (.scalar .undef) := ⟨_, rfl⟩
  have hnot : ¬ namesField.Takes (.scalar .undef) :=
    RepeatedField.not_takes_iff.mpr ⟨_, hrefuses.choose_spec⟩
  refine ⟨⟨⟨[], rfl⟩, fun x hx => ?_, hnot⟩, ⟨⟨[], rfl⟩, List.forall_mem_nil _, hnot⟩, hrefuses⟩
  obtain rfl := List.mem_singleton.mp hx
  exact ⟨_, rfl⟩

/-- A `push` of a legal value and an illegal one, in both engines; in the XS engine also `unshift`,
insertion and a `splice` of an illegal value alone; and in pure Perl an `unshift` whose last
value is legal -/
theorem not_refused_unchanged :
    (¬ ∀ s', Refused (.xs namesField) []
        (.push [.scalar (.str (ps "a") false), .scalar .undef]) s' → s' = []) ∧
      (¬ ∀ s', Refused (.xs namesField) [] (.unshift [.scalar .undef]) s' → s' = []) ∧
      (¬ ∀ s', Refused (.xs namesField) [] (.insert 0 (.scalar .undef)) s' → s' = []) ∧
      (¬ ∀ s', Refused (.xs namesField) [zeroElement .string, zeroElement .string]
        (.splice (.range 0 2 [.scalar .undef])) s' →
          s' = [zeroElement .string, zeroElement .string]) ∧
      (¬ ∀ s', Refused counts [] (.push [.iv 1, .undef]) s' → s' = []) ∧
      (¬ ∀ s', Refused counts [] (.unshift [.undef, .iv 1]) s' → s' = []) := by
  obtain ⟨hsecond, hfirst, hrefuses⟩ := namesField_stopsAt
  refine ⟨fun h => ?_, fun h => ?_, fun h => ?_, fun h => ?_, fun h => ?_, fun h => ?_⟩
  · have hclean := (namesField.refused_unchanged_iff _ _).mp h
    cases hclean _ _ hsecond hrefuses
  · have hclean := (namesField.refused_unchanged_iff _ _).mp h
    exact hclean _ _ hfirst hrefuses
  · have hclean := (namesField.refused_unchanged_iff _ _).mp h
    exact absurd (hclean hrefuses) (by decide)
  · have hclean := (namesField.refused_unchanged_iff _ _).mp h
    have hreaches : namesField.SpliceReaches [zeroElement .string, zeroElement .string]
        (.range 0 2 [.scalar .undef]) 0 :=
      ⟨by decide, by decide, by decide, fun _ => List.forall_mem_nil _⟩
    exact absurd (hclean _ _ hfirst hrefuses hreaches).1 (by decide)
  · have hclean := (refusedBy_unchanged_iff _ _ _).mp h
    cases hclean rfl [.iv 1] .undef ⟨⟨[], rfl⟩, fun x hx => by
      obtain rfl := List.mem_singleton.mp hx; rfl, fun h => by cases h⟩
  · have hclean := (refusedBy_unchanged_iff _ _ _).mp h
    cases hclean rfl [.iv 1] .undef ⟨⟨[], rfl⟩, fun x hx => by
      obtain rfl := List.mem_singleton.mp hx; rfl, fun h => by cases h⟩

end GooglePerl.RepeatedContainer
