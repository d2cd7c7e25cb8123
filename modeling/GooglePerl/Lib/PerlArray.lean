import GooglePerl.Lib.Run
import Mathlib.Order.MinMax

/-!
Ordinary Perl arrays and the operations a program performs on them.

An operation leaves the array and gives a reply, which for those that die is
all there is to tell. A slot that was skipped reads as `undef`, and nothing here
tells it from one that holds `undef`.
-/

namespace GooglePerl.Lib

variable {V W : Type}

/-- The arguments of `splice` after the array. -/
inductive SpliceArgs (V : Type) where
  | none
  | offset (o : ℤ)
  | range (o len : ℤ) (vs : List V)
  deriving Repr

inductive ArrayOp (V : Type) where
  /-- `$a[i] = v` -/
  | store (i : ℤ) (v : V)
  /-- `@a = vs` -/
  | assign (vs : List V)
  | push (vs : List V)
  | pop
  | shift
  | unshift (vs : List V)
  | splice (args : SpliceArgs V)
  /-- `$#a = n - 1` -/
  | resize (n : ℕ)
  /-- `@a = ()` -/
  | clear
  /-- `$a[i]` -/
  | fetch (i : ℤ)
  /-- `scalar @a` -/
  | length
  deriving Repr

/-- What an operation gives back; `splice` in list context. -/
inductive Reply (V : Type) where
  | done
  | value (v : V)
  | values (vs : List V)
  | count (n : ℕ)
  | died
  deriving DecidableEq, Repr

def SpliceArgs.map (g : V → W) : SpliceArgs V → SpliceArgs W
  | .none => .none
  | .offset o => .offset o
  | .range o len vs => .range o len (vs.map g)

def ArrayOp.map (g : V → W) : ArrayOp V → ArrayOp W
  | .store i v => .store i (g v)
  | .assign vs => .assign (vs.map g)
  | .push vs => .push (vs.map g)
  | .pop => .pop
  | .shift => .shift
  | .unshift vs => .unshift (vs.map g)
  | .splice args => .splice (args.map g)
  | .resize n => .resize n
  | .clear => .clear
  | .fetch i => .fetch i
  | .length => .length

theorem ArrayOp.map_id (op : ArrayOp V) : op.map id = op := by
  cases op with
  | splice args => cases args <;> simp [ArrayOp.map, SpliceArgs.map]
  | _ => simp [ArrayOp.map]

/-- The values that are put into the array. -/
def SpliceArgs.values : SpliceArgs V → List V
  | .range _ _ vs => vs
  | _ => []

@[simp] theorem SpliceArgs.values_map (g : V → W) (args : SpliceArgs V) :
    (args.map g).values = args.values.map g := by
  cases args <;> rfl

def ArrayOp.values : ArrayOp V → List V
  | .store _ v => [v]
  | .assign vs | .push vs | .unshift vs => vs
  | .splice args => args.values
  | _ => []

/-- Stores and resizes that leave no gap. -/
def ArrayOp.Reaches (n : ℕ) : ArrayOp V → Prop
  | .store i _ => i ≤ n
  | .resize m => m ≤ n
  | _ => True

/-- The slot an index means, counted from the end if it is negative. -/
def slotOf (n : ℕ) (i : ℤ) : Option ℕ :=
  let k := if i < 0 then i + n else i
  if k < 0 then none else some k.toNat

/-- `$a[k] = v`: a slot past the end is made, and those skipped are `undef`. -/
def storeSlot (undef : V) (a : List V) (k : ℕ) (v : V) : List V :=
  if k < a.length then a.set k v else a ++ List.replicate (k - a.length) undef ++ [v]

/-- `$#a = n - 1` -/
def resizeTo (undef : V) (a : List V) (n : ℕ) : List V :=
  a.take n ++ List.replicate (n - a.length) undef

/-- The number of slots that `splice` removes from the given one on. -/
def spliceCount (n o : ℕ) (len : ℤ) : ℕ :=
  min (if len < 0 then len + (n - o) else len).toNat (n - o)

/-- `splice`, with the length that a missing one stands for. -/
def spliceWith (a : List V) (o len : ℤ) (vs : List V) : List V × Reply V :=
  match slotOf a.length o with
  | none => (a, .died)
  | some k =>
      let k := min k a.length
      let count := spliceCount a.length k len
      (a.take k ++ vs ++ a.drop (k + count), .values ((a.drop k).take count))

def splice (a : List V) : SpliceArgs V → List V × Reply V
  | .none => spliceWith a 0 a.length []
  | .offset o => spliceWith a o a.length []
  | .range o len vs => spliceWith a o len vs

/-- One operation on an ordinary array. -/
def ArrayOp.apply (undef : V) (a : List V) : ArrayOp V → List V × Reply V
  | .store i v =>
      match slotOf a.length i with
      | none => (a, .died)
      | some k => (storeSlot undef a k v, .done)
  | .assign vs => (vs, .done)
  | .push vs => (a ++ vs, .count (a.length + vs.length))
  | .pop => (a.dropLast, .value (a.getLast?.getD undef))
  | .shift => (a.tail, .value (a.head?.getD undef))
  | .unshift vs => (vs ++ a, .count (a.length + vs.length))
  | .splice args => Lib.splice a args
  | .resize n => (resizeTo undef a n, .done)
  | .clear => ([], .done)
  | .fetch i =>
      match slotOf a.length i with
      | none => (a, .value undef)
      | some k => (a, .value (a[k]?.getD undef))
  | .length => (a, .count a.length)

/-! ### Things that are used as arrays -/

/-- Something that answers array operations: its state, what it holds as seen from
outside, and the form in which it takes a value, if it does. -/
structure ArrayLike where
  V : Type
  σ : Type
  undef : V
  step : σ → ArrayOp V → σ × Reply V
  view : σ → List V
  accept : V → Option V

namespace ArrayLike

variable (A : ArrayLike)

/-- An operation with values that are taken. -/
def Legal (s : A.σ) (op : ArrayOp A.V) : Prop :=
  (∀ v ∈ op.values, (A.accept v).isSome = true) ∧ op.Reaches (A.view s).length

/-- The form in which a value is taken. -/
def accepted (v : A.V) : A.V := (A.accept v).getD v

/-- The run gives the contents and the replies that an ordinary array gives for the
same operations. -/
def BehavesAsArray (s : A.σ) (ops : List (ArrayOp A.V)) : Prop :=
  let ours := run (logged A.step) (s, []) ops
  let plain := run (logged (ArrayOp.apply A.undef)) (A.view s, [])
    (ops.map (ArrayOp.map A.accepted))
  A.view ours.1 = plain.1 ∧ ours.2 = plain.2

/-- Enough to show for one operation. -/
theorem behavesAsArray_of_step {P : A.σ → ArrayOp A.V → Prop}
    (hstep : ∀ s op, P s op →
      (A.view (A.step s op).1, (A.step s op).2) = (op.map A.accepted).apply A.undef (A.view s))
    {s : A.σ} {ops : List (ArrayOp A.V)}
    (hok : Allowed (logged A.step) (fun s op => P s.1 op) (s, []) ops) :
    A.BehavesAsArray s ops := by
  refine run_simulation (fun (a : A.σ × List (Reply A.V)) (b : List A.V × List (Reply A.V)) =>
    A.view a.1 = b.1 ∧ a.2 = b.2) ?_ ⟨rfl, rfl⟩ hok
  rintro ⟨s, log⟩ ⟨t, log'⟩ op ⟨hview, hlog⟩ hop
  have h := hstep s op hop
  simp only at hview hlog
  simp only [logged, ← h, ← hview, ← hlog, and_self]

end ArrayLike

/-! ### Where an index or a range lies -/

theorem slotOf_natCast (n k : ℕ) : slotOf n k = some k := by
  have h : ¬(k : ℤ) < 0 := by omega
  simp [slotOf, h]

theorem slotOf_eq_some {n k : ℕ} {i : ℤ} :
    slotOf n i = some k ↔ (0 ≤ i ∧ i = k) ∨ (i < 0 ∧ i + n = k) := by
  unfold slotOf
  by_cases hi : i < 0
  · simp only [hi, if_true]
    split <;> simp <;> omega
  · simp only [hi, if_false]
    simp
    omega

theorem slotOf_eq_none {n : ℕ} {i : ℤ} : slotOf n i = none ↔ i + n < 0 := by
  unfold slotOf
  by_cases hi : i < 0
  · simp [hi]
  · simp [hi]
    omega

theorem storeSlot_of_lt (undef : V) {a : List V} {k : ℕ} (h : k < a.length) (v : V) :
    storeSlot undef a k v = a.set k v := if_pos h

theorem resizeTo_of_le (undef : V) {a : List V} {n : ℕ} (h : n ≤ a.length) :
    resizeTo undef a n = a.take n := by
  simp [resizeTo, Nat.sub_eq_zero_of_le h]

/-! ### Where the elements come from -/

theorem mem_storeSlot {undef v x : V} {a : List V} {k : ℕ} (h : x ∈ storeSlot undef a k v) :
    x ∈ a ∨ x = v ∨ (x = undef ∧ a.length < k) := by
  unfold storeSlot at h
  split at h
  · rcases List.mem_or_eq_of_mem_set h with h | h
    · exact .inl h
    · exact .inr (.inl h)
  · simp only [List.mem_append, List.mem_replicate, List.mem_singleton] at h
    rcases h with (h | ⟨hne, h⟩) | h
    · exact .inl h
    · exact .inr (.inr ⟨h, by omega⟩)
    · exact .inr (.inl h)

theorem mem_resizeTo {undef x : V} {a : List V} {n : ℕ} (h : x ∈ resizeTo undef a n) :
    x ∈ a ∨ (x = undef ∧ a.length < n) := by
  rcases List.mem_append.mp h with h | h
  · exact .inl (List.mem_of_mem_take h)
  · obtain ⟨hne, rfl⟩ := List.mem_replicate.mp h
    exact .inr ⟨rfl, by omega⟩

theorem mem_spliceWith {x : V} {a vs : List V} {o len : ℤ} (h : x ∈ (spliceWith a o len vs).1) :
    x ∈ a ∨ x ∈ vs := by
  unfold spliceWith at h
  cases hslot : slotOf a.length o with
  | none =>
      rw [hslot] at h
      exact .inl h
  | some k =>
      rw [hslot] at h
      simp only [List.mem_append] at h
      rcases h with (h | h) | h
      · exact .inl (List.mem_of_mem_take h)
      · exact .inr h
      · exact .inl (List.mem_of_mem_drop h)

theorem mem_splice {x : V} {a : List V} {args : SpliceArgs V} (h : x ∈ (splice a args).1) :
    x ∈ a ∨ x ∈ args.values := by
  cases args <;> exact mem_spliceWith h

/-- An element is an old one or a new one, or fills a gap. -/
theorem ArrayOp.mem_apply {undef x : V} {a : List V} {op : ArrayOp V}
    (h : x ∈ (op.apply undef a).1) :
    x ∈ a ∨ x ∈ op.values ∨ (x = undef ∧ ¬op.Reaches a.length) := by
  cases op with
  | store i v =>
      simp only [ArrayOp.apply] at h
      cases hslot : slotOf a.length i with
      | none =>
          rw [hslot] at h
          exact .inl h
      | some k =>
          rw [hslot] at h
          have hk := slotOf_eq_some.mp hslot
          refine (mem_storeSlot h).imp_right (Or.imp ?_ ?_)
          · exact List.mem_singleton.mpr
          · rintro ⟨rfl, hlt⟩
            exact ⟨rfl, by simp only [ArrayOp.Reaches]; omega⟩
  | assign vs => exact .inr (.inl h)
  | push vs => exact (List.mem_append.mp h).imp_right .inl
  | pop => exact .inl (List.dropLast_subset a h)
  | shift => exact .inl (List.mem_of_mem_tail h)
  | unshift vs => exact (List.mem_append.mp h).symm.imp_right .inl
  | splice args => exact (mem_splice h).imp_right .inl
  | resize n =>
      rcases mem_resizeTo h with h | ⟨rfl, hlt⟩
      · exact .inl h
      · exact .inr (.inr ⟨rfl, Nat.not_le_of_lt hlt⟩)
  | clear => cases h
  | fetch i =>
      simp only [ArrayOp.apply] at h
      cases hslot : slotOf a.length i with
      | none =>
          rw [hslot] at h
          exact .inl h
      | some k =>
          rw [hslot] at h
          exact .inl h
  | length => exact .inl h

/-- The whole rest is removed when no length is given. -/
theorem spliceCount_length {n o : ℕ} : spliceCount n o n = n - o := by
  have h : ¬(n : ℤ) < 0 := by omega
  simp [spliceCount, h]

end GooglePerl.Lib
