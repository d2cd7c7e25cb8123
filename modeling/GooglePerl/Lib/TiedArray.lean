import GooglePerl.Lib.PerlArray

/-!
Tied arrays: what perl makes of an array operation when the array is tied, and
the `SPLICE` that `Tie::Array` offers to classes that have none.

The methods of a class are its `Hooks`. `EXTEND`, which only announces a length,
is left out.
-/

namespace GooglePerl.Lib

variable {V ε σ α β : Type}

structure Hooks (V ε σ : Type) where
  fetch : ℤ → EStateM ε σ V
  store : ℤ → V → EStateM ε σ Unit
  fetchSize : EStateM ε σ ℕ
  storeSize : ℤ → EStateM ε σ Unit
  clear : EStateM ε σ Unit
  push : List V → EStateM ε σ Unit
  pop : EStateM ε σ V
  shift : EStateM ε σ V
  unshift : List V → EStateM ε σ Unit
  splice : SpliceArgs V → EStateM ε σ (List V)

theorem bind_of_ok {x : EStateM ε σ α} {f : α → EStateM ε σ β} {s s' : σ} {a : α}
    (h : x s = .ok a s') : (x >>= f) s = f a s' := by
  simp [bind, EStateM.bind, h]

theorem bind_of_error {x : EStateM ε σ α} {f : α → EStateM ε σ β} {s s' : σ} {e : ε}
    (h : x s = .error e s') : (x >>= f) s = .error e s' := by
  simp [bind, EStateM.bind, h]

theorem exists_of_bind_ok {x : EStateM ε σ α} {f : α → EStateM ε σ β} {s s' : σ} {b : β}
    (h : (x >>= f) s = .ok b s') : ∃ a s₁, x s = .ok a s₁ ∧ f a s₁ = .ok b s' := by
  simp only [bind, EStateM.bind] at h
  cases hx : x s with
  | ok a s₁ =>
      rw [hx] at h
      exact ⟨a, s₁, rfl, h⟩
  | error e s₁ =>
      rw [hx] at h
      cases h

/-- What always returns adds no error. -/
theorem bind_eq_error_iff {x : EStateM ε σ α} {f : α → EStateM ε σ β}
    (hf : ∀ a s, ∃ b s', f a s = .ok b s') {s s' : σ} {e : ε} :
    (x >>= f) s = .error e s' ↔ x s = .error e s' := by
  cases hx : x s with
  | ok a s₁ =>
      obtain ⟨b, s₂, hb⟩ := hf a s₁
      rw [bind_of_ok hx, hb]
      simp
  | error e' s₁ =>
      rw [bind_of_error hx]
      simp

/-- The state that a method leaves, whether it returned or died. -/
def leaves (x : EStateM ε σ α) (s : σ) : σ :=
  match x s with
  | .ok _ s' => s'
  | .error _ s' => s'

theorem leaves_of_ok {x : EStateM ε σ α} {s s' : σ} {a : α} (h : x s = .ok a s') :
    leaves x s = s' := by
  rw [leaves, h]

/-- What comes after only reads. -/
theorem leaves_bind {f : α → EStateM ε σ β} (hf : ∀ a s, leaves (f a) s = s)
    (x : EStateM ε σ α) (s : σ) : leaves (x >>= f) s = leaves x s := by
  simp only [leaves, bind, EStateM.bind]
  cases hx : x s with
  | ok a s' => exact hf a s'
  | error e s' => rfl

@[simp] theorem leaves_pure (a : α) (s : σ) : leaves (pure a : EStateM ε σ α) s = s := rfl

/-- `STORE` of each value, from one index on. -/
def storeAll (store : ℤ → V → EStateM ε σ Unit) (i : ℤ) : List V → EStateM ε σ Unit
  | [] => pure ()
  | v :: vs => do
      store i v
      storeAll store (i + 1) vs

namespace Hooks

/-- What perl calls for an operation. It counts negative indices from the end by
itself, and the number that `push` and `unshift` return is `FETCHSIZE`. -/
def call (H : Hooks V ε σ) (undef : V) : ArrayOp V → EStateM ε σ (Reply V)
  | .store i v => do
      if 0 ≤ i then
        H.store i v
        return .done
      else
        let n ← H.fetchSize
        match slotOf n i with
        | none => return .died
        | some k =>
            H.store k v
            return .done
  | .assign vs => do
      H.clear
      storeAll H.store 0 vs
      return .done
  | .push vs => do
      H.push vs
      return .count (← H.fetchSize)
  | .pop => return .value (← H.pop)
  | .shift => return .value (← H.shift)
  | .unshift vs => do
      H.unshift vs
      return .count (← H.fetchSize)
  | .splice args => return .values (← H.splice args)
  | .resize n => do
      H.storeSize n
      return .done
  | .clear => do
      H.clear
      return .done
  | .fetch i => do
      if 0 ≤ i then
        return .value (← H.fetch i)
      else
        let n ← H.fetchSize
        match slotOf n i with
        | none => return .value undef
        | some k => return .value (← H.fetch k)
  | .length => return .count (← H.fetchSize)

/-- One operation on the tied array. -/
def apply (H : Hooks V ε σ) (undef : V) (s : σ) (op : ArrayOp V) : σ × Reply V :=
  match H.call undef op s with
  | .ok r s' => (s', r)
  | .error _ s' => (s', .died)

theorem apply_fst (H : Hooks V ε σ) (undef : V) (s : σ) (op : ArrayOp V) :
    (H.apply undef s op).1 = leaves (H.call undef op) s := by
  unfold apply leaves
  cases H.call undef op s <;> rfl

theorem apply_of_ok {H : Hooks V ε σ} {undef : V} {s s' : σ} {op : ArrayOp V} {r : Reply V}
    (h : H.call undef op s = .ok r s') : H.apply undef s op = (s', r) := by
  simp [apply, h]

section Index

variable {H : Hooks V ε σ} {s : σ} {n : ℕ} (hsize : H.fetchSize s = .ok n s) (undef : V) {i : ℤ}
include hsize

/-- An index means the same slot to perl and to the class. -/
theorem call_store {k : ℕ} (hslot : slotOf n i = some k) (v : V) :
    H.call undef (.store i v) s = (H.store k v >>= fun _ => pure .done) s := by
  by_cases hi : 0 ≤ i
  · obtain rfl : i = k := by
      have hk := slotOf_eq_some.mp hslot
      omega
    rw [call, if_pos hi]
  · rw [call, if_neg hi, bind_of_ok hsize, hslot]

theorem call_store_before (hslot : slotOf n i = none) (v : V) :
    H.call undef (.store i v) s = .ok .died s := by
  have hi : ¬0 ≤ i := by
    have hk := slotOf_eq_none.mp hslot
    omega
  rw [call, if_neg hi, bind_of_ok hsize, hslot]
  rfl

theorem call_fetch {k : ℕ} (hslot : slotOf n i = some k) :
    H.call undef (.fetch i) s = (H.fetch k >>= fun v => pure (.value v)) s := by
  by_cases hi : 0 ≤ i
  · obtain rfl : i = k := by
      have hk := slotOf_eq_some.mp hslot
      omega
    rw [call, if_pos hi]
  · rw [call, if_neg hi, bind_of_ok hsize, hslot]

theorem call_fetch_before (hslot : slotOf n i = none) :
    H.call undef (.fetch i) s = .ok (.value undef) s := by
  have hi : ¬0 ≤ i := by
    have hk := slotOf_eq_none.mp hslot
    omega
  rw [call, if_neg hi, bind_of_ok hsize, hslot]
  rfl

end Index

end Hooks

/-! ### `Tie::Array::SPLICE` -/

section Splice

variable (fetch : ℤ → EStateM ε σ V) (store : ℤ → V → EStateM ε σ Unit)
  (fetchSize : EStateM ε σ ℕ) (storeSize : ℤ → EStateM ε σ Unit)

/-- The first loop: the values of a number of slots. -/
def fetchFrom (i : ℤ) : ℕ → EStateM ε σ (List V)
  | 0 => pure []
  | k + 1 => do
      let v ← fetch i
      let vs ← fetchFrom (i + 1) k
      return v :: vs

/-- The loop that makes room, which starts at the last slot. -/
def moveUp (d i : ℤ) : ℕ → EStateM ε σ Unit
  | 0 => pure ()
  | k + 1 => do
      let v ← fetch (i + k)
      store (i + k + d) v
      moveUp d i k

/-- The loop that closes the gap. -/
def moveDown (d i : ℤ) : ℕ → EStateM ε σ Unit
  | 0 => pure ()
  | k + 1 => do
      let v ← fetch i
      store (i - d) v
      moveDown d (i + 1) k

def spliceOffset (sz : ℕ) : SpliceArgs V → ℤ
  | .none => 0
  | .offset o | .range o _ _ => if o < 0 then o + sz else o

def spliceLength (sz : ℕ) (off : ℤ) (args : SpliceArgs V) : ℤ :=
  let len := match args with
    | .range _ len _ => len
    | _ => sz - off
  if len < 0 then len + (sz - off) else len

/-- `Tie::Array::SPLICE` -/
def tieArraySplice (args : SpliceArgs V) : EStateM ε σ (List V) := do
  let sz ← fetchSize
  let off := spliceOffset sz args
  let len := spliceLength sz off args
  let list := args.values
  let result ← fetchFrom fetch off len.toNat
  let off := min off sz
  let len := min len (sz - off)
  if len < list.length then
    moveUp fetch store (list.length - len) (off + len) (sz - (off + len)).toNat
  else if list.length < len then
    moveDown fetch store (len - list.length) (off + len) (sz - (off + len)).toNat
    storeSize (sz - (len - list.length))
  storeAll store off list
  return result

/-- The slots that `SPLICE` takes as the range to replace: where it starts and how many -/
def spliceStart (sz : ℕ) (args : SpliceArgs V) : ℤ := min (spliceOffset sz args) sz

def spliceSlots (sz : ℕ) (args : SpliceArgs V) : ℤ :=
  min (spliceLength sz (spliceOffset sz args) args) (sz - spliceStart sz args)

/-- `SPLICE` up to the loop that stores the values: what is in the array already is moved to
its new place. -/
def spliceRoom (args : SpliceArgs V) : EStateM ε σ (List V × ℤ) := do
  let sz ← fetchSize
  let result ← fetchFrom fetch (spliceOffset sz args)
    (spliceLength sz (spliceOffset sz args) args).toNat
  let off := spliceStart sz args
  let len := spliceSlots sz args
  if len < args.values.length then
    moveUp fetch store (args.values.length - len) (off + len) (sz - (off + len)).toNat
  else if args.values.length < len then
    moveDown fetch store (len - args.values.length) (off + len) (sz - (off + len)).toNat
    storeSize (sz - (len - args.values.length))
  return (result, off)

/-- The values are stored when everything else is in its place. -/
theorem tieArraySplice_eq (args : SpliceArgs V) :
    tieArraySplice fetch store fetchSize storeSize args = do
      let room ← spliceRoom fetch store fetchSize storeSize args
      storeAll store room.2 args.values
      return room.1 := by
  have hstart (sz : ℕ) : min (spliceOffset sz args) (sz : ℤ) = spliceStart sz args := rfl
  have hslots (sz : ℕ) : min (spliceLength sz (spliceOffset sz args) args)
      (sz - spliceStart sz args) = spliceSlots sz args := rfl
  simp only [tieArraySplice, spliceRoom, hstart, hslots, bind_assoc]
  congr 1
  funext sz
  congr 1
  funext result
  split
  · simp only [bind_assoc, pure_bind]
  · split
    · simp only [bind_assoc, pure_bind]
    · simp only [pure_bind]

end Splice

/-! ### Loops that stop

`push` and the like go through their values until one is not taken. -/

/-- The operations that put values into an array; `insert` is not one of perl's, but a method that
a class may have. -/
inductive ElementOp (V : Type) where
  | store (i : ℤ) (v : V)
  | push (vs : List V)
  | unshift (vs : List V)
  | splice (args : SpliceArgs V)
  | insert (i : ℤ) (v : V)

/-- The first value that is not taken, and those before it -/
def StopsAt (takes : V → Prop) (vs pre : List V) (v : V) : Prop :=
  (∃ post, vs = pre ++ v :: post) ∧ (∀ x ∈ pre, takes x) ∧ ¬ takes v

theorem forall_or_stopsAt (takes : V → Prop) (vs : List V) :
    (∀ x ∈ vs, takes x) ∨ ∃ pre v, StopsAt takes vs pre v := by
  induction vs with
  | nil => exact .inl (List.forall_mem_nil _)
  | cons x vs ih =>
      by_cases hx : takes x
      · obtain h | ⟨pre, v, ⟨post, rfl⟩, hpre, hv⟩ := ih
        · exact .inl (List.forall_mem_cons.mpr ⟨hx, h⟩)
        · exact .inr ⟨x :: pre, v, ⟨post, rfl⟩, List.forall_mem_cons.mpr ⟨hx, hpre⟩, hv⟩
      · exact .inr ⟨[], x, ⟨vs, rfl⟩, List.forall_mem_nil _, hx⟩

@[simp] theorem spliceOffset_map {W : Type} (g : V → W) (sz : ℕ) (args : SpliceArgs V) :
    spliceOffset sz (args.map g) = spliceOffset sz args := by
  cases args <;> rfl

@[simp] theorem spliceLength_map {W : Type} (g : V → W) (sz : ℕ) (off : ℤ) (args : SpliceArgs V) :
    spliceLength sz off (args.map g) = spliceLength sz off args := by
  cases args <;> rfl

theorem slotOf_of_offset {n o : ℕ} {p : ℤ} (h : (if p < 0 then p + n else p) = (o : ℤ)) :
    slotOf n p = some o := by
  rw [slotOf_eq_some]
  split at h <;> omega

/-- On an ordinary array the same range is replaced, if it is one of the array. -/
theorem splice_of_range {a : List V} {args : SpliceArgs V} {o l : ℕ}
    (ho : spliceOffset a.length args = o) (hl : spliceLength a.length o args = l)
    (hol : o + l ≤ a.length) :
    splice a args =
      (a.take o ++ args.values ++ a.drop (o + l), .values ((a.drop o).take l)) := by
  have hwith : ∀ (p len : ℤ) (vs : List V), slotOf a.length p = some o →
      spliceCount a.length o len = l →
      spliceWith a p len vs = (a.take o ++ vs ++ a.drop (o + l), .values ((a.drop o).take l)) := by
    intro p len vs hslot hcount
    simp only [spliceWith, hslot, Nat.min_eq_left (show o ≤ a.length by omega), hcount]
  cases args with
  | none =>
      obtain rfl : o = 0 := by simpa [spliceOffset] using ho.symm
      refine hwith 0 a.length [] (slotOf_natCast _ 0) ?_
      simp only [spliceLength] at hl
      rw [spliceCount_length]
      split at hl <;> omega
  | offset p =>
      refine hwith p a.length [] (slotOf_of_offset ho) ?_
      simp only [spliceLength] at hl
      rw [spliceCount_length]
      split at hl <;> omega
  | range p len vs =>
      refine hwith p len vs (slotOf_of_offset ho) ?_
      simp only [spliceLength] at hl
      rw [spliceCount, hl]
      omega

/-! ### Over an array that does not grow

What `SPLICE` does when `STORE` takes the values that `accept` takes, in slots
that exist, and `STORESIZE` shortens. -/

structure Shrinking (fetch : ℤ → EStateM ε σ V) (store : ℤ → V → EStateM ε σ Unit)
    (fetchSize : EStateM ε σ ℕ) (storeSize : ℤ → EStateM ε σ Unit) (accept : V → Option V)
    (view : σ → List V) : Prop where
  fetchSize_eq : ∀ s, fetchSize s = .ok (view s).length s
  fetch_eq : ∀ s (k : ℕ) v, (view s)[k]? = some v → fetch k s = .ok v s
  store_eq : ∀ s (k : ℕ) v w, k < (view s).length → accept v = some w →
    ∃ s', store k v s = .ok () s' ∧ view s' = (view s).set k w
  storeSize_eq : ∀ s (n : ℕ), n ≤ (view s).length →
    ∃ s', storeSize n s = .ok () s' ∧ view s' = (view s).take n

namespace Shrinking

variable {fetch : ℤ → EStateM ε σ V} {store : ℤ → V → EStateM ε σ Unit}
  {fetchSize : EStateM ε σ ℕ} {storeSize : ℤ → EStateM ε σ Unit} {accept : V → Option V}
  {view : σ → List V} (h : Shrinking fetch store fetchSize storeSize accept view)
include h

theorem fetchFrom_eq {s : σ} {i k : ℕ} (hk : i + k ≤ (view s).length) :
    fetchFrom fetch i k s = .ok (((view s).drop i).take k) s := by
  induction k generalizing i with
  | zero => simp [fetchFrom, pure, EStateM.pure]
  | succ k ih =>
      have hi : i < (view s).length := by omega
      have hrest := ih (i := i + 1) (by omega)
      rw [fetchFrom, bind_of_ok (h.fetch_eq s i _ (List.getElem?_eq_getElem hi)),
        ← Int.natCast_succ, bind_of_ok hrest, List.drop_eq_getElem_cons hi]
      rfl

theorem storeAll_eq {s : σ} {i : ℕ} {vs ws : List V} (hi : i + vs.length ≤ (view s).length)
    (hws : vs.map accept = ws.map some) :
    ∃ s', storeAll store i vs s = .ok () s' ∧
      view s' = (view s).take i ++ ws ++ (view s).drop (i + vs.length) := by
  induction vs generalizing s i ws with
  | nil =>
      obtain rfl : ws = [] := by simpa using hws.symm
      exact ⟨s, rfl, by simp⟩
  | cons v vs ih =>
      obtain ⟨w, ws, rfl⟩ : ∃ w ws', ws = w :: ws' := by
        cases ws with
        | nil => simp at hws
        | cons w ws => exact ⟨w, ws, rfl⟩
      simp only [List.map_cons, List.cons.injEq] at hws
      simp only [List.length_cons] at hi
      obtain ⟨s₁, hstore, hview₁⟩ := h.store_eq s i v w (by omega) hws.1
      obtain ⟨s', hall, hview⟩ := ih (s := s₁) (i := i + 1) (by simp [hview₁]; omega) hws.2
      refine ⟨s', ?_, ?_⟩
      · rw [storeAll, bind_of_ok hstore, ← Int.natCast_succ]
        exact hall
      · have htake : (view s₁).take (i + 1) = (view s).take i ++ [w] := by
          rw [hview₁, List.take_add_one, List.take_set_of_le (Nat.le_refl i)]
          simp [show i < (view s).length by omega]
        have hdrop : (view s₁).drop (i + 1 + vs.length) = (view s).drop (i + (vs.length + 1)) := by
          rw [hview₁, List.drop_set_of_lt (by omega), Nat.add_assoc, Nat.add_comm 1]
        rw [hview, htake, hdrop]
        simp

/-- The gap is closed: the slots from `i` on are also at `j`. -/
theorem moveDown_eq {s : σ} {d i j k : ℕ} (hij : j + d = i) (hk : i + k ≤ (view s).length)
    (haccept : ∀ v ∈ ((view s).drop i).take k, accept v = some v) :
    ∃ s', moveDown fetch store d i k s = .ok () s' ∧
      view s' = (view s).take j ++ ((view s).drop i).take k ++ (view s).drop (j + k) := by
  induction k generalizing s i j with
  | zero => exact ⟨s, rfl, by simp⟩
  | succ k ih =>
      have hi : i < (view s).length := by omega
      have hcons := List.drop_eq_getElem_cons hi
      rw [hcons, List.take_succ_cons] at haccept
      obtain ⟨s₁, hstore, hview₁⟩ := h.store_eq s j _ _ (by omega)
        (haccept _ List.mem_cons_self)
      have hdrop₁ : (view s₁).drop (i + 1) = (view s).drop (i + 1) := by
        rw [hview₁, List.drop_set_of_lt (by omega)]
      obtain ⟨s', hmove, hview⟩ := ih (s := s₁) (i := i + 1) (j := j + 1) (by omega)
        (by simp [hview₁]; omega)
        (by rw [hdrop₁]; exact fun v hv => haccept v (List.mem_cons_of_mem _ hv))
      refine ⟨s', ?_, ?_⟩
      · rw [moveDown, bind_of_ok (h.fetch_eq s i _ (List.getElem?_eq_getElem hi)),
          show (i : ℤ) - d = j by omega, bind_of_ok hstore, ← Int.natCast_succ]
        exact hmove
      · have htake : (view s₁).take (j + 1) = (view s).take j ++ [(view s)[i]] := by
          rw [hview₁, List.take_add_one, List.take_set_of_le (Nat.le_refl j)]
          simp [show j < (view s).length by omega]
        have hdrop : (view s₁).drop (j + 1 + k) = (view s).drop (j + (k + 1)) := by
          rw [hview₁, List.drop_set_of_lt (by omega), Nat.add_assoc, Nat.add_comm 1]
        rw [hview, htake, hdrop₁, hdrop, hcons, List.take_succ_cons]
        simp

/-- The new values go into the slots of removed ones; what comes after is moved
down, through `FETCH` and `STORE`, if there are fewer of them. -/
theorem tieArraySplice_eq {s : σ} {args : SpliceArgs V} {o l : ℕ} {ws : List V}
    (ho : spliceOffset (view s).length args = o)
    (hl : spliceLength (view s).length o args = l) (hol : o + l ≤ (view s).length)
    (hfit : args.values.length ≤ l) (hws : args.values.map accept = ws.map some)
    (hmoved : args.values.length < l → ∀ v ∈ (view s).drop (o + l), accept v = some v) :
    ∃ s', tieArraySplice fetch store fetchSize storeSize args s =
        .ok (((view s).drop o).take l) s' ∧
      view s' = (view s).take o ++ ws ++ (view s).drop (o + l) := by
  have hfetch := h.fetchFrom_eq (s := s) (i := o) (k := l) hol
  unfold tieArraySplice
  rw [bind_of_ok (h.fetchSize_eq s)]
  simp only [ho, hl, Int.toNat_natCast]
  rw [bind_of_ok hfetch]
  have hmin : min (o : ℤ) (view s).length = o := by omega
  have hmin' : min (l : ℤ) ((view s).length - o) = l := by omega
  rw [hmin, hmin', if_neg (by omega)]
  by_cases hlt : args.values.length < l
  · rw [if_pos (by omega)]
    obtain ⟨d, hd⟩ : ∃ d : ℕ, args.values.length + d = l := ⟨l - args.values.length, by omega⟩
    obtain ⟨s₁, hmove, hview₁⟩ := h.moveDown_eq (s := s) (d := d) (i := o + l)
      (j := o + args.values.length) (k := (view s).length - (o + l)) (by omega) (by omega)
      (fun v hv => hmoved hlt v (List.mem_of_mem_take hv))
    obtain ⟨s₂, hsize, hview₂⟩ := h.storeSize_eq s₁ ((view s).length - d)
      (by simp [hview₁]; omega)
    have hview₂ : view s₂ = (view s).take (o + args.values.length) ++ (view s).drop (o + l) := by
      have hrest : ((view s).drop (o + l)).take ((view s).length - (o + l)) =
          (view s).drop (o + l) := List.take_of_length_le (by simp)
      rw [hview₂, hview₁, hrest]
      exact List.take_left' (by simp; omega)
    obtain ⟨s', hall, hview⟩ := h.storeAll_eq (s := s₂) (i := o) (by simp [hview₂]; omega) hws
    refine ⟨s', ?_, ?_⟩
    · have hcount : ((view s).length - ((o : ℤ) + l)).toNat = (view s).length - (o + l) := by omega
      have hdown : ((l : ℤ) - args.values.length) = d := by omega
      have hsmall : ((view s).length : ℤ) - d = ((view s).length - d : ℕ) := by omega
      rw [hcount, hdown, hsmall, ← Int.natCast_add, bind_of_ok hmove, bind_of_ok hsize,
        bind_of_ok hall]
      rfl
    · rw [hview, hview₂, List.take_append_of_le_length (by simp; omega), List.take_take,
        List.drop_left' (by simp; omega)]
      simp
  · rw [if_neg (by omega)]
    obtain ⟨s', hall, hview⟩ := h.storeAll_eq (s := s) (i := o) (by omega) hws
    refine ⟨s', ?_, ?_⟩
    · rw [bind_of_ok hall]
      rfl
    · rw [hview, show args.values.length = l by omega]

end Shrinking

end GooglePerl.Lib
