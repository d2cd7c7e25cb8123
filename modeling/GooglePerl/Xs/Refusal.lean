import GooglePerl.Xs.Repeated

/-!
What a refused value leaves behind in a repeated field of the XS engine.

`PUSH` appends value by value, `_xs_insert` makes the slot before it converts, and the `SPLICE` of
`Tie::Array` moves and cuts before it stores. The conversion croaks from inside, so the code after
a failed conversion, which would delete the slot again, is never reached.
-/

namespace GooglePerl.Xs.RepeatedField

open GooglePerl.Lib GooglePerl.Protobuf

variable (R : RepeatedField)

def Takes (sv : Sv) : Prop := ∃ e, R.convertElement sv = .ok e

def Refuses (sv : Sv) : Prop := ∃ c, R.convertElement sv = .error (.croak c)

/-- A call of the class that puts values into the array -/
def run : ElementOp Sv → EStateM RepeatedError R.Items (Reply Sv)
  | .store i sv => R.hooks.call (.scalar .undef) (.store i sv)
  | .push svs => R.hooks.call (.scalar .undef) (.push svs)
  | .unshift svs => R.hooks.call (.scalar .undef) (.unshift svs)
  | .splice args => R.hooks.call (.scalar .undef) (.splice args)
  | .insert i sv => do
      R.insert i sv
      return .done

/-- The call croaks on one of its values. In a `splice` the elements that are moved are converted
as well, so there the values' turn must have come. -/
def Refused (a : R.Items) (op : ElementOp Sv) (b : R.Items) : Prop :=
  (∃ c, R.run op a = .error (.convert (.croak c)) b) ∧
    ∀ args, op = .splice args →
      ∃ room a', spliceRoom R.getItem R.setItem R.size R.resize args a = .ok room a'

/-- The loop of `SPLICE` over its values comes to the one with a given number. -/
def SpliceReaches (a : R.Items) (args : SpliceArgs Sv) (k : ℕ) : Prop :=
  0 ≤ spliceStart a.length args ∧ k < spliceSlots a.length args ∧
    (spliceSlots a.length args < args.values.length →
      a.length ≤ spliceStart a.length args + spliceSlots a.length args) ∧
    (args.values.length < spliceSlots a.length args →
      ∀ e ∈ a.drop (spliceStart a.length args + spliceSlots a.length args).toNat,
        R.Takes (elementSv e))

/-- The calls in which nothing has been done when the first value is refused. -/
def Clean (a : R.Items) : ElementOp Sv → Prop
  | .store _ _ => True
  | .push svs => ∀ pre sv, StopsAt R.Takes svs pre sv → R.Refuses sv → pre = []
  | .unshift svs => ∀ pre sv, StopsAt R.Takes svs.reverse pre sv → ¬ R.Refuses sv
  | .splice args => ∀ pre sv, StopsAt R.Takes args.values pre sv → R.Refuses sv →
      R.SpliceReaches a args pre.length →
        spliceSlots a.length args ≤ args.values.length ∧
          List.Forall₂ (fun sv e => R.convertElement sv = .ok e) pre
            ((a.drop (spliceStart a.length args).toNat).take pre.length)
  | .insert i sv => R.Refuses sv → i < 0 ∨ a.length < i

variable {R}

theorem not_takes_iff {sv : Sv} : ¬ R.Takes sv ↔ ∃ fault, R.convertElement sv = .error fault := by
  unfold Takes
  cases R.convertElement sv <;> simp

theorem exists_converted {svs : List Sv} (h : ∀ sv ∈ svs, R.Takes sv) :
    ∃ es : R.Items, List.Forall₂ (fun sv e => R.convertElement sv = .ok e) svs es := by
  induction svs with
  | nil => exact ⟨[], .nil⟩
  | cons sv svs ih =>
      obtain ⟨⟨e, he⟩, hsvs⟩ := List.forall_mem_cons.mp h
      obtain ⟨es, hes⟩ := ih hsvs
      exact ⟨e :: es, .cons he hes⟩

/-! ### `PUSH` and `UNSHIFT` -/

theorem push_append (svs svs' : List Sv) (a : R.Items) :
    R.push (svs ++ svs') a = (R.push svs >>= fun _ => R.push svs') a := by
  induction svs generalizing a with
  | nil => rfl
  | cons sv svs ih =>
      simp only [List.cons_append, push, bind, EStateM.bind] at ih ⊢
      cases R.append sv a with
      | ok _ b => exact ih b
      | error e b => rfl

theorem unshift_append (svs svs' : List Sv) (a : R.Items) :
    R.unshift (svs ++ svs') a = (R.unshift svs >>= fun _ => R.unshift svs') a := by
  induction svs generalizing a with
  | nil => rfl
  | cons sv svs ih =>
      simp only [List.cons_append, unshift, bind, EStateM.bind] at ih ⊢
      cases R.insert 0 sv a with
      | ok _ b => exact ih b
      | error e b => rfl

/-- What was appended before the value stays. -/
theorem push_stops {pre : List Sv} {sv : Sv} {es : R.Items} {fault : Fault}
    (hpre : List.Forall₂ (fun sv e => R.convertElement sv = .ok e) pre es)
    (hsv : R.convertElement sv = .error fault) (a : R.Items) (post : List Sv) :
    R.push (pre ++ sv :: post) a = .error (.convert fault) (a ++ es) := by
  have happend : R.append sv (a ++ es) = .error (.convert fault) (a ++ es) := by
    simp only [append, hsv]
  rw [push_append, bind_of_ok (push_eq hpre a), push, bind_of_error happend]

/-- The slot is made before the value is converted. -/
theorem insert_stops {i : ℤ} {a : R.Items} (hi : ¬ (i < 0 ∨ a.length < i)) {sv : Sv} {fault : Fault}
    (hsv : R.convertElement sv = .error fault) :
    R.insert i sv a = .error (.convert fault)
      (a.take i.toNat ++ a[i.toNat]?.getD R.fresh :: a.drop i.toNat) := by
  rw [insert, if_neg hi]
  simp only [hsv]

theorem unshift_stops {pre : List Sv} {sv : Sv} {es : R.Items} {fault : Fault}
    (hpre : List.Forall₂ (fun sv e => R.convertElement sv = .ok e) pre es)
    (hsv : R.convertElement sv = .error fault) (a : R.Items) (post : List Sv) :
    ∃ e, R.unshift (pre ++ sv :: post) a = .error (.convert fault) (e :: (es.reverse ++ a)) := by
  have hinsert := insert_stops (i := 0) (a := es.reverse ++ a) (by omega) hsv
  refine ⟨(es.reverse ++ a)[0]?.getD R.fresh, ?_⟩
  rw [unshift_append, bind_of_ok (unshift_eq hpre a)]
  rw [unshift, bind_of_error hinsert]
  rfl

/-! ### The parts of `SPLICE` -/

theorem fetchFrom_ok (i : ℤ) (k : ℕ) (a : R.Items) :
    ∃ svs, fetchFrom R.getItem i k a = .ok svs a := by
  induction k generalizing i with
  | zero => exact ⟨[], rfl⟩
  | succ k ih =>
      have hget : ∃ sv, R.getItem i a = .ok sv a := by
        unfold getItem
        split <;> exact ⟨_, rfl⟩
      obtain ⟨sv, hsv⟩ := hget
      obtain ⟨svs, hsvs⟩ := ih (i + 1)
      refine ⟨sv :: svs, ?_⟩
      rw [fetchFrom, bind_of_ok hsv, bind_of_ok hsvs]
      rfl

theorem setItem_outOfBounds {a : R.Items} {i : ℤ} (h : i < 0 ∨ a.length ≤ i) (sv : Sv) :
    R.setItem i sv a = .error .outOfBounds a := by
  rw [setItem, if_pos h]

/-- Nothing can be moved past the end. -/
theorem moveUp_outOfBounds {a : R.Items} {d i : ℤ} {k : ℕ} (h : a.length ≤ i + k + d) :
    moveUp R.getItem R.setItem d i (k + 1) a = .error .outOfBounds a := by
  have hget : ∃ sv, R.getItem (i + k) a = .ok sv a := by
    unfold getItem
    split <;> exact ⟨_, rfl⟩
  obtain ⟨sv, hsv⟩ := hget
  rw [moveUp, bind_of_ok hsv]
  exact bind_of_error (setItem_outOfBounds (.inr h) sv)

theorem getItem_of_lt {a : R.Items} {i : ℕ} (hi : i < a.length) :
    R.getItem i a = .ok (elementSv (a.get ⟨i, hi⟩)) a := by
  rw [getItem_eq]
  simp [hi]

theorem setItem_stops {a : R.Items} {i : ℤ} (hi : ¬ (i < 0 ∨ a.length ≤ i)) {sv : Sv}
    {fault : Fault} (hsv : R.convertElement sv = .error fault) :
    R.setItem i sv a = .error (.convert fault) a := by
  rw [setItem, if_neg hi, hsv]

/-- The elements behind the range are converted once more, and one that is not taken ends it. -/
theorem moveDown_cases {a : R.Items} {d i k : ℕ} (hd : 0 < d) (hdi : d ≤ i)
    (hk : i + k ≤ a.length) :
    ((∀ e ∈ (a.drop i).take k, R.Takes (elementSv e)) ∧
        ∃ b, moveDown R.getItem R.setItem d i k a = .ok () b ∧ b.length = a.length) ∨
      ((∃ e ∈ (a.drop i).take k, ¬ R.Takes (elementSv e)) ∧
        ∃ fault b, moveDown R.getItem R.setItem d i k a = .error fault b) := by
  induction k generalizing a i with
  | zero => exact .inl ⟨by simp, a, rfl, rfl⟩
  | succ k ih =>
      have hi : i < a.length := by omega
      have hindex : ((i : ℤ) - d) = ((i - d : ℕ) : ℤ) := by omega
      rw [moveDown, bind_of_ok (getItem_of_lt hi), hindex]
      rw [List.drop_eq_getElem_cons hi, List.take_succ_cons]
      cases hconvert : R.convertElement (elementSv (a.get ⟨i, hi⟩)) with
      | error fault =>
          refine .inr ⟨⟨a.get ⟨i, hi⟩, List.mem_cons_self, not_takes_iff.mpr ⟨fault, hconvert⟩⟩,
            .convert fault, a, ?_⟩
          exact bind_of_error (setItem_stops (a := a) (by omega) hconvert)
      | ok e =>
          -- the slot that was written lies before those that are still to be read
          have hrest : (a.set (i - d) e).drop (i + 1) = a.drop (i + 1) :=
            List.drop_set_of_lt (by omega)
          have hih := ih (a := a.set (i - d) e) (i := i + 1) (by omega) (by simp; omega)
          rw [hrest, List.length_set] at hih
          rw [bind_of_ok (setItem_eq (show i - d < a.length by omega) hconvert)]
          obtain ⟨htakes, hb⟩ | ⟨⟨e', he', htakes⟩, hb⟩ := hih
          · exact .inl ⟨List.forall_mem_cons.mpr ⟨⟨e, hconvert⟩, htakes⟩, hb⟩
          · exact .inr ⟨⟨e', List.mem_cons_of_mem _ he', htakes⟩, hb⟩

/-- The loop over the values writes slot by slot, until a value is not taken or the array ends. -/
theorem storeAll_stops {pre : List Sv} {sv : Sv} {es : R.Items} {fault : Fault}
    (hpre : List.Forall₂ (fun sv e => R.convertElement sv = .ok e) pre es)
    (hsv : R.convertElement sv = .error fault) (a : R.Items) (i : ℤ) (post : List Sv) :
    (0 ≤ i ∧ i + pre.length < a.length ∧
        storeAll R.setItem i (pre ++ sv :: post) a = .error (.convert fault)
          (a.take i.toNat ++ es ++ a.drop (i.toNat + pre.length))) ∨
      ((i < 0 ∨ a.length ≤ i + pre.length) ∧
        ∃ b, storeAll R.setItem i (pre ++ sv :: post) a = .error .outOfBounds b) := by
  induction hpre generalizing a i with
  | nil =>
      by_cases hi : i < 0 ∨ a.length ≤ i
      · refine .inr ⟨by simpa using hi, a, ?_⟩
        exact bind_of_error (setItem_outOfBounds hi sv)
      · refine .inl ⟨by omega, by simp; omega, ?_⟩
        rw [List.nil_append, storeAll, bind_of_error (setItem_stops hi hsv)]
        simp
  | @cons x e pre es he _ ih =>
      by_cases hi : i < 0 ∨ a.length ≤ i
      · refine .inr ⟨by simp; omega, a, ?_⟩
        exact bind_of_error (setItem_outOfBounds hi x)
      · obtain ⟨k, rfl⟩ := Int.eq_ofNat_of_zero_le (show 0 ≤ i by omega)
        have hk : k < a.length := by omega
        have hstore : R.setItem k x a = .ok () (a.set k e) := setItem_eq hk he
        have hrest := ih (a.set k e) (k + 1)
        rw [List.length_set] at hrest
        rw [List.cons_append, storeAll, bind_of_ok hstore, List.length_cons]
        obtain ⟨-, hroom, hstops⟩ | ⟨hend, hbounds⟩ := hrest
        · refine .inl ⟨by omega, by push_cast; omega, ?_⟩
          have htoNat : ((k : ℤ) + 1).toNat = k + 1 := by omega
          have htake : (a.set k e).take (k + 1) = a.take k ++ [e] := by
            rw [List.take_add_one, List.take_set_of_le (Nat.le_refl k)]
            simp [hk]
          have hdrop : (a.set k e).drop (k + 1 + pre.length) = a.drop (k + (pre.length + 1)) := by
            rw [List.drop_set_of_lt (by omega), Nat.add_assoc, Nat.add_comm 1]
          rw [hstops, htoNat, htake, hdrop]
          simp
        · exact .inr ⟨by push_cast; omega, hbounds⟩

/-- Without a value that is not taken, no conversion fails. -/
theorem storeAll_takes {svs : List Sv} (h : ∀ sv ∈ svs, R.Takes sv) (a : R.Items) (i : ℤ)
    {fault : Fault} {b : R.Items} :
    storeAll R.setItem i svs a ≠ .error (.convert fault) b := by
  induction svs generalizing a i with
  | nil =>
      intro hstore
      cases hstore
  | cons sv svs ih =>
      obtain ⟨⟨e, he⟩, hsvs⟩ := List.forall_mem_cons.mp h
      rw [storeAll]
      by_cases hi : i < 0 ∨ a.length ≤ i
      · rw [bind_of_error (setItem_outOfBounds hi sv)]
        simp
      · have hstore : R.setItem i sv a = .ok () (a.set i.toNat e) := by
          rw [setItem, if_neg hi, he]
        rw [bind_of_ok hstore]
        exact ih hsvs _ _

section Room

variable (a : R.Items) (args : SpliceArgs Sv)

theorem spliceRoom_outOfBounds (hmany : spliceSlots a.length args < args.values.length)
    (hbehind : spliceStart a.length args + spliceSlots a.length args < a.length) :
    spliceRoom R.getItem R.setItem R.size R.resize args a = .error .outOfBounds a := by
  have hsize : R.size a = .ok a.length a := rfl
  obtain ⟨result, hfetch⟩ := fetchFrom_ok (spliceOffset a.length args)
    (spliceLength a.length (spliceOffset a.length args) args).toNat a
  obtain ⟨k, hk⟩ : ∃ k : ℕ, (a.length -
      (spliceStart a.length args + spliceSlots a.length args)).toNat = k + 1 :=
    ⟨(a.length - (spliceStart a.length args + spliceSlots a.length args)).toNat - 1, by omega⟩
  rw [spliceRoom, bind_of_ok hsize, bind_of_ok hfetch]
  simp only [if_pos hmany, hk]
  exact bind_of_error (moveUp_outOfBounds (by omega))

theorem spliceRoom_same (hfew : spliceSlots a.length args ≤ args.values.length)
    (hbehind : spliceSlots a.length args < args.values.length →
      a.length ≤ spliceStart a.length args + spliceSlots a.length args) :
    ∃ result, spliceRoom R.getItem R.setItem R.size R.resize args a =
      .ok (result, spliceStart a.length args) a := by
  have hsize : R.size a = .ok a.length a := rfl
  obtain ⟨result, hfetch⟩ := fetchFrom_ok (spliceOffset a.length args)
    (spliceLength a.length (spliceOffset a.length args) args).toNat a
  refine ⟨result, ?_⟩
  rw [spliceRoom, bind_of_ok hsize, bind_of_ok hfetch]
  by_cases hmany : spliceSlots a.length args < args.values.length
  · have hnone :
        (a.length - (spliceStart a.length args + spliceSlots a.length args)).toNat = 0 := by
      have hend := hbehind hmany
      omega
    simp only [if_pos hmany, hnone]
    rfl
  · have hless : ¬ (args.values.length : ℤ) < spliceSlots a.length args := by omega
    simp only [if_neg hmany, if_neg hless]
    rfl

/-- With fewer values than slots, the array is shorter when the values' turn comes. -/
theorem spliceRoom_shrinks (hmore : args.values.length < spliceSlots a.length args)
    (hstart : 0 ≤ spliceStart a.length args) :
    ((∀ e ∈ a.drop (spliceStart a.length args + spliceSlots a.length args).toNat,
          R.Takes (elementSv e)) ∧
        ∃ result b, spliceRoom R.getItem R.setItem R.size R.resize args a =
            .ok (result, spliceStart a.length args) b ∧
          (b.length : ℤ) = a.length - (spliceSlots a.length args - args.values.length)) ∨
      ((∃ e ∈ a.drop (spliceStart a.length args + spliceSlots a.length args).toNat,
          ¬ R.Takes (elementSv e)) ∧
        ∃ e b, spliceRoom R.getItem R.setItem R.size R.resize args a = .error e b) := by
  have hsize : R.size a = .ok a.length a := rfl
  obtain ⟨result, hfetch⟩ := fetchFrom_ok (spliceOffset a.length args)
    (spliceLength a.length (spliceOffset a.length args) args).toNat a
  have hslots : spliceSlots a.length args ≤ a.length - spliceStart a.length args :=
    Int.min_le_right _ _
  obtain ⟨o, ho⟩ := Int.eq_ofNat_of_zero_le hstart
  obtain ⟨l, hl⟩ := Int.eq_ofNat_of_zero_le (show 0 ≤ spliceSlots a.length args by omega)
  rw [spliceRoom, bind_of_ok hsize, bind_of_ok hfetch]
  simp only [ho, hl] at *
  obtain ⟨d, hd⟩ : ∃ d : ℕ, args.values.length + d = l := ⟨l - args.values.length, by omega⟩
  have hcount : ((a.length : ℤ) - (o + l)).toNat = a.length - (o + l) := by omega
  have hdown : ((l : ℤ) - args.values.length) = d := by omega
  have hbehind : ((o : ℤ) + l).toNat = o + l := by omega
  have htake : (a.drop (o + l)).take (a.length - (o + l)) = a.drop (o + l) :=
    List.take_of_length_le (by simp)
  rw [if_neg (by omega), if_pos hmore, hcount, hdown, hbehind]
  -- what is behind moves down through `STORE`, which may refuse it
  have hmove := moveDown_cases (a := a) (d := d) (i := o + l) (k := a.length - (o + l))
    (by omega) (by omega) (by omega)
  rw [htake] at hmove
  obtain ⟨htakes, b, hb, hlength⟩ | ⟨htakes, e, b, hb⟩ := hmove
  · refine .inl ⟨htakes, result, b.take (a.length - d), ?_, ?_⟩
    · have hsmall : (a.length : ℤ) - d = (a.length - d : ℕ) := by omega
      have hresize : R.resize (a.length - d : ℕ) b = .ok () (b.take (a.length - d)) :=
        resize_eq (by omega)
      rw [← Int.natCast_add, bind_of_ok hb, hsmall, bind_of_ok hresize]
      rfl
    · rw [List.length_take, hlength]
      omega
  · refine .inr ⟨htakes, e, b, ?_⟩
    rw [← Int.natCast_add]
    exact bind_of_error hb

theorem spliceRoom_start {room : List Sv × ℤ} {a' : R.Items}
    (h : spliceRoom R.getItem R.setItem R.size R.resize args a = .ok room a') :
    room.2 = spliceStart a.length args := by
  have hsize : R.size a = .ok a.length a := rfl
  rw [spliceRoom, bind_of_ok hsize] at h
  obtain ⟨result, a₁, -, h⟩ := exists_of_bind_ok h
  simp only at h
  split at h
  · obtain ⟨_, _, -, h⟩ := exists_of_bind_ok h
    cases h
    rfl
  · split at h
    · obtain ⟨_, _, -, h⟩ := exists_of_bind_ok h
      obtain ⟨_, _, -, h⟩ := exists_of_bind_ok h
      cases h
      rfl
    · cases h
      rfl

end Room

/-! ### What a refusal leaves behind -/

theorem exists_of_stopsAt {svs pre : List Sv} {sv : Sv} (h : StopsAt R.Takes svs pre sv) :
    ∃ post es fault, svs = pre ++ sv :: post ∧
      List.Forall₂ (fun sv e => R.convertElement sv = .ok e) pre es ∧
      R.convertElement sv = .error fault := by
  obtain ⟨⟨post, hsvs⟩, hpre, hsv⟩ := h
  obtain ⟨es, hes⟩ := exists_converted hpre
  obtain ⟨fault, hfault⟩ := not_takes_iff.mp hsv
  exact ⟨post, es, fault, hsvs, hes, hfault⟩

/-- A call fails where its loop fails. -/
theorem run_push {svs : List Sv} {a b : R.Items} {e : RepeatedError} :
    R.run (.push svs) a = .error e b ↔ R.push svs a = .error e b :=
  bind_eq_error_iff (x := R.push svs) fun _ _ => ⟨_, _, rfl⟩

theorem run_unshift {svs : List Sv} {a b : R.Items} {e : RepeatedError} :
    R.run (.unshift svs) a = .error e b ↔ R.unshift svs.reverse a = .error e b :=
  bind_eq_error_iff (x := R.unshift svs.reverse) fun _ _ => ⟨_, _, rfl⟩

theorem run_insert {i : ℤ} {sv : Sv} {a b : R.Items} {e : RepeatedError} :
    R.run (.insert i sv) a = .error e b ↔ R.insert i sv a = .error e b :=
  bind_eq_error_iff (x := R.insert i sv) fun _ _ => ⟨_, _, rfl⟩

theorem run_splice {args : SpliceArgs Sv} {a a' b : R.Items} {room : List Sv × ℤ}
    {e : RepeatedError}
    (hroom : spliceRoom R.getItem R.setItem R.size R.resize args a = .ok room a') :
    R.run (.splice args) a = .error e b ↔
      storeAll R.setItem (spliceStart a.length args) args.values a' = .error e b := by
  have hcall : R.run (.splice args) a = .error e b ↔
      tieArraySplice R.getItem R.setItem R.size R.resize args a = .error e b :=
    bind_eq_error_iff (x := R.hooks.splice args) fun _ _ => ⟨_, _, rfl⟩
  rw [hcall, tieArraySplice_eq, bind_of_ok hroom, spliceRoom_start a args hroom]
  exact bind_eq_error_iff fun _ _ => ⟨_, _, rfl⟩

/-- A slot is written after the conversion. -/
theorem store_unchanged {a b : R.Items} {i : ℤ} {sv : Sv} {e : RepeatedError}
    (h : R.run (.store i sv) a = .error e b) : b = a := by
  rw [run] at h
  cases hslot : slotOf a.length i with
  | none =>
      rw [Hooks.call_store_before (hooks_fetchSize a) _ hslot] at h
      cases h
  | some k =>
      have hset : R.setItem k sv a = .error e b := by
        rw [Hooks.call_store (hooks_fetchSize a) _ hslot] at h
        exact (bind_eq_error_iff fun _ _ => ⟨_, _, rfl⟩).mp h
      rw [setItem] at hset
      split at hset
      · cases hset
        rfl
      · split at hset
        · cases hset
          rfl
        · cases hset

theorem reaches_of_room {a a' : R.Items} {args : SpliceArgs Sv} {room : List Sv × ℤ} {k : ℕ}
    (hroom : spliceRoom R.getItem R.setItem R.size R.resize args a = .ok room a')
    (hstart : 0 ≤ spliceStart a.length args) (hk : spliceStart a.length args + k < a'.length)
    (hvalues : k < args.values.length) : R.SpliceReaches a args k := by
  by_cases hmore : args.values.length < spliceSlots a.length args
  · obtain ⟨htakes, -⟩ | ⟨-, e, b, hb⟩ := spliceRoom_shrinks a args hmore hstart
    · exact ⟨hstart, by omega, fun h => by omega, fun _ => htakes⟩
    · cases hroom.symm.trans hb
  · by_cases hbehind : spliceSlots a.length args < args.values.length ∧
        spliceStart a.length args + spliceSlots a.length args < a.length
    · cases hroom.symm.trans (spliceRoom_outOfBounds a args hbehind.1 hbehind.2)
    · obtain ⟨result, hsame⟩ := spliceRoom_same a args (by omega) fun h => by omega
      cases hroom.symm.trans hsame
      exact ⟨hstart, by omega, fun h => by omega, fun h => by omega⟩

theorem room_of_reaches {a : R.Items} {args : SpliceArgs Sv} {k : ℕ}
    (h : R.SpliceReaches a args k) (hvalues : k < args.values.length) :
    ∃ room a', spliceRoom R.getItem R.setItem R.size R.resize args a = .ok room a' ∧
      spliceStart a.length args + k < a'.length ∧
      ((spliceSlots a.length args ≤ args.values.length ∧ a' = a) ∨
        (args.values.length < spliceSlots a.length args ∧ a'.length < a.length)) := by
  obtain ⟨hstart, hk, hend, hbehind⟩ := h
  have hslots : spliceSlots a.length args ≤ a.length - spliceStart a.length args :=
    Int.min_le_right _ _
  by_cases hmore : args.values.length < spliceSlots a.length args
  · obtain ⟨-, result, b, hb, hlength⟩ | ⟨⟨e, he, htakes⟩, -⟩ :=
      spliceRoom_shrinks a args hmore hstart
    · exact ⟨_, b, hb, by omega, .inr ⟨hmore, by omega⟩⟩
    · exact absurd (hbehind hmore e he) htakes
  · obtain ⟨result, hsame⟩ := spliceRoom_same a args (by omega) hend
    exact ⟨_, a, hsame, by omega, .inl ⟨by omega, rfl⟩⟩

/-- The loop of `SPLICE` croaks on a value if it comes to it. -/
theorem refused_splice_iff {a b : R.Items} {args : SpliceArgs Sv} {pre post : List Sv} {sv : Sv}
    {es : R.Items} {c : Croak} (hargs : args.values = pre ++ sv :: post)
    (hpre : List.Forall₂ (fun sv e => R.convertElement sv = .ok e) pre es)
    (hsv : R.convertElement sv = .error (.croak c)) :
    R.Refused a (.splice args) b ↔ R.SpliceReaches a args pre.length ∧
      ∃ room a', spliceRoom R.getItem R.setItem R.size R.resize args a = .ok room a' ∧
        b = a'.take (spliceStart a.length args).toNat ++ es ++
          a'.drop ((spliceStart a.length args).toNat + pre.length) := by
  have hvalues : pre.length < args.values.length := by
    rw [hargs, List.length_append, List.length_cons]
    omega
  constructor
  · rintro ⟨⟨c', hrun⟩, hroom⟩
    obtain ⟨room, a', hroom⟩ := hroom args rfl
    rw [run_splice hroom, hargs] at hrun
    obtain ⟨hstart, hk, hstops⟩ | ⟨-, b', hbounds⟩ :=
      storeAll_stops hpre hsv a' (spliceStart a.length args) post
    · cases hrun.symm.trans hstops
      exact ⟨reaches_of_room hroom hstart hk hvalues, room, a', hroom, rfl⟩
    · cases hrun.symm.trans hbounds
  · rintro ⟨hreaches, room, a', hroom, rfl⟩
    obtain ⟨_, a₁, hroom₁, hk, -⟩ := room_of_reaches hreaches hvalues
    cases hroom.symm.trans hroom₁
    refine ⟨⟨c, ?_⟩, fun args' heq => ?_⟩
    · rw [run_splice hroom, hargs]
      obtain ⟨-, -, hstops⟩ | ⟨hbounds, -⟩ :=
        storeAll_stops hpre hsv a' (spliceStart a.length args) post
      · exact hstops
      · have hstart := hreaches.1
        omega
    · cases heq
      exact ⟨room, a', hroom⟩

/-- Values that are already there -/
theorem take_append_drop_eq_iff {α : Type} {a es : List α} {o k : ℕ} :
    a.take o ++ es ++ a.drop (o + k) = a ↔ es = (a.drop o).take k := by
  have hsplit : a.take o ++ (a.drop o).take k ++ a.drop (o + k) = a := by
    rw [List.append_assoc, ← List.drop_drop, List.take_append_drop, List.take_append_drop]
  constructor
  · intro h
    have heq := h.trans hsplit.symm
    rw [List.append_left_inj, List.append_right_inj] at heq
    exact heq
  · rintro rfl
    exact hsplit

theorem converted_unique {svs : List Sv} {es es' : R.Items}
    (h : List.Forall₂ (fun sv e => R.convertElement sv = .ok e) svs es)
    (h' : List.Forall₂ (fun sv e => R.convertElement sv = .ok e) svs es') : es = es' :=
  List.right_unique_forall₂' (fun _ _ _ he he' => Except.ok.inj (he.symm.trans he')) h h'

/-- A `splice` that is refused leaves the array alone if the values before the refused one
were there already and nothing was cut off. -/
theorem splice_unchanged_iff (a : R.Items) (args : SpliceArgs Sv) :
    (∀ b, R.Refused a (.splice args) b → b = a) ↔ R.Clean a (.splice args) := by
  constructor
  · rintro hkeeps pre sv hstops ⟨c, hc⟩ hreaches
    obtain ⟨post, es, -, hargs, hpre, -⟩ := exists_of_stopsAt hstops
    have hvalues : pre.length < args.values.length := by
      rw [hargs, List.length_append, List.length_cons]
      omega
    -- once the loop is reached, the room is made and the first values are there
    obtain ⟨room, a', hroom, hk, hcut⟩ := room_of_reaches hreaches hvalues
    have hkept := hkeeps _ ((refused_splice_iff hargs hpre hc).mpr ⟨hreaches, room, a', hroom, rfl⟩)
    have hstart := hreaches.1
    have hlength := hpre.length_eq
    obtain ⟨hfew, rfl⟩ | ⟨-, hshort⟩ := hcut
    · rw [take_append_drop_eq_iff] at hkept
      exact ⟨hfew, hkept ▸ hpre⟩
    · have hsame := congrArg List.length hkept
      simp only [List.length_append, List.length_take, List.length_drop] at hsame
      omega
  · rintro hclean b ⟨⟨c, hrun⟩, hroom⟩
    obtain ⟨room, a', hroom⟩ := hroom args rfl
    have hstore := (run_splice hroom).mp hrun
    obtain hall | ⟨pre, sv, hstops⟩ := forall_or_stopsAt R.Takes args.values
    -- nothing is refused
    · exact absurd hstore (storeAll_takes hall a' _)
    · obtain ⟨post, es, fault, hargs, hpre, hsv⟩ := exists_of_stopsAt hstops
      have hvalues : pre.length < args.values.length := by
        rw [hargs, List.length_append, List.length_cons]
        omega
      obtain rfl : fault = .croak c := by
        rw [hargs] at hstore
        obtain ⟨-, -, hstops⟩ | ⟨-, b', hbounds⟩ :=
          storeAll_stops hpre hsv a' (spliceStart a.length args) post
        · cases hstore.symm.trans hstops
          rfl
        · cases hstore.symm.trans hbounds
      obtain ⟨hreaches, room₁, a₁, hroom₁, rfl⟩ := (refused_splice_iff hargs hpre hsv).mp
        ⟨⟨c, hrun⟩, fun _ heq => by cases heq; exact ⟨room, a', hroom⟩⟩
      obtain ⟨hfew, hthere⟩ := hclean pre sv hstops ⟨c, hsv⟩ hreaches
      obtain ⟨room₂, a₂, hroom₂, -, hcut⟩ := room_of_reaches hreaches hvalues
      cases hroom₁.symm.trans hroom₂
      obtain ⟨-, rfl⟩ | ⟨hmore, -⟩ := hcut
      · exact take_append_drop_eq_iff.mpr (converted_unique hpre hthere)
      · omega

theorem push_unchanged_iff (a : R.Items) (svs : List Sv) :
    (∀ b, R.Refused a (.push svs) b → b = a) ↔ R.Clean a (.push svs) := by
  constructor
  · rintro hkeeps pre sv hstops ⟨c, hc⟩
    obtain ⟨post, es, -, rfl, hpre, -⟩ := exists_of_stopsAt hstops
    have hkept := hkeeps (a ++ es)
      ⟨⟨c, run_push.mpr (push_stops hpre hc a post)⟩, fun _ h => by cases h⟩
    obtain rfl : es = [] := by simpa using hkept
    exact List.forall₂_nil_right_iff.mp hpre
  · rintro hclean b ⟨⟨c, hrun⟩, -⟩
    rw [run_push] at hrun
    obtain hall | ⟨pre, sv, hstops⟩ := forall_or_stopsAt R.Takes svs
    · obtain ⟨es, hes⟩ := exists_converted hall
      cases hrun.symm.trans (push_eq hes a)
    · obtain ⟨post, es, fault, rfl, hpre, hsv⟩ := exists_of_stopsAt hstops
      cases hrun.symm.trans (push_stops hpre hsv a post)
      obtain rfl := hclean pre sv hstops ⟨c, hsv⟩
      obtain rfl := List.forall₂_nil_left_iff.mp hpre
      exact List.append_nil a

/-- The slot that was made for the refused value is always left. -/
theorem unshift_unchanged_iff (a : R.Items) (svs : List Sv) :
    (∀ b, R.Refused a (.unshift svs) b → b = a) ↔ R.Clean a (.unshift svs) := by
  constructor
  · rintro hkeeps pre sv hstops ⟨c, hc⟩
    obtain ⟨post, es, -, hsvs, hpre, -⟩ := exists_of_stopsAt hstops
    obtain ⟨e, he⟩ := unshift_stops hpre hc a post
    have hkept := hkeeps (e :: (es.reverse ++ a))
      ⟨⟨c, run_unshift.mpr (hsvs ▸ he)⟩, fun _ h => by cases h⟩
    have hlength := congrArg List.length hkept
    simp only [List.length_cons, List.length_append, List.length_reverse] at hlength
    omega
  · rintro hclean b ⟨⟨c, hrun⟩, -⟩
    rw [run_unshift] at hrun
    obtain hall | ⟨pre, sv, hstops⟩ := forall_or_stopsAt R.Takes svs.reverse
    · obtain ⟨es, hes⟩ := exists_converted hall
      cases hrun.symm.trans (unshift_eq hes a)
    · obtain ⟨post, es, fault, hsvs, hpre, hsv⟩ := exists_of_stopsAt hstops
      obtain ⟨e, he⟩ := unshift_stops hpre hsv a post
      rw [← hsvs] at he
      cases hrun.symm.trans he
      exact absurd ⟨c, hsv⟩ (hclean pre sv hstops)

theorem insert_unchanged_iff (a : R.Items) (i : ℤ) (sv : Sv) :
    (∀ b, R.Refused a (.insert i sv) b → b = a) ↔ R.Clean a (.insert i sv) := by
  constructor
  · rintro hkeeps ⟨c, hc⟩
    by_contra hi
    have hkept := hkeeps _ ⟨⟨c, run_insert.mpr (insert_stops hi hc)⟩, fun _ h => by cases h⟩
    have hlength := congrArg List.length hkept
    simp only [List.length_append, List.length_cons, List.length_take, List.length_drop] at hlength
    omega
  · rintro hclean b ⟨⟨c, hrun⟩, -⟩
    rw [run_insert] at hrun
    by_cases hi : i < 0 ∨ a.length < i
    · rw [insert, if_pos hi] at hrun
      cases hrun
    · cases hsv : R.convertElement sv with
      | ok e =>
          rw [insert, if_neg hi] at hrun
          simp only [hsv] at hrun
          cases hrun
      | error fault =>
          cases hrun.symm.trans (insert_stops hi hsv)
          exact absurd (hclean ⟨c, hsv⟩) hi

/-- A refused call leaves the array alone exactly if nothing was done before the refusal. -/
theorem refused_unchanged_iff (a : R.Items) (op : ElementOp Sv) :
    (∀ b, R.Refused a op b → b = a) ↔ R.Clean a op := by
  cases op with
  | store i sv => exact iff_of_true (fun b h => store_unchanged h.1.choose_spec) trivial
  | push svs => exact push_unchanged_iff a svs
  | unshift svs => exact unshift_unchanged_iff a svs
  | splice args => exact splice_unchanged_iff a args
  | insert i sv => exact insert_unchanged_iff a i sv

end GooglePerl.Xs.RepeatedField
