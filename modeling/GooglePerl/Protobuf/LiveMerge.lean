import GooglePerl.Protobuf.Copy
import GooglePerl.Protobuf.MergeAlgebra

/-!
`merge` of the pure-Perl engine turn by turn, where the source may change under it.

The loops of `merge` read the source while they write the destination. What the
source holds is a function of what the destination holds, its `View`: a constant
one for a message of its own, the identity for the destination itself. The names
and the keys are listed before the first turn, but `foreach` looks at an array
before every turn, so the loops have a number of turns to spend.

A merge from a source of its own always ends (`mergeLive_own_ends`), and is the
`merge` of the two field tables (`mergeLive_own`).
-/

namespace GooglePerl.Protobuf

open GooglePerl.Lib

/-- `_fields` -/
abbrev FieldTable := List (PerlStr × Val)

/-- The fields of the source, given those of the destination. -/
abbrev View := FieldTable → FieldTable

/-- A run with a limited number of turns: `none` when they are used up. -/
abbrev Turns := Option (Except (Die × FieldTable) FieldTable)

/-- Go on with what a turn leaves, unless it has stopped the run. -/
def goOn : Turns → (FieldTable → Turns) → Turns
  | some (.ok t), rest => rest t
  | stopped, _ => stopped

/-! ### The loops -/

/-- `||=` -/
def orCreate (container : Val) (old : Option Val) : Val := (old.filter Val.truthy).getD container

def arrayItem : Option Val → ℕ → Option Val
  | some (.arr _ xs), i => xs[i]?
  | _, _ => none

def hashItem : Option Val → PerlStr → Val
  | some (.hash es), k => (Assoc.find es k).getD .undef
  | _, _ => .undef

def messageFields : Option Val → FieldTable
  | some (.msg _ fs _) => fs
  | _ => []

/-- What goes wrong with something that should be a hash. -/
def hashFault : Option Val → Die
  | some (.big _) | some (.msg _ _ _) => .fault .internals
  | _ => .fault .notReference

/-- A result put under its name, also when it comes with a death. -/
def putResult {α : Type} (t : FieldTable) (name : PerlStr) (wrap : α → Val) :
    Except (Die × α) α → Except (Die × FieldTable) FieldTable
  | .ok a => .ok (Assoc.store t name (wrap a))
  | .error (e, a) => .error (e, Assoc.store t name (wrap a))

/-- `push @{…}, $item` -/
def pushItem (S : Pool) (f : FieldDef) (item : Val) : Option Val → Except Die Val
  | some (.arr .tied xs) => ((pushTied S f xs [item]).mapError Prod.fst).map (.arr .tied)
  | some (.arr kind xs) => .ok (.arr kind (xs ++ [item]))
  | none => .ok (.arr .plain [item])
  | some _ => .error (.fault .notReference)

/-- `foreach my $item (@$val) { push @{$dst->{_fields}{$name}}, _deep_clone($item) }` -/
def pushItems (S : Pool) (f : FieldDef) (name : PerlStr) (view : View) :
    ℕ → ℕ → FieldTable → Turns
  | 0, _, _ => none
  | n + 1, i, t =>
      match arrayItem (Assoc.find (view t) name) i with
      | none => some (.ok t)
      | some item =>
          match pushItem S f (deepClone item) (Assoc.find t name) with
          | .ok x => pushItems S f name view n (i + 1) (Assoc.store t name x)
          | .error e => some (.error (e, t))

/-- `foreach my $k (keys %$val) { $dst->{_fields}{$name}{$k} = _deep_clone($val->{$k}) }` -/
def storeItems (name : PerlStr) (view : View) :
    List PerlStr → FieldTable → Except (Die × FieldTable) FieldTable
  | [], t => .ok t
  | k :: ks, t =>
      match Assoc.find t name with
      | some (.hash es) =>
          storeItems name view ks (Assoc.store t name
            (.hash (Assoc.store es k (deepClone (hashItem (Assoc.find (view t) name) k)))))
      | old => .error (hashFault old, t)

/-- The source's sub-message, given the destination's. -/
def innerView (view : View) (t : FieldTable) (name : PerlStr) (c : String) (u : Option PerlStr) :
    View :=
  fun inner => messageFields (Assoc.find (view (Assoc.store t name (.msg c inner u))) name)

section

variable (S : Pool) (view : View) (n : ℕ) (sub : String → View → FieldTable → Turns)

/-- `$self->merge($dst->{_fields}{$name}, $val)` -/
def mergeInner (name : PerlStr) (t : FieldTable) (x val : Val) : Turns :=
  match x, val with
  | .msg c inner u, .msg _ _ _ =>
      (sub c (innerView view t name c u) inner).map (putResult t name fun r => .msg c r u)
  | x, val => some (putResult t name id (mergeVal S val x))

/-- The branches of `merge` for one defined value. -/
def mergeTurn (f : FieldDef) (name : PerlStr) (val : Val) (t : FieldTable) : Turns :=
  match f.shape S with
  | .map _ =>
      let t := Assoc.store t name (orCreate (.hash []) (Assoc.find t name))
      match val with
      | .hash es => some (storeItems name view (Assoc.keys es) t)
      | val => some (.error (hashFault (some val), t))
  | .repeated =>
      let t := Assoc.store t name (orCreate (.arr .blessed []) (Assoc.find t name))
      match val with
      | .arr _ _ => pushItems S f name view n 0 t
      | _ => some (.error (.fault .notReference, t))
  -- `if (exists $dst->{_fields}{$name})`, for a message; everything else is replaced by a clone
  | .singular =>
      match f.type, Assoc.find t name with
      | .message _, some x => mergeInner S view sub name t x val
      | _, _ => some (.ok (Assoc.store t name (deepClone val)))

/-- The loop of `merge`, over the names the source had at the start. -/
def mergeNames (d : MessageDef) : List PerlStr → FieldTable → Turns
  | [], t => some (.ok t)
  | name :: names, t =>
      match Assoc.find (view t) name, d.findFieldByName name with
      | some val, some f =>
          if val.isDefined then
            goOn (mergeTurn S view n sub f name val t) fun t => mergeNames d names t
          else mergeNames d names t
      | _, _ => mergeNames d names t

end

/-- `merge`, with a number of turns for each loop and for the nesting. -/
def mergeLive (S : Pool) : ℕ → String → View → FieldTable → Turns
  | 0, _, _, _ => none
  | n + 1, c, view, t =>
      mergeNames S view n (mergeLive S n) (S.descriptor c) (Assoc.keys (view t)).dedup t

variable {S : Pool} {view : View} {n : ℕ} {sub : String → View → FieldTable → Turns}

theorem goOn_eq_ok {r : Turns} {rest : FieldTable → Turns} {t' : FieldTable} :
    goOn r rest = some (.ok t') ↔ ∃ t, r = some (.ok t) ∧ rest t = some (.ok t') := by
  rcases r with - | (e | t) <;> simp [goOn]

/-! ### A turn leaves the other names alone -/

theorem pushItems_frame {f : FieldDef} {name : PerlStr} {i : ℕ} {t t' : FieldTable}
    (h : pushItems S f name view n i t = some (.ok t')) {k : PerlStr} (hk : k ≠ name) :
    Assoc.find t' k = Assoc.find t k := by
  induction n generalizing i t with
  | zero => cases h
  | succ n ih =>
      rw [pushItems] at h
      split at h
      · obtain rfl := Except.ok.inj (Option.some.inj h)
        rfl
      · split at h
        · rw [ih h, Assoc.find_store_of_ne _ _ hk]
        · cases h

theorem storeItems_frame {name : PerlStr} {ks : List PerlStr} {t t' : FieldTable}
    (h : storeItems name view ks t = .ok t') {k : PerlStr} (hk : k ≠ name) :
    Assoc.find t' k = Assoc.find t k := by
  induction ks generalizing t with
  | nil =>
      obtain rfl := Except.ok.inj h
      rfl
  | cons key ks ih =>
      rw [storeItems] at h
      split at h
      · rw [ih h, Assoc.find_store_of_ne _ _ hk]
      · cases h

theorem putResult_frame {α : Type} {t t' : FieldTable} {name : PerlStr} {wrap : α → Val}
    {x : Except (Die × α) α} (h : putResult t name wrap x = .ok t') {k : PerlStr} (hk : k ≠ name) :
    Assoc.find t' k = Assoc.find t k := by
  rcases x with ⟨e, a⟩ | a
  · cases h
  · obtain rfl := Except.ok.inj h
    exact Assoc.find_store_of_ne _ _ hk

theorem mergeInner_frame {name : PerlStr} {t t' : FieldTable} {x val : Val}
    (h : mergeInner S view sub name t x val = some (.ok t')) {k : PerlStr} (hk : k ≠ name) :
    Assoc.find t' k = Assoc.find t k := by
  unfold mergeInner at h
  split at h
  · obtain ⟨r, -, hr⟩ := Option.map_eq_some_iff.mp h
    exact putResult_frame hr hk
  · exact putResult_frame (Option.some.inj h) hk

theorem mergeTurn_frame {f : FieldDef} {name : PerlStr} {val : Val} {t t' : FieldTable}
    (h : mergeTurn S view n sub f name val t = some (.ok t')) {k : PerlStr} (hk : k ≠ name) :
    Assoc.find t' k = Assoc.find t k := by
  unfold mergeTurn at h
  split at h
  · simp only at h
    split at h
    · rw [storeItems_frame (Option.some.inj h) hk, Assoc.find_store_of_ne _ _ hk]
    · cases h
  · simp only at h
    split at h
    · rw [pushItems_frame h hk, Assoc.find_store_of_ne _ _ hk]
    · cases h
  · split at h
    · exact mergeInner_frame h hk
    · obtain rfl := Except.ok.inj (Option.some.inj h)
      exact Assoc.find_store_of_ne _ _ hk

/-! ### More turns change nothing -/

theorem goOn_mono {r r' : Turns} {rest rest' : FieldTable → Turns} {x : Except _ FieldTable}
    (hr : ∀ y, r = some y → r' = some y) (hrest : ∀ t y, rest t = some y → rest' t = some y)
    (h : goOn r rest = some x) : goOn r' rest' = some x := by
  rcases r with - | (e | t)
  · cases h
  · rw [hr _ rfl]
    exact h
  · rw [hr _ rfl]
    exact hrest t x h

theorem pushItems_succ {f : FieldDef} {name : PerlStr} {i : ℕ} {t : FieldTable}
    {r : Except _ FieldTable} (h : pushItems S f name view n i t = some r) :
    pushItems S f name view (n + 1) i t = some r := by
  induction n generalizing i t with
  | zero => cases h
  | succ n ih =>
      rw [pushItems] at h ⊢
      split at h
      · exact h
      · split at h
        · exact ih h
        · exact h

/-- The loops with more turns, and with an inner merge that has more. -/
theorem mergeTurn_succ {sub' : String → View → FieldTable → Turns}
    (hsub : ∀ c view t r, sub c view t = some r → sub' c view t = some r) {f : FieldDef}
    {name : PerlStr} {val : Val} {t : FieldTable} {r : Except _ FieldTable}
    (h : mergeTurn S view n sub f name val t = some r) :
    mergeTurn S view (n + 1) sub' f name val t = some r := by
  unfold mergeTurn at h ⊢
  split at h
  · exact h
  · simp only at h ⊢
    split at h
    · exact pushItems_succ h
    · exact h
  · split at h
    · unfold mergeInner at h ⊢
      split at h
      · obtain ⟨y, hy, hr⟩ := Option.map_eq_some_iff.mp h
        exact Option.map_eq_some_iff.mpr ⟨y, hsub _ _ _ _ hy, hr⟩
      · exact h
    · exact h

theorem mergeNames_succ {sub' : String → View → FieldTable → Turns}
    (hsub : ∀ c view t r, sub c view t = some r → sub' c view t = some r) {d : MessageDef}
    {names : List PerlStr} {t : FieldTable} {r : Except _ FieldTable}
    (h : mergeNames S view n sub d names t = some r) :
    mergeNames S view (n + 1) sub' d names t = some r := by
  induction names generalizing t r with
  | nil => exact h
  | cons name names ih =>
      rw [mergeNames] at h ⊢
      split at h
      · split at h
        · rename_i hdef
          rw [if_pos hdef]
          exact goOn_mono (fun _ hy => mergeTurn_succ hsub hy) (fun _ _ hy => ih hy) h
        · rename_i hdef
          rw [if_neg hdef]
          exact ih h
      · exact ih h

theorem mergeLive_succ {c : String} {t : FieldTable} {r : Except _ FieldTable}
    (h : mergeLive S n c view t = some r) : mergeLive S (n + 1) c view t = some r := by
  induction n generalizing c view t r with
  | zero => cases h
  | succ n ih => exact mergeNames_succ (fun _ _ _ _ hy => ih hy) h

theorem mergeLive_mono {m : ℕ} (hle : n ≤ m) {c : String} {t : FieldTable}
    {r : Except _ FieldTable} (h : mergeLive S n c view t = some r) :
    mergeLive S m c view t = some r := by
  induction hle with
  | refl => exact h
  | step _ ih => exact mergeLive_succ ih

/-! ### A source of its own -/

theorem sizeOf_lt_of_find {fs : FieldTable} {name : PerlStr} {v : Val}
    (h : Assoc.find fs name = some v) : sizeOf v < sizeOf fs := by
  have hmem := List.sizeOf_lt_of_mem (Assoc.mem_of_find h)
  simp only [Prod.mk.sizeOf_spec] at hmem
  omega

theorem length_lt_sizeOf (ys : List Val) : ys.length < sizeOf ys := by
  induction ys with
  | nil => simp
  | cons y ys ih =>
      simp only [List.length_cons, List.cons.sizeOf_spec]
      omega

theorem sizeOf_messageFields (v : Val) : sizeOf (messageFields (some v)) ≤ sizeOf v := by
  cases v with
  | msg c fs u =>
      simp only [messageFields, Val.msg.sizeOf_spec]
      omega
  | arr kind items =>
      simp only [messageFields, List.nil.sizeOf_spec, Val.arr.sizeOf_spec]
      omega
  | _ => simp [messageFields]

/-- `foreach` over an array that does not change ends with it. -/
theorem pushItems_own_ends {fs : FieldTable} {name : PerlStr} {kind : ArrKind} {ys : List Val}
    (hys : Assoc.find fs name = some (.arr kind ys)) {i : ℕ} (hi : ys.length - i < n)
    (f : FieldDef) (t : FieldTable) : pushItems S f name (fun _ => fs) n i t ≠ none := by
  induction n generalizing i t with
  | zero => exact absurd hi (Nat.not_lt_zero _)
  | succ n ih =>
      rw [pushItems, hys]
      cases hitem : arrayItem (some (.arr kind ys)) i with
      | none => simp
      | some item =>
          obtain ⟨hlt, -⟩ := List.getElem?_eq_some_iff.mp hitem
          simp only
          split
          · exact ih (by omega) _
          · simp

theorem goOn_ne_none {r : Turns} {rest : FieldTable → Turns} (hr : r ≠ none)
    (hrest : ∀ t, rest t ≠ none) : goOn r rest ≠ none := by
  rcases r with - | (e | t)
  · exact absurd rfl hr
  · simp [goOn]
  · exact hrest t

theorem mergeTurn_own_ends {fs : FieldTable} {name : PerlStr} {val : Val}
    (hval : Assoc.find fs name = some val) (hn : sizeOf val ≤ n)
    (hsub : ∀ c inner, sub c (fun _ => messageFields (some val)) inner ≠ none) (f : FieldDef)
    (t : FieldTable) : mergeTurn S (fun _ => fs) n sub f name val t ≠ none := by
  unfold mergeTurn
  split
  · simp only
    split <;> simp
  · simp only
    split
    · rename_i kind ys
      have hlen : ys.length < n := by
        have hlt := length_lt_sizeOf ys
        simp only [Val.arr.sizeOf_spec] at hn
        omega
      exact pushItems_own_ends hval (by omega) f _
    · simp
  · split
    · unfold mergeInner
      split
      · rw [Ne, Option.map_eq_none_iff]
        have hinner := hsub
        rw [← hval] at hinner
        exact hinner _ _
      · simp
    · simp

/-- A merge from a source of its own ends. -/
theorem mergeLive_own_ends {fs : FieldTable} (hn : sizeOf fs < n) (c : String) (t : FieldTable) :
    mergeLive S n c (fun _ => fs) t ≠ none := by
  induction n generalizing c fs t with
  | zero => exact absurd hn (Nat.not_lt_zero _)
  | succ n ih =>
      rw [mergeLive]
      generalize (Assoc.keys fs).dedup = names
      induction names generalizing t with
      | nil => simp [mergeNames]
      | cons name names ihn =>
          rw [mergeNames]
          split
          · rename_i val f hval hf
            have hsize := sizeOf_lt_of_find hval
            split
            · refine goOn_ne_none (mergeTurn_own_ends hval (by omega) ?_ f t) fun t => ihn t
              have hfields := sizeOf_messageFields val
              exact fun c' inner => ih (by omega) c' inner
            · exact ihn t
          · exact ihn t

/-! ### It is `merge` -/

/-- The tables that a merge goes through name each field once. -/
inductive NamesOnce : Val → Prop where
  | msg {c : String} {fs : FieldTable} {u : Option PerlStr} (hnd : (Assoc.keys fs).Nodup)
      (h : ∀ k v, Assoc.find fs k = some v → NamesOnce v) : NamesOnce (.msg c fs u)
  | hash {es : List (PerlStr × Val)} (hnd : (Assoc.keys es).Nodup) : NamesOnce (.hash es)
  | other {v : Val} (hmsg : ∀ c fs u, v ≠ .msg c fs u) (hhash : ∀ es, v ≠ .hash es) : NamesOnce v

theorem WellTyped.namesOnce {sh : Shape} {t : FieldType} {v : Val} (h : WellTyped S sh t v) :
    NamesOnce v := by
  induction h with
  | @scalar t v _ hv _ => exact .other (by rintro c fs u rfl; exact hv) (by rintro es rfl; exact hv)
  | @msg cls fs u hnd hknown _ ih =>
      refine .msg hnd fun k v hv => ?_
      obtain ⟨f, hf⟩ := Option.ne_none_iff_exists'.mp
        (hknown k (Assoc.mem_keys_of_mem (Assoc.mem_of_find hv)))
      obtain ⟨hmem, rfl⟩ := MessageDef.findFieldByName_eq_some.mp hf
      exact ih f hmem v hv
  | repeated => exact .other (by simp) (by simp)
  | map _ hnd => exact .hash hnd

theorem store_store (t : FieldTable) (name : PerlStr) (v w : Val) :
    Assoc.store (Assoc.store t name v) name w = Assoc.store t name w := by
  induction t with
  | nil => simp [Assoc.store]
  | cons p t ih =>
      obtain ⟨k, x⟩ := p
      by_cases hk : name = k <;> simp [Assoc.store, hk, ih]

theorem storeItems_own {fs : FieldTable} {name : PerlStr} {es : List (PerlStr × Val)}
    (hes : Assoc.find fs name = some (.hash es)) (hnd : (Assoc.keys es).Nodup)
    {gs : List (PerlStr × Val)} (hsub : ∀ p ∈ gs, p ∈ es) (t : FieldTable)
    (table : List (PerlStr × Val)) :
    storeItems name (fun _ => fs) (Assoc.keys gs) (Assoc.store t name (.hash table)) =
      .ok (Assoc.store t name (.hash (mergeEntries gs table))) := by
  induction gs generalizing table with
  | nil => rfl
  | cons p gs ih =>
      obtain ⟨k, v⟩ := p
      have hv : Assoc.find es k = some v := Assoc.find_of_mem hnd (hsub _ List.mem_cons_self)
      have hrest := ih (fun p hp => hsub p (List.mem_cons_of_mem _ hp))
        (Assoc.store table k (deepClone v))
      rw [Assoc.keys, List.map_cons, storeItems]
      simp only [Assoc.find_store_self, hes, hashItem, hv, Option.getD_some, store_store]
      exact hrest

/-- What pushing gives an array of a kind. -/
def Pushed (S : Pool) (f : FieldDef) (kind : ArrKind) (xs items zs : List Val) : Prop :=
  match kind with
  | .tied => pushTied S f xs items = .ok zs
  | _ => zs = xs ++ items

theorem Pushed.nil {f : FieldDef} {kind : ArrKind} {xs zs : List Val}
    (h : Pushed S f kind xs [] zs) : zs = xs := by
  cases kind with
  | tied => exact (Except.ok.inj h).symm
  | _ => exact h.trans (List.append_nil xs)

theorem Pushed.cons {f : FieldDef} {kind : ArrKind} {xs items zs : List Val} {item : Val}
    (h : Pushed S f kind xs (item :: items) zs) :
    ∃ ys, pushItem S f item (some (.arr kind xs)) = .ok (.arr kind ys) ∧
      Pushed S f kind ys items zs := by
  cases kind with
  | tied =>
      rw [Pushed, pushTied] at h
      split at h
      · rename_i item' hitem
        exact ⟨xs ++ [item'], by simp [pushItem, pushTied, hitem, Except.mapError, Except.map], h⟩
      · cases h
  | _ => exact ⟨xs ++ [item], rfl, h.trans (List.append_cons xs item items)⟩

theorem pushItems_own {fs : FieldTable} {f : FieldDef} {name : PerlStr} {kind' : ArrKind}
    {done rest : List Val} (hys : Assoc.find fs name = some (.arr kind' (done ++ rest)))
    (hn : rest.length < n) {kind : ArrKind} {xs zs : List Val} (t : FieldTable)
    (h : Pushed S f kind xs (deepCloneList rest) zs) :
    pushItems S f name (fun _ => fs) n done.length (Assoc.store t name (.arr kind xs)) =
      some (.ok (Assoc.store t name (.arr kind zs))) := by
  induction rest generalizing n done xs with
  | nil =>
      obtain ⟨n, rfl⟩ : ∃ m, n = m + 1 := ⟨n - 1, by simp at hn; omega⟩
      obtain rfl := h.nil
      rw [pushItems, hys]
      simp [arrayItem]
  | cons item rest ih =>
      obtain ⟨n, rfl⟩ : ∃ m, n = m + 1 := ⟨n - 1, by simp at hn; omega⟩
      obtain ⟨ys, hpush, hrest⟩ := h.cons
      have hitem :
          arrayItem (some (.arr kind' (done ++ item :: rest))) done.length = some item := by
        simp [arrayItem]
      rw [pushItems, hys, hitem]
      simp only [Assoc.find_store_self, hpush, store_store]
      have hnext : pushItems S f name (fun _ => fs) n (done ++ [item]).length
          (Assoc.store t name (.arr kind ys)) = some (.ok (Assoc.store t name (.arr kind zs))) :=
        ih (by simpa using hys) (by simpa using hn) hrest
      simpa using hnext

theorem mergeRepeated_eq_ok {f : FieldDef} {val x : Val} {old : Option Val}
    (h : mergeRepeated S f val old = .ok x) :
    ∃ kind xs kind' ys zs, orCreate (.arr .blessed []) old = .arr kind xs ∧ val = .arr kind' ys ∧
      x = .arr kind zs ∧ Pushed S f kind xs (deepCloneList ys) zs := by
  unfold mergeRepeated at h
  split at h
  · rename_i kind xs hold
    split at h
    · rename_i kind' ys
      split at h
      · split at h
        · rename_i zs hzs
          exact ⟨.tied, xs, kind', ys, zs, hold, rfl, (Except.ok.inj h).symm, hzs⟩
        · cases h
      · rename_i hkind
        refine ⟨kind, xs, kind', ys, xs ++ deepCloneList ys, hold, rfl, (Except.ok.inj h).symm, ?_⟩
        cases kind with
        | tied => exact absurd rfl hkind
        | _ => rfl
    · cases h
  · cases h

theorem mergeMap_eq_ok {val x : Val} {old : Option Val} (h : mergeMap val old = .ok x) :
    ∃ table es, orCreate (.hash []) old = .hash table ∧ val = .hash es ∧
      x = .hash (mergeEntries es table) := by
  unfold mergeMap at h
  split at h
  · rename_i table hold
    split at h
    · rename_i es
      exact ⟨table, es, hold, rfl, (Except.ok.inj h).symm⟩
    · cases h
    · cases h
    · cases h
  · cases h
  · cases h
  · cases h

theorem mergeVal_msg_eq_ok {c c' : String} {fs inner : FieldTable} {u u' : Option PerlStr} {x : Val}
    (h : mergeVal S (.msg c' fs u') (.msg c inner u) = .ok x) :
    ∃ r, mergeFields S (S.descriptor c) fs inner = .ok r ∧ x = .msg c r u := by
  rw [mergeVal] at h
  split at h
  · rename_i r hr
    exact ⟨r, hr, (Except.ok.inj h).symm⟩
  · cases h

/-- A turn with a source of its own stores what `merge` stores. -/
theorem mergeTurn_own {fs : FieldTable} {name : PerlStr} {val x : Val} {f : FieldDef}
    {t : FieldTable} (hval : Assoc.find fs name = some val) (honce : NamesOnce val)
    (hn : sizeOf val ≤ n)
    (hsub : ∀ c c' fs' u' inner r, val = .msg c' fs' u' →
      mergeFields S (S.descriptor c) fs' inner = .ok r → sub c (fun _ => fs') inner = some (.ok r))
    (h : mergedValue S f val (mergeVal S val) (Assoc.find t name) = .ok x) :
    mergeTurn S (fun _ => fs) n sub f name val t = some (.ok (Assoc.store t name x)) := by
  unfold mergedValue at h
  unfold mergeTurn
  cases hshape : f.shape S with
  | map c =>
      simp only [hshape] at h ⊢
      obtain ⟨table, es, hold, rfl, rfl⟩ := mergeMap_eq_ok h
      have hnd : (Assoc.keys es).Nodup := by
        cases honce with
        | hash hnd => exact hnd
        | other _ hhash => exact absurd rfl (hhash es)
      simp only [hold, storeItems_own hval hnd (fun p hp => hp)]
  | repeated =>
      simp only [hshape] at h ⊢
      obtain ⟨kind, xs, kind', ys, zs, hold, rfl, rfl, hpushed⟩ := mergeRepeated_eq_ok h
      have hlen := length_lt_sizeOf ys
      simp only [Val.arr.sizeOf_spec] at hn
      have hrun : pushItems S f name (fun _ => fs) n ([] : List Val).length
          (Assoc.store t name (.arr kind xs)) = some (.ok (Assoc.store t name (.arr kind zs))) :=
        pushItems_own hval (by omega) t hpushed
      simp only [hold]
      exact hrun
  | singular =>
      simp only [hshape] at h ⊢
      split
      · rename_i c y hc hy
        simp only [hc, hy] at h
        unfold mergeInner
        split
        · rename_i c' inner u c'' fs' u'
          obtain ⟨r, hr, rfl⟩ := mergeVal_msg_eq_ok h
          -- a source of its own has a sub-message of its own
          have hinner : innerView (fun _ => fs) t name c' u = fun _ => fs' := by
            funext _
            rw [innerView, hval]
            rfl
          rw [hinner, hsub c' c'' fs' u' inner r rfl hr]
          rfl
        · rw [h]
          rfl
      · rename_i hnot
        have hx : deepClone val = x := by
          split at h
          · rename_i c y hc hy
            exact absurd hy (hnot c y hc)
          · exact Except.ok.inj h
        rw [hx]

/-- The loop over the names of a part of the source. -/
theorem mergeNames_own {d : MessageDef} {fs gs : FieldTable} (hnd : (Assoc.keys fs).Nodup)
    (honce : ∀ k v, Assoc.find fs k = some v → NamesOnce v) (hgs : ∀ p ∈ gs, p ∈ fs)
    (hn : sizeOf fs ≤ n)
    (hsub : ∀ c c' fs' u' inner r, sizeOf fs' < n → NamesOnce (.msg c' fs' u') →
      mergeFields S (S.descriptor c) fs' inner = .ok r → sub c (fun _ => fs') inner = some (.ok r))
    {t r : FieldTable} (h : mergeFields S d gs t = .ok r) :
    mergeNames S (fun _ => fs) n sub d (Assoc.keys gs) t = some (.ok r) := by
  induction gs generalizing t with
  | nil =>
      rw [mergeFields] at h
      obtain rfl := Except.ok.inj h
      rfl
  | cons p gs ih =>
      obtain ⟨name, val⟩ := p
      have hrest := @ih (fun p hp => hgs p (List.mem_cons_of_mem _ hp))
      have hval : Assoc.find fs name = some val :=
        Assoc.find_of_mem hnd (hgs _ List.mem_cons_self)
      have hsize := sizeOf_lt_of_find hval
      change mergeNames S (fun _ => fs) n sub d (name :: Assoc.keys gs) t = _
      rw [mergeNames]
      simp only [hval]
      -- an undefined value or an unknown name is passed over by both
      by_cases hskip : val.isDefined = false ∨ d.findFieldByName name = none
      · rw [mergeFields_skip S hskip] at h
        have hnext := hrest h
        rcases hskip with hundef | hnone
        · cases hf : d.findFieldByName name with
          | none => exact hnext
          | some f =>
              simp only [hundef, Bool.false_eq_true, if_false]
              exact hnext
        · simp only [hnone]
          exact hnext
      · push Not at hskip
        have hdef : val.isDefined = true := by simpa using hskip.1
        obtain ⟨f, hf⟩ := Option.ne_none_iff_exists'.mp hskip.2
        rw [mergeFields_cons S hdef hf] at h
        split at h
        · rename_i x hx
          have hturn : mergeTurn S (fun _ => fs) n sub f name val t =
              some (.ok (Assoc.store t name x)) := by
            refine mergeTurn_own hval (honce name val hval) (by omega) ?_ hx
            rintro c c' fs' u' inner r rfl hr
            refine hsub c c' fs' u' inner r ?_ (honce name _ hval) hr
            simp only [Val.msg.sizeOf_spec] at hsize
            omega
          simp only [hf, hdef, if_true, hturn, goOn]
          exact hrest h
        · cases h

/-- A merge from a source of its own does what `merge` does. -/
theorem mergeLive_own {c' : String} {fs : FieldTable} {u' : Option PerlStr}
    (honce : NamesOnce (.msg c' fs u')) (hn : sizeOf fs < n) {c : String} {t r : FieldTable}
    (h : mergeFields S (S.descriptor c) fs t = .ok r) :
    mergeLive S n c (fun _ => fs) t = some (.ok r) := by
  induction n generalizing c c' fs u' t r with
  | zero => exact absurd hn (Nat.not_lt_zero _)
  | succ n ih =>
      cases honce with
      | msg hnd hvalues =>
          rw [mergeLive, hnd.dedup]
          refine mergeNames_own hnd hvalues (fun p hp => hp) (by omega) ?_ h
          exact fun _ _ _ _ _ _ hlt hd hr => ih hd hlt hr
      | other hmsg => exact absurd rfl (hmsg c' fs u')

end GooglePerl.Protobuf
