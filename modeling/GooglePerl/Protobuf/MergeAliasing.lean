import GooglePerl.Protobuf.LiveMerge

/-!
When `merge_from` does what merging a snapshot of its source does.

A source that shares nothing with the destination stays what it was, and so does
one that shares messages, maps and scalars with it at the same place: storing a
copy of what is there changes nothing. A repeated field that both share is
different. Each turn of its loop makes the array longer that the loop goes over,
so that a message with such a field is never done with merging into itself.

`Clear` says which sources stay what they were, for any way in which the source
can depend on the destination; `Source` are the dependences at the same place,
for which `Clear` is exact.
-/

namespace GooglePerl.Protobuf

open GooglePerl.Lib

/-- An independent copy of the source. -/
def snapshot (view : View) (t : FieldTable) : View := fun _ => deepCloneEntries (view t)

/-- The merge ends, and as that of a copy of the source taken before the call does. -/
def SameAsSnapshot (S : Pool) (dst : Msg) (view : View) : Prop :=
  ∃ r N, ∀ n, N ≤ n → mergeLive S n dst.cls view dst.fields = some r ∧
    mergeLive S n dst.cls (snapshot view dst.fields) dst.fields = some r

/-- Nothing has changed but under some names. -/
def Away (names : List PerlStr) (t t' : FieldTable) : Prop :=
  ∀ k, k ∉ names → Assoc.find t' k = Assoc.find t k

/-- The source is not disturbed by what the merge writes. A field stays until its turn;
an array or a hash is the source's own for the whole loop, or it is the destination's
at the same place and no array with an element; and a sub-message that is merged into
is not disturbed either. -/
inductive Clear (S : Pool) : String → View → FieldTable → Prop where
  | intro {c : String} {view : View} {t : FieldTable}
      (fixed : ∀ name f val, (S.descriptor c).findFieldByName name = some f →
        Assoc.find (view t) name = some val → ∀ t', Away (Assoc.keys (view t)) t t' →
        Assoc.find t' name = Assoc.find t name → Assoc.find (view t') name = some val)
      (apart : ∀ name f val, (S.descriptor c).findFieldByName name = some f →
        f.shape S ≠ .singular → Assoc.find (view t) name = some val → val.isDefined = true →
        (∀ t', Away (Assoc.keys (view t)) t t' → Assoc.find (view t') name = some val) ∨
          (∀ t', Away (Assoc.keys (view t)) t t' →
            Assoc.find (view t') name = Assoc.find t' name) ∧
            ∀ kind x xs, val ≠ .arr kind (x :: xs))
      (inner : ∀ name f m c' fs u cls gs w, (S.descriptor c).findFieldByName name = some f →
        f.shape S = .singular → f.type = .message m →
        Assoc.find t name = some (.msg c' fs u) → Assoc.find (view t) name = some (.msg cls gs w) →
        ∀ t', Away (Assoc.keys (view t)) t t' → Assoc.find t' name = Assoc.find t name →
        Clear S c' (innerView view t' name c' u) fs) :
      Clear S c view t

section

variable {S : Pool} {view : View} {n : ℕ}

/-! ### What has changed -/

theorem Away.refl (names : List PerlStr) (t : FieldTable) : Away names t t := fun _ _ => rfl

/-- A turn of one of the names changes nothing else. -/
theorem Away.frame {names : List PerlStr} {t t' t'' : FieldTable} {name : PerlStr}
    (h : Away names t t') (hname : name ∈ names)
    (hframe : ∀ k, k ≠ name → Assoc.find t'' k = Assoc.find t' k) : Away names t t'' := by
  intro k hk
  have hne : k ≠ name := by
    rintro rfl
    exact hk hname
  rw [hframe k hne, h k hk]

theorem Away.store {names : List PerlStr} {t t' : FieldTable} {name : PerlStr}
    (h : Away names t t') (hname : name ∈ names) (x : Val) :
    Away names t (Assoc.store t' name x) :=
  h.frame hname fun _ hk => Assoc.find_store_of_ne _ _ hk

/-! ### Reading a copy -/

theorem arrayItem_clone (old : Option Val) (i : ℕ) :
    arrayItem (old.map deepClone) i = (arrayItem old i).map deepClone := by
  cases old with
  | none => rfl
  | some v =>
      cases v with
      | arr kind xs =>
          have hclone : (deepCloneList xs)[i]? = xs[i]?.map deepClone := by
            rw [deepCloneList_eq_map, List.getElem?_map]
          cases kind <;> exact hclone
      | _ => rfl

theorem hashItem_clone (old : Option Val) (k : PerlStr) :
    hashItem (old.map deepClone) k = deepClone (hashItem old k) := by
  cases old with
  | none => rfl
  | some v =>
      cases v with
      | hash es =>
          change (Assoc.find (deepCloneEntries es) k).getD .undef = _
          rw [find_deepCloneEntries]
          cases h : Assoc.find es k <;> simp [hashItem, h, deepClone]
      | arr kind xs => cases kind <;> rfl
      | _ => rfl

theorem messageFields_clone (old : Option Val) :
    messageFields (old.map deepClone) = deepCloneEntries (messageFields old) := by
  cases old with
  | none => rfl
  | some v =>
      cases v with
      | arr kind xs => cases kind <;> rfl
      | _ => rfl

/-- Something in a message field that is no message, or is merged into none. -/
theorem mergeVal_clone {v x : Val} (h : ∀ c fs u c' fs' u', v = .msg c fs u → x ≠ .msg c' fs' u') :
    mergeVal S (deepClone v) x = mergeVal S v x := by
  cases v with
  | arr kind xs => cases kind <;> cases x <;> simp [deepClone, mergeVal]
  | hash es => cases x <;> simp [deepClone, mergeVal]
  | msg c fs u =>
      have hall : ((deepCloneEntries fs).all fun p => !p.2.isDefined) =
          fs.all fun p => !p.2.isDefined := by
        rw [deepCloneEntries_eq_map, List.all_map]
        exact congrArg fs.all (funext fun p => by simp [isDefined_deepClone])
      cases x with
      | msg c' fs' u' => exact absurd rfl (h c fs u c' fs' u' rfl)
      | _ => simp only [deepClone, mergeVal, hall]
  | _ => rfl

theorem mergeInner_other {sub : String → View → FieldTable → Turns} {name : PerlStr}
    {t : FieldTable} {x v : Val}
    (h : ∀ c fs u c' fs' u', v = .msg c fs u → x ≠ .msg c' fs' u') :
    mergeInner S view sub name t x v = some (putResult t name id (mergeVal S v x)) := by
  unfold mergeInner
  split
  · exact absurd rfl (h _ _ _ _ _ _ rfl)
  · rfl

theorem deepClone_eq_msg {v : Val} {c : String} {fs : FieldTable} {u : Option PerlStr}
    (h : deepClone v = .msg c fs u) : ∃ gs, v = .msg c gs u := by
  cases v with
  | msg c' gs u' =>
      rw [deepClone] at h
      obtain ⟨rfl, -, rfl⟩ := Val.msg.inj h
      exact ⟨gs, rfl⟩
  | arr kind xs => cases kind <;> cases h
  | _ => cases h

/-! ### Two sources, step by step -/

/-- Two sources whose elements are alike as long as `P` holds. -/
theorem pushItems_congr {view' : View} {f : FieldDef} {name : PerlStr} {P : FieldTable → Prop}
    (hsame : ∀ t, P t → ∀ i, (arrayItem (Assoc.find (view t) name) i).map deepClone =
      (arrayItem (Assoc.find (view' t) name) i).map deepClone)
    (hstep : ∀ t x, P t → P (Assoc.store t name x)) {t : FieldTable} (h : P t) (i : ℕ) :
    pushItems S f name view n i t = pushItems S f name view' n i t := by
  induction n generalizing i t with
  | zero => rfl
  | succ n ih =>
      have hitem := hsame t h i
      rw [pushItems, pushItems]
      cases hx : arrayItem (Assoc.find (view t) name) i with
      | none =>
          rw [hx, Option.map_none, eq_comm, Option.map_eq_none_iff] at hitem
          rw [hitem]
      | some x =>
          rw [hx, Option.map_some, eq_comm, Option.map_eq_some_iff] at hitem
          obtain ⟨y, hy, hclone⟩ := hitem
          rw [hy]
          simp only [hclone]
          split
          · exact ih (hstep t _ h) _
          · rfl

theorem storeItems_congr {view' : View} {name : PerlStr} {P : FieldTable → Prop}
    (hsame : ∀ t, P t → ∀ k, deepClone (hashItem (Assoc.find (view t) name) k) =
      deepClone (hashItem (Assoc.find (view' t) name) k))
    (hstep : ∀ t es k, P t → Assoc.find t name = some (.hash es) → P (Assoc.store t name
      (.hash (Assoc.store es k (deepClone (hashItem (Assoc.find (view t) name) k))))))
    {t : FieldTable} (h : P t) (ks : List PerlStr) :
    storeItems name view ks t = storeItems name view' ks t := by
  induction ks generalizing t with
  | nil => rfl
  | cons k ks ih =>
      rw [storeItems, storeItems]
      cases hold : Assoc.find t name with
      | none => rfl
      | some v =>
          cases v with
          | hash es =>
              have hnext := ih (hstep t es k h hold)
              rw [hsame t h k] at hnext
              simp only [hsame t h k]
              exact hnext
          | _ => rfl

/-! ### The source against its snapshot -/

section

variable {c : String} {t : FieldTable} {names : List PerlStr} {name : PerlStr}

theorem find_snapshot (view : View) (t t' : FieldTable) (name : PerlStr) :
    Assoc.find (snapshot view t t') name = (Assoc.find (view t) name).map deepClone :=
  find_deepCloneEntries _ _

/-- The loop over an array of the source's own. -/
theorem pushItems_lockstep {val : Val} (hval : Assoc.find (view t) name = some val)
    (hname : name ∈ names) (hown : ∀ t', Away names t t' → Assoc.find (view t') name = some val)
    {t' : FieldTable} (h : Away names t t') (f : FieldDef) :
    pushItems S f name view n 0 t' = pushItems S f name (snapshot view t) n 0 t' := by
  refine pushItems_congr (P := Away names t) ?_ (fun _ x hx => hx.store hname x) h 0
  intro t'' h'' i
  rw [hown t'' h'', find_snapshot, hval, arrayItem_clone, Option.map_map]
  congr 1
  funext x
  exact (deepClone_deepClone x).symm

/-- An array that is empty is done with at once. -/
theorem pushItems_empty {kind : ArrKind} {t' : FieldTable}
    (h : Assoc.find (view t') name = some (.arr kind [])) (f : FieldDef) :
    pushItems S f name view (n + 1) 0 t' = some (.ok t') := by
  rw [pushItems, h]
  rfl

/-- The loop over a hash of the source's own. -/
theorem storeItems_lockstep {val : Val} (hval : Assoc.find (view t) name = some val)
    (hname : name ∈ names) (hown : ∀ t', Away names t t' → Assoc.find (view t') name = some val)
    {t' : FieldTable} (h : Away names t t') (ks : List PerlStr) :
    storeItems name view ks t' = storeItems name (snapshot view t) ks t' := by
  refine storeItems_congr (P := Away names t) ?_ (fun _ es k hx _ => hx.store hname _) h ks
  intro t'' h'' k
  rw [hown t'' h'', find_snapshot, hval, hashItem_clone, deepClone_deepClone]

/-- The loop over the destination's own hash: each turn stores a copy of what is there. -/
theorem storeItems_shared {es : List (PerlStr × Val)}
    (hval : Assoc.find (view t) name = some (.hash es)) (hname : name ∈ names)
    (hshared : ∀ t', Away names t t' → Assoc.find (view t') name = Assoc.find t' name)
    {t' : FieldTable} (h : Away names t t') (hsame : Assoc.find t' name = some (.hash es))
    (ks : List PerlStr) :
    storeItems name view ks t' = storeItems name (snapshot view t) ks t' := by
  refine storeItems_congr (P := fun t' => Away names t t' ∧ ∀ k,
    deepClone (hashItem (Assoc.find t' name) k) = deepClone (hashItem (some (.hash es)) k))
    ?_ ?_ ⟨h, fun k => by rw [hsame]⟩ ks
  · rintro t'' ⟨h'', hitems⟩ k
    rw [hshared t'' h'', find_snapshot, hval, hashItem_clone, deepClone_deepClone, hitems]
  · rintro t'' table k ⟨h'', hitems⟩ htable
    refine ⟨h''.store hname _, fun k' => ?_⟩
    rw [htable] at hitems
    rw [Assoc.find_store_self, hshared t'' h'', htable, hashItem, Assoc.find_store]
    split
    · rename_i hk
      rw [Option.getD_some, deepClone_deepClone, hk]
      exact hitems k
    · exact hitems k'

/-- What the inner merge reads of a copy. -/
theorem innerView_snapshot (t' : FieldTable) (c' : String) (u : Option PerlStr) :
    innerView (snapshot view t) t' name c' u =
      fun _ => deepCloneEntries (messageFields (Assoc.find (view t) name)) := by
  funext inner
  rw [innerView, find_snapshot, messageFields_clone]

/-- The loop over a hash, the source's own or the destination's. -/
theorem storeItems_apart {es : List (PerlStr × Val)}
    (hval : Assoc.find (view t) name = some (.hash es)) (hname : name ∈ names)
    (hapart : (∀ t', Away names t t' → Assoc.find (view t') name = some (.hash es)) ∨
      ∀ t', Away names t t' → Assoc.find (view t') name = Assoc.find t' name)
    {t' : FieldTable} (h : Away names t t')
    (hview : Assoc.find (view t') name = some (.hash es)) (ks : List PerlStr) :
    storeItems name view ks (Assoc.store t' name (orCreate (.hash []) (Assoc.find t' name))) =
      storeItems name (snapshot view t) ks
        (Assoc.store t' name (orCreate (.hash []) (Assoc.find t' name))) := by
  rcases hapart with hown | hshared
  · exact storeItems_lockstep hval hname hown (h.store hname _) ks
  · have hdst : Assoc.find t' name = some (.hash es) := by
      rw [← hshared t' h, hview]
    refine storeItems_shared hval hname hshared (h.store hname _) ?_ ks
    rw [Assoc.find_store_self, hdst]
    rfl

/-- The loop over an array, the source's own or an empty one of the destination. -/
theorem pushItems_apart {kind : ArrKind} {ys : List Val}
    (hval : Assoc.find (view t) name = some (.arr kind ys)) (hname : name ∈ names)
    (hapart : (∀ t', Away names t t' → Assoc.find (view t') name = some (.arr kind ys)) ∨
      (∀ t', Away names t t' → Assoc.find (view t') name = Assoc.find t' name) ∧ ys = [])
    {t' : FieldTable} (h : Away names t t')
    (hview : Assoc.find (view t') name = some (.arr kind ys)) (f : FieldDef) :
    pushItems S f name view n 0
        (Assoc.store t' name (orCreate (.arr .blessed []) (Assoc.find t' name))) =
      pushItems S f name (snapshot view t) n 0
        (Assoc.store t' name (orCreate (.arr .blessed []) (Assoc.find t' name))) := by
  rcases hapart with hown | ⟨hshared, rfl⟩
  · exact pushItems_lockstep hval hname hown (h.store hname _) f
  · have hdst : Assoc.find t' name = some (.arr kind []) := by
      rw [← hshared t' h, hview]
    have hlive : Assoc.find (view (Assoc.store t' name
        (orCreate (.arr .blessed []) (Assoc.find t' name)))) name = some (.arr kind []) := by
      rw [hshared _ (h.store hname _), Assoc.find_store_self, hdst]
      rfl
    obtain ⟨kind', hclone⟩ : ∃ kind', deepClone (.arr kind []) = .arr kind' [] := by
      cases kind <;> exact ⟨_, rfl⟩
    have hcopy : Assoc.find (snapshot view t (Assoc.store t' name
        (orCreate (.arr .blessed []) (Assoc.find t' name)))) name = some (.arr kind' []) := by
      rw [find_snapshot, hval, Option.map_some, hclone]
    cases n with
    | zero => rfl
    | succ n => rw [pushItems_empty hlive, pushItems_empty hcopy]

/-- The inner merge of two messages. -/
theorem mergeInner_lockstep {sub : String → View → FieldTable → Turns} {c' cls : String}
    {fs gs : FieldTable} {u w : Option PerlStr} {t' : FieldTable}
    (hsub : sub c' (innerView view t' name c' u) fs =
      sub c' (snapshot (innerView view t' name c' u) fs) fs)
    (hval : Assoc.find (view t) name = some (.msg cls gs w))
    (hback : Assoc.find (view (Assoc.store t' name (.msg c' fs u))) name =
      some (.msg cls gs w)) :
    mergeInner S view sub name t' (.msg c' fs u) (.msg cls gs w) =
      mergeInner S (snapshot view t) sub name t' (.msg c' fs u) (deepClone (.msg cls gs w)) := by
  have hfields : innerView view t' name c' u fs = gs := by
    rw [innerView, hback]
    rfl
  have hcopy : snapshot (innerView view t' name c' u) fs =
      innerView (snapshot view t) t' name c' u := by
    rw [innerView_snapshot, hval]
    funext inner
    rw [snapshot, hfields]
    rfl
  simp only [mergeInner, deepClone]
  rw [hsub, hcopy]

/-- One turn: with the source as it was at the start, it does what it does with the copy. -/
theorem Clear.turn (h : Clear S c view t) {sub : String → View → FieldTable → Turns}
    (hsub : ∀ c' view' inner, Clear S c' view' inner →
      sub c' view' inner = sub c' (snapshot view' inner) inner)
    {f : FieldDef} {val : Val} (hf : (S.descriptor c).findFieldByName name = some f)
    (hval : Assoc.find (view t) name = some val) (hdef : val.isDefined = true) {t' : FieldTable}
    (haway : Away (Assoc.keys (view t)) t t') (hold : Assoc.find t' name = Assoc.find t name) :
    mergeTurn S view n sub f name val t' =
      mergeTurn S (snapshot view t) n sub f name (deepClone val) t' := by
  obtain ⟨fixed, apart, inner⟩ := h
  have hname : name ∈ Assoc.keys (view t) := Assoc.mem_keys_of_mem (Assoc.mem_of_find hval)
  have hview := fixed name f val hf hval t' haway hold
  unfold mergeTurn
  cases hshape : f.shape S with
  | map m =>
      have hapart := apart name f val hf (by simp [hshape]) hval hdef
      simp only
      cases val with
      | hash es =>
          simp only [deepClone, keys_deepCloneEntries]
          rw [storeItems_apart hval hname (hapart.imp_right And.left) haway hview]
      | arr kind xs => cases kind <;> rfl
      | _ => rfl
  | repeated =>
      have hapart := apart name f val hf (by simp [hshape]) hval hdef
      simp only
      cases val with
      | arr kind ys =>
          obtain ⟨kind', hclone⟩ : ∃ kind', deepClone (.arr kind ys) =
              .arr kind' (deepCloneList ys) := by
            cases kind <;> exact ⟨_, rfl⟩
          simp only [hclone]
          refine pushItems_apart hval hname (hapart.imp_right ?_) haway hview f
          rintro ⟨hshared, hempty⟩
          refine ⟨hshared, ?_⟩
          cases ys with
          | nil => rfl
          | cons x xs => exact absurd rfl (hempty kind x xs)
      | _ => rfl
  | singular =>
      simp only
      split
      · rename_i m x hm hx
        by_cases hmsgs : ∀ c fs u c' fs' u', val = .msg c fs u → x ≠ .msg c' fs' u'
        · have hclones : ∀ c fs u c' fs' u',
              deepClone val = .msg c fs u → x ≠ .msg c' fs' u' := by
            intro c fs u c' fs' u' hc
            obtain ⟨gs, hgs⟩ := deepClone_eq_msg hc
            exact hmsgs c gs u c' fs' u' hgs
          rw [mergeInner_other hmsgs, mergeInner_other hclones, mergeVal_clone hmsgs]
        · push Not at hmsgs
          obtain ⟨cls, gs, w, c', fs, u, rfl, rfl⟩ := hmsgs
          have hclear :=
            inner name f m c' fs u cls gs w hf hshape hm (hold ▸ hx) hval t' haway hold
          -- storing the sub-message under its name again leaves the source's as it is
          have hback : Assoc.find (Assoc.store t' name (.msg c' fs u)) name =
              Assoc.find t name := by
            rw [Assoc.find_store_self, ← hold, hx]
          exact mergeInner_lockstep (hsub _ _ _ hclear) hval
            (fixed name f _ hf hval _ (haway.store hname _) hback)
      · rw [deepClone_deepClone]

/-- The loop over the names of the source that are still to come. -/
theorem Clear.loop (h : Clear S c view t) {sub : String → View → FieldTable → Turns}
    (hsub : ∀ c' view' inner, Clear S c' view' inner →
      sub c' view' inner = sub c' (snapshot view' inner) inner)
    {todo : List PerlStr} (hnd : todo.Nodup) (htodo : ∀ name ∈ todo, name ∈ Assoc.keys (view t))
    {t' : FieldTable} (haway : Away (Assoc.keys (view t)) t t')
    (hold : ∀ name ∈ todo, Assoc.find t' name = Assoc.find t name) :
    mergeNames S view n sub (S.descriptor c) todo t' =
      mergeNames S (snapshot view t) n sub (S.descriptor c) todo t' := by
  induction todo generalizing t' with
  | nil => rfl
  | cons name todo ih =>
      obtain ⟨hnot, hnd⟩ := List.nodup_cons.mp hnd
      have hrest := @ih hnd fun k hk => htodo k (List.mem_cons_of_mem _ hk)
      have hkeep : ∀ k ∈ todo, Assoc.find t' k = Assoc.find t k :=
        fun k hk => hold k (List.mem_cons_of_mem _ hk)
      rw [mergeNames, mergeNames]
      cases hf : (S.descriptor c).findFieldByName name with
      | none =>
          have hskip := hrest haway hkeep
          cases Assoc.find (view t') name <;> cases Assoc.find (snapshot view t t') name <;>
            exact hskip
      | some f =>
          obtain ⟨val, hval⟩ : ∃ val, Assoc.find (view t) name = some val := by
            refine Option.ne_none_iff_exists'.mp fun hnone => ?_
            exact Assoc.find_eq_none_iff.mp hnone (htodo name List.mem_cons_self)
          have hview : Assoc.find (view t') name = some val := by
            cases h with
            | intro fixed => exact fixed name f val hf hval t' haway (hold name List.mem_cons_self)
          rw [hview, find_snapshot, hval]
          simp only [Option.map_some, isDefined_deepClone]
          by_cases hdef : val.isDefined = true
          -- the turn goes alike, and changes nothing but under its own name
          · rw [if_pos hdef, if_pos hdef,
              ← h.turn hsub hf hval hdef haway (hold name List.mem_cons_self)]
            rcases hturn : mergeTurn S view n sub f name val t' with - | (e | t'')
            · rfl
            · rfl
            · have hframe : ∀ k, k ≠ name → Assoc.find t'' k = Assoc.find t' k :=
                fun k hk => mergeTurn_frame hturn hk
              refine hrest (haway.frame (htodo name List.mem_cons_self) hframe) fun k hk => ?_
              have hne : k ≠ name := by
                rintro rfl
                exact hnot hk
              rw [hframe k hne, hkeep k hk]
          · rw [if_neg hdef, if_neg hdef]
            exact hrest haway hkeep

/-- A merge from a source that is not disturbed goes as the one from its copy. -/
theorem Clear.lockstep (h : Clear S c view t) :
    mergeLive S n c view t = mergeLive S n c (snapshot view t) t := by
  induction n generalizing c view t with
  | zero => rfl
  | succ n ih =>
      have hkeys : Assoc.keys (snapshot view t t) = Assoc.keys (view t) :=
        keys_deepCloneEntries _
      rw [mergeLive, mergeLive, hkeys]
      exact h.loop (fun c' view' inner hclear => @ih view' c' inner hclear) (List.nodup_dedup _)
        (fun _ hname => List.mem_dedup.mp hname) (Away.refl _ t) fun _ _ => rfl

end

theorem Clear.sameAsSnapshot {dst : Msg} (h : Clear S dst.cls view dst.fields) :
    SameAsSnapshot S dst view := by
  let N := sizeOf (deepCloneEntries (view dst.fields)) + 1
  have hends : mergeLive S N dst.cls (snapshot view dst.fields) dst.fields ≠ none :=
    mergeLive_own_ends (Nat.lt_succ_self _) dst.cls dst.fields
  obtain ⟨r, hr⟩ := Option.ne_none_iff_exists'.mp hends
  refine ⟨r, N, fun n hn => ?_⟩
  rw [h.lockstep]
  exact ⟨mergeLive_mono hn hr, mergeLive_mono hn hr⟩

end

/-! ### Sources at the same place -/

/-- How a value of the source depends on that of the destination at the same place: it is
the source's own, or the same one, or a message of the source's own with fields that
are each one or the other. -/
inductive Source where
  | own (v : Option Val)
  | shared
  | within (cls : String) (names : List PerlStr) (field : PerlStr → Source) (u : Option PerlStr)

namespace Source

/-- The value, given the destination's. -/
def value : Source → Option Val → Option Val
  | own v, _ => v
  | shared, old => old
  | within cls names field u, old =>
      some (.msg cls (names.filterMap fun k =>
        ((field k).value (Assoc.find (messageFields old) k)).map (Prod.mk k)) u)

/-- The fields of a source that is a message, given the destination's. -/
def view (s : Source) : View := fun t => messageFields (s.value (some (.msg "" t none)))

def field : Source → PerlStr → Source
  | own v, k => own (Assoc.find (messageFields v) k)
  | shared, _ => shared
  | within _ names field _, k => if k ∈ names then field k else own none

theorem messageFields_value (s : Source) (c : String) (t : FieldTable) (u : Option PerlStr) :
    messageFields (s.value (some (.msg c t u))) = s.view t := by
  cases s with
  | own v => rfl
  | shared => rfl
  | within cls names field u' => simp only [view, value, messageFields]

theorem find_filterMap (names : List PerlStr) (g : PerlStr → Option Val) (name : PerlStr) :
    Assoc.find (names.filterMap fun k => (g k).map (Prod.mk k)) name =
      if name ∈ names then g name else none := by
  induction names with
  | nil => rfl
  | cons k names ih =>
      rw [List.filterMap_cons]
      by_cases hk : name = k
      · subst hk
        cases hg : g name with
        | none => simp [hg, ih]
        | some v => simp [Assoc.find_cons]
      · cases hg : g k with
        | none => simp [ih, hk]
        | some v => simp [Assoc.find_cons, ih, hk]

/-- A field of the source depends on the same field of the destination only. -/
theorem find_view (s : Source) (t : FieldTable) (name : PerlStr) :
    Assoc.find (s.view t) name = (s.field name).value (Assoc.find t name) := by
  cases s with
  | own v => rfl
  | shared => rfl
  | within cls names field u =>
      simp only [view, value, messageFields, Source.field, find_filterMap]
      split <;> rfl

theorem innerView_view (s : Source) (t : FieldTable) (name : PerlStr) (c : String)
    (u : Option PerlStr) : innerView s.view t name c u = (s.field name).view := by
  funext inner
  rw [innerView, find_view, Assoc.find_store_self, messageFields_value]

end Source

/-! ### An array that both share -/

section

variable {S : Pool} {view : View} {n : ℕ}

theorem pushItem_eq_ok {f : FieldDef} {item x : Val} {kind : ArrKind} {xs : List Val}
    (h : pushItem S f item (some (.arr kind xs)) = .ok x) :
    ∃ ys, x = .arr kind ys ∧ ys.length = xs.length + 1 := by
  cases kind with
  | tied =>
      obtain ⟨ys, hys, rfl⟩ := map_eq_ok.mp h
      rw [mapError_eq_ok, pushTied] at hys
      split at hys
      · obtain rfl := Except.ok.inj hys
        exact ⟨_, rfl, by simp⟩
      · cases hys
  | _ =>
      obtain rfl := Except.ok.inj h
      exact ⟨_, rfl, by simp⟩

/-- The array grows with every turn, so that the loop never comes to its end. -/
theorem pushItems_shared {f : FieldDef} {name : PerlStr} {kind : ArrKind} {xs : List Val} {i : ℕ}
    (hi : i < xs.length) {t : FieldTable} (ht : Assoc.find t name = some (.arr kind xs))
    (hshared : ∀ t, Assoc.find (view t) name = Assoc.find t name) (r : FieldTable) :
    pushItems S f name view n i t ≠ some (.ok r) := by
  induction n generalizing i t xs with
  | zero => simp [pushItems]
  | succ n ih =>
      have hitem : arrayItem (some (.arr kind xs)) i = some xs[i] := List.getElem?_eq_getElem hi
      rw [pushItems, hshared, ht, hitem]
      simp only
      split
      · rename_i x hx
        obtain ⟨ys, rfl, hlen⟩ := pushItem_eq_ok hx
        exact ih (by omega) (Assoc.find_store_self _ _ _)
      · simp

/-- Each turn of a merge that succeeds does, with its name as it was at the start. -/
theorem mergeNames_turn {sub : String → View → FieldTable → Turns} {d : MessageDef}
    (hlocal : ∀ name t t', Assoc.find t' name = Assoc.find t name →
      Assoc.find (view t') name = Assoc.find (view t) name)
    {todo : List PerlStr} (hnd : todo.Nodup) {t r : FieldTable}
    (h : mergeNames S view n sub d todo t = some (.ok r)) {name : PerlStr} (hname : name ∈ todo)
    {f : FieldDef} {val : Val} (hf : d.findFieldByName name = some f)
    (hval : Assoc.find (view t) name = some val) (hdef : val.isDefined = true) :
    ∃ t' r', Assoc.find t' name = Assoc.find t name ∧
      mergeTurn S view n sub f name val t' = some (.ok r') := by
  induction todo generalizing t with
  | nil => cases hname
  | cons k todo ih =>
      obtain ⟨hnot, hnd⟩ := List.nodup_cons.mp hnd
      rw [mergeNames] at h
      by_cases hk : name = k
      · subst hk
        simp only [hval, hf, hdef, if_true] at h
        obtain ⟨r', hr', -⟩ := goOn_eq_ok.mp h
        exact ⟨t, r', rfl, hr'⟩
      · have hmem : name ∈ todo := (List.mem_cons.mp hname).resolve_left hk
        have hskip (h : mergeNames S view n sub d todo t = some (.ok r)) := ih hnd h hmem hval
        split at h
        · split at h
          · obtain ⟨t', ht', hrest⟩ := goOn_eq_ok.mp h
            have hframe : Assoc.find t' name = Assoc.find t name := mergeTurn_frame ht' hk
            obtain ⟨t'', r', hsame, hturn⟩ := ih hnd hrest hmem
              ((hlocal name t t' hframe).trans hval)
            exact ⟨t'', r', hsame.trans hframe, hturn⟩
          · exact hskip h
        · exact hskip h

end

/-- A turn for a container that succeeds goes over the source's own, or over no element. -/
theorem Source.apart_of_ok {S : Pool} {s : Source} {n : ℕ}
    {sub : String → View → FieldTable → Turns} {f : FieldDef} {name : PerlStr} {val : Val}
    {t t' r : FieldTable} (hshape : f.shape S ≠ .singular)
    (hval : Assoc.find (s.view t) name = some val) (hsame : Assoc.find t' name = Assoc.find t name)
    (hok : mergeTurn S s.view n sub f name val t' = some (.ok r)) :
    (∀ t'', Assoc.find (s.view t'') name = some val) ∨
      (∀ t'', Assoc.find (s.view t'') name = Assoc.find t'' name) ∧
        ∀ kind x xs, val ≠ .arr kind (x :: xs) := by
  have hfield := s.find_view t name
  cases hs : s.field name with
  | own v =>
      refine .inl fun t'' => ?_
      rw [s.find_view, hs]
      rw [hval, hs] at hfield
      exact hfield.symm
  | shared =>
      have hshared : ∀ t'', Assoc.find (s.view t'') name = Assoc.find t'' name := by
        intro t''
        rw [s.find_view, hs]
        rfl
      refine .inr ⟨hshared, ?_⟩
      rintro kind x xs rfl
      have hdst : Assoc.find t' name = some (.arr kind (x :: xs)) := by
        rw [hsame, ← hshared, hval]
      unfold mergeTurn at hok
      cases hsh : f.shape S with
      | singular => exact absurd hsh hshape
      | map m =>
          simp only [hsh] at hok
          cases hok
      | repeated =>
          simp only [hsh] at hok
          -- an element in the array that is gone over: the loop would not have ended
          have hlong : Assoc.find (Assoc.store t' name
              (orCreate (.arr .blessed []) (Assoc.find t' name))) name =
              some (.arr kind (x :: xs)) := by
            rw [Assoc.find_store_self, hdst]
            rfl
          exact pushItems_shared (Nat.zero_lt_succ _) hlong hshared r hok
  | within cls names field u =>
      rw [hval, hs] at hfield
      obtain rfl := Option.some.inj hfield
      unfold mergeTurn at hok
      cases hsh : f.shape S with
      | singular => exact absurd hsh hshape
      | map m =>
          simp only [hsh] at hok
          cases hok
      | repeated =>
          simp only [hsh] at hok
          cases hok

/-- A merge from a source at the same place that succeeds was not disturbed. -/
theorem Source.clear_of_ok {S : Pool} {n : ℕ} {c : String} {s : Source} {t r : FieldTable}
    (h : mergeLive S n c s.view t = some (.ok r)) : Clear S c s.view t := by
  induction n generalizing c s t r with
  | zero => cases h
  | succ n ih =>
      have hlocal : ∀ name t t', Assoc.find t' name = Assoc.find t name →
          Assoc.find (s.view t') name = Assoc.find (s.view t) name := by
        intro name t t' hsame
        rw [s.find_view, s.find_view, hsame]
      have hturn : ∀ name f val, (S.descriptor c).findFieldByName name = some f →
          Assoc.find (s.view t) name = some val → val.isDefined = true →
          ∃ t' r', Assoc.find t' name = Assoc.find t name ∧
            mergeTurn S s.view n (mergeLive S n) f name val t' = some (.ok r') := by
        intro name f val hf hval hdef
        exact mergeNames_turn hlocal (List.nodup_dedup _) h
          (List.mem_dedup.mpr (Assoc.mem_keys_of_mem (Assoc.mem_of_find hval))) hf hval hdef
      refine .intro ?_ ?_ ?_
      · intro name f val hf hval t' _ hsame
        rw [hlocal name t t' hsame, hval]
      · intro name f val hf hshape hval hdef
        obtain ⟨t', r', hsame, hok⟩ := hturn name f val hf hval hdef
        exact (Source.apart_of_ok hshape hval hsame hok).imp (fun hown t'' _ => hown t'')
          fun hshared => ⟨fun t'' _ => hshared.1 t'', hshared.2⟩
      · intro name f m c' fs u cls gs w hf hshape hm hdst hval t' _ hsame
        rw [s.innerView_view]
        obtain ⟨t'', r', hsame', hok⟩ := hturn name f _ hf hval rfl
        unfold mergeTurn at hok
        simp only [hshape, hm, hsame', hdst, mergeInner] at hok
        obtain ⟨x, hx, hput⟩ := Option.map_eq_some_iff.mp hok
        rw [s.innerView_view] at hx
        rcases x with ⟨e, y⟩ | y
        · cases hput
        · exact ih hx

/-! ### What `merge_from` does -/

theorem SameAsSnapshot.clear {S : Pool} {dst : Msg} {s : Source} {n : ℕ} {r : FieldTable}
    (h : SameAsSnapshot S dst s.view)
    (hr : mergeLive S n dst.cls (snapshot s.view dst.fields) dst.fields = some (.ok r)) :
    Clear S dst.cls s.view dst.fields := by
  obtain ⟨r', N, hrun⟩ := h
  obtain ⟨hlive, hcopy⟩ := hrun (N + n) (Nat.le_add_right N n)
  obtain rfl : .ok r = r' :=
    Option.some.inj ((mergeLive_mono (Nat.le_add_left n N) hr).symm.trans hcopy)
  exact Source.clear_of_ok hlive

/-- The copy of a message as its type has it can be merged. -/
theorem snapshot_merges {S : Pool} {dst : Msg} {view : View} {u : Option PerlStr}
    (hdst : dst.WellTyped S) (hsrc : Msg.WellTyped S ⟨dst.cls, view dst.fields, u⟩) :
    ∃ r, merge S dst ⟨dst.cls, deepCloneEntries (view dst.fields), u⟩ =
        .ok { dst with fields := r } ∧
      ∃ N, ∀ n, N ≤ n →
        mergeLive S n dst.cls (snapshot view dst.fields) dst.fields = some (.ok r) := by
  let src : Msg := ⟨dst.cls, deepCloneEntries (view dst.fields), u⟩
  have hcopy : src.WellTyped S := WellTyped.deepClone hsrc
  have hcls : src.cls = dst.cls := rfl
  obtain ⟨m, hm, -⟩ := merge_joined hcls hdst hcopy
  unfold merge at hm
  split at hm
  · rename_i r hr
    have hr' : mergeFields S (S.descriptor dst.cls) (deepCloneEntries (view dst.fields))
        dst.fields = .ok r := hr
    refine ⟨r, by simp only [merge, hr'], sizeOf src.fields + 1, fun n hn => ?_⟩
    exact mergeLive_own hcopy.namesOnce hn hr
  · cases hm

/-- A merge that is not disturbed, of messages as their types have them, ends with what
`merge` makes of the copy. -/
theorem Clear.merges {S : Pool} {dst : Msg} {view : View}
    (h : Clear S dst.cls view dst.fields) {u : Option PerlStr} (hdst : dst.WellTyped S)
    (hsrc : Msg.WellTyped S ⟨dst.cls, view dst.fields, u⟩) :
    ∃ r, merge S dst ⟨dst.cls, deepCloneEntries (view dst.fields), u⟩ =
        .ok { dst with fields := r } ∧
      ∃ N, ∀ n, N ≤ n → mergeLive S n dst.cls view dst.fields = some (.ok r) := by
  obtain ⟨r, hr, N, hrun⟩ := snapshot_merges hdst hsrc
  refine ⟨r, hr, N, fun n hn => ?_⟩
  rw [h.lockstep]
  exact hrun n hn

/-- No repeated field has an element, neither in the message nor in the messages that are
set in it. -/
inductive Unrepeated (S : Pool) : String → FieldTable → Prop where
  | intro {c : String} {t : FieldTable}
      (apart : ∀ name f kind x xs, (S.descriptor c).findFieldByName name = some f →
        f.shape S ≠ .singular → Assoc.find t name ≠ some (.arr kind (x :: xs)))
      (inner : ∀ name f m c' fs u, (S.descriptor c).findFieldByName name = some f →
        f.shape S = .singular → f.type = .message m → Assoc.find t name = some (.msg c' fs u) →
        Unrepeated S c' fs) :
      Unrepeated S c t

theorem innerView_id (t : FieldTable) (name : PerlStr) (c : String) (u : Option PerlStr) :
    innerView id t name c u = id := by
  funext inner
  rw [innerView, id, Assoc.find_store_self]
  rfl

/-- A message is not disturbed by merging it into itself when it has no element that the
merge pushes. -/
theorem clear_self_iff {S : Pool} {c : String} {t : FieldTable} :
    Clear S c id t ↔ Unrepeated S c t := by
  constructor
  · intro h
    generalize hid : id = view at h
    induction h with
    | @intro c view t fixed apart inner ih =>
        subst hid
        refine .intro ?_ ?_
        · intro name f kind x xs hf hshape hval
          rcases apart name f _ hf hshape hval rfl with hown | ⟨-, hempty⟩
          · have haway : Away (Assoc.keys t) t (Assoc.store t name .undef) :=
              (Away.refl _ t).store (Assoc.mem_keys_of_mem (Assoc.mem_of_find hval)) _
            have hundef := hown _ haway
            rw [id, Assoc.find_store_self] at hundef
            cases hundef
          · exact hempty kind x xs rfl
        · intro name f m c' fs u hf hshape hm hval
          exact ih name f m c' fs u c' fs u hf hshape hm hval hval t (Away.refl _ t) rfl
            (innerView_id t name c' u).symm
  · intro h
    induction h with
    | @intro c t apart _ ih =>
        refine .intro ?_ ?_ ?_
        · exact fun name f val _ hval t' _ hsame => hsame.trans hval
        · intro name f val hf hshape hval _
          refine .inr ⟨fun _ _ => rfl, ?_⟩
          rintro kind x xs rfl
          exact apart name f kind x xs hf hshape hval
        · intro name f m c' fs u cls gs w hf hshape hm hdst _ t' _ _
          rw [innerView_id]
          exact ih name f m c' fs u hf hshape hm hdst

/-- `merge_from` ends as merging a snapshot does whenever the merge leaves the source as it
was, however the source depends on the destination. When the two share what they share
at the same place it does in no other case in which the snapshot can be merged at all,
as it always can be when both are as their types have them. Merged into itself a message
must have no element in a repeated field. -/
theorem merge_from_iff (S : Pool) (dst : Msg) :
    (∀ view, Clear S dst.cls view dst.fields → SameAsSnapshot S dst view) ∧
    (∀ s : Source,
      (∃ n r, mergeLive S n dst.cls (snapshot s.view dst.fields) dst.fields = some (.ok r)) →
      (SameAsSnapshot S dst s.view ↔ Clear S dst.cls s.view dst.fields)) ∧
    (dst.WellTyped S →
      (∀ (s : Source) u, Msg.WellTyped S ⟨dst.cls, s.view dst.fields, u⟩ →
        (SameAsSnapshot S dst s.view ↔ Clear S dst.cls s.view dst.fields)) ∧
      (SameAsSnapshot S dst id ↔ Unrepeated S dst.cls dst.fields)) := by
  have hiff (s : Source)
      (h : ∃ n r, mergeLive S n dst.cls (snapshot s.view dst.fields) dst.fields = some (.ok r)) :
      SameAsSnapshot S dst s.view ↔ Clear S dst.cls s.view dst.fields := by
    obtain ⟨n, r, hr⟩ := h
    exact ⟨fun hsame => hsame.clear hr, fun hclear => hclear.sameAsSnapshot⟩
  have htyped (hdst : dst.WellTyped S) (s : Source) (u : Option PerlStr)
      (hsrc : Msg.WellTyped S ⟨dst.cls, s.view dst.fields, u⟩) :
      SameAsSnapshot S dst s.view ↔ Clear S dst.cls s.view dst.fields := by
    obtain ⟨r, -, N, hrun⟩ := snapshot_merges hdst hsrc
    exact hiff s ⟨N, r, hrun N (Nat.le_refl N)⟩
  refine ⟨fun view h => h.sameAsSnapshot, hiff, fun hdst => ⟨htyped hdst, ?_⟩⟩
  have hself : Source.shared.view = id := rfl
  rw [← clear_self_iff, ← hself]
  exact htyped hdst .shared dst.unknown hdst

/-- A `Complex` with its sub-message set. -/
def oneSimple : Msg := ⟨"Complex", [(ps "simple", simple (ps "s"))], none⟩

theorem oneSimple_wellTyped : oneSimple.WellTyped hardening := by
  have hsimple : WellTyped hardening .singular (.message "Simple") (simple (ps "s")) :=
    Legal.wellTyped (by rintro t n ⟨hrange, -⟩ c rfl; exact hrange) (fun _ _ _ _ => rfl)
      (simple_legal (by decide))
  refine .msg (List.nodup_singleton _) (by decide) ?_
  intro f hf v hv
  obtain ⟨hname, rfl⟩ : f.name = ps "simple" ∧ simple (ps "s") = v := by
    simpa [oneSimple, Assoc.find_cons] using hv
  obtain rfl : f = ⟨ps "simple", 1, .message "Simple", .optional⟩ :=
    MessageDef.eq_of_name_eq hf (by decide) hname
  exact hsimple

theorem oneSimple_unrepeated : Unrepeated hardening "Complex" oneSimple.fields := by
  have hfind {k : PerlStr} {v w : Val} {name : PerlStr}
      (h : Assoc.find [(k, v)] name = some w) : v = w := by
    exact (Prod.mk.inj (List.mem_singleton.mp (Assoc.mem_of_find h))).2.symm
  refine .intro ?_ ?_
  · intro name f kind x xs _ _ hval
    cases hfind hval
  · intro name f m c' fs u _ _ _ hval
    obtain ⟨rfl, rfl, rfl⟩ := Val.msg.inj (hfind hval)
    refine .intro ?_ ?_
    · intro name f kind x xs _ _ hval
      cases hfind hval
    · intro name f m c' fs u _ _ _ hval
      cases hfind hval

theorem merge_from_self_simple : SameAsSnapshot hardening oneSimple id :=
  ((merge_from_iff hardening oneSimple).2.2 oneSimple_wellTyped).2.mpr oneSimple_unrepeated

/-- A `Complex` with one element in its repeated field. -/
def oneElement : Msg := ⟨"Complex", [(ps "rep_simple", .arr .blessed [simple (ps "a")])], none⟩

/-- The loop of an array over itself. -/
theorem pushItems_self {S : Pool} {f : FieldDef} {name : PerlStr} {n i : ℕ} {xs : List Val}
    (hi : i < xs.length) {t : FieldTable} (ht : Assoc.find t name = some (.arr .blessed xs)) :
    pushItems S f name id n i t = none := by
  induction n generalizing i t xs with
  | zero => rfl
  | succ n ih =>
      have hitem : arrayItem (some (.arr .blessed xs)) i = some xs[i] := List.getElem?_eq_getElem hi
      rw [pushItems, id, ht, hitem]
      have hlen : i + 1 < (xs ++ [deepClone xs[i]]).length := by
        rw [List.length_append, List.length_singleton]
        omega
      exact ih hlen (Assoc.find_store_self _ _ _)

/-- Merged into itself it is never done, while its snapshot could be merged. -/
theorem merge_from_self_hangs :
    (∀ n, mergeLive hardening n oneElement.cls id oneElement.fields = none) ∧
      (∃ r, mergeLive hardening 9 oneElement.cls (snapshot id oneElement.fields)
        oneElement.fields = some (.ok r)) ∧
      ¬ SameAsSnapshot hardening oneElement id := by
  have hnever : ∀ n, mergeLive hardening n oneElement.cls id oneElement.fields = none := by
    intro n
    cases n with
    | zero => rfl
    | succ n =>
        have hitems : Assoc.find oneElement.fields (ps "rep_simple") =
            some (.arr .blessed [simple (ps "a")]) := rfl
        have hrun (f : FieldDef) :
            pushItems hardening f (ps "rep_simple") id n 0 oneElement.fields = none :=
          pushItems_self (Nat.zero_lt_succ _) hitems
        change goOn (pushItems hardening _ (ps "rep_simple") id n 0 oneElement.fields) _ = none
        rw [hrun]
        rfl
  refine ⟨hnever, ⟨_, rfl⟩, ?_⟩
  rintro ⟨r, N, h⟩
  cases (hnever N).symm.trans (h N (Nat.le_refl N)).1

end GooglePerl.Protobuf
