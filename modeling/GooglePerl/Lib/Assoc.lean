import Mathlib.Data.List.Nodup
import Mathlib.Data.List.Perm.Basic

/-!
Association lists read as hash tables.

A hash table is a list of key/value pairs in iteration order. `find` reads
a key, `store` overwrites in place or appends, `delete` removes. Nothing is
assumed about the order: what a table *is* is its `find` function, and every
lemma here speaks about that function.
-/

namespace GooglePerl.Lib.Assoc

variable {κ α β : Type}

/-- The keys in iteration order. -/
def keys (t : List (κ × α)) : List κ := t.map Prod.fst

theorem mem_keys_cons {k key : κ} {v : α} {t : List (κ × α)} :
    key ∈ keys ((k, v) :: t) ↔ key = k ∨ key ∈ keys t := by
  simp [keys]

theorem mem_keys_of_mem {k : κ} {v : α} {t : List (κ × α)} (h : (k, v) ∈ t) : k ∈ keys t :=
  List.mem_map.mpr ⟨(k, v), h, rfl⟩

variable [DecidableEq κ]

/-- The value stored under a key. -/
def find : List (κ × α) → κ → Option α
  | [], _ => none
  | (k, v) :: t, key => if key = k then some v else find t key

/-- Assign to a key: in place when the key is there, at the end otherwise. -/
def store : List (κ × α) → κ → α → List (κ × α)
  | [], key, v => [(key, v)]
  | (k, w) :: t, key, v => if key = k then (k, v) :: t else (k, w) :: store t key v

/-- Remove a key. -/
def delete : List (κ × α) → κ → List (κ × α)
  | [], _ => []
  | (k, w) :: t, key => if key = k then delete t key else (k, w) :: delete t key

@[simp] theorem find_nil (key : κ) : find ([] : List (κ × α)) key = none := rfl

theorem find_cons (k : κ) (v : α) (t : List (κ × α)) (key : κ) :
    find ((k, v) :: t) key = if key = k then some v else find t key := rfl

theorem find_store (t : List (κ × α)) (key : κ) (v : α) (k : κ) :
    find (store t key v) k = if k = key then some v else find t k := by
  induction t with
  | nil => rfl
  | cons p t ih =>
      obtain ⟨k', w⟩ := p
      by_cases hk : key = k'
      · subst hk
        by_cases h : k = key <;> simp [store, find_cons, h]
      · by_cases h : k = k'
        · subst h
          simp [store, find_cons, hk, Ne.symm hk]
        · simp [store, find_cons, hk, h, ih]

@[simp] theorem find_store_self (t : List (κ × α)) (key : κ) (v : α) :
    find (store t key v) key = some v := by
  simp [find_store]

theorem find_store_of_ne (t : List (κ × α)) {key k : κ} (v : α) (h : k ≠ key) :
    find (store t key v) k = find t k := by
  simp [find_store, h]

theorem find_delete (t : List (κ × α)) (key k : κ) :
    find (delete t key) k = if k = key then none else find t k := by
  induction t with
  | nil => simp [delete]
  | cons p t ih =>
      obtain ⟨k', w⟩ := p
      by_cases hk : key = k'
      · subst hk
        have hdel : delete ((key, w) :: t) key = delete t key := by simp [delete]
        rw [hdel, ih, find_cons]
        split <;> rfl
      · by_cases h : k = k'
        · subst h
          simp [delete, find_cons, hk, Ne.symm hk]
        · simp [delete, find_cons, hk, h, ih]

theorem find_append (s t : List (κ × α)) (key : κ) :
    find (s ++ t) key = (find s key).or (find t key) := by
  induction s with
  | nil => simp
  | cons p s ih =>
      obtain ⟨k, w⟩ := p
      by_cases hk : key = k
      · simp [find_cons, hk]
      · simp [find_cons, hk, ih]

theorem find_map (f : α → β) (t : List (κ × α)) (key : κ) :
    find (t.map fun p => (p.1, f p.2)) key = (find t key).map f := by
  induction t with
  | nil => rfl
  | cons p t ih =>
      obtain ⟨k, v⟩ := p
      simp only [List.map_cons, find_cons, ih]
      split <;> rfl

theorem mem_of_find {t : List (κ × α)} {key : κ} {v : α} (h : find t key = some v) :
    (key, v) ∈ t := by
  induction t with
  | nil => cases h
  | cons p t ih =>
      obtain ⟨k, w⟩ := p
      by_cases hk : key = k
      · subst hk
        have hv : w = v := by simpa [find_cons] using h
        exact hv ▸ List.mem_cons_self
      · exact List.mem_cons_of_mem _ (ih (by simpa [find_cons, hk] using h))

theorem find_eq_none_iff {t : List (κ × α)} {key : κ} :
    find t key = none ↔ key ∉ keys t := by
  induction t with
  | nil => simp [keys]
  | cons p t ih =>
      obtain ⟨k, w⟩ := p
      by_cases hk : key = k
      · simp [find_cons, keys, hk]
      · have hiff : find t key = none ↔ ∀ (x : α), (key, x) ∉ t := by
          simpa [keys] using ih
        simp [find_cons, keys, hk, hiff]

theorem mem_keys_store {t : List (κ × α)} {key k : κ} {v : α} :
    k ∈ keys (store t key v) ↔ k = key ∨ k ∈ keys t := by
  rw [← not_iff_not, not_or, ← find_eq_none_iff, ← find_eq_none_iff, find_store]
  by_cases h : k = key <;> simp [h]

/-- With distinct keys, membership and `find` are the same thing. -/
theorem find_of_mem {t : List (κ × α)} (hnd : (keys t).Nodup) {key : κ} {v : α}
    (h : (key, v) ∈ t) : find t key = some v := by
  induction t with
  | nil => cases h
  | cons p t ih =>
      obtain ⟨k, w⟩ := p
      have hnd' : k ∉ keys t ∧ (keys t).Nodup := by simpa [keys] using hnd
      rcases List.mem_cons.mp h with heq | htail
      · obtain ⟨rfl, rfl⟩ := Prod.mk.inj heq
        simp [find_cons]
      · have hne : key ≠ k := by
          rintro rfl
          exact hnd'.1 (List.mem_map_of_mem (f := Prod.fst) htail)
        simp [find_cons, hne, ih hnd'.2 htail]

theorem find_eq_some_iff {t : List (κ × α)} (hnd : (keys t).Nodup) {key : κ} {v : α} :
    find t key = some v ↔ (key, v) ∈ t :=
  ⟨mem_of_find, find_of_mem hnd⟩

/-- Two orders of the same table read alike. -/
theorem find_perm {s t : List (κ × α)} (hp : s.Perm t) (hnd : (keys s).Nodup) (key : κ) :
    find s key = find t key := by
  have hnd' : (keys t).Nodup := (hp.map Prod.fst).nodup_iff.mp hnd
  apply Option.ext
  intro v
  rw [find_eq_some_iff hnd, find_eq_some_iff hnd', hp.mem_iff]

/-- Tables with the same keys are the same if their lookups are. -/
theorem find_inj {s t : List (κ × α)} (hkeys : keys s = keys t) (hnd : (keys s).Nodup) :
    find s = find t ↔ s = t := by
  refine ⟨fun h => ?_, fun h => by rw [h]⟩
  induction s generalizing t with
  | nil => exact (List.map_eq_nil_iff.mp hkeys.symm).symm
  | cons p s ih =>
      obtain ⟨k, v⟩ := p
      obtain ⟨⟨k', v'⟩, t, rfl, rfl, hkeys'⟩ := List.map_eq_cons_iff.mp hkeys.symm
      obtain ⟨hk, hnd⟩ := List.nodup_cons.mp hnd
      have hv := congrFun h k'
      simp only [find_cons, if_true, Option.some.injEq] at hv
      have hrest : find s = find t := by
        funext key
        by_cases hkey : key = k'
        · have hs : find s key = none := find_eq_none_iff.mpr (hkey ▸ hk)
          have ht : find t key = none := by
            rw [find_eq_none_iff, hkey]
            exact fun hmem => hk (hkeys' ▸ hmem)
          rw [hs, ht]
        · have hfind := congrFun h key
          rwa [find_cons, find_cons, if_neg hkey, if_neg hkey] at hfind
      rw [hv, ih hkeys'.symm hnd hrest]

theorem keys_delete (t : List (κ × α)) (key : κ) :
    keys (delete t key) = (keys t).filter (· ≠ key) := by
  induction t with
  | nil => rfl
  | cons p t ih =>
      obtain ⟨k, u⟩ := p
      simp only [keys] at ih
      by_cases hk : key = k
      · subst hk
        simpa [delete, keys] using ih
      · simp [delete, keys, hk, Ne.symm hk, ih]

theorem mem_delete {t : List (κ × α)} {key k : κ} {v : α} :
    (k, v) ∈ delete t key ↔ (k, v) ∈ t ∧ k ≠ key := by
  induction t with
  | nil => simp [delete]
  | cons p t ih =>
      obtain ⟨k', u⟩ := p
      by_cases hk : key = k'
      · subst hk
        rw [delete, if_pos rfl, ih, List.mem_cons]
        constructor
        · rintro ⟨hmem, hne⟩
          exact ⟨.inr hmem, hne⟩
        · rintro ⟨heq | hmem, hne⟩
          · exact absurd (Prod.mk.inj heq).1 hne
          · exact ⟨hmem, hne⟩
      · rw [delete, if_neg hk, List.mem_cons, List.mem_cons, ih]
        constructor
        · rintro (heq | ⟨hmem, hne⟩)
          · exact ⟨.inl heq, fun h => hk (h.symm.trans (Prod.mk.inj heq).1)⟩
          · exact ⟨.inr hmem, hne⟩
        · rintro ⟨heq | hmem, hne⟩
          · exact .inl heq
          · exact .inr ⟨hmem, hne⟩

theorem keys_store_of_find {t : List (κ × α)} {key : κ} (v : α) {w : α}
    (h : find t key = some w) : keys (store t key v) = keys t := by
  induction t with
  | nil => cases h
  | cons p t ih =>
      obtain ⟨k, u⟩ := p
      by_cases hk : key = k
      · simp [store, hk, keys]
      · have htail := ih (by simpa [find_cons, hk] using h)
        simp only [keys] at htail
        simp [store, hk, keys, htail]

theorem store_of_not_mem {t : List (κ × α)} {key : κ} (v : α) (h : key ∉ keys t) :
    store t key v = t ++ [(key, v)] := by
  induction t with
  | nil => rfl
  | cons p t ih =>
      obtain ⟨k, u⟩ := p
      have h' : key ≠ k ∧ key ∉ keys t := by simpa [keys, not_or] using h
      simp [store, h'.1, ih h'.2]

theorem store_ne_nil (t : List (κ × α)) (key : κ) (v : α) : ∃ p t', store t key v = p :: t' := by
  cases t with
  | nil => exact ⟨_, _, rfl⟩
  | cons q t =>
      rw [store]
      split <;> exact ⟨_, _, rfl⟩

theorem nodup_keys_store {t : List (κ × α)} (hnd : (keys t).Nodup) (key : κ) (v : α) :
    (keys (store t key v)).Nodup := by
  cases hf : find t key with
  | some w => rwa [keys_store_of_find v hf]
  | none =>
      have hkey := find_eq_none_iff.mp hf
      rw [store_of_not_mem v hkey]
      simp only [keys, List.map_append, List.map_cons, List.map_nil] at hkey ⊢
      exact List.nodup_append.mpr ⟨hnd, List.nodup_singleton _, by
        intro a ha b hb heq
        rw [List.mem_singleton] at hb
        exact hkey (hb ▸ heq ▸ ha)⟩

/-! ### Storing one after another -/

/-- The table after a list of assignments. -/
def assignAll (t es : List (κ × α)) : List (κ × α) := es.foldl (fun t e => store t e.1 e.2) t

theorem nodup_keys_assignAll {t : List (κ × α)} (hnd : (keys t).Nodup) (es : List (κ × α)) :
    (keys (assignAll t es)).Nodup := by
  induction es generalizing t with
  | nil => exact hnd
  | cons e es ih => exact ih (nodup_keys_store hnd e.1 e.2)

theorem mem_keys_assignAll {t es : List (κ × α)} {k : κ} :
    k ∈ keys (assignAll t es) ↔ k ∈ keys t ∨ k ∈ keys es := by
  induction es generalizing t with
  | nil => simp [assignAll, keys]
  | cons e es ih =>
      have hcons : assignAll t (e :: es) = assignAll (store t e.1 e.2) es := rfl
      rw [hcons, ih, mem_keys_store, mem_keys_cons]
      tauto

/-- What is read is what was assigned last. -/
theorem find_assignAll (t es : List (κ × α)) (key : κ) :
    find (assignAll t es) key = (find es.reverse key).or (find t key) := by
  induction es generalizing t with
  | nil => rfl
  | cons e es ih =>
      have hcons : assignAll t (e :: es) = assignAll (store t e.1 e.2) es := rfl
      have hsingle : find [e] key = if key = e.1 then some e.2 else none := find_cons e.1 e.2 [] key
      rw [hcons, ih, List.reverse_cons, find_append, Option.or_assoc, find_store, hsingle]
      by_cases hkey : key = e.1 <;> simp [hkey]

theorem assignAll_of_nodup {t es : List (κ × α)} (h : (keys (t ++ es)).Nodup) :
    assignAll t es = t ++ es := by
  induction es generalizing t with
  | nil => simp [assignAll]
  | cons e es ih =>
      have hkey : e.1 ∉ keys t := by
        intro hmem
        rw [keys, List.map_append, List.nodup_append] at h
        exact h.2.2 e.1 hmem e.1 (by simp) rfl
      have hcons : assignAll t (e :: es) = assignAll (store t e.1 e.2) es := rfl
      rw [hcons, store_of_not_mem e.2 hkey, ih (by simpa [keys] using h)]
      simp

theorem assignAll_eq_self {es : List (κ × α)} (h : (keys es).Nodup) : assignAll [] es = es :=
  assignAll_of_nodup h

/-- No assignment overwrites another exactly when none is lost. -/
theorem length_assignAll_eq_iff {es : List (κ × α)} :
    (assignAll [] es).length = es.length ↔ (keys es).Nodup := by
  constructor
  · intro hlen
    have hnd : (keys (assignAll [] es)).Nodup := nodup_keys_assignAll (t := []) List.nodup_nil es
    have hsubset : keys (assignAll [] es) ⊆ keys es := by
      intro k hk
      simpa [keys] using mem_keys_assignAll.mp hk
    have hperm : (keys (assignAll [] es)).Perm (keys es) :=
      (List.subperm_of_subset hnd hsubset).perm_of_length_le (by simp [keys, hlen])
    exact hperm.nodup_iff.mp hnd
  · intro hnd
    rw [assignAll_eq_self hnd]

/-! ### Tables that agree -/

/-- Two tables have the same keys, and values that are the same under them. -/
def Agree {β : Type} (same : α → β → Prop) (t : List (κ × α)) (u : List (κ × β)) : Prop :=
  (∀ k, k ∈ keys t ↔ k ∈ keys u) ∧
    ∀ k v w, find t k = some v → find u k = some w → same v w

/-- Entries stored under other keys agree with what they were only if no key has changed, as long
as a changed key does not change again. -/
theorem agree_assignAll_iff {ι β : Type} {L : List ι} {k c : ι → κ} {v : ι → α} {w : ι → β}
    {same : α → β → Prop} (hk : (L.map k).Nodup)
    (hagain : ∀ i ∈ L, ∀ j ∈ L, c j = k i → c i = k i) :
    Agree same (assignAll [] (L.map fun i => (c i, v i))) (L.map fun i => (k i, w i)) ↔
      ∀ i ∈ L, c i = k i ∧ same (v i) (w i) := by
  have hkeys : keys (L.map fun i => (k i, w i)) = L.map k := by simp [keys]
  have hmem : ∀ key,
      key ∈ keys (assignAll [] (L.map fun i => (c i, v i))) ↔ ∃ i ∈ L, c i = key := by
    intro key
    rw [mem_keys_assignAll]
    simp [keys]
  -- where the keys are kept, nothing is assigned twice
  have hfind : (∀ i ∈ L, c i = k i) → ∀ i ∈ L,
      find (assignAll [] (L.map fun i => (c i, v i))) (k i) = some (v i) ∧
        find (L.map fun i => (k i, w i)) (k i) = some (w i) := by
    intro hsame i hi
    have hckeys : keys (L.map fun i => (c i, v i)) = L.map k := by
      simp only [keys, List.map_map]
      exact List.map_congr_left hsame
    rw [assignAll_eq_self (hckeys ▸ hk)]
    refine ⟨find_of_mem (hckeys ▸ hk) (List.mem_map.mpr ⟨i, hi, ?_⟩),
      find_of_mem (hkeys ▸ hk) (List.mem_map_of_mem hi)⟩
    rw [hsame i hi]
  constructor
  · rintro ⟨hsub, hvalue⟩
    have hsame : ∀ i ∈ L, c i = k i := by
      intro i hi
      have hki : k i ∈ keys (L.map fun i => (k i, w i)) := hkeys ▸ List.mem_map_of_mem hi
      obtain ⟨j, hj, hcj⟩ := (hmem (k i)).mp ((hsub (k i)).mpr hki)
      exact hagain i hi j hj hcj
    exact fun i hi => ⟨hsame i hi, hvalue _ _ _ (hfind hsame i hi).1 (hfind hsame i hi).2⟩
  · intro h
    have hsame : ∀ i ∈ L, c i = k i := fun i hi => (h i hi).1
    refine ⟨fun key => ?_, fun key x y hx hy => ?_⟩
    · rw [hmem, hkeys, List.mem_map]
      exact exists_congr fun i => and_congr_right fun hi => by rw [hsame i hi]
    · have hkey := mem_keys_of_mem (mem_of_find hy)
      rw [hkeys] at hkey
      obtain ⟨i, hi, rfl⟩ := List.mem_map.mp hkey
      rw [(hfind hsame i hi).1, Option.some.injEq] at hx
      rw [(hfind hsame i hi).2, Option.some.injEq] at hy
      exact hx ▸ hy ▸ (h i hi).2

/-! ### In any order -/

/-- The order in which `keys` goes through a hash. -/
structure KeyOrder (α : Type) where
  order : List α → List α
  perm : ∀ l, (order l).Perm l

/-- An order in which one key is first where it occurs. -/
def KeyOrder.withFirst [DecidableEq α] (a : α) : KeyOrder α where
  order l := if a ∈ l then a :: l.erase a else l
  perm l := by
    split
    · rename_i h
      exact (List.perm_cons_erase h).symm
    · exact .refl l

theorem KeyOrder.withFirst_order [DecidableEq α] {a : α} {l : List α} (h : a ∈ l) :
    (withFirst a).order l = a :: l.erase a := if_pos h

/-- What comes first in groups taken in any order, where a group agrees with itself. -/
theorem first_of_perm_iff {ι : Type} {L : List ι} {f : ι → List α} {p : α → Bool} {g : α → β}
    {b : β} (hsame : ∀ i ∈ L, ∀ x ∈ f i, ∀ y ∈ f i, p x → p y → g x = g y) :
    (∀ L' : List ι, L'.Perm L → ((L'.flatMap f).find? p).map g = some b) ↔
      (∃ i ∈ L, ∃ x ∈ f i, p x) ∧ ∀ i ∈ L, ∀ x ∈ f i, p x → g x = b := by
  constructor
  · intro h
    refine ⟨?_, fun i hi x hx hpx => ?_⟩
    · obtain ⟨x, hfound, -⟩ := Option.map_eq_some_iff.mp (h L (.refl L))
      obtain ⟨i, hi, hx⟩ := List.mem_flatMap.mp (List.mem_of_find?_eq_some hfound)
      exact ⟨i, hi, x, hx, List.find?_some hfound⟩
    · obtain ⟨before, behind, rfl⟩ := List.append_of_mem hi
      obtain ⟨y, hfound, hy⟩ := Option.map_eq_some_iff.mp
        (h (i :: (before ++ behind)) List.perm_middle.symm)
      rw [List.flatMap_cons, List.find?_append] at hfound
      cases hfirst : (f i).find? p with
      | none => exact absurd hpx (List.find?_eq_none.mp hfirst x hx)
      | some z =>
          rw [hfirst, Option.some_or] at hfound
          obtain rfl := Option.some.inj hfound
          rw [hsame i hi x hx z (List.mem_of_find?_eq_some hfirst) hpx (List.find?_some hfirst), hy]
  · rintro ⟨⟨i, hi, x, hx, hpx⟩, hall⟩ L' hperm
    cases hfound : (L'.flatMap f).find? p with
    | none =>
        have hmem : x ∈ L'.flatMap f := List.mem_flatMap.mpr ⟨i, hperm.mem_iff.mpr hi, hx⟩
        exact absurd hpx (List.find?_eq_none.mp hfound x hmem)
    | some y =>
        obtain ⟨j, hj, hy⟩ := List.mem_flatMap.mp (List.mem_of_find?_eq_some hfound)
        rw [Option.map_some, hall j (hperm.mem_iff.mp hj) y hy (List.find?_some hfound)]

end GooglePerl.Lib.Assoc
