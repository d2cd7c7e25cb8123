import GooglePerl.Lib.Assoc
import GooglePerl.Lib.Run
import Mathlib.Data.List.Perm.Subperm

/-!
The object cache of `xs/protobuf/obj_cache.c`: a hash of weak references under
the bytes of a pointer, and a queue of keys that decides which of them goes.

Only `PerlUpb_ObjCache_Add` pushes on the queue and only its loop takes from
it, so a key stays queued when its entry is deleted, and is queued again when
the pointer is added again. What bounds the hash is that it never has a key
that is not queued.
-/

namespace GooglePerl.Xs

open GooglePerl.Lib

/-- A `const void*`; `NULL` is 0. -/
abbrev Ptr := ℕ

structure ObjCache where
  /-- `obj_cache`: under each key a weak reference, which is `none` once the
  object it referred to is gone -/
  cache : List (Ptr × Option ℕ)
  /-- `obj_lru` -/
  lru : List Ptr
  /-- `max_cache_capacity` -/
  capacity : ℕ

namespace ObjCache

/-- The `while` loop of `PerlUpb_ObjCache_Add`. -/
def evict (capacity : ℕ) (cache : List (Ptr × Option ℕ)) :
    List Ptr → List (Ptr × Option ℕ) × List Ptr
  | [] => (cache, [])
  | key :: lru =>
      if lru.length + 1 > capacity then evict capacity (Assoc.delete cache key) lru
      else (cache, key :: lru)

/-- `PerlUpb_ObjCache_Add`; `obj` is `none` when it is not a reference. -/
def add (c : ObjCache) (ptr : Ptr) (obj : Option ℕ) : ObjCache :=
  match obj with
  | none => c
  | some target =>
      if ptr = 0 then c
      else
        let r := evict c.capacity (Assoc.store c.cache ptr (some target)) (c.lru ++ [ptr])
        { c with cache := r.1, lru := r.2 }

/-- `PerlUpb_ObjCache_Get`: a dead reference is taken out. -/
def get (c : ObjCache) (ptr : Ptr) : Option ℕ × ObjCache :=
  if ptr = 0 then (none, c)
  else
    match Assoc.find c.cache ptr with
    | some (some target) => (some target, c)
    | some none => (none, { c with cache := Assoc.delete c.cache ptr })
    | none => (none, c)

/-- `PerlUpb_ObjCache_Delete` -/
def delete (c : ObjCache) (ptr : Ptr) : ObjCache :=
  if ptr = 0 then c else { c with cache := Assoc.delete c.cache ptr }

/-- `PerlUpb_ObjCache_Clear` -/
def clear (c : ObjCache) : ObjCache := { c with cache := [], lru := [] }

/-- `PerlUpb_ObjCache_SetCapacity` -/
def setCapacity (c : ObjCache) (capacity : ℕ) : ObjCache := { c with capacity := capacity }

/-- The interpreter clears the weak references to an object that is gone. -/
def kill (c : ObjCache) (target : ℕ) : ObjCache :=
  { c with cache := c.cache.map fun e => (e.1, e.2.filter (· ≠ target)) }

/-- After `PerlUpb_ObjCache_Init`. -/
def init (capacity : ℕ) : ObjCache := ⟨[], [], capacity⟩

inductive Event where
  | add (ptr : Ptr) (obj : Option ℕ)
  | get (ptr : Ptr)
  | delete (ptr : Ptr)
  | clear
  | setCapacity (capacity : ℕ)
  /-- an object dies -/
  | kill (target : ℕ)

def step (c : ObjCache) : Event → ObjCache
  | .add ptr obj => c.add ptr obj
  | .get ptr => (c.get ptr).2
  | .delete ptr => c.delete ptr
  | .clear => c.clear
  | .setCapacity capacity => c.setCapacity capacity
  | .kill target => c.kill target

/-- The keys of the hash are distinct and queued. -/
structure Queued (cache : List (Ptr × Option ℕ)) (lru : List Ptr) : Prop where
  nodup : (Assoc.keys cache).Nodup
  queued : ∀ key ∈ Assoc.keys cache, key ∈ lru

theorem Queued.length_le {cache : List (Ptr × Option ℕ)} {lru : List Ptr} (h : Queued cache lru) :
    cache.length ≤ lru.length := by
  have hsub : (Assoc.keys cache).Subperm lru := h.nodup.subperm h.queued
  simpa [Assoc.keys] using hsub.length_le

theorem Queued.delete {cache : List (Ptr × Option ℕ)} {lru : List Ptr} (h : Queued cache lru)
    (key : Ptr) : Queued (Assoc.delete cache key) lru := by
  refine ⟨?_, ?_⟩
  · rw [Assoc.keys_delete]
    exact h.nodup.filter _
  · intro k hk
    rw [Assoc.keys_delete] at hk
    exact h.queued k (List.mem_filter.mp hk).1

/-- Taking the oldest key from the queue and from the hash. -/
theorem Queued.shift {cache : List (Ptr × Option ℕ)} {key : Ptr} {lru : List Ptr}
    (h : Queued cache (key :: lru)) : Queued (Assoc.delete cache key) lru := by
  refine ⟨(h.delete key).nodup, ?_⟩
  intro k hk
  rw [Assoc.keys_delete, List.mem_filter] at hk
  have hne : k ≠ key := by simpa using hk.2
  exact (List.mem_cons.mp (h.queued k hk.1)).resolve_left hne

theorem Queued.push {cache : List (Ptr × Option ℕ)} {lru : List Ptr} (h : Queued cache lru)
    (ptr : Ptr) (target : Option ℕ) :
    Queued (Assoc.store cache ptr target) (lru ++ [ptr]) := by
  refine ⟨Assoc.nodup_keys_store h.nodup ptr target, ?_⟩
  intro k hk
  rw [List.mem_append, List.mem_singleton]
  rcases Assoc.mem_keys_store.mp hk with rfl | hk
  · exact .inr rfl
  · exact .inl (h.queued k hk)

/-- The loop keeps the keys queued, ends within the capacity and never adds a key. -/
theorem Queued.evict (capacity : ℕ) {cache : List (Ptr × Option ℕ)} {lru : List Ptr}
    (h : Queued cache lru) :
    Queued (evict capacity cache lru).1 (evict capacity cache lru).2 ∧
      (evict capacity cache lru).2.length ≤ capacity := by
  induction lru generalizing cache with
  | nil => exact ⟨h, Nat.zero_le _⟩
  | cons key lru ih =>
      rw [ObjCache.evict]
      split
      · exact ih h.shift
      · refine ⟨h, ?_⟩
        simp only [List.length_cons]
        omega

/-- The invariant of the cache. -/
def Inv (c : ObjCache) : Prop := Queued c.cache c.lru

theorem Inv.add {c : ObjCache} (h : c.Inv) {ptr : Ptr} (hptr : ptr ≠ 0) (target : ℕ) :
    (c.add ptr (some target)).Inv ∧
      (c.add ptr (some target)).lru.length ≤ (c.add ptr (some target)).capacity := by
  simp only [ObjCache.add, hptr, if_false]
  exact (Queued.push h ptr (some target)).evict c.capacity

theorem add_ignored (c : ObjCache) {ptr : Ptr} {obj : Option ℕ} (h : ptr = 0 ∨ obj = none) :
    c.add ptr obj = c := by
  rcases h with rfl | rfl
  · cases obj <;> rfl
  · rfl

theorem Inv.length_le {c : ObjCache} (h : c.Inv) : c.cache.length ≤ c.lru.length :=
  Queued.length_le h

/-- One operation keeps the invariant. -/
theorem Inv.step {c : ObjCache} (h : c.Inv) (event : Event) : (c.step event).Inv := by
  cases event with
  | add ptr obj =>
      cases obj with
      | none => exact h
      | some target =>
          by_cases hptr : ptr = 0
          · rw [ObjCache.step, add_ignored c (.inl hptr)]
            exact h
          · exact (h.add hptr target).1
  | get ptr =>
      simp only [ObjCache.step, ObjCache.get]
      split
      · exact h
      · split
        · exact h
        · exact Queued.delete h ptr
        · exact h
  | delete ptr =>
      simp only [ObjCache.step, ObjCache.delete]
      split
      · exact h
      · exact Queued.delete h ptr
  | clear => exact ⟨List.nodup_nil, by simp [Assoc.keys, ObjCache.step, ObjCache.clear]⟩
  | setCapacity capacity => exact h
  | kill target =>
      have hkeys : Assoc.keys (c.kill target).cache = Assoc.keys c.cache := by
        simp [Assoc.keys, ObjCache.kill, Function.comp_def]
      refine ⟨?_, ?_⟩
      · exact hkeys ▸ h.nodup
      · intro k hk
        exact h.queued k (hkeys ▸ hk)

/-- No operation but `SetCapacity` changes the capacity. -/
theorem step_capacity (c : ObjCache) (event : Event) :
    (c.step event).capacity = c.capacity ∨ event = .setCapacity (c.step event).capacity := by
  cases event with
  | add ptr obj =>
      left
      cases obj with
      | none => rfl
      | some target => by_cases hptr : ptr = 0 <;> simp [ObjCache.step, ObjCache.add, hptr]
  | get ptr =>
      left
      simp only [ObjCache.step, ObjCache.get]
      split
      · rfl
      · split <;> rfl
  | delete ptr =>
      left
      simp only [ObjCache.step, ObjCache.delete]
      split <;> rfl
  | clear => exact .inl rfl
  | setCapacity capacity => exact .inr rfl
  | kill target => exact .inl rfl

/-- Only `Add` makes the queue longer, and then it is within the capacity. -/
theorem step_lru_length (c : ObjCache) (h : c.Inv) (event : Event) :
    (c.step event).lru.length ≤ c.lru.length ∨
      (c.step event).lru.length ≤ (c.step event).capacity := by
  cases event with
  | add ptr obj =>
      cases obj with
      | none => exact .inl (Nat.le_refl _)
      | some target =>
          by_cases hptr : ptr = 0
          · left
            exact Nat.le_of_eq (by rw [ObjCache.step, add_ignored c (.inl hptr)])
          · exact .inr (h.add hptr target).2
  | get ptr =>
      left
      simp only [ObjCache.step, ObjCache.get]
      split
      · exact Nat.le_refl _
      · split <;> exact Nat.le_refl _
  | delete ptr =>
      left
      simp only [ObjCache.step, ObjCache.delete]
      split <;> exact Nat.le_refl _
  | clear => exact .inl (Nat.zero_le _)
  | setCapacity capacity => exact .inl (Nat.le_refl _)
  | kill target => exact .inl (Nat.le_refl _)

theorem inv_run (capacity : ℕ) (events : List Event) : (run step (init capacity) events).Inv := by
  have hinit : (init capacity).Inv := ⟨List.nodup_nil, by simp [Assoc.keys, init]⟩
  exact run_invariant Inv (fun c e h _ => h.step e) hinit
    (allowed_of_forall (fun e _ => trivial) _)

/-- However long the run: if no capacity above `bound` is ever set, neither the
queue nor the hash grows above it. -/
theorem length_run_le {capacity bound : ℕ} {events : List Event} (hcapacity : capacity ≤ bound)
    (hset : ∀ e ∈ events, ∀ n, e = .setCapacity n → n ≤ bound) :
    (run step (init capacity) events).lru.length ≤ bound ∧
      (run step (init capacity) events).cache.length ≤ bound := by
  have hinit : (init capacity).Inv ∧ (init capacity).capacity ≤ bound ∧
      (init capacity).lru.length ≤ bound := ⟨inv_run capacity [], hcapacity, Nat.zero_le _⟩
  have hstep : ∀ (c : ObjCache) (e : Event),
      c.Inv ∧ c.capacity ≤ bound ∧ c.lru.length ≤ bound →
      (∀ n, e = .setCapacity n → n ≤ bound) →
      (c.step e).Inv ∧ (c.step e).capacity ≤ bound ∧ (c.step e).lru.length ≤ bound := by
    rintro c e ⟨hinv, hcap, hlru⟩ he
    have hcap' : (c.step e).capacity ≤ bound := by
      rcases step_capacity c e with heq | heq
      · rw [heq]
        exact hcap
      · exact he _ heq
    refine ⟨hinv.step e, hcap', ?_⟩
    rcases step_lru_length c hinv e with hle | hle
    · exact Nat.le_trans hle hlru
    · exact Nat.le_trans hle hcap'
  have hrun := run_invariant _ hstep hinit (allowed_of_forall hset _)
  exact ⟨hrun.2.2, Nat.le_trans hrun.1.length_le hrun.2.2⟩

/-- In every run every cached key is queued, each `Add` that is not ignored ends
with queue and hash within the capacity, and so they stay within the largest
capacity that was ever set. -/
theorem cache_bounded (capacity : ℕ) (events : List Event) :
    (∀ key ∈ Assoc.keys (run step (init capacity) events).cache,
      key ∈ (run step (init capacity) events).lru) ∧
    (∀ ptr obj,
      let before := run step (init capacity) events
      let after := run step (init capacity) (events ++ [.add ptr obj])
      if ptr = 0 ∨ obj = none then after = before
      else after.lru.length ≤ after.capacity ∧ after.cache.length ≤ after.capacity) ∧
    ∀ bound, capacity ≤ bound → (∀ e ∈ events, ∀ n, e = .setCapacity n → n ≤ bound) →
      (run step (init capacity) events).lru.length ≤ bound ∧
        (run step (init capacity) events).cache.length ≤ bound := by
  have hinv := inv_run capacity events
  refine ⟨hinv.queued, ?_, fun bound hcap hset => length_run_le hcap hset⟩
  intro ptr obj
  simp only [run_append, run_cons, run_nil]
  split
  · rename_i hignored
    exact add_ignored _ hignored
  · rename_i hvalid
    rw [not_or] at hvalid
    obtain ⟨target, rfl⟩ := Option.ne_none_iff_exists'.mp hvalid.2
    have hadd := hinv.add hvalid.1 target
    exact ⟨hadd.2, Nat.le_trans hadd.1.length_le hadd.2⟩

/-! ### Within the capacity -/

theorem evict_of_le {capacity : ℕ} (cache : List (Ptr × Option ℕ)) {lru : List Ptr}
    (h : lru.length ≤ capacity) : evict capacity cache lru = (cache, lru) := by
  cases lru with
  | nil => rfl
  | cons key lru =>
      rw [evict, if_neg]
      simpa using h

/-- A queue that is one too long loses its oldest key. -/
theorem evict_one {capacity : ℕ} (cache : List (Ptr × Option ℕ)) (key : Ptr) {lru : List Ptr}
    (h : lru.length = capacity) :
    evict capacity cache (key :: lru) = (Assoc.delete cache key, lru) := by
  rw [evict, if_pos (by omega), evict_of_le _ (Nat.le_of_eq h)]

theorem get_hit {c : ObjCache} {ptr : Ptr} {target : ℕ} (hptr : ptr ≠ 0)
    (h : Assoc.find c.cache ptr = some (some target)) : c.get ptr = (some target, c) := by
  simp [get, hptr, h]

theorem get_eq_some {c c' : ObjCache} {ptr : Ptr} {target : ℕ}
    (h : c.get ptr = (some target, c')) :
    Assoc.find c.cache ptr = some (some target) ∧ c' = c := by
  unfold get at h
  split at h
  · simp at h
  · split at h <;> simp_all

theorem get_eq_none {c c' : ObjCache} {ptr : Ptr} (h : c.get ptr = (none, c')) :
    c'.lru = c.lru ∧ c'.capacity = c.capacity ∧
      ∀ q, q ≠ ptr → Assoc.find c'.cache q = Assoc.find c.cache q := by
  unfold get at h
  split at h
  · obtain rfl : c = c' := by simpa using h
    exact ⟨rfl, rfl, fun _ _ => rfl⟩
  · split at h
    · simp at h
    · obtain rfl : { c with cache := Assoc.delete c.cache ptr } = c' := by simpa using h
      refine ⟨rfl, rfl, ?_⟩
      intro q hq
      simp [Assoc.find_delete, hq]
    · obtain rfl : c = c' := by simpa using h
      exact ⟨rfl, rfl, fun _ _ => rfl⟩

/-- What `Add` does to a cache within its capacity: room for the key, or the
oldest key goes, which in a cache of capacity 0 is the new one. -/
theorem add_cases (c : ObjCache) {ptr : Ptr} (hptr : ptr ≠ 0) (target : ℕ)
    (hle : c.lru.length ≤ c.capacity) :
    (c.lru.length < c.capacity ∧ c.add ptr (some target) =
      { c with cache := Assoc.store c.cache ptr (some target), lru := c.lru ++ [ptr] }) ∨
    (c.capacity = 0 ∧ c.add ptr (some target) =
      { c with cache := Assoc.delete (Assoc.store c.cache ptr (some target)) ptr, lru := [] }) ∨
    ∃ key lru, c.lru = key :: lru ∧ lru.length + 1 = c.capacity ∧ c.add ptr (some target) =
      { c with
        cache := Assoc.delete (Assoc.store c.cache ptr (some target)) key
        lru := lru ++ [ptr] } := by
  simp only [add, hptr, if_false]
  by_cases hroom : c.lru.length < c.capacity
  · left
    refine ⟨hroom, ?_⟩
    rw [evict_of_le _ (by rw [List.length_append, List.length_singleton]; omega)]
  · have hfull : c.lru.length = c.capacity := by omega
    right
    cases hlru : c.lru with
    | nil =>
        left
        have hzero : c.capacity = 0 := by simpa [hlru] using hfull.symm
        refine ⟨hzero, ?_⟩
        rw [List.nil_append, evict_one _ _ (by simp [hzero])]
    | cons key lru =>
        right
        have hlen : lru.length + 1 = c.capacity := by simpa [hlru] using hfull
        refine ⟨key, lru, rfl, hlen, ?_⟩
        rw [List.cons_append, evict_one _ _ (by simpa using hlen)]

theorem find_kill (c : ObjCache) (gone : ℕ) (ptr : Ptr) :
    Assoc.find (c.kill gone).cache ptr =
      (Assoc.find c.cache ptr).map fun r => r.filter (· ≠ gone) :=
  Assoc.find_map (fun r : Option ℕ => r.filter (· ≠ gone)) c.cache ptr

end ObjCache

end GooglePerl.Xs
