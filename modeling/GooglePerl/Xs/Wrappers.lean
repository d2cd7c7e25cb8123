import GooglePerl.Xs.ObjCache
import Mathlib.Data.List.Dedup

/-!
`PerlUpb_WrapArenaBoundObject` and the destructor of what it makes
(`xs/protobuf/utils.c`), over the object cache.

The destructor deletes the cache entry of the wrapper's pointer, whosever entry
that is by then, and leaves the pointer's key in the queue. So a wrapper that
was evicted while alive can have a successor whose entry it takes away, and the
key of a dead wrapper can make the loop evict a live one.
-/

namespace GooglePerl.Xs

open GooglePerl.Lib

structure Wrappers where
  objects : ObjCache
  /-- the wrappers that are alive, each with its pointer -/
  live : List (ℕ × Ptr)
  /-- the number of wrappers made so far, which names the next one -/
  next : ℕ
  /-- the pointers that were wrapped, the last one first -/
  wraps : List Ptr

namespace Wrappers

/-- `PerlUpb_WrapArenaBoundObject`; `none` is `undef`. -/
def wrap (s : Wrappers) (ptr : Ptr) : Option ℕ × Wrappers :=
  if ptr = 0 then (none, s)
  else
    match s.objects.get ptr with
    | (some cached, c) => (some cached, { s with objects := c, wraps := ptr :: s.wraps })
    | (none, c) => (some s.next,
        { objects := c.add ptr (some s.next)
          live := (s.next, ptr) :: s.live
          next := s.next + 1
          wraps := ptr :: s.wraps })

/-- The last reference to a wrapper goes: the weak references to it are cleared
and `wrapper_cleanup` deletes the entry of its pointer. -/
def destroy (s : Wrappers) (wrapper : ℕ) : Wrappers :=
  match Assoc.find s.live wrapper with
  | none => s
  | some ptr =>
      { s with
        objects := (s.objects.kill wrapper).delete ptr
        live := Assoc.delete s.live wrapper }

inductive Event where
  | wrap (ptr : Ptr)
  | destroy (wrapper : ℕ)

def step (s : Wrappers) : Event → Wrappers
  | .wrap ptr => (s.wrap ptr).2
  | .destroy wrapper => s.destroy wrapper

def init (capacity : ℕ) : Wrappers := ⟨ObjCache.init capacity, [], 0, []⟩

/-- How many other pointers were wrapped since this one was last wrapped. -/
def othersSince (s : Wrappers) (ptr : Ptr) : ℕ := (s.wraps.takeWhile (· ≠ ptr)).dedup.length

/-- The wrapper is what the cache has for the pointer. -/
def Cached (s : Wrappers) (wrapper : ℕ) (ptr : Ptr) : Prop :=
  Assoc.find s.objects.cache ptr = some (some wrapper)

/-- A live wrapper of a recently wrapped pointer is returned again, with no
second one made, and the end of a wrapper takes away no other's entry. -/
structure OneWrapper (s : Wrappers) : Prop where
  again : ∀ wrapper ptr, (wrapper, ptr) ∈ s.live → s.othersSince ptr < s.objects.capacity →
    (s.wrap ptr).1 = some wrapper ∧ (s.wrap ptr).2.live = s.live
  others_kept : ∀ gone wrapper ptr, (wrapper, ptr) ∈ s.live → wrapper ≠ gone →
    s.Cached wrapper ptr → (s.destroy gone).Cached wrapper ptr

instance (s : Wrappers) (wrapper : ℕ) (ptr : Ptr) : Decidable (s.Cached wrapper ptr) :=
  inferInstanceAs (Decidable (_ = _))

/-- The condition on the key that a new key pushes out of a full queue: it is
another pointer's, which has no live wrapper, or which is the least recently
wrapped one of a queue without repetition. -/
def EvictsWell (s : Wrappers) (ptr : Ptr) : List Ptr → Prop
  | [] => True
  | key :: lru => lru.length + 1 = s.objects.capacity →
      key ≠ ptr ∧ ((∀ e ∈ s.live, e.2 ≠ key) ∨
        (key :: lru ++ [ptr]).Nodup ∧ ∀ other ∈ lru, other ∈ s.wraps.takeWhile (· ≠ key))

instance (s : Wrappers) (ptr : Ptr) : (lru : List Ptr) → Decidable (s.EvictsWell ptr lru)
  | [] => .isTrue trivial
  | _ :: _ => inferInstanceAs (Decidable (_ → _))

/-- The condition on an event: a `wrap` that makes a wrapper finds no live one of
its pointer, and evicts well. -/
def Clean (s : Wrappers) : Event → Prop
  | .wrap ptr => (s.objects.get ptr).1 = none →
      (∀ e ∈ s.live, e.2 ≠ ptr) ∧ s.EvictsWell ptr s.objects.lru
  | .destroy _ => True

instance (s : Wrappers) : (event : Event) → Decidable (s.Clean event)
  | .wrap _ => inferInstanceAs (Decidable (_ → _))
  | .destroy _ => .isTrue trivial

/-- Wrappers have their own names and pointers, the cache holds live wrappers
only, and one that is not in it has been pushed out by enough others. -/
structure Inv (s : Wrappers) : Prop where
  lru_le : s.objects.lru.length ≤ s.objects.capacity
  names : (Assoc.keys s.live).Nodup
  fresh : ∀ wrapper ptr, (wrapper, ptr) ∈ s.live → wrapper < s.next
  nonnull : ∀ wrapper ptr, (wrapper, ptr) ∈ s.live → ptr ≠ 0
  unique : ∀ wrapper wrapper' ptr, (wrapper, ptr) ∈ s.live → (wrapper', ptr) ∈ s.live →
    wrapper = wrapper'
  cached_live : ∀ wrapper ptr, s.Cached wrapper ptr → (wrapper, ptr) ∈ s.live
  evicted : ∀ wrapper ptr, (wrapper, ptr) ∈ s.live → ¬ s.Cached wrapper ptr →
    s.objects.capacity ≤ s.othersSince ptr

/-- Wrapping another pointer can only add to the count. -/
theorem othersSince_le_cons {ptr q : Ptr} (h : q ≠ ptr) (wraps : List Ptr) :
    (wraps.takeWhile (· ≠ ptr)).dedup.length ≤
      ((q :: wraps).takeWhile (· ≠ ptr)).dedup.length := by
  rw [List.takeWhile_cons_of_pos (by simpa using h)]
  by_cases hmem : q ∈ wraps.takeWhile (· ≠ ptr)
  · exact Nat.le_of_eq (by rw [List.dedup_cons_of_mem hmem])
  · rw [List.dedup_cons_of_notMem hmem]
    simp

/-- Distinct pointers that were all wrapped since. -/
theorem length_le_othersSince {wraps lru : List Ptr} {ptr : Ptr} (hnd : lru.Nodup)
    (h : ∀ q ∈ lru, q ∈ wraps.takeWhile (· ≠ ptr)) :
    lru.length ≤ (wraps.takeWhile (· ≠ ptr)).dedup.length := by
  have hsub : lru.Subperm (wraps.takeWhile (· ≠ ptr)).dedup :=
    hnd.subperm fun q hq => List.mem_dedup.mpr (h q hq)
  exact hsub.length_le

/-- The least recently wrapped of a queue without repetition: since it was wrapped, all
others of the queue were, and the one that pushes it out. -/
theorem othersSince_of_pushed_out {wraps lru : List Ptr} {key ptr : Ptr} (hne : key ≠ ptr)
    (hnd : (key :: lru ++ [ptr]).Nodup) (hsince : ∀ q ∈ lru, q ∈ wraps.takeWhile (· ≠ key)) :
    lru.length + 1 ≤ ((ptr :: wraps).takeWhile (· ≠ key)).dedup.length := by
  have hnd' : (lru ++ [ptr]).Nodup := (List.nodup_cons.mp hnd).2
  have hall : ∀ x ∈ lru ++ [ptr], x ∈ (ptr :: wraps).takeWhile (· ≠ key) := by
    intro x hx
    rw [List.takeWhile_cons_of_pos (by simpa using Ne.symm hne)]
    rcases List.mem_append.mp hx with hx | hx
    · exact List.mem_cons_of_mem _ (hsince x hx)
    · rw [List.mem_singleton.mp hx]
      exact List.mem_cons_self
  have hcount := length_le_othersSince hnd' hall
  rwa [List.length_append, List.length_singleton] at hcount

/-- What `wrap` can do. -/
theorem wrap_cases (s : Wrappers) {ptr : Ptr} (hptr : ptr ≠ 0) :
    (∃ w, s.Cached w ptr ∧ s.wrap ptr = (some w, { s with wraps := ptr :: s.wraps })) ∨
    ∃ c, s.objects.get ptr = (none, c) ∧ s.wrap ptr = (some s.next,
      { objects := c.add ptr (some s.next)
        live := (s.next, ptr) :: s.live
        next := s.next + 1
        wraps := ptr :: s.wraps }) := by
  cases hget : s.objects.get ptr with
  | mk r c =>
      cases r with
      | some w =>
          obtain ⟨hfind, rfl⟩ := ObjCache.get_eq_some hget
          exact .inl ⟨w, hfind, by simp [wrap, hptr, hget]⟩
      | none => exact .inr ⟨c, rfl, by simp [wrap, hptr, hget]⟩

section Step

variable {s : Wrappers}

theorem Inv.hit (h : s.Inv) {w : ℕ} {ptr : Ptr} (hcached : s.Cached w ptr) :
    Inv { s with wraps := ptr :: s.wraps } := by
  refine ⟨h.lru_le, h.names, h.fresh, h.nonnull, h.unique, h.cached_live, ?_⟩
  intro w' q hlive hnot
  have hne : ptr ≠ q := by
    rintro rfl
    obtain rfl := h.unique w' w ptr hlive (h.cached_live w ptr hcached)
    exact hnot hcached
  exact Nat.le_trans (h.evicted w' q hlive hnot) (othersSince_le_cons hne s.wraps)

/-- What is found after a miss: the new wrapper under its pointer, the others as
before, and nothing under the key that went. -/
theorem find_after_miss {c : ObjCache} {ptr : Ptr} (hle : s.objects.lru.length ≤ s.objects.capacity)
    (hptr : ptr ≠ 0) (hget : s.objects.get ptr = (none, c)) :
    ∃ gone : Option Ptr,
      (∀ q, Assoc.find (c.add ptr (some s.next)).cache q =
        if gone = some q then none
        else if q = ptr then some (some s.next) else Assoc.find s.objects.cache q) ∧
      (c.add ptr (some s.next)).lru.length ≤ (c.add ptr (some s.next)).capacity ∧
      (c.add ptr (some s.next)).capacity = s.objects.capacity ∧
      (gone = none ∨ s.objects.capacity = 0 ∧ gone = some ptr ∨
        ∃ key lru, s.objects.lru = key :: lru ∧ lru.length + 1 = s.objects.capacity ∧
          gone = some key) := by
  obtain ⟨hlru, hcap, hfind⟩ := ObjCache.get_eq_none hget
  have hstore : ∀ q, Assoc.find (Assoc.store c.cache ptr (some s.next)) q =
      if q = ptr then some (some s.next) else Assoc.find s.objects.cache q := by
    intro q
    rw [Assoc.find_store]
    split
    · rfl
    · rename_i hq
      exact hfind q hq
  have hle' : c.lru.length ≤ c.capacity := by rw [hlru, hcap]; exact hle
  -- there is room, or there is none at all, or the oldest key goes
  rcases ObjCache.add_cases c hptr s.next hle' with ⟨hroom, hadd⟩ | ⟨hzero, hadd⟩ |
      ⟨key, lru, hc, hlen, hadd⟩
  · refine ⟨none, ?_, ?_, ?_, .inl rfl⟩
    · intro q
      simp [hadd, hstore]
    · rw [hadd, List.length_append, List.length_singleton]
      exact hroom
    · simp [hadd, hcap]
  · refine ⟨some ptr, ?_, ?_, ?_, .inr (.inl ⟨hcap ▸ hzero, rfl⟩)⟩
    · intro q
      rw [hadd, Assoc.find_delete, hstore]
      by_cases hq : q = ptr
      · simp [hq]
      · simp [hq, Ne.symm hq]
    · simp [hadd]
    · simp [hadd, hcap]
  · refine ⟨some key, ?_, ?_, ?_, .inr (.inr ⟨key, lru, hlru ▸ hc, hcap ▸ hlen, rfl⟩)⟩
    · intro q
      rw [hadd, Assoc.find_delete, hstore]
      by_cases hq : q = key
      · simp [hq]
      · simp [hq, Ne.symm hq]
    · simp [hadd, hlen]
    · simp [hadd, hcap]

theorem Inv.miss (h : s.Inv) {c : ObjCache} {ptr : Ptr} (hptr : ptr ≠ 0)
    (hget : s.objects.get ptr = (none, c)) (hclean : s.Clean (.wrap ptr)) :
    Inv { objects := c.add ptr (some s.next), live := (s.next, ptr) :: s.live,
          next := s.next + 1, wraps := ptr :: s.wraps } := by
  obtain ⟨hother, hevicts⟩ := hclean (by rw [hget])
  have hnone : ∀ w, (w, ptr) ∉ s.live := fun w hlive => hother _ hlive rfl
  obtain ⟨gone, hfind, hlen, hcap, hgone⟩ := find_after_miss h.lru_le hptr hget
  refine ⟨hlen, ?_, ?_, ?_, ?_, ?_, ?_⟩
  · -- the new name is above all that were given
    refine List.nodup_cons.mpr ⟨?_, h.names⟩
    intro hmem
    obtain ⟨⟨w, q⟩, hlive, hw⟩ := List.mem_map.mp hmem
    have hlt := h.fresh w q hlive
    simp only at hw
    omega
  · intro w q hlive
    rcases List.mem_cons.mp hlive with heq | hlive
    · obtain ⟨rfl, rfl⟩ := Prod.mk.inj heq
      exact Nat.lt_succ_self _
    · exact Nat.lt_succ_of_lt (h.fresh w q hlive)
  · intro w q hlive
    rcases List.mem_cons.mp hlive with heq | hlive
    · obtain ⟨rfl, rfl⟩ := Prod.mk.inj heq
      exact hptr
    · exact h.nonnull w q hlive
  · intro w w' q hlive hlive'
    rcases List.mem_cons.mp hlive with heq | hold
    · obtain ⟨rfl, rfl⟩ := Prod.mk.inj heq
      rcases List.mem_cons.mp hlive' with heq' | hold'
      · exact (Prod.mk.inj heq').1.symm
      · exact absurd hold' (hnone w')
    · rcases List.mem_cons.mp hlive' with heq' | hold'
      · obtain ⟨rfl, rfl⟩ := Prod.mk.inj heq'
        exact absurd hold (hnone w)
      · exact h.unique w w' q hold hold'
  · intro w q hcached
    simp only [Cached, hfind] at hcached
    split at hcached
    · cases hcached
    · split at hcached
      · rename_i hq
        subst hq
        obtain rfl : s.next = w := by simpa using hcached
        exact List.mem_cons_self
      · exact List.mem_cons_of_mem _ (h.cached_live w q hcached)
  · intro w q hlive hnot
    simp only [hcap]
    by_cases hq : q = ptr
    · -- the new wrapper itself: it stays unless there is no room at all
      subst hq
      have hw : w = s.next := by
        rcases List.mem_cons.mp hlive with heq | hlive
        · exact (Prod.mk.inj heq).1
        · exact absurd hlive (hnone w)
      subst hw
      rcases hgone with rfl | ⟨hzero, -⟩ | ⟨key, lru, hlru, hl, rfl⟩
      · exact absurd (by simp [Cached, hfind]) hnot
      · rw [hzero]
        exact Nat.zero_le _
      · rw [hlru] at hevicts
        have hne := (hevicts hl).1
        exact absurd (by simp [Cached, hfind, hne]) hnot
    · have hlive : (w, q) ∈ s.live := by
        rcases List.mem_cons.mp hlive with heq | hlive
        · exact absurd (Prod.mk.inj heq).2 hq
        · exact hlive
      by_cases hcached : s.Cached w q
      · -- it was pushed out just now
        rcases hgone with rfl | ⟨-, rfl⟩ | ⟨key, lru, hlru, hl, rfl⟩
        · exact absurd (by simpa [Cached, hfind, hq] using hcached) hnot
        · exact absurd (by simpa [Cached, hfind, hq, Ne.symm hq] using hcached) hnot
        · have hkey : key = q := by
            by_contra hne
            exact hnot (by simpa [Cached, hfind, hq, hne] using hcached)
          subst hkey
          rw [hlru] at hevicts
          obtain ⟨hnd, hsince⟩ := (hevicts hl).2.resolve_left fun hdead => hdead _ hlive rfl
          exact hl ▸ othersSince_of_pushed_out hq hnd hsince
      · -- it was pushed out before, and one more pointer was wrapped since
        exact Nat.le_trans (h.evicted w q hlive hcached) (othersSince_le_cons (Ne.symm hq) s.wraps)

/-- What is found after the end of a wrapper of `q`. -/
theorem cached_after {c : ObjCache} {gone w : ℕ} {q ptr : Ptr} (hq : q ≠ 0) :
    Assoc.find ((c.kill gone).delete q).cache ptr = some (some w) ↔
      ptr ≠ q ∧ w ≠ gone ∧ Assoc.find c.cache ptr = some (some w) := by
  simp only [ObjCache.delete, hq, if_false, Assoc.find_delete, ObjCache.find_kill]
  by_cases hptr : ptr = q
  · simp [hptr]
  · simp only [hptr, if_false, Option.map_eq_some_iff, Option.filter_eq_some_iff, ne_eq,
      not_false_eq_true, true_and, decide_not, Bool.not_eq_eq_eq_not, Bool.not_true,
      decide_eq_false_iff_not]
    constructor
    · rintro ⟨r, hr, rfl, hne⟩
      exact ⟨hne, hr⟩
    · rintro ⟨hne, hr⟩
      exact ⟨some w, hr, rfl, hne⟩

/-- The end of a wrapper leaves the entries of the others alone. -/
theorem destroy_cached (h : s.Inv) {gone w : ℕ} {ptr : Ptr} (hlive : (w, ptr) ∈ s.live)
    (hne : w ≠ gone) : (s.destroy gone).Cached w ptr ↔ s.Cached w ptr := by
  unfold destroy
  cases hfind : Assoc.find s.live gone with
  | none => exact Iff.rfl
  | some q =>
      have hgone : (gone, q) ∈ s.live := Assoc.mem_of_find hfind
      have hptr : ptr ≠ q := by
        rintro rfl
        exact hne (h.unique w gone ptr hlive hgone)
      exact (cached_after (h.nonnull gone q hgone)).trans
        ⟨fun hc => hc.2.2, fun hc => ⟨hptr, hne, hc⟩⟩

theorem Inv.destroy (h : s.Inv) (gone : ℕ) : (s.destroy gone).Inv := by
  -- only the wrapper's own entry goes, so what is cached of the others stays
  have hkept : ∀ w ptr, (w, ptr) ∈ s.live → w ≠ gone →
      ((s.destroy gone).Cached w ptr ↔ s.Cached w ptr) :=
    fun _ _ hlive hne => destroy_cached h hlive hne
  cases hfind : Assoc.find s.live gone with
  | none =>
      have hsame : s.destroy gone = s := by simp [Wrappers.destroy, hfind]
      rw [hsame]
      exact h
  | some q =>
      have hq : q ≠ 0 := h.nonnull gone q (Assoc.mem_of_find hfind)
      have hlru : (s.destroy gone).objects.lru = s.objects.lru := by
        simp [Wrappers.destroy, hfind, ObjCache.delete, ObjCache.kill, hq]
      have hcap : (s.destroy gone).objects.capacity = s.objects.capacity := by
        simp [Wrappers.destroy, hfind, ObjCache.delete, ObjCache.kill, hq]
      have hlive : (s.destroy gone).live = Assoc.delete s.live gone := by
        simp [Wrappers.destroy, hfind]
      have hsince : ∀ ptr, (s.destroy gone).othersSince ptr = s.othersSince ptr := by
        intro ptr
        simp [Wrappers.destroy, hfind, othersSince]
      have hnext : (s.destroy gone).next = s.next := by
        simp [Wrappers.destroy, hfind]
      have hstill : ∀ w ptr, (w, ptr) ∈ (s.destroy gone).live ↔ (w, ptr) ∈ s.live ∧ w ≠ gone := by
        intro w ptr
        rw [hlive, Assoc.mem_delete]
      refine ⟨?_, ?_, ?_, ?_, ?_, ?_, ?_⟩
      · rw [hlru, hcap]
        exact h.lru_le
      · rw [hlive, Assoc.keys_delete]
        exact h.names.filter _
      · intro w ptr hw
        rw [hnext]
        exact h.fresh w ptr ((hstill w ptr).mp hw).1
      · intro w ptr hw
        exact h.nonnull w ptr ((hstill w ptr).mp hw).1
      · intro w w' ptr hw hw'
        exact h.unique w w' ptr ((hstill w ptr).mp hw).1 ((hstill w' ptr).mp hw').1
      · intro w ptr hc
        have hc' : Assoc.find ((s.objects.kill gone).delete q).cache ptr = some (some w) := by
          simpa [Wrappers.destroy, hfind, Cached] using hc
        obtain ⟨-, hne, hfound⟩ := (cached_after hq).mp hc'
        exact (hstill w ptr).mpr ⟨h.cached_live w ptr hfound, hne⟩
      · intro w ptr hw hnot
        obtain ⟨hw, hne⟩ := (hstill w ptr).mp hw
        rw [hcap, hsince]
        exact h.evicted w ptr hw fun hc => hnot ((hkept w ptr hw hne).mpr hc)

/-- One event keeps the invariant. -/
theorem Inv.step (h : s.Inv) (event : Event) (hclean : s.Clean event) : (s.step event).Inv := by
  cases event with
  | wrap ptr =>
      by_cases hptr : ptr = 0
      · have hsame : s.step (.wrap ptr) = s := by simp [Wrappers.step, wrap, hptr]
        rw [hsame]
        exact h
      · rcases wrap_cases s hptr with ⟨w, hcached, hwrap⟩ | ⟨c, hget, hwrap⟩
        · rw [Wrappers.step, hwrap]
          exact h.hit hcached
        · rw [Wrappers.step, hwrap]
          exact h.miss hptr hget hclean
  | destroy gone => exact h.destroy gone

theorem Inv.oneWrapper (h : s.Inv) : s.OneWrapper := by
  refine ⟨?_, ?_⟩
  · intro w ptr hlive hfew
    have hcached : s.Cached w ptr := by
      by_contra hnot
      exact absurd (h.evicted w ptr hlive hnot) (Nat.not_le.mpr hfew)
    have hget := ObjCache.get_hit (h.nonnull w ptr hlive) hcached
    simp [wrap, h.nonnull w ptr hlive, hget]
  · intro gone w ptr hlive hne hcached
    exact (destroy_cached h hlive hne).mpr hcached

end Step

theorem inv_init (capacity : ℕ) : (init capacity).Inv where
  lru_le := Nat.zero_le _
  names := List.nodup_nil
  fresh := by simp [init]
  nonnull := by simp [init]
  unique := by simp [init]
  cached_live := by simp [init, Cached, ObjCache.init]
  evicted := by simp [init]

/-- In every run in which each `wrap` meets the condition, there is one wrapper
for each pointer. -/
theorem one_wrapper (capacity : ℕ) (events : List Event)
    (hclean : Allowed step Clean (init capacity) events) :
    (run step (init capacity) events).OneWrapper := by
  have hinv := run_invariant Inv (fun s e h he => h.step e he) (inv_init capacity) hclean
  exact hinv.oneWrapper

/-- A cache of two: each new pointer pushes out the least recently wrapped one. -/
theorem one_wrapper_of_two :
    (run step (init 2) [.wrap 1, .wrap 2, .wrap 3, .destroy 0, .wrap 4, .wrap 3]).OneWrapper := by
  apply one_wrapper
  refine ⟨?_, ?_, ?_, trivial, ?_, ?_, trivial⟩
  all_goals decide

/-- A dead wrapper's key pushes out the live wrapper of the same pointer; and a
wrapper that was pushed out takes away the entry of its successor. -/
theorem one_wrapper_fails :
    ¬ (run step (init 2) [.wrap 1, .destroy 0, .wrap 1, .wrap 2]).OneWrapper ∧
    ¬ (run step (init 1) [.wrap 1, .wrap 2, .wrap 1]).OneWrapper := by
  constructor
  · intro h
    have hagain := (h.again 1 1 (by decide) (by decide)).1
    exact absurd hagain (by decide)
  · intro h
    have hkept := h.others_kept 0 2 1 (by decide) (by decide) (by decide)
    exact absurd hkept (by decide)

end Wrappers

end GooglePerl.Xs
