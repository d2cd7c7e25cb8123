import GooglePerl.Lib.Extent
import GooglePerl.Lib.Run

/-!
The allocator behind an arena, which counts what it hands out (`stats_alloc_func`).

The blocks that `malloc` and `realloc` gave and `free` has not taken back are part of the state,
so the counters can be held against them. `free` leaves the counters as they are, and that is
the one way in which they go wrong (`exact_iff`).
-/

namespace GooglePerl.Xs

open Lib

/-- The counters of `PerlUpb_StatsAlloc`, each a `size_t`. -/
structure StatsAlloc where
  totalReserved : ℕ
  totalBlocks : ℕ
  historicalMaxSize : ℕ
  poisoned : Bool
  deriving DecidableEq, Repr

/-- The allocator and the blocks that are live on the C heap. -/
structure StatsHeap where
  alloc : StatsAlloc
  heap : List Extent
  deriving DecidableEq, Repr

/-- A call of the allocator, with what `rand` and `realloc` answer if they are asked. -/
structure AllocCall where
  /-- `NULL` is `none`. -/
  ptr : Option ℕ
  oldsize : ℕ
  size : ℕ
  /-- Whether `fail_probability` makes the request fail. -/
  injected : Bool
  granted : Option ℕ
  deriving DecidableEq, Repr

namespace StatsAlloc

/-- `total_reserved += n`, and the maximum after it -/
def grow (s : StatsAlloc) (n : ℕ) : StatsAlloc :=
  let reserved := (s.totalReserved + n) % sizeMod
  { s with
    totalReserved := reserved
    historicalMaxSize := if reserved > s.historicalMaxSize then reserved else s.historicalMaxSize }

/-- What a request that succeeds does to the counters. -/
def account (s : StatsAlloc) (oldsize size : ℕ) : StatsAlloc :=
  if oldsize = 0 then { s.grow size with totalBlocks := (s.totalBlocks + 1) % sizeMod }
  else if size > oldsize then s.grow (size - oldsize)
  else { s with totalReserved := (s.totalReserved + (sizeMod - (oldsize - size))) % sizeMod }

end StatsAlloc

/-- The heap after `free(ptr)`. -/
def release (heap : List Extent) : Option ℕ → List Extent
  | none => heap
  | some p => Extent.freed heap p

/-- `stats_alloc_func` -/
def statsAllocFunc (s : StatsHeap) (c : AllocCall) : StatsHeap × Option ℕ :=
  if s.alloc.poisoned = true ∧ 0 < c.size then (s, none)
  else if c.size = 0 then ({ s with heap := release s.heap c.ptr }, none)
  else if c.injected then (s, none)
  else
    match c.granted with
    | none => (s, none)
    | some ret =>
        ({ alloc := s.alloc.account c.oldsize c.size
           heap := release s.heap c.ptr ++ [⟨ret, c.size⟩] }, some ret)

def statsStep (s : StatsHeap) (c : AllocCall) : StatsHeap := (statsAllocFunc s c).1

/-- `PerlUpb_Arena_GetStats` for an arena that is not on a file -/
structure ArenaStats where
  allocated : ℕ
  reserved : ℕ
  blocks : ℕ
  deriving DecidableEq, Repr

def StatsAlloc.getStats (s : StatsAlloc) : ArenaStats :=
  { allocated := s.totalReserved, reserved := s.totalReserved, blocks := s.totalBlocks }

/-! ### The protocol -/

/-- The addresses that a block can have. -/
def memory : Extent := ⟨1, sizeMod - 1⟩

/-- A call that keeps to the protocol of `upb_alloc`, and a `realloc` that gives unused memory. -/
structure AllocCall.Proper (s : StatsHeap) (c : AllocCall) : Prop where
  oldsize_null : c.ptr = none → c.oldsize = 0
  live : ∀ p, c.ptr = some p → ⟨p, c.oldsize⟩ ∈ s.heap
  inside : ∀ q, c.granted = some q → Extent.Inside ⟨q, c.size⟩ memory
  apart : ∀ q, c.granted = some q → ∀ e ∈ release s.heap c.ptr, Extent.Apart e ⟨q, c.size⟩

/-- Blocks that lie apart, are not empty and lie in memory. -/
structure SoundHeap (heap : List Extent) : Prop where
  apart : heap.Pairwise Extent.Apart
  pos : ∀ e ∈ heap, 0 < e.size
  inside : ∀ e ∈ heap, e.Inside memory

/-- What a call can do: nothing, free a block, or put a block in the place of another. -/
theorem statsStep_cases (s : StatsHeap) (c : AllocCall) :
    (statsStep s c = s ∧ (c.size = 0 → c.ptr = none)) ∨
      (c.size = 0 ∧ ∃ p, c.ptr = some p ∧
        statsStep s c = { s with heap := Extent.freed s.heap p }) ∨
      (0 < c.size ∧ ∃ q, c.granted = some q ∧ statsStep s c =
        { alloc := s.alloc.account c.oldsize c.size
          heap := release s.heap c.ptr ++ [⟨q, c.size⟩] }) := by
  unfold statsStep statsAllocFunc
  split
  · rename_i hpoisoned
    exact .inl ⟨rfl, fun h => absurd hpoisoned.2 (by omega)⟩
  · split
    · rename_i hsize
      cases hptr : c.ptr with
      | none => exact .inl ⟨rfl, fun _ => rfl⟩
      | some p => exact .inr (.inl ⟨hsize, p, rfl, rfl⟩)
    · rename_i hsize
      split
      · exact .inl ⟨rfl, fun h => absurd h hsize⟩
      · cases hgranted : c.granted with
        | none => exact .inl ⟨rfl, fun h => absurd h hsize⟩
        | some q => exact .inr (.inr ⟨by omega, q, rfl, rfl⟩)

/-! ### The heap -/

variable {s : StatsHeap} {c : AllocCall}

/-- The heap without the block that a call resizes or frees, and that block. -/
theorem exists_release (hs : SoundHeap s.heap) (hc : c.Proper s) :
    SoundHeap (release s.heap c.ptr) ∧
      (s.heap.map Extent.size).sum = ((release s.heap c.ptr).map Extent.size).sum + c.oldsize ∧
      ∀ p, c.ptr = some p → 0 < c.oldsize ∧ s.heap.length = (release s.heap c.ptr).length + 1 := by
  cases hptr : c.ptr with
  | none => exact ⟨hs, by rw [hc.oldsize_null hptr]; rfl, fun p hp => nomatch hp⟩
  | some p =>
      have hlive := hc.live p hptr
      obtain ⟨l, r, hheap, hfreed⟩ := Extent.exists_freed hs.apart hs.pos hlive
      have hrelease : release s.heap (some p) = l ++ r := hfreed
      have hsublist : (l ++ r).Sublist s.heap := by
        rw [hheap]
        exact List.Sublist.append_left (List.sublist_cons_self _ _) l
      rw [hrelease]
      refine ⟨⟨hs.apart.sublist hsublist, fun e he => hs.pos e (hsublist.subset he),
        fun e he => hs.inside e (hsublist.subset he)⟩, ?_, fun q hq => ⟨hs.pos _ hlive, ?_⟩⟩
      · rw [hheap]
        simp only [List.map_append, List.map_cons, List.sum_append, List.sum_cons]
        omega
      · rw [hheap]
        simp only [List.length_append, List.length_cons]
        omega

theorem SoundHeap.concat {heap : List Extent} (h : SoundHeap heap) {e : Extent} (hpos : 0 < e.size)
    (hin : e.Inside memory) (hapart : ∀ b ∈ heap, b.Apart e) : SoundHeap (heap ++ [e]) where
  apart := List.pairwise_append.mpr
    ⟨h.apart, List.pairwise_singleton _ _, fun b hb d hd => List.mem_singleton.mp hd ▸ hapart b hb⟩
  pos b hb := by
    rcases List.mem_append.mp hb with hb | hb
    · exact h.pos b hb
    · rwa [List.mem_singleton.mp hb]
  inside b hb := by
    rcases List.mem_append.mp hb with hb | hb
    · exact h.inside b hb
    · rwa [List.mem_singleton.mp hb]

theorem soundHeap_step (hs : SoundHeap s.heap) (hc : c.Proper s) :
    SoundHeap (statsStep s c).heap := by
  obtain ⟨hrelease, -⟩ := exists_release hs hc
  rcases statsStep_cases s c with ⟨heq, -⟩ | ⟨-, p, hptr, heq⟩ | ⟨hsize, q, hq, heq⟩
  · rwa [heq]
  · rw [heq]
    rwa [hptr] at hrelease
  · rw [heq]
    exact hrelease.concat hsize (hc.inside q hq) (hc.apart q hq)

theorem SoundHeap.sum_lt {heap : List Extent} (h : SoundHeap heap) :
    (heap.map Extent.size).sum < sizeMod := by
  have hle : (heap.map Extent.size).sum ≤ sizeMod - 1 := Extent.sum_size_le h.apart h.inside
  have hpos : 0 < sizeMod := by decide
  omega

theorem length_le_sum {heap : List Extent} (h : ∀ e ∈ heap, 0 < e.size) :
    heap.length ≤ (heap.map Extent.size).sum := by
  induction heap with
  | nil => rfl
  | cons e heap ih =>
      obtain ⟨he, hheap⟩ := List.forall_mem_cons.mp h
      have hle := ih hheap
      rw [List.length_cons, List.map_cons, List.sum_cons]
      omega

/-! ### The counters -/

/-- Counters that say what is live. -/
structure Counted (s : StatsHeap) : Prop where
  reserved : s.alloc.totalReserved = (s.heap.map Extent.size).sum
  blocks : s.alloc.totalBlocks = s.heap.length

theorem Counted.getStats_eq {s : StatsHeap} (h : Counted s) : s.alloc.getStats =
    { allocated := (s.heap.map Extent.size).sum
      reserved := (s.heap.map Extent.size).sum
      blocks := s.heap.length } := by
  rw [StatsAlloc.getStats, h.reserved, h.blocks]

theorem StatsAlloc.grow_of_lt {a : StatsAlloc} {n : ℕ} (h : a.totalReserved + n < sizeMod) :
    a.grow n = { a with
      totalReserved := a.totalReserved + n
      historicalMaxSize := max a.historicalMaxSize (a.totalReserved + n) } := by
  rw [grow, Nat.mod_eq_of_lt h]
  simp only [StatsAlloc.mk.injEq, true_and, and_true]
  split <;> omega

/-- A request that puts a block of `size` bytes in the place of one of `oldsize` bytes. -/
theorem StatsAlloc.account_spec {a : StatsAlloc} {rest oldsize size : ℕ}
    (ha : a.totalReserved = rest + oldsize) (hnew : rest + size < sizeMod)
    (hold : rest + oldsize < sizeMod) (hmax : a.totalReserved ≤ a.historicalMaxSize) :
    (a.account oldsize size).totalReserved = rest + size ∧
      (a.account oldsize size).historicalMaxSize = max a.historicalMaxSize (rest + size) ∧
      (a.account oldsize size).totalBlocks =
        if oldsize = 0 then (a.totalBlocks + 1) % sizeMod else a.totalBlocks := by
  unfold account
  split
  · rename_i hzero
    rw [grow_of_lt (by omega)]
    exact ⟨by simp only; omega, by simp only; omega, rfl⟩
  · split
    · rw [grow_of_lt (by omega)]
      exact ⟨by simp only; omega, by simp only; omega, rfl⟩
    · have hmod : (a.totalReserved + (sizeMod - (oldsize - size))) % sizeMod = rest + size := by
        have heq : a.totalReserved + (sizeMod - (oldsize - size)) = rest + size + sizeMod := by
          omega
        rw [heq, Nat.add_mod_right, Nat.mod_eq_of_lt hnew]
      exact ⟨hmod, by simp only; omega, rfl⟩

/-- A call that frees nothing keeps the counters right, and the maximum. -/
theorem counted_step (hs : SoundHeap s.heap) (hc : c.Proper s) (hfree : c.size = 0 → c.ptr = none)
    (hcounted : Counted s) (hmax : s.alloc.totalReserved ≤ s.alloc.historicalMaxSize) :
    Counted (statsStep s c) ∧ (statsStep s c).alloc.historicalMaxSize =
      max s.alloc.historicalMaxSize (statsStep s c).alloc.totalReserved := by
  have hsound := soundHeap_step hs hc
  rcases statsStep_cases s c with ⟨heq, -⟩ | ⟨hsize, p, hptr, -⟩ | ⟨hsize, q, hq, heq⟩
  · rw [heq]
    exact ⟨hcounted, by omega⟩
  · rw [hfree hsize] at hptr
    cases hptr
  · obtain ⟨-, hsum, hlength⟩ := exists_release hs hc
    have hlt := hsound.sum_lt
    have hblocks := (length_le_sum hsound.pos).trans_lt hlt
    rw [heq] at hlt hblocks ⊢
    simp only [List.map_append, List.map_cons, List.map_nil, List.sum_append, List.sum_cons,
      List.sum_nil, Nat.add_zero, List.length_append, List.length_cons, List.length_nil]
      at hlt hblocks
    have hold := hs.sum_lt
    have hreserved := hcounted.reserved
    rw [hsum] at hold hreserved
    obtain ⟨htotal, hpeak, htotalBlocks⟩ := StatsAlloc.account_spec hreserved hlt hold hmax
    refine ⟨⟨by simpa using htotal, ?_⟩, by simp only [htotal, hpeak]⟩
    simp only [htotalBlocks, hcounted.blocks, List.length_append, List.length_cons,
      List.length_nil]
    cases hptr : c.ptr with
    | none =>
        rw [if_pos (hc.oldsize_null hptr)]
        rw [hptr] at hblocks
        exact Nat.mod_eq_of_lt hblocks
    | some p =>
        obtain ⟨hpos, hlen⟩ := hlength p hptr
        rw [if_neg (by omega), hlen, hptr]

/-! ### Runs -/

/-- An allocator as `memset` leaves it. -/
def StatsHeap.initial : StatsHeap := ⟨⟨0, 0, 0, false⟩, []⟩

/-- The state after the first calls of a run. -/
def stateAt (calls : List AllocCall) (k : ℕ) : StatsHeap :=
  run statsStep StatsHeap.initial (calls.take k)

/-- After `k` calls the counters say what is live, and the most that there was. -/
structure Exact (calls : List AllocCall) (k : ℕ) : Prop where
  counted : Counted (stateAt calls k)
  le_max : ∀ j ≤ k,
    (stateAt calls j).alloc.totalReserved ≤ (stateAt calls k).alloc.historicalMaxSize
  max_attained : ∃ j ≤ k,
    (stateAt calls k).alloc.historicalMaxSize = (stateAt calls j).alloc.totalReserved

variable {calls : List AllocCall}

theorem soundHeap_initial : SoundHeap StatsHeap.initial.heap :=
  ⟨List.Pairwise.nil, fun _ he => absurd he List.not_mem_nil,
    fun _ he => absurd he List.not_mem_nil⟩

theorem soundHeap_stateAt (h : Allowed statsStep (fun s c => c.Proper s) StatsHeap.initial calls)
    (k : ℕ) : SoundHeap (stateAt calls k).heap :=
  run_invariant (fun s => SoundHeap s.heap) (fun _ _ hs hc => soundHeap_step hs hc)
    soundHeap_initial (h.take k)

theorem exact_zero : Exact calls 0 where
  counted := ⟨rfl, rfl⟩
  le_max j hj := by
    rw [Nat.le_zero.mp hj]
    exact le_rfl
  max_attained := ⟨0, le_rfl, rfl⟩

theorem exact_succ (h : Allowed statsStep (fun s c => c.Proper s) StatsHeap.initial calls)
    {k : ℕ} (hc : calls[k]? = some c) (hfree : c.size = 0 → c.ptr = none) (hexact : Exact calls k) :
    Exact calls (k + 1) := by
  have hstep : stateAt calls (k + 1) = statsStep (stateAt calls k) c := run_take_succ hc
  obtain ⟨hcounted, hmax⟩ := counted_step (soundHeap_stateAt h k) (h.getElem? hc) hfree
    hexact.counted (hexact.le_max k le_rfl)
  rw [← hstep] at hcounted hmax
  refine ⟨hcounted, ?_, ?_⟩
  · intro j hj
    rw [hmax]
    rcases Nat.lt_or_eq_of_le hj with hlt | rfl
    · exact (hexact.le_max j (by omega)).trans (le_max_left _ _)
    · exact le_max_right _ _
  · obtain ⟨j, hj, hattained⟩ := hexact.max_attained
    rw [hmax]
    rcases le_total (stateAt calls k).alloc.historicalMaxSize
      (stateAt calls (k + 1)).alloc.totalReserved with hle | hle
    · exact ⟨k + 1, le_rfl, max_eq_right hle⟩
    · exact ⟨j, by omega, (max_eq_left hle).trans hattained⟩

/-- Freeing a block takes it off the heap and leaves the counters. -/
theorem not_counted_of_free (hs : SoundHeap s.heap) (hc : c.Proper s) (hsize : c.size = 0) {p : ℕ}
    (hptr : c.ptr = some p) (hcounted : Counted s) : ¬ Counted (statsStep s c) := by
  intro hafter
  obtain ⟨-, hsum, hlength⟩ := exists_release hs hc
  have hpos := (hlength p hptr).1
  rcases statsStep_cases s c with ⟨-, hnone⟩ | ⟨-, q, hq, heq⟩ | ⟨hpos, -⟩
  · rw [hnone hsize] at hptr
    cases hptr
  · have hreserved := hafter.reserved
    rw [heq] at hreserved
    rw [hq] at hsum
    have hbefore := hcounted.reserved
    simp only [release] at hsum hreserved
    omega
  · omega

/-- The counters are exact after every call of a run exactly when the run frees no block. -/
theorem exact_iff (h : Allowed statsStep (fun s c => c.Proper s) StatsHeap.initial calls) :
    (∀ k ≤ calls.length, Exact calls k) ↔ ∀ c ∈ calls, c.size = 0 → c.ptr = none := by
  constructor
  · intro hexact c hmem hsize
    obtain ⟨k, hk⟩ := List.mem_iff_getElem?.mp hmem
    have hlt : k < calls.length := (List.getElem?_eq_some_iff.mp hk).1
    cases hptr : c.ptr with
    | none => rfl
    | some p =>
        have hstep : stateAt calls (k + 1) = statsStep (stateAt calls k) c := run_take_succ hk
        have hafter := (hexact (k + 1) hlt).counted
        rw [hstep] at hafter
        exact absurd hafter (not_counted_of_free (soundHeap_stateAt h k) (h.getElem? hk) hsize hptr
          (hexact k hlt.le).counted)
  · intro hfree k hk
    induction k with
    | zero => exact exact_zero
    | succ k ih =>
        have hget : calls[k]? = some (calls.get ⟨k, hk⟩) := List.getElem?_eq_getElem hk
        exact exact_succ h hget (hfree _ (List.get_mem _ _)) (ih (by omega))

/-- `malloc(8)`, grown to 24 bytes and shrunk to 16, beside a block of 4. -/
def resizeCalls : List AllocCall :=
  [⟨none, 0, 8, false, some 16⟩, ⟨none, 0, 4, false, some 64⟩, ⟨some 16, 8, 24, false, some 96⟩,
    ⟨some 96, 24, 16, false, some 96⟩, ⟨none, 0, 8, true, none⟩]

theorem AllocCall.proper_of_malloc {size q : ℕ} {injected : Bool} {s : StatsHeap}
    (hin : Extent.Inside ⟨q, size⟩ memory) (hapart : ∀ e ∈ s.heap, Extent.Apart e ⟨q, size⟩) :
    AllocCall.Proper s ⟨none, 0, size, injected, some q⟩ where
  oldsize_null _ := rfl
  live := nofun
  inside r hr := by
    obtain rfl : q = r := Option.some.inj hr
    exact hin
  apart r hr := by
    obtain rfl : q = r := Option.some.inj hr
    exact hapart

theorem AllocCall.proper_of_realloc {p oldsize size q : ℕ} {injected : Bool} {s : StatsHeap}
    (hlive : ⟨p, oldsize⟩ ∈ s.heap) (hin : Extent.Inside ⟨q, size⟩ memory)
    (hapart : ∀ e ∈ Extent.freed s.heap p, Extent.Apart e ⟨q, size⟩) :
    AllocCall.Proper s ⟨some p, oldsize, size, injected, some q⟩ where
  oldsize_null := nofun
  live r hr := by
    obtain rfl : p = r := Option.some.inj hr
    exact hlive
  inside r hr := by
    obtain rfl : q = r := Option.some.inj hr
    exact hin
  apart r hr := by
    obtain rfl : q = r := Option.some.inj hr
    exact hapart

theorem resizeCalls_allowed :
    Allowed statsStep (fun s c => c.Proper s) StatsHeap.initial resizeCalls := by
  refine ⟨?_, ?_, ?_, ?_, ?_, trivial⟩
  · exact AllocCall.proper_of_malloc (by decide) (by decide)
  · exact AllocCall.proper_of_malloc (by decide) (by decide)
  · exact AllocCall.proper_of_realloc (by decide) (by decide) (by decide)
  · exact AllocCall.proper_of_realloc (by decide) (by decide) (by decide)
  · exact ⟨fun _ => rfl, nofun, nofun, nofun⟩

theorem exact_resizeCalls :
    Allowed statsStep (fun s c => c.Proper s) StatsHeap.initial resizeCalls ∧
      ∀ k ≤ resizeCalls.length, Exact resizeCalls k :=
  ⟨resizeCalls_allowed, (exact_iff resizeCalls_allowed).mpr (by decide)⟩

/-- `malloc(8)` and the `free` of the block. -/
def freeCalls : List AllocCall :=
  [⟨none, 0, 8, false, some 16⟩, ⟨some 16, 8, 0, false, none⟩]

theorem not_exact_freeCalls :
    Allowed statsStep (fun s c => c.Proper s) StatsHeap.initial freeCalls ∧
      ¬ ∀ k ≤ freeCalls.length, Exact freeCalls k := by
  refine ⟨⟨AllocCall.proper_of_malloc (by decide) (by decide), ?_, trivial⟩, ?_⟩
  · refine ⟨nofun, ?_, nofun, nofun⟩
    intro p hp
    obtain rfl : 16 = p := Option.some.inj hp
    decide
  · intro hexact
    exact absurd (hexact 2 le_rfl).counted.reserved (by decide)

end GooglePerl.Xs
