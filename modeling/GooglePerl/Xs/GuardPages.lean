import GooglePerl.Xs.BlockAlloc

/-!
What a free releases in guard-page mode.

The length of a mapping is kept in one field of the allocator, which every request overwrites,
also one that fails. A free therefore releases its own mapping exactly when the last request
before it needed as many pages as the block did (`frees_own_iff`).
-/

namespace GooglePerl.Xs

open Lib

/-- A block that was returned and not freed. -/
structure GuardBlock where
  ptr : ℕ
  /-- The size that was asked for. -/
  size : ℕ
  /-- What the kernel mapped: the start page, the data and the end page. -/
  mapping : Extent
  deriving DecidableEq, Repr

/-- The allocator, the addresses that are mapped, and what the client has and asked for last. -/
structure GuardWorld where
  alloc : BlockAlloc
  mapped : ℕ → Bool
  live : List GuardBlock
  lastRequest : Option ℕ

/-- The kernel maps, protects and unmaps whole pages. -/
def roundUp (page n : ℕ) : ℕ := (n + (page - 1)) / page * page

def pageRange (page addr len : ℕ) : Extent := ⟨addr, roundUp page len⟩

/-- The length of the mapping for a block of `size` bytes. -/
def mappedLength (page size : ℕ) : ℕ := roundUp page ((page * 2 + size) % sizeMod)

def inRange (e : Extent) (a : ℕ) : Bool := decide (e.start ≤ a) && decide (a < e.stop)

def KernelCall.apply (page : ℕ) (mapped : ℕ → Bool) : KernelCall → ℕ → Bool
  | .mmap len (some mem), a => inRange (pageRange page mem len) a || mapped a
  | .mmap _ none, a => mapped a
  | .mprotect _ _ _, a => mapped a
  | .munmap addr len, a => !inRange (pageRange page addr len) a && mapped a

@[simp] theorem KernelCall.apply_mprotect (page : ℕ) (mapped : ℕ → Bool) (addr len : ℕ)
    (access : Bool) : KernelCall.apply page mapped (.mprotect addr len access) = mapped := rfl

@[simp] theorem KernelCall.apply_mmap_none (page : ℕ) (mapped : ℕ → Bool) (len : ℕ) :
    KernelCall.apply page mapped (.mmap len none) = mapped := rfl

theorem inRange_iff {e : Extent} {a : ℕ} : inRange e a = true ↔ e.start ≤ a ∧ a < e.stop := by
  rw [inRange, Bool.and_eq_true, decide_eq_true_eq, decide_eq_true_eq]

/-- The client's blocks after a call. -/
def liveAfter (page : ℕ) (live : List GuardBlock) (c : BlockCall) : Outcome → List GuardBlock
  | .returned (some p) =>
      live ++ [⟨p, c.size, ⟨p - page, mappedLength page c.size⟩⟩]
  | .returned none => if c.size = 0 then live.filter fun b => some b.ptr ≠ c.ptr else live
  | .croaked _ => live

def guardStep (page : ℕ) (w : GuardWorld) (c : BlockCall) : GuardWorld :=
  let r := guardFunc page w.alloc c
  { alloc := r.2.1
    mapped := r.2.2.foldl (KernelCall.apply page) w.mapped
    live := liveAfter page w.live c r.1
    lastRequest := if c.size = 0 ∨ c.ptr ≠ none then w.lastRequest else some c.size }

/-- Blocks are freed while they are live, and `mmap` gives whole pages that are not in use. -/
structure BlockCall.Mapped (page : ℕ) (w : GuardWorld) (c : BlockCall) : Prop where
  live : ∀ p, c.ptr = some p → ∃ b ∈ w.live, b.ptr = p ∧ b.size = c.oldsize
  length_pos : ∀ mem, c.mapped = some mem → 0 < mappedLength page c.size
  fresh : ∀ mem, c.mapped = some mem →
    ∀ a, mem ≤ a → a < mem + mappedLength page c.size → w.mapped a = false

/-- A free unprotects and unmaps the mapping of its block and nothing else. -/
def FreesOwn (page : ℕ) (w : GuardWorld) (c : BlockCall) : Prop :=
  ∀ b ∈ w.live, c.size = 0 → c.ptr = some b.ptr →
    (∃ addr len, (guardFunc page w.alloc c).2.2 = [.mprotect addr len true, .munmap addr len] ∧
      pageRange page addr len = b.mapping) ∧
    ∀ d ∈ w.live, d ≠ b → b.mapping.Apart d.mapping

/-- The last request needed as many pages as the block that is freed. -/
def SamePages (page : ℕ) (w : GuardWorld) (c : BlockCall) : Prop :=
  ∀ b ∈ w.live, c.size = 0 → c.ptr = some b.ptr →
    ∀ n, w.lastRequest = some n → mappedLength page n = mappedLength page b.size

/-! ### What a call does -/

variable {page : ℕ} {w : GuardWorld} {c : BlockCall}

/-- The allocator after a request, whether it succeeds or not. -/
def BlockAlloc.requested (page : ℕ) (b : BlockAlloc) (size : ℕ) : BlockAlloc :=
  { b with mmapSize := (page * 2 + size) % sizeMod }

/-- What a call can do while the allocator is not poisoned. -/
inductive GuardEffect (page : ℕ) (w : GuardWorld) (c : BlockCall) : GuardWorld → Prop
  | free (p : ℕ) (hsize : c.size = 0) (hptr : c.ptr = some p) :
      GuardEffect page w c
        { w with
          mapped := KernelCall.apply page w.mapped (.munmap (p - page) w.alloc.mmapSize)
          live := w.live.filter fun b => some b.ptr ≠ some p }
  | idle (h : c.size = 0 → c.ptr = none) : GuardEffect page w c w
  | failed (hsize : c.size ≠ 0) (hptr : c.ptr = none) :
      GuardEffect page w c
        { w with alloc := w.alloc.requested page c.size, lastRequest := some c.size }
  | granted (mem : ℕ) (hsize : c.size ≠ 0) (hptr : c.ptr = none) (hmapped : c.mapped = some mem) :
      GuardEffect page w c
        { alloc := { w.alloc.requested page c.size with region := mem, size := c.size }
          mapped :=
            KernelCall.apply page w.mapped (.mmap ((page * 2 + c.size) % sizeMod) (some mem))
          live := w.live ++ [⟨mem + page, c.size, ⟨mem, mappedLength page c.size⟩⟩]
          lastRequest := some c.size }

/-- A mapping that is given back at once leaves what was mapped. -/
theorem munmap_mmap (hc : c.Mapped page w) {mem : ℕ} (hmapped : c.mapped = some mem) :
    KernelCall.apply page
        (KernelCall.apply page w.mapped (.mmap ((page * 2 + c.size) % sizeMod) (some mem)))
        (.munmap mem ((page * 2 + c.size) % sizeMod)) = w.mapped := by
  funext a
  have hfresh := hc.fresh mem hmapped a
  simp only [KernelCall.apply]
  by_cases hin : inRange (pageRange page mem ((page * 2 + c.size) % sizeMod)) a = true
  · have hrange : mem ≤ a ∧ a < mem + mappedLength page c.size := inRange_iff.mp hin
    simp [hin, hfresh hrange.1 hrange.2]
  · simp [hin]

theorem guardStep_request (hpoison : w.alloc.poisoned = false) (hc : c.Mapped page w)
    (hsize : c.size ≠ 0) (hptr : c.ptr = none) : GuardEffect page w c (guardStep page w c) := by
  cases hmapped : c.mapped with
  | none =>
      have hstep : guardStep page w c =
          { w with alloc := w.alloc.requested page c.size, lastRequest := some c.size } := by
        simp [guardStep, guardFunc, guardAlloc, hpoison, hsize, hptr, hmapped, liveAfter,
          BlockAlloc.requested]
      rw [hstep]
      exact .failed hsize hptr
  | some mem =>
      have hback := munmap_mmap hc hmapped
      by_cases hgranted : c.startProtected = true ∧ c.endProtected = true
      · have hstep : guardStep page w c =
            { alloc := { w.alloc.requested page c.size with region := mem, size := c.size }
              mapped := KernelCall.apply page w.mapped
                (.mmap ((page * 2 + c.size) % sizeMod) (some mem))
              live := w.live ++ [⟨mem + page, c.size, ⟨mem, mappedLength page c.size⟩⟩]
              lastRequest := some c.size } := by
          simp [guardStep, guardFunc, guardAlloc, hpoison, hsize, hptr, hmapped, liveAfter,
            BlockAlloc.requested, hgranted]
        rw [hstep]
        exact .granted mem hsize hptr hmapped
      · have hstep : guardStep page w c =
            { w with alloc := w.alloc.requested page c.size, lastRequest := some c.size } := by
          cases hstart : c.startProtected with
          | false =>
              simp [guardStep, guardFunc, guardAlloc, hpoison, hsize, hptr, hmapped, liveAfter,
                BlockAlloc.requested, hstart, hback]
          | true =>
              have hend : c.endProtected = false := by simpa [hstart] using hgranted
              simp [guardStep, guardFunc, guardAlloc, hpoison, hsize, hptr, hmapped, liveAfter,
                BlockAlloc.requested, hstart, hend, hback]
        rw [hstep]
        exact .failed hsize hptr

theorem guardStep_effect (hpoison : w.alloc.poisoned = false) (hc : c.Mapped page w) :
    GuardEffect page w c (guardStep page w c) := by
  by_cases hsize : c.size = 0
  · cases hptr : c.ptr with
    | none =>
        have hstep : guardStep page w c = w := by
          simp [guardStep, guardFunc, hpoison, hsize, hptr, liveAfter]
        rw [hstep]
        exact .idle fun _ => hptr
    | some p =>
        have hstep : guardStep page w c =
            { w with
              mapped := KernelCall.apply page w.mapped (.munmap (p - page) w.alloc.mmapSize)
              live := w.live.filter fun b => some b.ptr ≠ some p } := by
          simp [guardStep, guardFunc, hpoison, hsize, hptr, liveAfter]
        rw [hstep]
        exact .free p hsize hptr
  · cases hptr : c.ptr with
    | some p =>
        have hstep : guardStep page w c = w := by
          simp [guardStep, guardFunc, hpoison, hsize, hptr, liveAfter]
        rw [hstep]
        exact .idle fun h => absurd h hsize
    | none => exact guardStep_request hpoison hc hsize hptr

/-! ### What the allocator knows of its blocks -/

/-- The one length that is kept is that of the last request. -/
structure Tracked (page : ℕ) (w : GuardWorld) : Prop where
  poisoned : w.alloc.poisoned = false
  mapping : ∀ b ∈ w.live, b.mapping = ⟨b.ptr - page, mappedLength page b.size⟩
  requested : ∀ b ∈ w.live, ∃ n, w.lastRequest = some n
  mmapSize : ∀ n, w.lastRequest = some n → w.alloc.mmapSize = (page * 2 + n) % sizeMod

theorem tracked_step (h : Tracked page w) (hc : c.Mapped page w) :
    Tracked page (guardStep page w c) := by
  have heffect := guardStep_effect h.poisoned hc
  generalize guardStep page w c = w' at heffect ⊢
  cases heffect with
  | free p hsize hptr =>
      exact ⟨h.poisoned, fun b hb => h.mapping b (List.mem_of_mem_filter hb),
        fun b hb => h.requested b (List.mem_of_mem_filter hb), h.mmapSize⟩
  | idle _ => exact h
  | failed hsize hptr =>
      refine ⟨h.poisoned, h.mapping, fun _ _ => ⟨c.size, rfl⟩, ?_⟩
      intro n hn
      rw [← Option.some.inj hn]
      rfl
  | granted mem hsize hptr hmapped =>
      refine ⟨h.poisoned, ?_, fun _ _ => ⟨c.size, rfl⟩, ?_⟩
      · intro b hb
        rcases List.mem_append.mp hb with hb | hb
        · exact h.mapping b hb
        · rw [List.mem_singleton.mp hb]
          simp
      · intro n hn
        rw [← Option.some.inj hn]
        rfl

/-- What a free asks for. -/
theorem guardFunc_free (hpoison : w.alloc.poisoned = false) (hsize : c.size = 0) {p : ℕ}
    (hptr : c.ptr = some p) : (guardFunc page w.alloc c).2.2 =
      [.mprotect (p - page) w.alloc.mmapSize true, .munmap (p - page) w.alloc.mmapSize] := by
  simp [guardFunc, hpoison, hsize, hptr]

/-- A free asks for the mapping of its block when the page counts agree, and only then. -/
theorem pageRange_eq_iff (h : Tracked page w) {b : GuardBlock} (hb : b ∈ w.live) {n : ℕ}
    (hn : w.lastRequest = some n) :
    pageRange page (b.ptr - page) w.alloc.mmapSize = b.mapping ↔
      mappedLength page n = mappedLength page b.size := by
  rw [h.mapping b hb, pageRange, h.mmapSize n hn, Extent.mk.injEq]
  simp only [true_and, mappedLength]

/-! ### Mappings that lie apart -/

/-- The mappings of live blocks are whole, are mapped and lie apart. -/
structure Kept (w : GuardWorld) : Prop where
  apart : w.live.Pairwise fun b d => b.mapping.Apart d.mapping
  pos : ∀ b ∈ w.live, 0 < b.mapping.size
  mapped : ∀ b ∈ w.live, ∀ a, inRange b.mapping a = true → w.mapped a = true

instance : Std.Symm fun b d : GuardBlock => b.mapping.Apart d.mapping := ⟨fun _ _ h => h.symm⟩

theorem Kept.apart_of_ne (h : Kept w) {b d : GuardBlock} (hb : b ∈ w.live) (hd : d ∈ w.live)
    (hne : d ≠ b) : b.mapping.Apart d.mapping :=
  h.apart.forall hb hd hne.symm

theorem not_inRange_of_apart {b d : Extent} {a : ℕ} (h : b.Apart d) (ha : inRange d a = true) :
    inRange b a = false := by
  rw [Bool.eq_false_iff]
  intro hb
  have hd := inRange_iff.mp ha
  have hb := inRange_iff.mp hb
  rcases h with h | h <;> omega

/-- A free that releases its own mapping leaves the others. -/
theorem kept_free (h : Kept w) (htracked : Tracked page w) (hsame : SamePages page w c)
    (hc : c.Mapped page w) {p : ℕ} (hsize : c.size = 0) (hptr : c.ptr = some p) :
    Kept { w with
      mapped := KernelCall.apply page w.mapped (.munmap (p - page) w.alloc.mmapSize)
      live := w.live.filter fun b => some b.ptr ≠ some p } := by
  obtain ⟨b, hb, rfl, -⟩ := hc.live p hptr
  obtain ⟨n, hn⟩ := htracked.requested b hb
  have hrange := (pageRange_eq_iff htracked hb hn).mpr (hsame b hb hsize hptr n hn)
  refine ⟨h.apart.sublist List.filter_sublist, fun d hd => h.pos d (List.mem_of_mem_filter hd), ?_⟩
  intro d hd a ha
  obtain ⟨hlive, hne⟩ := List.mem_filter.mp hd
  have hdb : d ≠ b := by
    rintro rfl
    simp at hne
  have hout := not_inRange_of_apart (h.apart_of_ne hb hlive hdb) ha
  simp only [KernelCall.apply, hrange, hout, h.mapped d hlive a ha, Bool.not_false, Bool.and_self]

theorem kept_step (h : Kept w) (htracked : Tracked page w) (hsame : SamePages page w c)
    (hc : c.Mapped page w) : Kept (guardStep page w c) := by
  have heffect := guardStep_effect htracked.poisoned hc
  generalize guardStep page w c = w' at heffect ⊢
  cases heffect with
  | free p hsize hptr => exact kept_free h htracked hsame hc hsize hptr
  | idle _ => exact h
  | failed hsize hptr => exact ⟨h.apart, h.pos, h.mapped⟩
  | granted mem hsize hptr hmapped =>
      have hfresh (b : GuardBlock) (hb : b ∈ w.live) :
          b.mapping.Apart ⟨mem, mappedLength page c.size⟩ := by
        -- an address in both would be mapped and not mapped
        by_contra hnot
        have hpos := h.pos b hb
        have hlength := hc.length_pos mem hmapped
        simp only [Extent.Apart, Extent.stop, not_or, Nat.not_le] at hnot
        have hunmapped := hc.fresh mem hmapped (max b.mapping.start mem) (by omega) (by omega)
        have hin : inRange b.mapping (max b.mapping.start mem) = true :=
          inRange_iff.mpr ⟨by omega, by simp only [Extent.stop]; omega⟩
        rw [h.mapped b hb _ hin] at hunmapped
        cases hunmapped
      refine ⟨?_, ?_, ?_⟩
      · refine List.pairwise_append.mpr ⟨h.apart, List.pairwise_singleton _ _, ?_⟩
        intro b hb d hd
        rw [List.mem_singleton.mp hd]
        exact hfresh b hb
      · intro b hb
        rcases List.mem_append.mp hb with hb | hb
        · exact h.pos b hb
        · rw [List.mem_singleton.mp hb]
          exact hc.length_pos mem hmapped
      · intro b hb a ha
        rcases List.mem_append.mp hb with hb | hb
        · simp only [KernelCall.apply, h.mapped b hb a ha, Bool.or_true]
        · rw [List.mem_singleton.mp hb] at ha
          have hin : inRange (pageRange page mem ((page * 2 + c.size) % sizeMod)) a = true := ha
          simp only [KernelCall.apply, hin, Bool.true_or]

/-! ### Runs -/

/-- An allocator in guard-page mode in a process with some memory of its own. -/
def GuardWorld.initial (mapped : ℕ → Bool) : GuardWorld :=
  ⟨⟨0, 0, 0, false, 0⟩, mapped, [], none⟩

def guardState (page : ℕ) (mapped : ℕ → Bool) (calls : List BlockCall) (k : ℕ) : GuardWorld :=
  run (guardStep page) (GuardWorld.initial mapped) (calls.take k)

variable {mapped : ℕ → Bool} {calls : List BlockCall}

theorem tracked_initial : Tracked page (GuardWorld.initial mapped) :=
  ⟨rfl, nofun, nofun, nofun⟩

theorem kept_initial : Kept (GuardWorld.initial mapped) :=
  ⟨List.Pairwise.nil, nofun, nofun⟩

theorem tracked_guardState
    (h : Allowed (guardStep page) (fun w c => c.Mapped page w) (GuardWorld.initial mapped) calls)
    (k : ℕ) : Tracked page (guardState page mapped calls k) :=
  run_invariant (Tracked page) (fun _ _ hw hc => tracked_step hw hc) tracked_initial (h.take k)

/-- As long as the page counts agree, the mappings of live blocks stay whole. -/
theorem kept_guardState
    (h : Allowed (guardStep page) (fun w c => c.Mapped page w) (GuardWorld.initial mapped) calls)
    (hsame : ∀ k c, calls[k]? = some c → SamePages page (guardState page mapped calls k) c)
    {k : ℕ} (hk : k ≤ calls.length) : Kept (guardState page mapped calls k) := by
  induction k with
  | zero => exact kept_initial
  | succ k ih =>
      have hget : calls[k]? = some (calls.get ⟨k, hk⟩) := List.getElem?_eq_getElem hk
      have hstep : guardState page mapped calls (k + 1) =
          guardStep page (guardState page mapped calls k) (calls.get ⟨k, hk⟩) := run_take_succ hget
      rw [hstep]
      exact kept_step (ih (by omega)) (tracked_guardState h k) (hsame k _ hget) (h.getElem? hget)

/-- Every free of a run releases its own mapping and no other exactly when, at every free, the
last request needed as many pages as the block that is freed. -/
theorem frees_own_iff
    (h : Allowed (guardStep page) (fun w c => c.Mapped page w) (GuardWorld.initial mapped) calls) :
    (∀ k c, calls[k]? = some c → FreesOwn page (guardState page mapped calls k) c) ↔
      ∀ k c, calls[k]? = some c → SamePages page (guardState page mapped calls k) c := by
  constructor
  · intro hfrees k c hget b hb hsize hptr n hn
    have htracked := tracked_guardState h k
    obtain ⟨⟨addr, len, hcalls, hrange⟩, -⟩ := hfrees k c hget b hb hsize hptr
    rw [guardFunc_free htracked.poisoned hsize hptr] at hcalls
    simp only [List.cons.injEq, KernelCall.mprotect.injEq, and_true] at hcalls
    obtain ⟨⟨rfl, rfl⟩, -⟩ := hcalls
    exact (pageRange_eq_iff htracked hb hn).mp hrange
  · intro hsame k c hget b hb hsize hptr
    have htracked := tracked_guardState h k
    have hk : k ≤ calls.length := (List.getElem?_eq_some_iff.mp hget).1.le
    obtain ⟨n, hn⟩ := htracked.requested b hb
    refine ⟨⟨_, _, guardFunc_free htracked.poisoned hsize hptr, ?_⟩, ?_⟩
    · exact (pageRange_eq_iff htracked hb hn).mpr (hsame k c hget b hb hsize hptr n hn)
    · intro d hd hne
      exact (kept_guardState h hsame hk).apart_of_ne hb hd hne

/-- A request that the kernel grants at an address. -/
def grantedCall (size mem : ℕ) : BlockCall := ⟨none, 0, size, some mem, true, true⟩

def freeCall (ptr size : ℕ) : BlockCall := ⟨some ptr, size, 0, none, false, false⟩

theorem mapped_grantedCall {size mem : ℕ} (hpos : 0 < mappedLength page size)
    (hfresh : ∀ a, mem ≤ a → a < mem + mappedLength page size → w.mapped a = false) :
    (grantedCall size mem).Mapped page w := by
  refine ⟨nofun, fun _ _ => hpos, ?_⟩
  intro q hq
  obtain rfl : mem = q := Option.some.inj hq
  exact hfresh

theorem mapped_freeCall {b : GuardBlock} (hb : b ∈ w.live) :
    (freeCall b.ptr b.size).Mapped page w := by
  refine ⟨?_, nofun, nofun⟩
  intro p hp
  obtain rfl : b.ptr = p := Option.some.inj hp
  exact ⟨b, hb, rfl, rfl⟩

/-- Behind the first mapping of an empty process nothing is mapped. -/
theorem unmapped_behind {a : ℕ} (h : 0x13000 ≤ a) :
    (guardStep 4096 (GuardWorld.initial fun _ => false) (grantedCall 4096 0x10000)).mapped a =
      false := by
  change (inRange ⟨0x10000, 12288⟩ a || false) = false
  rw [Bool.or_false, Bool.eq_false_iff]
  intro hin
  have hstop := (inRange_iff.mp hin).2
  simp only [Extent.stop] at hstop
  omega

/-- Two blocks of one page each, freed in the order they came. -/
def equalCalls : List BlockCall :=
  [grantedCall 4096 0x10000, grantedCall 4096 0x20000, freeCall 0x11000 4096,
    freeCall 0x21000 4096]

theorem equalCalls_allowed :
    Allowed (guardStep 4096) (fun w c => c.Mapped 4096 w) (GuardWorld.initial fun _ => false)
      equalCalls := by
  refine ⟨?_, ?_, ?_, ?_, trivial⟩
  · exact mapped_grantedCall (by decide) fun _ _ _ => rfl
  · exact mapped_grantedCall (by decide) fun a hlow _ => unmapped_behind (by omega)
  · exact mapped_freeCall (b := ⟨0x11000, 4096, ⟨0x10000, 12288⟩⟩) (by decide)
  · exact mapped_freeCall (b := ⟨0x21000, 4096, ⟨0x20000, 12288⟩⟩) (by decide)

theorem frees_own_equalCalls :
    Allowed (guardStep 4096) (fun w c => c.Mapped 4096 w) (GuardWorld.initial fun _ => false)
        equalCalls ∧
      ∀ k c, equalCalls[k]? = some c →
        FreesOwn 4096 (guardState 4096 (fun _ => false) equalCalls k) c := by
  refine ⟨equalCalls_allowed, (frees_own_iff equalCalls_allowed).mpr ?_⟩
  intro k c hget b hb hsize hptr n hn
  have hstate : ∀ j < 4, (∀ d ∈ (guardState 4096 (fun _ => false) equalCalls j).live,
      d.size = 4096) ∧ (guardState 4096 (fun _ => false) equalCalls j).lastRequest ∈
        [none, some 4096] := by decide
  have hk : k < 4 := (List.getElem?_eq_some_iff.mp hget).1
  obtain ⟨hlive, hlast⟩ := hstate k hk
  rw [hn] at hlast
  obtain rfl : n = 4096 := by simpa using hlast
  rw [hlive b hb]

/-- A block of one page and one of two pages right behind its mapping; the first is freed. -/
def unequalCalls : List BlockCall :=
  [grantedCall 4096 0x10000, grantedCall 8192 0x13000, freeCall 0x11000 4096]

theorem not_frees_own_unequalCalls :
    Allowed (guardStep 4096) (fun w c => c.Mapped 4096 w) (GuardWorld.initial fun _ => false)
        unequalCalls ∧
      ¬ ∀ k c, unequalCalls[k]? = some c →
        FreesOwn 4096 (guardState 4096 (fun _ => false) unequalCalls k) c := by
  refine ⟨⟨?_, ?_, ?_, trivial⟩, ?_⟩
  · exact mapped_grantedCall (by decide) fun _ _ _ => rfl
  · exact mapped_grantedCall (by decide) fun a hlow _ => unmapped_behind hlow
  · exact mapped_freeCall (b := ⟨0x11000, 4096, ⟨0x10000, 12288⟩⟩) (by decide)
  · intro hfrees
    obtain ⟨⟨addr, len, hcalls, hrange⟩, -⟩ := hfrees 2 (freeCall 0x11000 4096) rfl
      ⟨0x11000, 4096, ⟨0x10000, 12288⟩⟩ (by decide) rfl rfl
    have hlen : (guardFunc 4096 (guardState 4096 (fun _ => false) unequalCalls 2).alloc
        (freeCall 0x11000 4096)).2.2 =
          [.mprotect 0x10000 16384 true, .munmap 0x10000 16384] := by decide
    rw [hlen] at hcalls
    simp only [List.cons.injEq, KernelCall.mprotect.injEq, and_true] at hcalls
    obtain ⟨⟨rfl, rfl⟩, -⟩ := hcalls
    exact absurd hrange (by decide)

end GooglePerl.Xs
