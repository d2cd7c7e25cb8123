import GooglePerl.Xs.BlockAlloc

/-!
Blocks and canaries of the linear allocator.

Every block that the allocator ever returned lies, with its canaries, in the region and apart
from the others, and clients that write only inside their blocks never meet a canary, as long as
the end of a request does not wrap around (`blocks_sound_iff`).
-/

namespace GooglePerl.Xs

open Lib

/-- A block with its two canaries. -/
def padded (b : Extent) : Extent := ⟨b.start - canarySize, b.size + 2 * canarySize⟩

/-- The allocator with its memory, and all blocks that it ever returned. -/
structure LinearWorld where
  world : BlockWorld
  blocks : List Extent

inductive ClientEvent where
  | call (c : BlockCall)
  | write (addr value : ℕ)

def blocksAfter (blocks : List Extent) (size : ℕ) : Outcome → List Extent
  | .returned (some p) => blocks ++ [⟨p, size⟩]
  | _ => blocks

def linearStep (w : LinearWorld) : ClientEvent → LinearWorld
  | .call c =>
      { world := (canaryFunc w.world c).2
        blocks := blocksAfter w.blocks c.size (canaryFunc w.world c).1 }
  | .write addr value =>
      { w with world := { w.world with
          bytes := fun a => if a = addr then value else w.world.bytes a } }

/-- Sizes of at most `2 ^ 63`, blocks named with their sizes, and writes inside blocks. -/
def ClientEvent.Fair (w : LinearWorld) : ClientEvent → Prop
  | .call c => c.size ≤ 2 ^ 63 ∧ ∀ p, c.ptr = some p → ⟨p, c.oldsize⟩ ∈ w.blocks
  | .write addr _ => ∃ b ∈ w.blocks, b.start ≤ addr ∧ addr < b.stop

/-- Blocks in the region, aligned, with their canaries apart from each other. -/
structure Laid (region : Extent) (blocks : List Extent) : Prop where
  inside : ∀ b ∈ blocks, canarySize ≤ b.start ∧ (padded b).Inside region
  aligned : ∀ b ∈ blocks, (b.start - region.start) % 16 = 0
  apart : blocks.Pairwise fun b d => (padded b).Apart (padded d)

/-- A call that finds no corruption, keeps what it moves and fails without a trace. -/
structure CallSound (w : BlockWorld) (c : BlockCall) : Prop where
  not_croaked : ∀ text, (canaryFunc w c).1 ≠ .croaked text
  preserved : ∀ p q, c.ptr = some p → (canaryFunc w c).1 = .returned (some q) →
    ∀ i < min c.oldsize c.size, (canaryFunc w c).2.bytes (q + i) = w.bytes (p + i)
  failed : (canaryFunc w c).1 = .returned none → (canaryFunc w c).2 = w

/-- The end of the request does not wrap around. -/
def NoWrap (w : BlockWorld) (c : BlockCall) : Prop :=
  c.size ≠ 0 → w.alloc.offset + alignedSize c.size < sizeMod

/-! ### Canaries -/

theorem hasCanary_iff {m : Bytes} {addr : ℕ} :
    hasCanary m addr = true ↔ ∀ i < canarySize, m (addr + i) = canaryByte i := by
  simp [hasCanary]

/-- A canary stays as long as its bytes do. -/
theorem hasCanary_congr {m m' : Bytes} {addr : ℕ}
    (h : ∀ a, addr ≤ a → a < addr + canarySize → m' a = m a) (hm : hasCanary m addr = true) :
    hasCanary m' addr = true := by
  rw [hasCanary_iff] at hm ⊢
  intro i hi
  rw [h (addr + i) (by omega) (by omega), hm i hi]

theorem writeCanary_of_out {m : Bytes} {addr a : ℕ} (h : a < addr ∨ addr + canarySize ≤ a) :
    writeCanary m addr a = m a :=
  if_neg (by omega)

theorem hasCanary_writeCanary (m : Bytes) (addr : ℕ) :
    hasCanary (writeCanary m addr) addr = true := by
  rw [hasCanary_iff]
  intro i hi
  rw [writeCanary, if_pos ⟨by omega, by omega⟩, Nat.add_sub_cancel_left]

/-- Both canaries of a block are there. -/
def Guarded (m : Bytes) (b : Extent) : Prop :=
  hasCanary m (b.start - canarySize) = true ∧ hasCanary m b.stop = true

theorem Guarded.verify {m : Bytes} {b : Extent} (h : Guarded m b) (msg : String) :
    verifyCanaries m b.start b.size msg = none := by
  have hstop : hasCanary m (b.start + b.size) = true := h.2
  simp [verifyCanaries, h.1, hstop]

/-- Writing outside the padding of a block, or inside the block, spares its canaries. -/
theorem Guarded.congr {m m' : Bytes} {b : Extent} (hstart : canarySize ≤ b.start)
    (h : ∀ a, a < b.start ∨ b.stop ≤ a → (padded b).start ≤ a → a < (padded b).stop → m' a = m a)
    (hm : Guarded m b) : Guarded m' b := by
  simp only [padded, Extent.stop] at h
  constructor
  · refine hasCanary_congr (fun a hlow hhigh => h a (by omega) (by omega) (by omega)) hm.1
  · refine hasCanary_congr (fun a hlow hhigh => ?_) hm.2
    simp only [Extent.stop] at hlow hhigh
    exact h a (by omega) (by omega) (by omega)

theorem guarded_writeCanaries (m : Bytes) (raw size : ℕ) :
    Guarded (writeCanaries m raw size) ⟨raw + canarySize, size⟩ := by
  constructor
  · refine hasCanary_congr (fun a _ hhigh => ?_) (hasCanary_writeCanary m raw)
    · simp only [Nat.add_sub_cancel] at hhigh
      exact writeCanary_of_out (by omega)
  · exact hasCanary_writeCanary _ _

/-! ### What a call does -/

/-- The block that the next request gets. -/
def nextBlock (b : BlockAlloc) (size : ℕ) : Extent := ⟨b.region + b.offset + canarySize, size⟩

/-- The memory of a request: canaries around the new block, and an old block copied into it. -/
structure Moved (w : BlockWorld) (c : BlockCall) (bytes : Bytes) : Prop where
  outside : ∀ a, a < (nextBlock w.alloc c.size).start ∨ (nextBlock w.alloc c.size).stop ≤ a →
    bytes a = writeCanaries w.bytes (w.alloc.region + w.alloc.offset) c.size a
  copied : ∀ p, c.ptr = some p → ∀ i < min c.oldsize c.size,
    bytes ((nextBlock w.alloc c.size).start + i) =
      writeCanaries w.bytes (w.alloc.region + w.alloc.offset) c.size (p + i)

/-- What a call can do when its canaries are there. -/
inductive CanaryEffect (w : BlockWorld) (c : BlockCall) : Outcome × BlockWorld → Prop
  | refused (h : c.size ≠ 0 → w.alloc.size < (w.alloc.offset + alignedSize c.size) % sizeMod) :
      CanaryEffect w c (.returned none, w)
  | granted (bytes : Bytes) (hsize : c.size ≠ 0)
      (hfits : (w.alloc.offset + alignedSize c.size) % sizeMod ≤ w.alloc.size)
      (hbytes : Moved w c bytes) :
      CanaryEffect w c (.returned (some (nextBlock w.alloc c.size).start),
        { alloc := { w.alloc with
            offset := (w.alloc.offset + alignedSize c.size) % sizeMod }
          bytes := bytes })

theorem canaryAlloc_of_gt {w : BlockWorld} {size : ℕ}
    (h : (w.alloc.offset + alignedSize size) % sizeMod > w.alloc.size) :
    canaryAlloc w size = (none, w) := by
  simp [canaryAlloc, h]

theorem canaryAlloc_of_le {w : BlockWorld} {size : ℕ}
    (h : (w.alloc.offset + alignedSize size) % sizeMod ≤ w.alloc.size) :
    canaryAlloc w size = (some (nextBlock w.alloc size).start,
      { alloc := { w.alloc with offset := (w.alloc.offset + alignedSize size) % sizeMod }
        bytes := writeCanaries w.bytes (w.alloc.region + w.alloc.offset) size }) := by
  simp [canaryAlloc, Nat.not_lt.mpr h, nextBlock]

theorem moved_memcpy {w : BlockWorld} {c : BlockCall} {p : ℕ} (hptr : c.ptr = some p) :
    Moved w c (memcpy (writeCanaries w.bytes (w.alloc.region + w.alloc.offset) c.size)
      (nextBlock w.alloc c.size).start p (min c.oldsize c.size)) where
  outside a ha := by
    have hstop : (nextBlock w.alloc c.size).stop = (nextBlock w.alloc c.size).start + c.size := rfl
    exact if_neg (by omega)
  copied q hq i hi := by
    obtain rfl : p = q := Option.some.inj (hptr.symm.trans hq)
    rw [memcpy, if_pos ⟨by omega, by omega⟩, Nat.add_sub_cancel_left]

theorem canaryFunc_effect {w : BlockWorld} {c : BlockCall} (hpoison : w.alloc.poisoned = false)
    (hverify : ∀ p, c.ptr = some p → ∀ msg, verifyCanaries w.bytes p c.oldsize msg = none) :
    CanaryEffect w c (canaryFunc w c) := by
  by_cases hsize : c.size = 0
  · have heq : canaryFunc w c = (.returned none, w) := by
      cases hptr : c.ptr with
      | none => simp [canaryFunc, hpoison, hsize, hptr]
      | some p => simp [canaryFunc, hpoison, hsize, hptr, hverify p hptr]
    rw [heq]
    exact .refused fun hne => absurd hsize hne
  -- the end of the request, as it comes out modulo 2 ^ 64
  · rcases Nat.lt_or_ge w.alloc.size ((w.alloc.offset + alignedSize c.size) % sizeMod) with
      hfull | hfits
    · have heq : canaryFunc w c = (.returned none, w) := by
        cases hptr : c.ptr with
        | none => simp [canaryFunc, hpoison, hsize, hptr, canaryAlloc_of_gt hfull]
        | some p =>
            simp [canaryFunc, hpoison, hsize, hptr, hverify p hptr, canaryAlloc_of_gt hfull]
      rw [heq]
      exact .refused fun _ => hfull
    · cases hptr : c.ptr with
      | none =>
          have heq : canaryFunc w c = (.returned (some (nextBlock w.alloc c.size).start),
              { alloc := { w.alloc with
                  offset := (w.alloc.offset + alignedSize c.size) % sizeMod }
                bytes := writeCanaries w.bytes (w.alloc.region + w.alloc.offset) c.size }) := by
            simp [canaryFunc, hpoison, hsize, hptr, canaryAlloc_of_le hfits]
          rw [heq]
          exact .granted _ hsize hfits ⟨fun _ _ => rfl, by simp [hptr]⟩
      | some p =>
          rcases Nat.eq_zero_or_pos c.oldsize with hzero | hpos
          · have heq : canaryFunc w c = (.returned (some (nextBlock w.alloc c.size).start),
                { alloc := { w.alloc with
                    offset := (w.alloc.offset + alignedSize c.size) % sizeMod }
                  bytes := writeCanaries w.bytes (w.alloc.region + w.alloc.offset) c.size }) := by
              have hnot : ¬ 0 < c.oldsize := by omega
              simp [canaryFunc, hpoison, hsize, hptr, hverify p hptr, canaryAlloc_of_le hfits, hnot]
            rw [heq]
            exact .granted _ hsize hfits ⟨fun _ _ => rfl, by simp [hzero]⟩
          · have heq : canaryFunc w c = (.returned (some (nextBlock w.alloc c.size).start),
                { alloc := { w.alloc with
                    offset := (w.alloc.offset + alignedSize c.size) % sizeMod }
                  bytes := memcpy (writeCanaries w.bytes (w.alloc.region + w.alloc.offset) c.size)
                    (nextBlock w.alloc c.size).start p (min c.oldsize c.size) }) := by
              simp [canaryFunc, hpoison, hsize, hptr, hverify p hptr, canaryAlloc_of_le hfits, hpos]
            rw [heq]
            exact .granted _ hsize hfits (moved_memcpy hptr)

/-! ### The invariant -/

structure LinearInv (region : Extent) (w : LinearWorld) : Prop where
  start_eq : w.world.alloc.region = region.start
  size_eq : w.world.alloc.size = region.size
  poisoned : w.world.alloc.poisoned = false
  offset_le : w.world.alloc.offset ≤ region.size
  offset_aligned : w.world.alloc.offset % 16 = 0
  laid : Laid region w.blocks
  below : ∀ b ∈ w.blocks, (padded b).stop ≤ region.start + w.world.alloc.offset
  guarded : ∀ b ∈ w.blocks, Guarded w.world.bytes b

theorem alignedSize_spec {size : ℕ} (h : size ≤ 2 ^ 63) :
    size + 2 * canarySize ≤ alignedSize size ∧ alignedSize size ≤ size + 2 * canarySize + 15 ∧
      alignedSize size % 16 = 0 := by
  have hmod : alignedSize size = (size + 47) / 16 * 16 := by
    rw [alignedSize, canarySize, sizeMod, Nat.mod_eq_of_lt (by omega : size + 2 * 16 < 2 ^ 64),
      Nat.mod_eq_of_lt (by omega)]
  rw [hmod, canarySize]
  omega

variable {region : Extent} {w : LinearWorld} {c : BlockCall}

theorem LinearInv.verify (h : LinearInv region w) (hc : ClientEvent.Fair w (.call c)) :
    ∀ p, c.ptr = some p → ∀ msg, verifyCanaries w.world.bytes p c.oldsize msg = none :=
  fun p hptr => (h.guarded _ (hc.2 p hptr)).verify

theorem LinearInv.effect (h : LinearInv region w) (hc : ClientEvent.Fair w (.call c)) :
    CanaryEffect w.world c (canaryFunc w.world c) :=
  canaryFunc_effect h.poisoned (h.verify hc)

/-- The canaries of a new block lie in front of the old ones. -/
theorem writeCanaries_below {m : Bytes} {raw size a : ℕ} (h : a < raw) :
    writeCanaries m raw size a = m a := by
  rw [writeCanaries, writeCanary_of_out (by omega), writeCanary_of_out (by omega)]

theorem LinearInv.callSound (h : LinearInv region w) (hc : ClientEvent.Fair w (.call c)) :
    CallSound w.world c := by
  have heffect := h.effect hc
  generalize hr : canaryFunc w.world c = r at heffect
  cases heffect with
  | refused _ =>
      refine ⟨?_, ?_, ?_⟩
      · intro text
        simp [hr]
      · intro p q hptr hq
        simp [hr] at hq
      · intro _
        simp [hr]
  | granted bytes hsize hfits hbytes =>
      refine ⟨?_, ?_, ?_⟩
      · intro text
        simp [hr]
      · intro p q hptr hq i hi
        simp only [hr, Outcome.returned.injEq, Option.some.injEq] at hq ⊢
        have hblock := hc.2 p hptr
        have hbelow := h.below _ hblock
        have hstart := (h.laid.inside _ hblock).1
        simp only [padded, Extent.stop] at hbelow hstart
        rw [← hq, hbytes.copied p hptr i hi]
        refine writeCanaries_below ?_
        rw [h.start_eq]
        omega
      · intro hnone
        simp [hr] at hnone

/-- Writes inside blocks spare all canaries. -/
theorem LinearInv.write (h : LinearInv region w) {addr value : ℕ}
    (hw : ClientEvent.Fair w (.write addr value)) :
    LinearInv region (linearStep w (.write addr value)) := by
  obtain ⟨b, hb, hlow, hhigh⟩ := hw
  refine ⟨h.start_eq, h.size_eq, h.poisoned, h.offset_le, h.offset_aligned, h.laid, h.below, ?_⟩
  intro d hd
  refine (h.guarded d hd).congr (h.laid.inside d hd).1 fun a hout hpadLow hpadHigh => if_neg ?_
  rintro rfl
  by_cases hdb : d = b
  · subst hdb
    omega
  · have hapart := h.laid.apart.forall hd hb hdb
    have hstart := (h.laid.inside b hb).1
    simp only [Extent.Apart, padded, Extent.stop] at hapart hpadLow hpadHigh hlow hhigh
    omega

/-- A request that fits and does not wrap gets a block behind all others. -/
theorem LinearInv.granted (h : LinearInv region w) (hsize : c.size ≤ 2 ^ 63)
    (hfits : w.world.alloc.offset + alignedSize c.size ≤ region.size) {bytes : Bytes}
    (hbytes : Moved w.world c bytes) :
    LinearInv region
      { world := { alloc := { w.world.alloc with
          offset := w.world.alloc.offset + alignedSize c.size }, bytes := bytes }
        blocks := w.blocks ++ [nextBlock w.world.alloc c.size] } := by
  obtain ⟨hlow, hhigh, haligned⟩ := alignedSize_spec hsize
  have hnext : (nextBlock w.world.alloc c.size).start =
      region.start + w.world.alloc.offset + canarySize := by
    rw [nextBlock, h.start_eq]
  have hpadStart : (padded (nextBlock w.world.alloc c.size)).start =
      region.start + w.world.alloc.offset := by
    rw [padded, hnext, Nat.add_sub_cancel]
  have hpadStop : (padded (nextBlock w.world.alloc c.size)).stop =
      region.start + w.world.alloc.offset + (c.size + 2 * canarySize) := by
    rw [Extent.stop, hpadStart]
    rfl
  -- what holds of the old blocks is kept, and is shown of the new one
  have hmem {P : Extent → Prop} (hold : ∀ b ∈ w.blocks, P b)
      (hnew : P (nextBlock w.world.alloc c.size)) :
      ∀ b ∈ w.blocks ++ [nextBlock w.world.alloc c.size], P b := by
    intro b hb
    rcases List.mem_append.mp hb with hb | hb
    · exact hold b hb
    · rwa [List.mem_singleton.mp hb]
  refine ⟨h.start_eq, h.size_eq, h.poisoned, hfits, ?_, ⟨?_, ?_, ?_⟩, ?_, ?_⟩
  · have hoffset := h.offset_aligned
    simp only
    omega
  · refine hmem h.laid.inside ⟨by omega, ⟨by omega, ?_⟩⟩
    rw [hpadStop, Extent.stop]
    omega
  · refine hmem h.laid.aligned ?_
    have hoffset := h.offset_aligned
    rw [hnext, canarySize]
    omega
  · refine List.pairwise_append.mpr ⟨h.laid.apart, List.pairwise_singleton _ _, ?_⟩
    intro b hb d hd
    rw [List.mem_singleton.mp hd]
    exact .inl (by rw [hpadStart]; exact h.below b hb)
  · refine hmem (fun b hb => (h.below b hb).trans (by simp only; omega)) ?_
    rw [hpadStop]
    simp only
    omega
  · refine hmem ?_ ?_
    · intro b hb
      refine (h.guarded b hb).congr (h.laid.inside b hb).1 fun a _ _ hpadHigh => ?_
      have hbelow := h.below b hb
      exact (hbytes.outside a (.inl (by omega))).trans
        (writeCanaries_below (by rw [h.start_eq]; omega))
    · refine (guarded_writeCanaries w.world.bytes _ c.size).congr (by omega) ?_
      intro a hout _ _
      exact hbytes.outside a hout

theorem LinearInv.step (h : LinearInv region w)
    (hc : ClientEvent.Fair w (.call c)) (hwrap : NoWrap w.world c) :
    LinearInv region (linearStep w (.call c)) := by
  have heffect := h.effect hc
  rw [linearStep]
  generalize hr : canaryFunc w.world c = r at heffect
  cases heffect with
  | refused _ => exact ⟨h.start_eq, h.size_eq, h.poisoned, h.offset_le, h.offset_aligned, h.laid,
      h.below, h.guarded⟩
  | granted bytes hsize hfits hbytes =>
      rw [Nat.mod_eq_of_lt (hwrap hsize)] at hfits ⊢
      exact h.granted hc.1 (h.size_eq ▸ hfits) hbytes

/-- A request that wraps around gets a block that leaves the region. -/
theorem LinearInv.not_laid_of_wrap (h : LinearInv region w) (hregion : region.size ≤ 2 ^ 63)
    (hc : ClientEvent.Fair w (.call c)) (hwrap : ¬ NoWrap w.world c) :
    ¬ Laid region (linearStep w (.call c)).blocks := by
  obtain ⟨hsize, hge⟩ : c.size ≠ 0 ∧ sizeMod ≤ w.world.alloc.offset + alignedSize c.size := by
    simpa [NoWrap] using hwrap
  obtain ⟨-, hhigh, -⟩ := alignedSize_spec hc.1
  have hoffset := h.offset_le
  have hsmall := hc.1
  have hmod : (w.world.alloc.offset + alignedSize c.size) % sizeMod =
      w.world.alloc.offset + alignedSize c.size - sizeMod := by
    rw [Nat.mod_eq_sub_mod hge, Nat.mod_eq_of_lt]
    simp only [sizeMod, canarySize] at hge hhigh ⊢
    omega
  have heffect := h.effect hc
  rw [linearStep]
  generalize canaryFunc w.world c = r at heffect
  cases heffect with
  | refused hfull =>
      have hfull := hfull hsize
      rw [hmod, h.size_eq] at hfull
      simp only [sizeMod, canarySize] at hge hhigh hfull
      omega
  | granted bytes hsize hfits hbytes =>
      intro hlaid
      obtain ⟨-, -, hstop⟩ := hlaid.inside ⟨(nextBlock w.world.alloc c.size).start, c.size⟩
        (by simp [blocksAfter])
      simp only [padded, Extent.stop, nextBlock, h.start_eq, canarySize] at hstop
      simp only [sizeMod, canarySize] at hge hhigh
      omega

/-! ### Runs -/

/-- A new allocator over a region. -/
def LinearWorld.initial (region : Extent) (bytes : Bytes) : LinearWorld :=
  ⟨⟨⟨region.start, region.size, 0, false, region.size⟩, bytes⟩, []⟩

def linearState (region : Extent) (bytes : Bytes) (events : List ClientEvent) (k : ℕ) :
    LinearWorld :=
  run linearStep (LinearWorld.initial region bytes) (events.take k)

/-- After every event the blocks are laid out, and every call is sound. -/
def BlocksSound (region : Extent) (bytes : Bytes) (events : List ClientEvent) : Prop :=
  (∀ k ≤ events.length, Laid region (linearState region bytes events k).blocks) ∧
    ∀ k c, events[k]? = some (.call c) → CallSound (linearState region bytes events k).world c

variable {bytes : Bytes} {events : List ClientEvent}

theorem linearInv_initial : LinearInv region (LinearWorld.initial region bytes) :=
  ⟨rfl, rfl, rfl, Nat.zero_le _, rfl, ⟨nofun, nofun, List.Pairwise.nil⟩, nofun, nofun⟩

/-- The invariant holds up to the first request that wraps around. -/
theorem linearInv_linearState
    (h : Allowed linearStep (fun w e => e.Fair w) (LinearWorld.initial region bytes) events) {n : ℕ}
    (hn : n ≤ events.length) (hwrap : ∀ k < n, ∀ c, events[k]? = some (.call c) →
      LinearInv region (linearState region bytes events k) →
        NoWrap (linearState region bytes events k).world c) :
    LinearInv region (linearState region bytes events n) := by
  induction n with
  | zero => exact linearInv_initial
  | succ n ih =>
      have hinv := ih (by omega) fun k hk => hwrap k (by omega)
      have hget : events[n]? = some (events.get ⟨n, hn⟩) := List.getElem?_eq_getElem hn
      have hstep : linearState region bytes events (n + 1) =
          linearStep (linearState region bytes events n) (events.get ⟨n, hn⟩) := run_take_succ hget
      have hfair := h.getElem? hget
      rw [hstep]
      cases he : events.get ⟨n, hn⟩ with
      | write addr value =>
          rw [he] at hfair
          exact hinv.write hfair
      | call c =>
          rw [he] at hfair hget
          exact hinv.step hfair (hwrap n (by omega) c hget hinv)

/-- Blocks and calls of a run are sound exactly when no request wraps around. -/
theorem blocks_sound_iff (hregion : region.size ≤ 2 ^ 63)
    (h : Allowed linearStep (fun w e => e.Fair w) (LinearWorld.initial region bytes) events) :
    BlocksSound region bytes events ↔
      ∀ k c, events[k]? = some (.call c) → NoWrap (linearState region bytes events k).world c := by
  constructor
  · rintro ⟨hlaid, -⟩
    have hnoWrap : ∀ k < events.length, ∀ c, events[k]? = some (.call c) →
        LinearInv region (linearState region bytes events k) →
          NoWrap (linearState region bytes events k).world c := by
      intro k hk c hget hinv
      by_contra hwrap
      have hstep : linearState region bytes events (k + 1) =
          linearStep (linearState region bytes events k) (.call c) := run_take_succ hget
      have hafter := hlaid (k + 1) hk
      rw [hstep] at hafter
      exact hinv.not_laid_of_wrap hregion (h.getElem? hget) hwrap hafter
    intro k c hget
    have hk := (List.getElem?_eq_some_iff.mp hget).1
    exact hnoWrap k hk c hget
      (linearInv_linearState h hk.le fun j hj => hnoWrap j (by omega))
  · intro hwrap
    have hinv {k : ℕ} (hk : k ≤ events.length) :
        LinearInv region (linearState region bytes events k) :=
      linearInv_linearState h hk fun j _ c hget _ => hwrap j c hget
    refine ⟨fun k hk => (hinv hk).laid, fun k c hget => ?_⟩
    have hk := (List.getElem?_eq_some_iff.mp hget).1
    exact (hinv hk.le).callSound (h.getElem? hget)

/-- Below `2 ^ 63 - 47` bytes of region no request wraps around. -/
theorem LinearInv.noWrap (h : LinearInv region w) (hregion : region.size < 2 ^ 63 - 47)
    (hc : ClientEvent.Fair w (.call c)) : NoWrap w.world c := by
  intro _
  obtain ⟨-, hhigh, -⟩ := alignedSize_spec hc.1
  have hoffset := h.offset_le
  have hsize := hc.1
  simp only [sizeMod, canarySize] at hhigh ⊢
  omega

theorem noWrap_of_lt (hregion : region.size < 2 ^ 63 - 47)
    (h : Allowed linearStep (fun w e => e.Fair w) (LinearWorld.initial region bytes) events) :
    ∀ k c, events[k]? = some (.call c) → NoWrap (linearState region bytes events k).world c := by
  intro k c hget
  have hk := (List.getElem?_eq_some_iff.mp hget).1
  refine LinearInv.noWrap ?_ hregion (h.getElem? hget)
  exact linearInv_linearState h hk.le fun j _ d hd hinv => hinv.noWrap hregion (h.getElem? hd)

def blockCall (ptr : Option ℕ) (oldsize size : ℕ) : BlockCall :=
  ⟨ptr, oldsize, size, none, false, false⟩

/-- A block of 8 bytes is written, moved to 24 bytes and freed. -/
def moveEvents : List ClientEvent :=
  [.call (blockCall none 0 8), .write 0x1011 7, .call (blockCall (some 0x1010) 8 24),
    .call (blockCall (some 0x1040) 24 0)]

theorem moveEvents_allowed :
    Allowed linearStep (fun w e => e.Fair w)
      (LinearWorld.initial ⟨0x1000, 4096⟩ fun _ => 0) moveEvents := by
  refine ⟨⟨by decide, nofun⟩, ⟨⟨0x1010, 8⟩, by decide, by decide, by decide⟩,
    ⟨by decide, ?_⟩, ⟨by decide, ?_⟩, trivial⟩
  · intro p hp
    obtain rfl : 0x1010 = p := Option.some.inj hp
    decide
  · intro p hp
    obtain rfl : 0x1040 = p := Option.some.inj hp
    decide

theorem blocks_sound_moveEvents : BlocksSound ⟨0x1000, 4096⟩ (fun _ => 0) moveEvents :=
  (blocks_sound_iff (by decide) moveEvents_allowed).mpr
    (noWrap_of_lt (by decide) moveEvents_allowed)

/-- Two requests on a region of `2 ^ 63` bytes; the second ends at `2 ^ 64`. -/
def wrapEvents : List ClientEvent :=
  [.call (blockCall none 0 (2 ^ 63 - 64)), .call (blockCall none 0 (2 ^ 63))]

theorem not_blocks_sound_wrapEvents :
    Allowed linearStep (fun w e => e.Fair w)
        (LinearWorld.initial ⟨0x1000, 2 ^ 63⟩ fun _ => 0) wrapEvents ∧
      ¬ BlocksSound ⟨0x1000, 2 ^ 63⟩ (fun _ => 0) wrapEvents := by
  refine ⟨⟨⟨by decide, nofun⟩, ⟨by decide, nofun⟩, trivial⟩, ?_⟩
  rintro ⟨hlaid, -⟩
  have hmem : ⟨2 ^ 63 + 4080, 2 ^ 63⟩ ∈
      (linearState ⟨0x1000, 2 ^ 63⟩ (fun _ => 0) wrapEvents 2).blocks := by decide
  exact absurd ((hlaid 2 le_rfl).inside _ hmem).2.2 (by decide)

end GooglePerl.Xs
