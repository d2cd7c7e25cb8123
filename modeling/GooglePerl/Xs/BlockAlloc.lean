import GooglePerl.Lib.Extent
import GooglePerl.Lib.Run

/-!
The linear allocator of an arena (`PerlUpb_BlockAlloc_Func`), in its two modes.

With canaries a block is cut off the front of one region and has a pattern of sixteen bytes on
both sides. With guard pages each block is a mapping of its own between two pages without
access. What the kernel answers is part of a call; what it is asked is kept as a trace.
-/

namespace GooglePerl.Xs

open Lib

/-- `PerlUpb_BlockAlloc`, without what only files need -/
structure BlockAlloc where
  region : ℕ
  size : ℕ
  offset : ℕ
  poisoned : Bool
  /-- The length of the mapping in guard-page mode. -/
  mmapSize : ℕ
  deriving DecidableEq, Repr

/-- What the allocator asks the kernel for. -/
inductive KernelCall where
  | mmap (len : ℕ) (answer : Option ℕ)
  /-- `PROT_NONE` is `false`. -/
  | mprotect (addr len : ℕ) (access : Bool)
  | munmap (addr len : ℕ)
  deriving DecidableEq, Repr

/-- A call of the allocator, with what the kernel answers if it is asked. -/
structure BlockCall where
  ptr : Option ℕ
  oldsize : ℕ
  size : ℕ
  mapped : Option ℕ
  startProtected : Bool
  endProtected : Bool
  deriving DecidableEq, Repr

inductive Outcome where
  | returned (p : Option ℕ)
  | croaked (msg : String)
  deriving DecidableEq, Repr

/-- The bytes of memory, by address. -/
abbrev Bytes := ℕ → ℕ

structure BlockWorld where
  alloc : BlockAlloc
  bytes : Bytes

/-! ### Canaries -/

def canarySize : ℕ := 16

/-- `PERL_UPB_CANARY_PATTERN`, twice, as it lies in memory -/
def canaryByte (i : ℕ) : ℕ := 0xDEADBEEFCAFEBABE >>> (8 * (i % 8)) % 256

/-- A canary at an address. -/
def writeCanary (m : Bytes) (addr : ℕ) : Bytes :=
  fun a => if addr ≤ a ∧ a < addr + canarySize then canaryByte (a - addr) else m a

/-- `PerlUpb_WriteCanaries` -/
def writeCanaries (m : Bytes) (ptr size : ℕ) : Bytes :=
  writeCanary (writeCanary m ptr) (ptr + canarySize + size)

def hasCanary (m : Bytes) (addr : ℕ) : Bool :=
  (List.range canarySize).all fun i => m (addr + i) = canaryByte i

/-- `PerlUpb_VerifyCanaries`: what it croaks with -/
def verifyCanaries (m : Bytes) (ptr size : ℕ) (msg : String) : Option String :=
  if hasCanary m (ptr - canarySize) = false then
    some ("MEMORY CORRUPTION DETECTED (Underflow): " ++ msg)
  else if hasCanary m (ptr + size) = false then
    some ("MEMORY CORRUPTION DETECTED (Overflow): " ++ msg)
  else none

def memcpy (m : Bytes) (dest src n : ℕ) : Bytes :=
  fun a => if dest ≤ a ∧ a < dest + n then m (src + (a - dest)) else m a

/-! ### The two modes -/

/-- `(requested_size + 15) & ~15` for a block of `size` bytes -/
def alignedSize (size : ℕ) : ℕ :=
  ((size + 2 * canarySize) % sizeMod + 15) % sizeMod / 16 * 16

/-- The end of `PerlUpb_BlockAlloc_Func`, without guard pages -/
def canaryAlloc (w : BlockWorld) (size : ℕ) : Option ℕ × BlockWorld :=
  let b := w.alloc
  if (b.offset + alignedSize size) % sizeMod > b.size then (none, w)
  else
    let raw := b.region + b.offset
    (some (raw + canarySize),
      { alloc := { b with offset := (b.offset + alignedSize size) % sizeMod }
        bytes := writeCanaries w.bytes raw size })

/-- `PerlUpb_BlockAlloc_Func` without guard pages -/
def canaryFunc (w : BlockWorld) (c : BlockCall) : Outcome × BlockWorld :=
  let poison : BlockWorld := { w with alloc := { w.alloc with poisoned := true } }
  -- after a corruption nothing is given out any more
  if w.alloc.poisoned then (.returned none, w)
  else if c.size = 0 then
    match c.ptr with
    | none => (.returned none, w)
    | some ptr =>
        match verifyCanaries w.bytes ptr c.oldsize "BlockAlloc free" with
        | some text => (.croaked text, poison)
        | none => (.returned none, w)
  else
    match c.ptr with
    | none =>
        let r := canaryAlloc w c.size
        (.returned r.1, r.2)
    | some ptr =>
        -- a block that grows or shrinks is always a new one; the old one stays in the region
        match verifyCanaries w.bytes ptr c.oldsize "BlockAlloc realloc" with
        | some text => (.croaked text, poison)
        | none =>
            let r := canaryAlloc w c.size
            match r.1 with
            | none => (.returned none, r.2)
            | some new =>
                if c.oldsize > 0 then
                  (.returned (some new),
                    { r.2 with bytes := memcpy r.2.bytes new ptr (min c.oldsize c.size) })
                else (.returned (some new), r.2)

/-- The end of `PerlUpb_BlockAlloc_Func`, with guard pages -/
def guardAlloc (page : ℕ) (b : BlockAlloc) (c : BlockCall) :
    Option ℕ × BlockAlloc × List KernelCall :=
  let total := (page * 2 + c.size) % sizeMod
  -- there is one `mmap_size`, which the next request overwrites
  let b := { b with mmapSize := total }
  match c.mapped with
  | none => (none, b, [.mmap total none])
  | some mem =>
      if c.startProtected = false then
        (none, b, [.mmap total mem, .mprotect mem page false, .munmap mem total])
      else if c.endProtected = false then
        (none, b, [.mmap total mem, .mprotect mem page false,
          .mprotect ((mem + page + c.size) % sizeMod) page false, .munmap mem total])
      else
        (some (mem + page), { b with region := mem, size := c.size },
          [.mmap total mem, .mprotect mem page false,
            .mprotect ((mem + page + c.size) % sizeMod) page false])

/-- `PerlUpb_BlockAlloc_Func` with guard pages -/
def guardFunc (page : ℕ) (b : BlockAlloc) (c : BlockCall) :
    Outcome × BlockAlloc × List KernelCall :=
  if b.poisoned then (.returned none, b, [])
  else if c.size = 0 then
    match c.ptr with
    | none => (.returned none, b, [])
    | some ptr =>
        (.returned none, b,
          [.mprotect (ptr - page) b.mmapSize true, .munmap (ptr - page) b.mmapSize])
  else
    match c.ptr with
    | some _ => (.croaked "Realloc not supported with guard pages in BlockAllocator", b, [])
    | none =>
        let r := guardAlloc page b c
        (.returned r.1, r.2)

end GooglePerl.Xs
