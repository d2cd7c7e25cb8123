import GooglePerl.Lib.CString
import GooglePerl.Lib.Scan
import GooglePerl.Protobuf.Value
import Mathlib.Algebra.Group.Int.Defs
import Mathlib.Data.List.Count

/-!
`PerlUpb_ClassNameToFullName` and `PerlUpb_FullNameToClassName`.

Stretches without a dot or a colon are copied in chunks, the rest octet by octet. The loops
together write what one replacement gives, wherever the chunks end (`classNameToFullName_eq`,
`fullNameToClassName_eq`). The second function counts the dots in an `int`.
-/

namespace GooglePerl.Xs.NameConversion

open GooglePerl.Lib

/-! ### The functions -/

def dot : ℕ := 46

def colon : ℕ := 58

/-- The mask of a chunk is not 0. -/
def hasSpecial (chunk : List ℕ) : Bool := chunk.any fun c => c == dot || c == colon

/-- `s`, `remaining` and `d` of the chunk loops. -/
structure Cursor where
  pos : ℕ
  remaining : ℕ
  out : Buffer

section

variable (s : CString)

/-- `while (remaining >= width)`, for a number of turns -/
def copyChunks (width : ℕ) : ℕ → Cursor → Option Cursor
  | 0, _ => none
  | n + 1, c =>
      if c.remaining ≥ width then do
        let chunk ← s.load c.pos width
        if hasSpecial chunk then some c
        else
          let out ← c.out.put chunk
          copyChunks width n ⟨c.pos + width, c.remaining - width, out⟩
      else some c

/-- The chunk loops, one after the other. -/
def copyAllChunks (widths : List ℕ) (c : Cursor) : Option Cursor :=
  widths.foldlM (fun c width => copyChunks s width (s.octets.length + 1) c) c

/-- `while (*s)` of `ClassNameToFullName` -/
def classLoop : ℕ → ℕ → Buffer → Option Buffer
  | 0, _, _ => none
  | n + 1, i, out => do
      let c ← s.read i
      -- the terminator is copied too
      if c = 0 then out.put [0]
      else if c = colon then
        -- behind the last character this is the terminator
        let c' ← s.read (i + 1)
        if c' = colon then
          let out ← out.put [dot]
          classLoop n (i + 2) out
        else
          let out ← out.put [c]
          classLoop n (i + 1) out
      else
        let out ← out.put [c]
        classLoop n (i + 1) out

/-- `while (*s)` of `FullNameToClassName` -/
def fullLoop : ℕ → ℕ → Buffer → Option Buffer
  | 0, _, _ => none
  | n + 1, i, out => do
      let c ← s.read i
      if c = 0 then out.put [0]
      else if c = dot then
        let out ← out.put [colon]
        let out ← out.put [colon]
        fullLoop n (i + 1) out
      else
        let out ← out.put [c]
        fullLoop n (i + 1) out

/-- `PerlUpb_ClassNameToFullName` of a string that is there; the chunk loops are compiled in
for x86. -/
def classNameToFullName (x86 : Bool) : Option (List ℕ) := do
  let c ← copyAllChunks s (if x86 then [32, 16] else [])
    ⟨0, s.octets.length, Buffer.alloc (s.octets.length + 1)⟩
  let out ← classLoop s (s.octets.length + 1) c.pos c.out
  return out.octets

/-- `int dots`, which overflows by wrapping round -/
def dots : ℤ := (s.octets.count dot : ℤ).bmod (2 ^ 32)

/-- `PerlUpb_FullNameToClassName` of a string that is there. The size of the buffer is a
`size_t`. -/
def fullNameToClassName (x86 : Bool) : Option (List ℕ) := do
  let c ← copyAllChunks s (if x86 then [32] else [])
    ⟨0, s.octets.length, Buffer.alloc ((s.octets.length + dots s + 1) % 2 ^ 64).toNat⟩
  let out ← fullLoop s (s.octets.length + 1) c.pos c.out
  return out.octets

end

/-! ### What they should write -/

/-- Each `::` from the left becomes a dot. -/
def colonsToDots (s : List ℕ) : List ℕ :=
  Scan.replaceAll (Scan.literal [colon, colon]) (fun _ => [dot]) s

/-- Each dot becomes `::`. -/
def dotsToColons (s : List ℕ) : List ℕ :=
  Scan.replaceAll (Scan.literal [dot]) (fun _ => [colon, colon]) s

theorem colonsToDots_pair (r : List ℕ) :
    colonsToDots (colon :: colon :: r) = dot :: colonsToDots r :=
  Scan.replaceAll_of_some (Scan.consumes_literal (by simp)) (Scan.literal_append [colon, colon] r)

theorem colonsToDots_cons {c : ℕ} {r : List ℕ} (h : c = colon → r.head? ≠ some colon) :
    colonsToDots (c :: r) = c :: colonsToDots r := by
  apply Scan.replaceAll_cons_of_none
  by_contra hsome
  obtain ⟨⟨⟨⟩, t⟩, ht⟩ := Option.ne_none_iff_exists'.mp hsome
  obtain ⟨rfl, rfl⟩ := List.cons_eq_cons.mp (Scan.literal_eq_some.mp ht)
  exact h rfl rfl

theorem dotsToColons_dot (r : List ℕ) :
    dotsToColons (dot :: r) = colon :: colon :: dotsToColons r :=
  Scan.replaceAll_of_some (Scan.consumes_literal (by simp)) (Scan.literal_append [dot] r)

theorem dotsToColons_cons {c : ℕ} (h : c ≠ dot) (r : List ℕ) :
    dotsToColons (c :: r) = c :: dotsToColons r := by
  apply Scan.replaceAll_cons_of_none
  simp [Scan.literal, h]

/-- A stretch without dots and colons stays as it is. -/
theorem colonsToDots_append {v : List ℕ} (h : hasSpecial v = false) (r : List ℕ) :
    colonsToDots (v ++ r) = v ++ colonsToDots r := by
  induction v with
  | nil => rfl
  | cons c v ih =>
      obtain ⟨hc, hv⟩ : (c ≠ dot ∧ c ≠ colon) ∧ hasSpecial v = false := by
        simpa [hasSpecial] using h
      rw [List.cons_append, colonsToDots_cons fun hcolon => absurd hcolon hc.2, ih hv,
        List.cons_append]

theorem dotsToColons_append {v : List ℕ} (h : hasSpecial v = false) (r : List ℕ) :
    dotsToColons (v ++ r) = v ++ dotsToColons r := by
  induction v with
  | nil => rfl
  | cons c v ih =>
      obtain ⟨hc, hv⟩ : (c ≠ dot ∧ c ≠ colon) ∧ hasSpecial v = false := by
        simpa [hasSpecial] using h
      rw [List.cons_append, dotsToColons_cons hc.1, ih hv, List.cons_append]

theorem length_colonsToDots_le (s : List ℕ) : (colonsToDots s).length ≤ s.length := by
  induction hn : s.length using Nat.strong_induction_on generalizing s with
  | _ n ih =>
      subst hn
      match s with
      | [] => exact le_rfl
      | [c] =>
          rw [colonsToDots_cons (by simp)]
          exact le_rfl
      | c :: d :: r =>
          by_cases h : c = colon ∧ d = colon
          · obtain ⟨rfl, rfl⟩ := h
            have hrest := ih r.length (by rw [List.length_cons, List.length_cons]; omega) r rfl
            rw [colonsToDots_pair, List.length_cons, List.length_cons, List.length_cons]
            omega
          · have hrest := ih (d :: r).length (by simp) (d :: r) rfl
            rw [colonsToDots_cons fun hc hd => h ⟨hc, by simpa using hd⟩, List.length_cons]
            exact Nat.succ_le_succ hrest

theorem length_dotsToColons (s : List ℕ) :
    (dotsToColons s).length = s.length + s.count dot := by
  induction s with
  | nil => rfl
  | cons c s ih =>
      by_cases h : c = dot
      · subst h
        rw [dotsToColons_dot, List.length_cons, List.length_cons, ih, List.count_cons_self,
          List.length_cons]
        omega
      · rw [dotsToColons_cons h, List.length_cons, ih, List.count_cons_of_ne h, List.length_cons]
        omega

/-- In a name without colons every dot comes back. -/
theorem colonsToDots_dotsToColons {s : List ℕ} (h : colon ∉ s) :
    colonsToDots (dotsToColons s) = s := by
  induction s with
  | nil => rfl
  | cons c s ih =>
      obtain ⟨hc, hs⟩ : colon ≠ c ∧ colon ∉ s := by simpa using h
      by_cases hdot : c = dot
      · subst hdot
        rw [dotsToColons_dot, colonsToDots_pair, ih hs]
      · rw [dotsToColons_cons hdot, colonsToDots_cons fun h => absurd h.symm hc, ih hs]

/-! ### What they write -/

variable {s : CString}

/-- A chunk loop copies a stretch without dots and colons. -/
theorem copyChunks_eq {width : ℕ} (hwidth : 0 < width) {p r : List ℕ} (h : s.octets = p ++ r)
    {n : ℕ} (hn : r.length < n) :
    ∃ v r', r = v ++ r' ∧ hasSpecial v = false ∧ ∀ out,
      copyChunks s width n ⟨p.length, r.length, out⟩ =
        (out.put v).map fun out => ⟨(p ++ v).length, r'.length, out⟩ := by
  induction n generalizing p r with
  | zero => exact absurd hn (Nat.not_lt_zero _)
  | succ n ih =>
      -- a chunk is copied whole, and one with something special in it ends the loop
      by_cases hroom : r.length ≥ width
      · obtain ⟨chunk, rest, hr, hlen⟩ : ∃ chunk rest, r = chunk ++ rest ∧ chunk.length = width :=
          ⟨r.take width, r.drop width, (List.take_append_drop width r).symm,
            List.length_take_of_le hroom⟩
        have hload : s.load p.length width = some chunk := by
          rw [← hlen]
          exact CString.load_append (r := rest) (by rw [h, hr, List.append_assoc])
        by_cases hspecial : hasSpecial chunk = true
        · refine ⟨[], r, rfl, rfl, fun out => ?_⟩
          rw [copyChunks, if_pos hroom, hload, Option.bind_eq_bind, Option.bind_some,
            if_pos hspecial]
          simp
        · have hrest : r.length - width = rest.length := by
            rw [hr, List.length_append]
            omega
          have hpos : p.length + width = (p ++ chunk).length := by
            rw [List.length_append, hlen]
          have hshort : rest.length < n := by
            rw [hr, List.length_append] at hn
            omega
          obtain ⟨v, r', hv, hplain, hrun⟩ := ih (p := p ++ chunk) (r := rest)
            (by rw [h, hr, List.append_assoc]) hshort
          refine ⟨chunk ++ v, r', by rw [hr, hv, List.append_assoc], ?_, fun out => ?_⟩
          · have hchunk : hasSpecial chunk = false := by simpa using hspecial
            rw [hasSpecial, List.any_append]
            exact Bool.or_eq_false_iff.mpr ⟨hchunk, hplain⟩
          · rw [copyChunks, if_pos hroom, hload, Option.bind_eq_bind, Option.bind_some,
              if_neg hspecial]
            simp only [hrest, hpos, hrun, Option.bind_eq_bind]
            rw [List.append_assoc, ← Buffer.put_append, Option.map_bind]
            rfl
      · refine ⟨[], r, rfl, rfl, fun out => ?_⟩
        rw [copyChunks, if_neg hroom]
        simp

/-- So do the chunk loops together. -/
theorem copyAllChunks_eq {widths : List ℕ} (hwidths : ∀ w ∈ widths, 0 < w) {p r : List ℕ}
    (h : s.octets = p ++ r) :
    ∃ v r', r = v ++ r' ∧ hasSpecial v = false ∧ ∀ out,
      copyAllChunks s widths ⟨p.length, r.length, out⟩ =
        (out.put v).map fun out => ⟨(p ++ v).length, r'.length, out⟩ := by
  induction widths generalizing p r with
  | nil => exact ⟨[], r, rfl, rfl, fun out => by simp [copyAllChunks]⟩
  | cons w widths ih =>
      have hlen : r.length < s.octets.length + 1 := by
        rw [h, List.length_append]
        omega
      obtain ⟨v, r₁, hv, hplain, hrun⟩ := copyChunks_eq (hwidths w List.mem_cons_self) h hlen
      obtain ⟨v', r', hv', hplain', hrun'⟩ := ih
        (fun w hw => hwidths w (List.mem_cons_of_mem _ hw)) (p := p ++ v) (r := r₁)
        (by rw [h, hv, List.append_assoc])
      refine ⟨v ++ v', r', by rw [hv, hv', List.append_assoc], ?_, fun out => ?_⟩
      · rw [hasSpecial, List.any_append]
        exact Bool.or_eq_false_iff.mpr ⟨hplain, hplain'⟩
      · have hrest := hrun'
        simp only [copyAllChunks] at hrest ⊢
        rw [List.foldlM_cons, hrun, Option.bind_eq_bind, Option.bind_map]
        simp only [Function.comp_def, hrest]
        rw [List.append_assoc, ← Buffer.put_append, Option.map_bind]
        rfl

theorem fullLoop_eq {p r : List ℕ} (h : s.octets = p ++ r) {n : ℕ} (hn : r.length < n)
    (out : Buffer) :
    fullLoop s n p.length out = out.put (dotsToColons r ++ [0]) := by
  induction n generalizing p r out with
  | zero => exact absurd hn (Nat.not_lt_zero _)
  | succ n ih =>
      rw [fullLoop]
      cases r with
      | nil =>
          rw [CString.read_end (p := p) (by simpa using h)]
          rfl
      | cons c r =>
          have hc : c ≠ 0 := by
            rintro rfl
            exact s.nul_free (by simp [h])
          have hrest (out : Buffer) :
              fullLoop s n (p.length + 1) out = out.put (dotsToColons r ++ [0]) := by
            have hlen : r.length < n := by simpa using hn
            have hnext := ih (p := p ++ [c]) (by rw [h, List.append_assoc]; rfl) hlen out
            simpa using hnext
          rw [CString.read_cons h, Option.bind_eq_bind, Option.bind_some, if_neg hc]
          by_cases hdot : c = dot
          · subst hdot
            simp only [if_true, hrest, Option.bind_eq_bind, Buffer.put_append]
            rw [dotsToColons_dot]
            rfl
          · simp only [hdot, if_false, hrest, Option.bind_eq_bind, Buffer.put_append]
            rw [dotsToColons_cons hdot]
            rfl

theorem classLoop_eq {p r : List ℕ} (h : s.octets = p ++ r) {n : ℕ} (hn : r.length < n)
    (out : Buffer) :
    classLoop s n p.length out = out.put (colonsToDots r ++ [0]) := by
  induction n generalizing p r out with
  | zero => exact absurd hn (Nat.not_lt_zero _)
  | succ n ih =>
      rw [classLoop]
      cases r with
      | nil =>
          rw [CString.read_end (p := p) (by simpa using h)]
          rfl
      | cons c r =>
          have hc : c ≠ 0 := by
            rintro rfl
            exact s.nul_free (by simp [h])
          have hlen : r.length < n := by simpa using hn
          -- one octet further, as all branches but one go on
          have hrest (out : Buffer) :
              classLoop s n (p.length + 1) out = out.put (colonsToDots r ++ [0]) := by
            have hnext := ih (p := p ++ [c]) (by rw [h, List.append_assoc]; rfl) hlen out
            simpa using hnext
          rw [CString.read_cons h, Option.bind_eq_bind, Option.bind_some, if_neg hc]
          by_cases hcolon : c = colon
          · subst hcolon
            rw [if_pos rfl]
            cases r with
            | nil =>
                rw [CString.read_singleton h, Option.bind_some, if_neg (by decide : 0 ≠ colon)]
                simp only [hrest, Option.bind_eq_bind, Buffer.put_append]
                rw [colonsToDots_cons (by simp)]
                rfl
            | cons d r =>
                rw [CString.read_cons_cons h, Option.bind_some]
                by_cases hd : d = colon
                · subst hd
                  have hpair (out : Buffer) :
                      classLoop s n (p.length + 2) out = out.put (colonsToDots r ++ [0]) := by
                    rw [List.length_cons] at hlen
                    have hnext := ih (p := p ++ [colon, colon])
                      (by rw [h, List.append_assoc]; rfl) (by omega : r.length < n) out
                    simpa using hnext
                  simp only [if_true, hpair, Option.bind_eq_bind, Buffer.put_append]
                  rw [colonsToDots_pair]
                  rfl
                · simp only [hd, if_false, hrest, Option.bind_eq_bind, Buffer.put_append]
                  rw [colonsToDots_cons (c := colon) (r := d :: r)
                    fun _ hhead => hd (by simpa using hhead)]
                  rfl
          · simp only [hcolon, if_false, hrest, Option.bind_eq_bind, Buffer.put_append]
            rw [colonsToDots_cons fun h => absurd h hcolon]
            rfl

/-- Whatever the chunks, everything is written in one go. -/
theorem copy_then {widths : List ℕ} (hwidths : ∀ w ∈ widths, 0 < w) (s : CString)
    {loop : ℕ → Buffer → Option Buffer} {convert : List ℕ → List ℕ} (out : Buffer)
    (hloop : ∀ p r, s.octets = p ++ r → ∀ out, loop p.length out = out.put (convert r ++ [0]))
    (hplain : ∀ v r, hasSpecial v = false → convert (v ++ r) = v ++ convert r) :
    ((copyAllChunks s widths ⟨0, s.octets.length, out⟩).bind fun c => loop c.pos c.out) =
      out.put (convert s.octets ++ [0]) := by
  obtain ⟨v, r, hv, hspecial, hrun⟩ := copyAllChunks_eq hwidths (List.nil_append s.octets).symm
  have hcopy := hrun out
  rw [List.length_nil] at hcopy
  rw [hcopy, Option.bind_map]
  simp only [Function.comp_def, List.nil_append, hloop v r hv]
  rw [Buffer.put_append, hv, hplain v r hspecial, List.append_assoc]

theorem return_octets (x : Option Cursor) (loop : Cursor → Option Buffer) :
    (do let c ← x; let out ← loop c; return out.octets) = (x.bind loop).map Buffer.octets := by
  cases x with
  | none => rfl
  | some c =>
      change (loop c).bind _ = (loop c).map _
      cases loop c <;> rfl

/-- The conversion of a class name, whose buffer is always large enough. -/
theorem classNameToFullName_eq (x86 : Bool) (s : CString) :
    classNameToFullName s x86 = some (colonsToDots s.octets ++ [0]) := by
  have hwidths : ∀ w ∈ (if x86 then [32, 16] else []), 0 < w := by
    cases x86 <;> simp
  have hloop (p r : List ℕ) (h : s.octets = p ++ r) (out : Buffer) :
      classLoop s (s.octets.length + 1) p.length out = out.put (colonsToDots r ++ [0]) := by
    apply classLoop_eq h
    rw [h, List.length_append]
    omega
  have hroom : (colonsToDots s.octets ++ [0]).length ≤ s.octets.length + 1 := by
    rw [List.length_append]
    exact Nat.succ_le_succ (length_colonsToDots_le s.octets)
  have hrun := copy_then hwidths s (.alloc (s.octets.length + 1)) hloop
    fun v r hv => colonsToDots_append hv r
  have hput := Buffer.octets_put_alloc (s.octets.length + 1) (colonsToDots s.octets ++ [0])
  rw [← hrun, if_pos hroom] at hput
  rw [classNameToFullName, ← hput]
  exact return_octets _ _

/-- What the `int` makes of the size. -/
theorem fits_iff {len count : ℕ} (hlen : len < 2 ^ 63) (hcount : count ≤ len) :
    len + count + 1 ≤ (((len : ℤ) + (count : ℤ).bmod (2 ^ 32) + 1) % 2 ^ 64).toNat ↔
      count < 2 ^ 31 := by
  rw [Int.bmod_def]
  split <;> omega

/-- The conversion of a full name: its buffer is large enough for fewer than `2 ^ 31` dots. -/
theorem fullNameToClassName_eq (x86 : Bool) (s : CString) :
    fullNameToClassName s x86 =
      if s.octets.count dot < 2 ^ 31 then some (dotsToColons s.octets ++ [0]) else none := by
  have hwidths : ∀ w ∈ (if x86 then [32] else []), 0 < w := by
    cases x86 <;> simp
  have hloop (p r : List ℕ) (h : s.octets = p ++ r) (out : Buffer) :
      fullLoop s (s.octets.length + 1) p.length out = out.put (dotsToColons r ++ [0]) := by
    apply fullLoop_eq h
    rw [h, List.length_append]
    omega
  have hroom : (dotsToColons s.octets ++ [0]).length ≤
      ((s.octets.length + dots s + 1) % 2 ^ 64).toNat ↔ s.octets.count dot < 2 ^ 31 := by
    rw [List.length_append, length_dotsToColons]
    exact fits_iff s.length_lt List.count_le_length
  have hrun := copy_then hwidths s (.alloc ((s.octets.length + dots s + 1) % 2 ^ 64).toNat) hloop
    fun v r hv => dotsToColons_append hv r
  have hput := Buffer.octets_put_alloc ((s.octets.length + dots s + 1) % 2 ^ 64).toNat
    (dotsToColons s.octets ++ [0])
  rw [← hrun] at hput
  simp only [hroom] at hput
  rw [fullNameToClassName, ← hput]
  exact return_octets _ _

/-! ### Both -/

/-- Each function returns the string with its replacement, staying inside the source and the
buffer, and a name without colons survives the way there and back. -/
structure Converts (x86 : Bool) (s : CString) : Prop where
  toFullName : classNameToFullName s x86 = some (colonsToDots s.octets ++ [0])
  toClassName : fullNameToClassName s x86 = some (dotsToColons s.octets ++ [0])
  back : colon ∉ s.octets → ∀ t : CString, fullNameToClassName s x86 = some (t.octets ++ [0]) →
    classNameToFullName t x86 = some (s.octets ++ [0])

/-- The conversions are right exactly for strings whose dots an `int` can count. -/
theorem converts_iff (x86 : Bool) (s : CString) :
    Converts x86 s ↔ s.octets.count dot < 2 ^ 31 := by
  constructor
  · intro h
    by_contra hmany
    have hnone := h.toClassName
    rw [fullNameToClassName_eq, if_neg hmany] at hnone
    cases hnone
  · intro hfew
    have hclass : fullNameToClassName s x86 = some (dotsToColons s.octets ++ [0]) := by
      rw [fullNameToClassName_eq, if_pos hfew]
    refine ⟨classNameToFullName_eq x86 s, hclass, fun hcolon t ht => ?_⟩
    have ht' : t.octets = dotsToColons s.octets := by
      rw [hclass] at ht
      exact (List.append_cancel_right (Option.some.inj ht)).symm
    rw [classNameToFullName_eq, ht', colonsToDots_dotsToColons hcolon]

/-- `2 ^ 31` dots -/
def manyDots : CString where
  octets := List.replicate (2 ^ 31) dot
  nul_free := by
    intro h
    exact absurd (List.eq_of_mem_replicate h) (by decide)
  length_lt := by
    rw [List.length_replicate]
    decide

theorem not_converts_manyDots : ¬ Converts true manyDots := by
  intro h
  have hmany : ¬ manyDots.octets.count dot < 2 ^ 31 := by
    rw [manyDots, List.count_replicate_self]
    exact lt_irrefl _
  have hnone := h.toClassName
  rw [fullNameToClassName_eq, if_neg hmany] at hnone
  cases hnone

end GooglePerl.Xs.NameConversion
