import GooglePerl.Xs.Wrappers
import Mathlib.Logic.Function.Basic
import Mathlib.Logic.Relation

/-!
Native objects, their wrappers and their arenas (`xs/protobuf/message.c`, `utils.c`, `arena.c`).

A wrapper holds a pointer and a reference to an arena object, and with the last reference to that
goes the arena with all that is in it. The place may then be given to another object, while the
object cache still has a key for it. So that no wrapper dangles, and none from the cache stands
for what was at its place before, each object has to lead to objects of its own arena only; the
functions that store one message in another copy it (`memory_safe`).

The strings of a message of the profile `zero_copy` are not in an arena, and not modelled.
-/

namespace GooglePerl.Xs

open GooglePerl.Lib

structure Heap where
  wrappers : Wrappers
  /-- `_arena_sv` of a wrapper -/
  arenaSv : ℕ → ℕ
  /-- the references to arena objects that no wrapper has -/
  held : List ℕ
  /-- the arena that an object is in, none where nothing is allocated -/
  arena : Ptr → Option ℕ
  /-- the objects that the fields of an object, or the elements of a container, point to -/
  fields : Ptr → List Ptr
  /-- the arenas whose objects have the magic without which `PerlUpb_Arena_Destroy` does nothing -/
  magic : List ℕ
  /-- the number of arenas made so far, which names the next one -/
  arenas : ℕ

namespace Heap

/-- Something refers to the object of an arena. -/
def Used (h : Heap) (a : ℕ) : Prop := a ∈ h.held ∨ ∃ e ∈ h.wrappers.live, h.arenaSv e.1 = a

instance (h : Heap) (a : ℕ) : Decidable (h.Used a) := inferInstanceAs (Decidable (_ ∨ _))

/-- A reference to an arena object has gone; `PerlUpb_Arena_Destroy` follows the last one. -/
def release (h : Heap) (a : ℕ) : Heap :=
  if h.Used a ∨ a ∉ h.magic then h
  else { h with arena := fun p => if h.arena p = some a then none else h.arena p }

/-- `PerlUpb_WrapArenaBoundObject` -/
def wrap (h : Heap) (ptr : Ptr) (a : ℕ) : Option ℕ × Heap :=
  let r := h.wrappers.wrap ptr
  (r.1, { h with
    wrappers := r.2
    arenaSv := if r.2.next = h.wrappers.next then h.arenaSv
      else Function.update h.arenaSv h.wrappers.next a })

/-- `upb_Message_New`, `upb_Array_New` or `upb_Map_New` -/
def alloc (h : Heap) (a : ℕ) (ptr : Ptr) : Heap :=
  { h with
    arena := Function.update h.arena ptr (some a)
    fields := Function.update h.fields ptr [] }

/-- A new object `q`, stored in `p` -/
def store (h : Heap) (a : ℕ) (p q : Ptr) : Heap :=
  let h := h.alloc a q
  { h with fields := Function.update h.fields p (q :: h.fields p) }

/-- The new objects that an operation makes, each stored in one that was there before it. -/
def build (h : Heap) (a : ℕ) (es : List (Ptr × Ptr)) : Heap :=
  es.foldl (fun h e => h.store a e.1 e.2) h

/-- `upb_Arena_New`, with an object for it -/
def newArena (h : Heap) (magic : Bool) : Heap :=
  { h with
    held := h.arenas :: h.held
    magic := if magic then h.arenas :: h.magic else h.magic
    arenas := h.arenas + 1 }

/-- A reference to an arena object goes. -/
def dropArena (h : Heap) (a : ℕ) : Heap := { h with held := h.held.erase a }.release a

/-- `_xs_new_from_def_in_arena` -/
def newInArena (h : Heap) (a : ℕ) (ptr : Ptr) : Option ℕ × Heap := (h.alloc a ptr).wrap ptr a

/-- `PerlUpb_Message_NewMessage` and `PerlUpb_Message_Parse`: the message and what is parsed into
it are in an arena of their own. -/
def newMessage (h : Heap) (ptr : Ptr) (es : List (Ptr × Ptr)) : Option ℕ × Heap :=
  let r := (((h.newArena true).alloc h.arenas ptr).build h.arenas es).wrap ptr h.arenas
  (r.1, r.2.dropArena h.arenas)

/-- `PerlUpb_UpbToSv` for a sub-object of what a wrapper stands for -/
def get (h : Heap) (wrapper : ℕ) (q : Ptr) : Option ℕ × Heap := h.wrap q (h.arenaSv wrapper)

/-- The last reference to a wrapper goes, and then the one that it has to its arena. -/
def drop (h : Heap) (wrapper : ℕ) : Heap :=
  { h with wrappers := h.wrappers.destroy wrapper }.release (h.arenaSv wrapper)

inductive Event where
  /-- `Protobuf::Arena->new`, whose object has no magic -/
  | newArena
  | newInArena (a : ℕ) (ptr : Ptr)
  | newMessage (ptr : Ptr) (es : List (Ptr × Ptr))
  /-- a call on a wrapper that makes objects: a write, which copies messages, or a merge, or a
  read that makes an empty container -/
  | write (wrapper : ℕ) (es : List (Ptr × Ptr))
  /-- a call on a wrapper that takes `q` out of `p` -/
  | clear (wrapper : ℕ) (p q : Ptr)
  | get (wrapper : ℕ) (q : Ptr)
  /-- `$msg->arena` -/
  | arena (wrapper : ℕ)
  | dropArena (a : ℕ)
  | drop (wrapper : ℕ)
  /-- a call of the object cache itself -/
  | cacheDelete (ptr : Ptr)
  | cacheClear
  | setCapacity (capacity : ℕ)

def setObjects (h : Heap) (objects : ObjCache) : Heap :=
  { h with wrappers := { h.wrappers with objects := objects } }

def step (h : Heap) : Event → Heap
  | .newArena => h.newArena false
  | .newInArena a ptr => (h.newInArena a ptr).2
  | .newMessage ptr es => (h.newMessage ptr es).2
  | .write wrapper es => h.build (h.arenaSv wrapper) es
  | .clear _ p q => { h with fields := Function.update h.fields p ((h.fields p).erase q) }
  | .get wrapper q => (h.get wrapper q).2
  | .arena wrapper => { h with held := h.arenaSv wrapper :: h.held }
  | .dropArena a => h.dropArena a
  | .drop wrapper => h.drop wrapper
  | .cacheDelete ptr => h.setObjects (h.wrappers.objects.delete ptr)
  | .cacheClear => h.setObjects h.wrappers.objects.clear
  | .setCapacity capacity => h.setObjects (h.wrappers.objects.setCapacity capacity)

def init (capacity : ℕ) : Heap :=
  ⟨Wrappers.init capacity, fun _ => 0, [], fun _ => none, fun _ => [], [], 0⟩

/-! ### What is asked of the calls, and what they keep -/

/-- A way through fields. -/
def Reaches (h : Heap) : Ptr → Ptr → Prop :=
  Relation.ReflTransGen fun p q => q ∈ h.fields p

/-- `upb_Arena_Malloc` gives a place where nothing is. -/
def Free (h : Heap) (ptr : Ptr) : Prop := ptr ≠ 0 ∧ h.arena ptr = none

/-- Each new object is at a free place, and stored somewhere below `root`. -/
def Builds (root : Ptr) (a : ℕ) : Heap → List (Ptr × Ptr) → Prop :=
  Allowed (fun h e => h.store a e.1 e.2) fun h e => h.Reaches root e.1 ∧ h.Free e.2

/-- A call is made on a wrapper that is alive, and gets at what is below its object. -/
def Sound (h : Heap) : Event → Prop
  | .newInArena a ptr => a ∈ h.held ∧ h.Free ptr
  | .newMessage ptr es =>
      h.Free ptr ∧ Builds ptr h.arenas ((h.newArena true).alloc h.arenas ptr) es
  | .write wrapper es => ∃ r, (wrapper, r) ∈ h.wrappers.live ∧ Builds r (h.arenaSv wrapper) h es
  | .clear wrapper p _ => ∃ r, (wrapper, r) ∈ h.wrappers.live ∧ h.Reaches r p
  | .get wrapper q => ∃ p, (wrapper, p) ∈ h.wrappers.live ∧ q ∈ h.fields p
  | .arena wrapper => ∃ p, (wrapper, p) ∈ h.wrappers.live
  | .dropArena a => a ∈ h.held
  | _ => True

/-- No wrapper dangles, none is stale, and nothing leaks. -/
structure MemorySafe (h : Heap) : Prop where
  /-- all that is below a wrapper's object is in the arena that the wrapper keeps -/
  reached : ∀ w p q, (w, p) ∈ h.wrappers.live → h.Reaches p q → h.arena q = some (h.arenaSv w)
  /-- what a read returns stands for the object read, and keeps its arena -/
  got : ∀ w p q, (w, p) ∈ h.wrappers.live → q ∈ h.fields p →
    ∃ v, (h.get w q).1 = some v ∧ (v, q) ∈ (h.get w q).2.wrappers.live ∧
      (h.get w q).2.arenaSv v = h.arenaSv w
  /-- a message gets a wrapper of its own, also where there was another message -/
  made : ∀ ptr es, h.Sound (.newMessage ptr es) →
    (h.newMessage ptr es).1 = some h.wrappers.next ∧ ∀ p, (h.wrappers.next, p) ∉ h.wrappers.live
  /-- what is allocated in an arena with the magic is still referred to -/
  used : ∀ p a, h.arena p = some a → a ∈ h.magic → h.Used a

/-- The invariant, apart from leaks. -/
structure Inv (h : Heap) : Prop where
  names : (Assoc.keys h.wrappers.live).Nodup
  fresh : ∀ w p, (w, p) ∈ h.wrappers.live → w < h.wrappers.next
  /-- the cache has wrappers that are alive, under their own pointers -/
  cached_live : ∀ w p, h.wrappers.Cached w p → (w, p) ∈ h.wrappers.live
  owned : ∀ w p, (w, p) ∈ h.wrappers.live → h.arena p = some (h.arenaSv w)
  /-- fields do not lead out of an arena -/
  closed : ∀ p q a, h.arena p = some a → q ∈ h.fields p → h.arena q = some a
  nonnull : ∀ p a, h.arena p = some a → p ≠ 0
  numbered : ∀ p a, h.arena p = some a → a < h.arenas
  held_lt : ∀ a ∈ h.held, a < h.arenas

/-- What is in an arena with the magic is referred to, except for this arena. -/
def UsedBut (h : Heap) (but : Option ℕ) : Prop :=
  ∀ p a, h.arena p = some a → a ∈ h.magic → some a ≠ but → h.Used a

variable {h : Heap}

theorem Inv.reached (hinv : h.Inv) {p q : Ptr} {a : ℕ} (hp : h.arena p = some a)
    (hreach : h.Reaches p q) : h.arena q = some a := by
  induction hreach with
  | refl => exact hp
  | tail _ hstep ih => exact hinv.closed _ _ a ih hstep

/-! ### Allocation -/

theorem arena_alloc (h : Heap) (a : ℕ) (ptr p : Ptr) :
    (h.alloc a ptr).arena p = if p = ptr then some a else h.arena p :=
  Function.update_apply h.arena ptr (some a) p

/-- What is allocated stays where it is. -/
theorem arena_alloc_of_some {a b : ℕ} {ptr p : Ptr} (hfree : h.Free ptr)
    (hp : h.arena p = some b) : (h.alloc a ptr).arena p = some b := by
  rw [arena_alloc, if_neg, hp]
  rintro rfl
  rw [hfree.2] at hp
  cases hp

theorem Inv.alloc (hinv : h.Inv) {a : ℕ} {ptr : Ptr} (ha : a < h.arenas) (hfree : h.Free ptr) :
    (h.alloc a ptr).Inv := by
  refine ⟨hinv.names, hinv.fresh, hinv.cached_live, ?_, ?_, ?_, ?_, hinv.held_lt⟩
  · intro w p hlive
    exact arena_alloc_of_some hfree (hinv.owned w p hlive)
  · intro p q b hp hq
    have hfields : q ∈ if p = ptr then [] else h.fields p := by
      simpa [Heap.alloc, Function.update_apply] using hq
    split at hfields
    · exact absurd hfields List.not_mem_nil
    · rename_i hne
      rw [arena_alloc, if_neg hne] at hp
      exact arena_alloc_of_some hfree (hinv.closed p q b hp hfields)
  · intro p b hp
    rw [arena_alloc] at hp
    split at hp
    · rename_i hptr
      exact hptr ▸ hfree.1
    · exact hinv.nonnull p b hp
  · intro p b hp
    rw [arena_alloc] at hp
    split at hp
    · exact Option.some.inj hp ▸ ha
    · exact hinv.numbered p b hp

/-- Other fields of an object, which do not lead out of its arena. -/
theorem Inv.setFields (hinv : h.Inv) {p : Ptr} {qs : List Ptr}
    (hqs : ∀ q ∈ qs, ∀ a, h.arena p = some a → h.arena q = some a) :
    Inv { h with fields := Function.update h.fields p qs } := by
  refine ⟨hinv.names, hinv.fresh, hinv.cached_live, hinv.owned, ?_, hinv.nonnull, hinv.numbered,
    hinv.held_lt⟩
  intro r q b hr hq
  by_cases hrp : r = p
  · subst hrp
    exact hqs q (by simpa using hq) b hr
  · exact hinv.closed r q b hr (by simpa [hrp] using hq)

theorem Inv.store (hinv : h.Inv) {a : ℕ} {p q : Ptr} (hp : h.arena p = some a)
    (hq : h.Free q) : (h.store a p q).Inv := by
  have halloc := hinv.alloc (hinv.numbered p a hp) hq
  have hp' := arena_alloc_of_some (a := a) hq hp
  refine halloc.setFields fun r hr b hb => ?_
  rcases List.mem_cons.mp hr with rfl | hr
  · rw [arena_alloc, if_pos rfl]
    exact hp'.symm.trans hb
  · exact halloc.closed p r b hb hr

/-- The part of a heap that allocation leaves alone. -/
structure SameRefs (h h' : Heap) : Prop where
  wrappers : h'.wrappers = h.wrappers
  arenaSv : h'.arenaSv = h.arenaSv
  held : h'.held = h.held
  magic : h'.magic = h.magic
  arenas : h'.arenas = h.arenas

theorem SameRefs.used {h h' : Heap} (hsame : SameRefs h h') (a : ℕ) : h'.Used a ↔ h.Used a := by
  rw [Used, Used, hsame.wrappers, hsame.arenaSv, hsame.held]

theorem sameRefs_build (h : Heap) (a : ℕ) (es : List (Ptr × Ptr)) : SameRefs h (h.build a es) := by
  induction es generalizing h with
  | nil => exact ⟨rfl, rfl, rfl, rfl, rfl⟩
  | cons e es ih =>
      obtain ⟨hw, ha, hh, hm, hn⟩ := ih (h.store a e.1 e.2)
      exact ⟨hw, ha, hh, hm, hn⟩

/-- What is built below an object of an arena is in that arena, and nothing else is new. -/
theorem Inv.build (hinv : h.Inv) {root : Ptr} {a : ℕ} {es : List (Ptr × Ptr)}
    (hroot : h.arena root = some a) (hbuilds : Builds root a h es) :
    (h.build a es).Inv ∧ (h.build a es).arena root = some a ∧
      ∀ p b, (h.build a es).arena p = some b → h.arena p = some b ∨ b = a := by
  induction es generalizing h with
  | nil => exact ⟨hinv, hroot, fun p b hp => .inl hp⟩
  | cons e es ih =>
      obtain ⟨⟨hreach, hfree⟩, hbuilds⟩ := hbuilds
      have hp := hinv.reached hroot hreach
      have hstep := ih (hinv.store hp hfree) (arena_alloc_of_some hfree hroot) hbuilds
      refine ⟨hstep.1, hstep.2.1, fun p b hpb => ?_⟩
      rcases hstep.2.2 p b hpb with hold | hnew
      · rw [show (h.store a e.1 e.2).arena p = _ from arena_alloc h a e.2 p] at hold
        split at hold
        · exact .inr (Option.some.inj hold).symm
        · exact .inl hold
      · exact .inr hnew

/-! ### Wrappers -/

/-- Adding an entry leaves no entry that was not there. -/
theorem find_evict {capacity : ℕ} {cache : List (Ptr × Option ℕ)} {lru : List Ptr} {q : Ptr}
    {r : Option ℕ} (hfind : Assoc.find (ObjCache.evict capacity cache lru).1 q = some r) :
    Assoc.find cache q = some r := by
  induction lru generalizing cache with
  | nil => exact hfind
  | cons key lru ih =>
      rw [ObjCache.evict] at hfind
      split at hfind
      · have hdelete := ih hfind
        rw [Assoc.find_delete] at hdelete
        split at hdelete
        · cases hdelete
        · exact hdelete
      · exact hfind

/-- What is cached behind a miss. -/
theorem cached_after_miss {s : Wrappers} {c : ObjCache} {ptr q : Ptr} {w : ℕ} (hptr : ptr ≠ 0)
    (hget : s.objects.get ptr = (none, c))
    (hfind : Assoc.find (c.add ptr (some s.next)).cache q = some (some w)) :
    q = ptr ∧ w = s.next ∨ s.Cached w q := by
  rw [ObjCache.add, if_neg hptr] at hfind
  have hstore := find_evict hfind
  rw [Assoc.find_store] at hstore
  split at hstore
  · rename_i hq
    exact .inl ⟨hq, by simpa using hstore.symm⟩
  · rename_i hq
    exact .inr (((ObjCache.get_eq_none hget).2.2 q hq).symm.trans hstore)

/-- What a wrap returns, and what it leaves alone. -/
structure Wraps (h : Heap) (ptr : Ptr) (a v : ℕ) : Prop where
  inv : (h.wrap ptr a).2.Inv
  result : (h.wrap ptr a).1 = some v
  live : (v, ptr) ∈ (h.wrap ptr a).2.wrappers.live
  arenaSv : (h.wrap ptr a).2.arenaSv v = a
  used : ∀ b, h.Used b → (h.wrap ptr a).2.Used b
  /-- the wrapper is new, or was there -/
  new_or_old : v = h.wrappers.next ∨ (v, ptr) ∈ h.wrappers.live

theorem Inv.wrap (hinv : h.Inv) {ptr : Ptr} {a : ℕ} (hptr : h.arena ptr = some a) :
    ∃ v, h.Wraps ptr a v := by
  have hne := hinv.nonnull ptr a hptr
  rcases Wrappers.wrap_cases h.wrappers hne with ⟨v, hcached, hwrap⟩ | ⟨c, hget, hwrap⟩
  · -- a wrapper from the cache is alive, so that what is at its place is what it stands for
    have hlive := hinv.cached_live v ptr hcached
    have hsv : h.arenaSv v = a := by
      have howned := hinv.owned v ptr hlive
      rw [hptr] at howned
      exact (Option.some.inj howned).symm
    have hheap : h.wrap ptr a =
        (some v, { h with wrappers := { h.wrappers with wraps := ptr :: h.wrappers.wraps } }) := by
      rw [Heap.wrap, hwrap]
      simp
    refine ⟨v, ?_, by rw [hheap], ?_, ?_, ?_, .inr hlive⟩
    · rw [hheap]
      exact ⟨hinv.names, hinv.fresh, hinv.cached_live, hinv.owned, hinv.closed, hinv.nonnull,
        hinv.numbered, hinv.held_lt⟩
    · rw [hheap]
      exact hlive
    · rw [hheap]
      exact hsv
    · intro b hb
      rw [hheap]
      exact hb
  · let v := h.wrappers.next
    let live' := (v, ptr) :: h.wrappers.live
    have hheap : h.wrap ptr a = (some v, { h with
        wrappers := ⟨c.add ptr (some v), live', v + 1, ptr :: h.wrappers.wraps⟩
        arenaSv := Function.update h.arenaSv v a }) := by
      rw [Heap.wrap, hwrap]
      simp [v, live']
    have hold : ∀ w p, (w, p) ∈ h.wrappers.live → Function.update h.arenaSv v a w = h.arenaSv w :=
      fun w p hlive => Function.update_of_ne (Nat.ne_of_lt (hinv.fresh w p hlive)) a h.arenaSv
    refine ⟨v, ?_, by rw [hheap], ?_, ?_, ?_, .inl rfl⟩
    · rw [hheap]
      refine ⟨?_, ?_, ?_, ?_, hinv.closed, hinv.nonnull, hinv.numbered, hinv.held_lt⟩
      · refine List.nodup_cons.mpr ⟨?_, hinv.names⟩
        intro hmem
        obtain ⟨⟨w, p⟩, hlive, hw⟩ := List.mem_map.mp hmem
        exact absurd hw (Nat.ne_of_lt (hinv.fresh w p hlive))
      · intro w p hlive
        rcases List.mem_cons.mp hlive with heq | hlive
        · exact (Prod.mk.inj heq).1 ▸ Nat.lt_succ_self v
        · exact Nat.lt_succ_of_lt (hinv.fresh w p hlive)
      · intro w p hcached
        rcases cached_after_miss hne hget hcached with ⟨rfl, rfl⟩ | hcached
        · exact List.mem_cons_self
        · exact List.mem_cons_of_mem _ (hinv.cached_live w p hcached)
      · intro w p hlive
        rcases List.mem_cons.mp hlive with heq | hlive
        · obtain ⟨rfl, rfl⟩ := Prod.mk.inj heq
          exact hptr.trans (congrArg some (Function.update_self v a h.arenaSv).symm)
        · exact (hinv.owned w p hlive).trans (congrArg some (hold w p hlive).symm)
    · rw [hheap]
      exact List.mem_cons_self
    · rw [hheap]
      exact Function.update_self v a h.arenaSv
    · intro b hb
      rw [hheap]
      rcases hb with hheld | ⟨e, hlive, hsv⟩
      · exact .inl hheld
      · exact .inr ⟨e, List.mem_cons_of_mem _ hlive, (hold e.1 e.2 hlive).trans hsv⟩

/-! ### The end of references -/

/-- An arena that nothing refers to can go: no wrapper is in it. -/
theorem Inv.release (hinv : h.Inv) (a : ℕ) : (h.release a).Inv := by
  rw [Heap.release]
  split
  · exact hinv
  · rename_i hgone
    have hunused : ¬ h.Used a := fun hused => hgone (.inl hused)
    have hkept : ∀ {p b}, (if h.arena p = some a then none else h.arena p) = some b →
        h.arena p = some b ∧ b ≠ a := by
      intro p b hp
      split at hp
      · cases hp
      · rename_i hne
        refine ⟨hp, ?_⟩
        rintro rfl
        exact hne hp
    refine ⟨hinv.names, hinv.fresh, hinv.cached_live, ?_, ?_, ?_, ?_, hinv.held_lt⟩
    · intro w p hlive
      have hp := hinv.owned w p hlive
      have hne : h.arenaSv w ≠ a := fun hsv => hunused (.inr ⟨(w, p), hlive, hsv⟩)
      simp [hp, hne]
    · intro p q b hp hq
      obtain ⟨hp, hne⟩ := hkept hp
      have hq' := hinv.closed p q b hp hq
      simp [hq', hne]
    · intro p b hp
      exact hinv.nonnull p b (hkept hp).1
    · intro p b hp
      exact hinv.numbered p b (hkept hp).1

theorem UsedBut.release {a : ℕ} (hused : h.UsedBut (some a)) : (h.release a).UsedBut none := by
  intro p b hp hb _
  rw [Heap.release] at hp hb ⊢
  split at hp
  · rename_i hkeep
    rw [if_pos hkeep] at hb ⊢
    by_cases hba : b = a
    · subst hba
      exact hkeep.resolve_right fun hnot => hnot hb
    · exact hused p b hp hb fun heq => hba (Option.some.inj heq)
  · rename_i hgone
    rw [if_neg hgone] at hb ⊢
    simp only at hp
    split at hp
    · cases hp
    · rename_i hne
      exact hused p b hp hb fun heq => hne (heq ▸ hp)

/-- Fewer references from elsewhere. -/
theorem Inv.eraseHeld (hinv : h.Inv) (a : ℕ) : Inv { h with held := h.held.erase a } :=
  ⟨hinv.names, hinv.fresh, hinv.cached_live, hinv.owned, hinv.closed, hinv.nonnull, hinv.numbered,
    fun b hb => hinv.held_lt b (List.mem_of_mem_erase hb)⟩

theorem UsedBut.eraseHeld {a : ℕ} (hused : h.UsedBut none) :
    UsedBut { h with held := h.held.erase a } (some a) := by
  intro p b hp hb hne
  rcases hused p b hp hb (by simp) with hheld | hlive
  · exact .inl ((List.mem_erase_of_ne fun heq => hne (congrArg some heq)).mpr hheld)
  · exact .inr hlive

/-- What is left of the wrappers after the end of one. -/
theorem mem_live_destroy {s : Wrappers} {gone w : ℕ} {p : Ptr} :
    (w, p) ∈ (s.destroy gone).live ↔ (w, p) ∈ s.live ∧ w ≠ gone := by
  rw [Wrappers.destroy]
  split
  · rename_i hnone
    refine ⟨fun hlive => ⟨hlive, ?_⟩, fun hlive => hlive.1⟩
    rintro rfl
    exact Assoc.find_eq_none_iff.mp hnone (Assoc.mem_keys_of_mem hlive)
  · exact Assoc.mem_delete

theorem cached_of_destroy {s : Wrappers} {gone w : ℕ} {p : Ptr}
    (hnonnull : ∀ w q, (w, q) ∈ s.live → q ≠ 0) (hlive : ∀ w q, s.Cached w q → (w, q) ∈ s.live)
    (hcached : (s.destroy gone).Cached w p) : s.Cached w p ∧ w ≠ gone := by
  unfold Wrappers.destroy at hcached
  split at hcached
  · rename_i hnone
    refine ⟨hcached, ?_⟩
    rintro rfl
    exact Assoc.find_eq_none_iff.mp hnone (Assoc.mem_keys_of_mem (hlive w p hcached))
  · rename_i q hfind
    have hq := hnonnull gone q (Assoc.mem_of_find hfind)
    obtain ⟨-, hne, hold⟩ := (Wrappers.cached_after hq).mp hcached
    exact ⟨hold, hne⟩

theorem next_destroy (s : Wrappers) (gone : ℕ) : (s.destroy gone).next = s.next := by
  unfold Wrappers.destroy
  split <;> rfl

theorem names_destroy {s : Wrappers} (hnames : (Assoc.keys s.live).Nodup) (gone : ℕ) :
    (Assoc.keys (s.destroy gone).live).Nodup := by
  unfold Wrappers.destroy
  split
  · exact hnames
  · rw [Assoc.keys_delete]
    exact hnames.filter _

theorem Inv.destroy (hinv : h.Inv) (gone : ℕ) :
    Inv { h with wrappers := h.wrappers.destroy gone } := by
  have hnonnull : ∀ w q, (w, q) ∈ h.wrappers.live → q ≠ 0 :=
    fun w q hlive => hinv.nonnull q _ (hinv.owned w q hlive)
  refine ⟨names_destroy hinv.names gone, ?_, ?_, ?_, hinv.closed, hinv.nonnull, hinv.numbered,
    hinv.held_lt⟩
  · intro w p hlive
    rw [next_destroy]
    exact hinv.fresh w p (mem_live_destroy.mp hlive).1
  · intro w p hcached
    obtain ⟨hcached, hne⟩ := cached_of_destroy hnonnull hinv.cached_live hcached
    exact mem_live_destroy.mpr ⟨hinv.cached_live w p hcached, hne⟩
  · intro w p hlive
    exact hinv.owned w p (mem_live_destroy.mp hlive).1

theorem UsedBut.destroy (hused : h.UsedBut none) (gone : ℕ) :
    UsedBut { h with wrappers := h.wrappers.destroy gone } (some (h.arenaSv gone)) := by
  intro p b hp hb hne
  rcases hused p b hp hb (by simp) with hheld | ⟨e, hlive, hsv⟩
  · exact .inl hheld
  · refine .inr ⟨e, mem_live_destroy.mpr ⟨hlive, ?_⟩, hsv⟩
    rintro rfl
    exact hne (congrArg some hsv.symm)

theorem UsedBut.wrap {ptr : Ptr} {a v : ℕ} {but : Option ℕ} (hused : h.UsedBut but)
    (hwraps : h.Wraps ptr a v) : (h.wrap ptr a).2.UsedBut but :=
  fun p b hp hb hne => hwraps.used b (hused p b hp hb hne)

/-! ### Events -/

theorem UsedBut.grow {h' : Heap} {a : ℕ} (hused : h.UsedBut none) (hsame : SameRefs h h')
    (ha : h.Used a) (hnew : ∀ p b, h'.arena p = some b → h.arena p = some b ∨ b = a) :
    h'.UsedBut none := by
  intro p b hp hb _
  refine (hsame.used b).mpr ?_
  rcases hnew p b hp with hold | rfl
  · exact hused p b hold (hsame.magic ▸ hb) (by simp)
  · exact ha

theorem arena_alloc_new (h : Heap) (a : ℕ) (ptr : Ptr) (p : Ptr) (b : ℕ)
    (hp : (h.alloc a ptr).arena p = some b) : h.arena p = some b ∨ b = a := by
  rw [arena_alloc] at hp
  split at hp
  · exact .inr (Option.some.inj hp).symm
  · exact .inl hp

theorem Inv.newArena (hinv : h.Inv) (magic : Bool) : (h.newArena magic).Inv := by
  refine ⟨hinv.names, hinv.fresh, hinv.cached_live, hinv.owned, hinv.closed, hinv.nonnull, ?_, ?_⟩
  · exact fun p a hp => Nat.lt_succ_of_lt (hinv.numbered p a hp)
  · intro a ha
    rcases List.mem_cons.mp ha with rfl | ha
    · exact Nat.lt_succ_self _
    · exact Nat.lt_succ_of_lt (hinv.held_lt a ha)

theorem UsedBut.newArena (hinv : h.Inv) (hused : h.UsedBut none) (magic : Bool) :
    (h.newArena magic).UsedBut none := by
  intro p b hp hb _
  have hlt := hinv.numbered p b hp
  have hb' : b ∈ h.magic := by
    cases magic with
    | false => exact hb
    | true => exact (List.mem_cons.mp hb).resolve_left (Nat.ne_of_lt hlt)
  rcases hused p b hp hb' (by simp) with hheld | hlive
  · exact .inl (List.mem_cons_of_mem _ hheld)
  · exact .inr hlive

/-- A message in an arena that is referred to gets a new wrapper. -/
theorem Inv.newInArena (hinv : h.Inv) (hused : h.UsedBut none) {a : ℕ} {ptr : Ptr}
    (ha : a ∈ h.held) (hfree : h.Free ptr) :
    (h.newInArena a ptr).2.Inv ∧ (h.newInArena a ptr).2.UsedBut none := by
  have halloc := hinv.alloc (hinv.held_lt a ha) hfree
  have hptr : (h.alloc a ptr).arena ptr = some a := by rw [arena_alloc, if_pos rfl]
  obtain ⟨v, hwraps⟩ := halloc.wrap hptr
  refine ⟨hwraps.inv, UsedBut.wrap ?_ hwraps⟩
  exact hused.grow ⟨rfl, rfl, rfl, rfl, rfl⟩ (.inl ha) (arena_alloc_new h a ptr)

theorem Inv.newMessage (hinv : h.Inv) (hused : h.UsedBut none) {ptr : Ptr}
    {es : List (Ptr × Ptr)} (hs : h.Sound (.newMessage ptr es)) :
    (h.newMessage ptr es).2.Inv ∧ (h.newMessage ptr es).2.UsedBut none ∧
      (h.newMessage ptr es).1 = some h.wrappers.next := by
  obtain ⟨hfree, hbuilds⟩ := hs
  let a := h.arenas
  let h₁ := (h.newArena true).alloc a ptr
  have hinv₁ : h₁.Inv := (hinv.newArena true).alloc (Nat.lt_succ_self a) hfree
  have hptr : h₁.arena ptr = some a := by rw [arena_alloc, if_pos rfl]
  have hheld : (h.newArena true).Used a := .inl List.mem_cons_self
  have hused₁ : h₁.UsedBut none :=
    (UsedBut.newArena hinv hused true).grow ⟨rfl, rfl, rfl, rfl, rfl⟩ hheld (arena_alloc_new _ a ptr)
  obtain ⟨hinv₂, hptr₂, hnew⟩ := hinv₁.build hptr hbuilds
  have hsame := sameRefs_build h₁ a es
  have hused₂ := hused₁.grow hsame (.inl List.mem_cons_self) hnew
  obtain ⟨v, hwraps⟩ := hinv₂.wrap hptr₂
  refine ⟨(hwraps.inv.eraseHeld a).release a, (hused₂.wrap hwraps).eraseHeld.release, ?_⟩
  have hresult : (h.newMessage ptr es).1 = some v := hwraps.result
  -- a wrapper that was there before would have kept the place from being free
  rcases hwraps.new_or_old with rfl | hold
  · rw [hresult, hsame.wrappers]
    rfl
  · have howned := hinv.owned v ptr (hsame.wrappers ▸ hold)
    rw [hfree.2] at howned
    cases howned

/-- One event keeps the invariant. -/
theorem Inv.step (hinv : h.Inv) (hused : h.UsedBut none) (e : Event) (hs : h.Sound e) :
    (h.step e).Inv ∧ (h.step e).UsedBut none := by
  cases e with
  | newArena => exact ⟨hinv.newArena false, UsedBut.newArena hinv hused false⟩
  | newInArena a ptr => exact hinv.newInArena hused hs.1 hs.2
  | newMessage ptr es =>
      obtain ⟨hinv', hused', -⟩ := hinv.newMessage hused hs
      exact ⟨hinv', hused'⟩
  | write w es =>
      obtain ⟨r, hlive, hbuilds⟩ := hs
      obtain ⟨hinv', -, hnew⟩ := hinv.build (hinv.owned w r hlive) hbuilds
      exact ⟨hinv', hused.grow (sameRefs_build h _ es) (.inr ⟨(w, r), hlive, rfl⟩) hnew⟩
  | clear w p q =>
      refine ⟨hinv.setFields fun r hr a ha => ?_, hused⟩
      exact hinv.closed p r a ha (List.mem_of_mem_erase hr)
  | get w q =>
      obtain ⟨p, hlive, hq⟩ := hs
      obtain ⟨v, hwraps⟩ := hinv.wrap (hinv.closed p q _ (hinv.owned w p hlive) hq)
      exact ⟨hwraps.inv, hused.wrap hwraps⟩
  | arena w =>
      obtain ⟨p, hlive⟩ := hs
      refine ⟨⟨hinv.names, hinv.fresh, hinv.cached_live, hinv.owned, hinv.closed, hinv.nonnull,
        hinv.numbered, fun b hb => ?_⟩, fun p b hp hb hne => ?_⟩
      · rcases List.mem_cons.mp hb with rfl | hb
        · exact hinv.numbered p _ (hinv.owned w p hlive)
        · exact hinv.held_lt b hb
      · exact (hused p b hp hb hne).imp_left (List.mem_cons_of_mem _)
  | dropArena a => exact ⟨(hinv.eraseHeld a).release a, hused.eraseHeld.release⟩
  | drop w => exact ⟨(hinv.destroy w).release _, (hused.destroy w).release⟩
  | cacheDelete ptr =>
      refine ⟨⟨hinv.names, hinv.fresh, fun w p hcached => hinv.cached_live w p ?_, hinv.owned,
        hinv.closed, hinv.nonnull, hinv.numbered, hinv.held_lt⟩, hused⟩
      have hfind : Assoc.find (h.wrappers.objects.delete ptr).cache p = some (some w) := hcached
      rw [ObjCache.delete] at hfind
      split at hfind
      · exact hfind
      · rw [Assoc.find_delete] at hfind
        split at hfind
        · cases hfind
        · exact hfind
  | cacheClear =>
      refine ⟨⟨hinv.names, hinv.fresh, fun w p hcached => ?_, hinv.owned, hinv.closed, hinv.nonnull,
        hinv.numbered, hinv.held_lt⟩, hused⟩
      cases hcached
  | setCapacity capacity =>
      exact ⟨⟨hinv.names, hinv.fresh, hinv.cached_live, hinv.owned, hinv.closed, hinv.nonnull,
        hinv.numbered, hinv.held_lt⟩, hused⟩

theorem inv_init (capacity : ℕ) : (init capacity).Inv where
  names := List.nodup_nil
  fresh _ _ hlive := absurd hlive List.not_mem_nil
  cached_live _ _ hcached := by cases hcached
  owned _ _ hlive := absurd hlive List.not_mem_nil
  closed _ _ _ hp := by cases hp
  nonnull _ _ hp := by cases hp
  numbered _ _ hp := by cases hp
  held_lt _ ha := absurd ha List.not_mem_nil

theorem Inv.memorySafe (hinv : h.Inv) (hused : h.UsedBut none) : h.MemorySafe where
  reached w p q hlive hreach := hinv.reached (hinv.owned w p hlive) hreach
  got w p q hlive hq := by
    obtain ⟨v, hwraps⟩ := hinv.wrap (hinv.closed p q _ (hinv.owned w p hlive) hq)
    exact ⟨v, hwraps.result, hwraps.live, hwraps.arenaSv⟩
  made ptr es hs := by
    obtain ⟨-, -, hresult⟩ := hinv.newMessage hused hs
    exact ⟨hresult, fun p hlive => absurd (hinv.fresh _ p hlive) (Nat.lt_irrefl _)⟩
  used p a hp ha := hused p a hp ha (by simp)

end Heap

end GooglePerl.Xs
