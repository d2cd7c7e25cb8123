import Mathlib.Algebra.BigOperators.Group.List.Basic
import Mathlib.Algebra.GroupWithZero.Nat
import Mathlib.Order.Interval.Finset.Nat

/-!
Stretches of memory: a start and a size.

A heap is a list of blocks that lie apart; together they are no larger than the space they lie
in (`sum_size_le`).
-/

namespace GooglePerl.Lib

/-- Addresses and sizes have 64 bits. -/
def sizeMod : ℕ := 2 ^ 64

structure Extent where
  start : ℕ
  size : ℕ
  deriving DecidableEq, Repr

namespace Extent

/-- The first address behind the stretch. -/
def stop (e : Extent) : ℕ := e.start + e.size

/-- No address in common. -/
def Apart (a b : Extent) : Prop := a.stop ≤ b.start ∨ b.stop ≤ a.start

/-- All addresses of the one are addresses of the other. -/
def Inside (a b : Extent) : Prop := b.start ≤ a.start ∧ a.stop ≤ b.stop

instance : DecidableRel Apart := fun _ _ => inferInstanceAs (Decidable (_ ∨ _))

instance : DecidableRel Inside := fun _ _ => inferInstanceAs (Decidable (_ ∧ _))

theorem Apart.symm {a b : Extent} (h : a.Apart b) : b.Apart a := Or.symm h

instance : Std.Symm Apart := ⟨fun _ _ h => h.symm⟩

theorem Apart.mono {a b c : Extent} (h : b.Apart c) (hab : a.Inside b) : a.Apart c :=
  h.imp (fun h => hab.2.trans h) fun h => h.trans hab.1

/-- Blocks that lie apart and are not empty do not start at one address. -/
theorem Apart.start_ne {a b : Extent} (h : a.Apart b) (ha : 0 < a.size) (hb : 0 < b.size) :
    a.start ≠ b.start := by
  unfold Apart stop at h
  omega

/-- The addresses of a list of stretches. -/
def addresses : List Extent → Finset ℕ
  | [] => ∅
  | e :: es => Finset.Ico e.start e.stop ∪ addresses es

theorem mem_addresses {es : List Extent} {x : ℕ} :
    x ∈ addresses es ↔ ∃ e ∈ es, e.start ≤ x ∧ x < e.stop := by
  induction es with
  | nil => simp [addresses]
  | cons e es ih => simp [addresses, ih]

theorem card_addresses {es : List Extent} (h : es.Pairwise Apart) :
    (addresses es).card = (es.map size).sum := by
  induction es with
  | nil => rfl
  | cons e es ih =>
      obtain ⟨he, hes⟩ := List.pairwise_cons.mp h
      have hdisjoint : Disjoint (Finset.Ico e.start e.stop) (addresses es) := by
        rw [Finset.disjoint_left]
        intro x hx hmem
        obtain ⟨b, hb, hxb⟩ := mem_addresses.mp hmem
        have hx := Finset.mem_Ico.mp hx
        rcases he b hb with hlt | hlt <;> omega
      rw [addresses, Finset.card_union_of_disjoint hdisjoint, ih hes, Nat.card_Ico, List.map_cons,
        List.sum_cons, stop, Nat.add_sub_cancel_left]

theorem sum_size_le {es : List Extent} {space : Extent} (h : es.Pairwise Apart)
    (hin : ∀ e ∈ es, e.Inside space) : (es.map size).sum ≤ space.size := by
  have hsubset : addresses es ⊆ Finset.Ico space.start space.stop := by
    intro x hx
    obtain ⟨e, he, hlow, hhigh⟩ := mem_addresses.mp hx
    obtain ⟨hstart, hstop⟩ := hin e he
    exact Finset.mem_Ico.mpr ⟨by omega, by omega⟩
  calc
    (es.map size).sum = (addresses es).card := (card_addresses h).symm
    _ ≤ (Finset.Ico space.start space.stop).card := Finset.card_le_card hsubset
    _ = space.size := by rw [Nat.card_Ico, stop, Nat.add_sub_cancel_left]

/-! ### Taking a block off a heap -/

/-- The blocks without the one at an address. -/
def freed (es : List Extent) (p : ℕ) : List Extent := es.eraseP fun e => e.start = p

/-- Only the block at the address goes. -/
theorem exists_freed {es : List Extent} {b : Extent} (h : es.Pairwise Apart)
    (hpos : ∀ e ∈ es, 0 < e.size) (hb : b ∈ es) :
    ∃ l r, es = l ++ b :: r ∧ freed es b.start = l ++ r := by
  obtain ⟨a, l, r, -, ha, hes, hfreed⟩ := List.exists_of_eraseP
    (p := fun e : Extent => e.start = b.start) hb (by simp)
  have hab : a = b := by
    by_contra hne
    have hmem : a ∈ es := by simp [hes]
    have hapart : a.Apart b := h.forall hmem hb hne
    exact hapart.start_ne (hpos a hmem) (hpos b hb) (by simpa using ha)
  exact ⟨l, r, hab ▸ hes, hfreed⟩

end Extent

end GooglePerl.Lib
