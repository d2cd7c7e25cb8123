import GooglePerl.Protobuf.Repeated
import GooglePerl.Xs.Repeated

/-!
Repeated fields of both engines next to ordinary Perl arrays.
-/

namespace GooglePerl

open GooglePerl.Lib GooglePerl.Protobuf GooglePerl.Xs

/-- The container of a repeated field. -/
inductive RepeatedContainer where
  | purePerl (S : Pool) (f : FieldDef) (kind : ArrKind)
  | xs (R : RepeatedField)

namespace RepeatedContainer

def array : RepeatedContainer → ArrayLike
  | .purePerl S f kind => container S f kind
  | .xs R => R.array

/-- The operations in which the class does what it is asked for: pure Perl forgets the
rest when `splice` is not given a length, XS has no slot past the end. -/
def Fits : (C : RepeatedContainer) → C.array.σ → ArrayOp C.array.V → Prop
  | .purePerl _ _ kind => RestKept kind
  | .xs R => R.Fits

theorem step_of_fits (C : RepeatedContainer) {s : C.array.σ} {op : ArrayOp C.array.V}
    (hlegal : C.array.Legal s op) (hfits : C.Fits s op) :
    (C.array.view (C.array.step s op).1, (C.array.step s op).2) =
      (op.map C.array.accepted).apply C.array.undef (C.array.view s) := by
  cases C with
  | purePerl S f kind => exact container_step hlegal hfits
  | xs R => exact R.array_step hlegal hfits

/-- In a run of legal operations that fit, the container cannot be told from an
ordinary array. -/
theorem behavesAsArray_of_fits (C : RepeatedContainer) (s : C.array.σ)
    (ops : List (ArrayOp C.array.V))
    (h : Allowed (logged C.array.step) (fun s op => C.array.Legal s.1 op ∧ C.Fits s.1 op)
      (s, []) ops) : C.array.BehavesAsArray s ops :=
  C.array.behavesAsArray_of_step (P := fun s op => C.array.Legal s op ∧ C.Fits s op)
    (fun _ _ hop => C.step_of_fits hop.1 hop.2) h

/-- `repeated bool flags = 1` in the XS engine. -/
def flags : RepeatedContainer :=
  .xs { pool := scalarPool
        address := fun _ => 0
        fdef := ⟨ps "flags", 1, .bool, .repeated⟩
        shape_eq := rfl
        enum_range := fun _ h => by cases h
        fresh := zeroElement .bool }

/-- `repeated int32 counts = 1` in the pure-Perl engine, where the check passes
integers. -/
def counts : RepeatedContainer :=
  .purePerl
    { descriptor := fun _ => .empty
      checkItem := fun _ v => match v with
        | .iv n => if -2 ^ 31 ≤ n ∧ n < 2 ^ 31 then some (.iv n) else none
        | _ => none }
    ⟨ps "counts", 1, .int32, .repeated⟩ .tied

theorem behavesAsArray_of_push_splice :
    flags.array.BehavesAsArray []
        [.push [.scalar (.iv 1), .scalar (.iv 0)], .splice (.range 0 1 []), .fetch (-1)] ∧
      counts.array.BehavesAsArray []
        [.push [.iv 1, .iv 2, .iv 3], .splice (.range (-2) 1 []), .unshift [.iv 7], .pop] := by
  refine ⟨behavesAsArray_of_fits flags _ _ ?_, behavesAsArray_of_fits counts _ _ ?_⟩
  · have hpush : ∀ v ∈ [Sv.scalar (.iv 1), Sv.scalar (.iv 0)],
        (flags.array.accept v).isSome = true :=
      List.forall_mem_cons.mpr ⟨rfl, List.forall_mem_cons.mpr ⟨rfl, List.forall_mem_nil _⟩⟩
    refine ⟨⟨⟨hpush, trivial⟩, trivial⟩, ⟨⟨List.forall_mem_nil _, trivial⟩, ?_⟩,
      ⟨⟨List.forall_mem_nil _, trivial⟩, trivial⟩, trivial⟩
    exact ⟨by decide, by decide, by decide, fun _ => List.forall_mem_cons.mpr
      ⟨trivial, List.forall_mem_nil _⟩⟩
  · have hpush : ∀ v ∈ [Val.iv 1, Val.iv 2, Val.iv 3], (counts.array.accept v).isSome = true :=
      List.forall_mem_cons.mpr ⟨rfl, List.forall_mem_cons.mpr
        ⟨rfl, List.forall_mem_cons.mpr ⟨rfl, List.forall_mem_nil _⟩⟩⟩
    exact ⟨⟨⟨hpush, trivial⟩, trivial⟩, ⟨⟨List.forall_mem_nil _, trivial⟩, trivial⟩,
      ⟨⟨List.forall_mem_cons.mpr ⟨rfl, List.forall_mem_nil _⟩, trivial⟩, trivial⟩,
      ⟨⟨List.forall_mem_nil _, trivial⟩, trivial⟩, trivial⟩

/-- `$flags->[0] = 1` on an empty field dies in the XS engine, and
`splice(@$counts, 1)` leaves everything in the pure-Perl engine. -/
theorem behavesAsArray_fails :
    (Allowed (logged flags.array.step) (fun s op => flags.array.Legal s.1 op) ([], [])
        [.store 0 (Sv.scalar (.iv 1))] ∧
      ¬ flags.array.BehavesAsArray [] [.store 0 (Sv.scalar (.iv 1))]) ∧
    (Allowed (logged counts.array.step) (fun s op => counts.array.Legal s.1 op)
        ([Val.iv 1, Val.iv 2, Val.iv 3], []) [.splice (.offset 1)] ∧
      ¬ counts.array.BehavesAsArray [Val.iv 1, Val.iv 2, Val.iv 3] [.splice (.offset 1)]) := by
  refine ⟨⟨?_, ?_⟩, ?_, ?_⟩
  · exact ⟨⟨List.forall_mem_cons.mpr ⟨rfl, List.forall_mem_nil _⟩, Int.le_refl 0⟩, trivial⟩
  · rintro ⟨-, hreplies⟩
    cases hreplies
  · exact ⟨⟨List.forall_mem_nil _, trivial⟩, trivial⟩
  · rintro ⟨-, hreplies⟩
    cases hreplies

end RepeatedContainer

end GooglePerl
