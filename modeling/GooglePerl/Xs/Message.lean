import GooglePerl.Protobuf.Value
import Mathlib.Logic.Function.Basic

/-!
`PerlUpb_Message_MergeFrom` and `PerlUpb_Message_CopyFrom` of
`xs/message/message.c`.

`Upb` stands for what they call of upb: a message type and what a message of it
holds, clearing, and the two halves of `upb_Message_MergeFrom`. A message
object is a cell of a store, so that source and destination may be one object.
-/

namespace GooglePerl.Xs

open GooglePerl.Protobuf

structure Upb where
  /-- `upb_MessageDef` -/
  Def : Type
  /-- what a `upb_Message` holds -/
  Data : Type
  /-- after `upb_Message_ClearByDef` -/
  empty : Data
  /-- `upb_Encode`, which fails on messages nested too deep -/
  encode : Def → Data → Option PerlStr
  /-- `upb_Decode` into a message that may hold something: whether it succeeded,
  and what the message holds then -/
  decode : Def → PerlStr → Data → Bool × Data
  [decEq : DecidableEq Def]

instance (U : Upb) : DecidableEq U.Def := U.decEq

/-- What the engine relies on: nothing is encoded as nothing and decoding nothing
adds nothing; what was encoded decodes into an empty message, which then encodes
to the same. -/
structure Upb.Lawful (U : Upb) : Prop where
  encode_empty : ∀ d, U.encode d U.empty = some []
  decode_nil : ∀ d x, U.decode d [] x = (true, x)
  decode_encode : ∀ d x bytes, U.encode d x = some bytes →
    ∃ y, U.decode d bytes U.empty = (true, y) ∧ U.encode d y = some bytes

/-- A message object of the XS engine. -/
structure Object (U : Upb) where
  descriptor : U.Def
  data : U.Data

variable {U : Upb}

/-- `PerlUpb_Message_MergeFrom`; an error carries the store at the time of the croak. -/
def mergeFrom (h : ℕ → Object U) (dst src : ℕ) : Except (ℕ → Object U) (ℕ → Object U) :=
  if (h dst).descriptor ≠ (h src).descriptor then .error h
  else
    match U.encode (h dst).descriptor (h src).data with
    | none => .error h
    | some buf =>
        match U.decode (h dst).descriptor buf (h dst).data with
        | (true, data) => .ok (Function.update h dst { h dst with data := data })
        | (false, data) => .error (Function.update h dst { h dst with data := data })

/-- `PerlUpb_Message_CopyFrom` -/
def copyFrom (h : ℕ → Object U) (dst src : ℕ) : Except (ℕ → Object U) (ℕ → Object U) :=
  mergeFrom (Function.update h dst { h dst with data := U.empty }) dst src

/-- A copy that succeeds makes an equal message and leaves the source alone; one
that croaks leaves the destination alone. -/
def CopyOk (h : ℕ → Object U) (dst src : ℕ) : Prop :=
  match copyFrom h dst src with
  | .ok h' => (h' dst).descriptor = (h src).descriptor ∧
      U.encode (h' dst).descriptor (h' dst).data = U.encode (h src).descriptor (h src).data ∧
      h' src = h src
  | .error h' => h' dst = h dst

/-- Copying an object to itself clears it. -/
theorem copyFrom_self (hU : U.Lawful) (h : ℕ → Object U) (r : ℕ) :
    copyFrom h r r = .ok (Function.update h r { h r with data := U.empty }) := by
  simp [copyFrom, mergeFrom, hU.encode_empty, hU.decode_nil]

theorem copyFrom_other_type {h : ℕ → Object U} {dst src : ℕ}
    (hdef : (h dst).descriptor ≠ (h src).descriptor) :
    copyFrom h dst src = .error (Function.update h dst { h dst with data := U.empty }) := by
  have hne : src ≠ dst := fun heq => hdef (by rw [heq])
  simp [copyFrom, mergeFrom, Function.update_of_ne hne, hdef]

theorem copyFrom_eq {h : ℕ → Object U} {dst src : ℕ} (hne : src ≠ dst)
    (hdef : (h dst).descriptor = (h src).descriptor) :
    copyFrom h dst src =
      match U.encode (h src).descriptor (h src).data with
      | none => .error (Function.update h dst { h dst with data := U.empty })
      | some buf =>
          match U.decode (h src).descriptor buf U.empty with
          | (true, data) => .ok (Function.update h dst { h dst with data := data })
          | (false, data) => .error (Function.update h dst { h dst with data := data }) := by
  simp [copyFrom, mergeFrom, Function.update_of_ne hne, hdef]

theorem update_empty_eq_iff (h : ℕ → Object U) (r : ℕ) :
    Function.update h r { h r with data := U.empty } r = h r ↔ (h r).data = U.empty := by
  rw [Function.update_self]
  constructor
  · intro heq
    rw [← heq]
  · intro heq
    rw [← heq]

theorem copyOk_iff (hU : U.Lawful) (h : ℕ → Object U) (dst src : ℕ) :
    CopyOk h dst src ↔ (h dst).data = U.empty ∨
      (src ≠ dst ∧ (h dst).descriptor = (h src).descriptor ∧
        U.encode (h src).descriptor (h src).data ≠ none) := by
  unfold CopyOk
  by_cases hself : src = dst
  · subst hself
    rw [copyFrom_self hU]
    simp only [update_empty_eq_iff]
    constructor
    · rintro ⟨-, -, hempty⟩
      exact .inl hempty
    · rintro (hempty | ⟨hne, -⟩)
      · exact ⟨by simp, by simp [hempty], hempty⟩
      · exact absurd rfl hne
  by_cases hdef : (h dst).descriptor = (h src).descriptor
  · rw [copyFrom_eq hself hdef]
    cases henc : U.encode (h src).descriptor (h src).data with
    | none =>
        simp only [update_empty_eq_iff]
        simp
    | some buf =>
        obtain ⟨y, hdec, hy⟩ := hU.decode_encode _ _ _ henc
        simp only [hdec]
        refine ⟨fun _ => .inr ⟨hself, hdef, by simp⟩, fun _ => ⟨by simpa using hdef, ?_, ?_⟩⟩
        · simp [hdef, hy]
        · rw [Function.update_of_ne hself]
  · rw [copyFrom_other_type hdef]
    simp only [update_empty_eq_iff]
    constructor
    · exact .inl
    · rintro (hempty | ⟨-, hsame, -⟩)
      · exact hempty
      · exact absurd hsame hdef

end GooglePerl.Xs
