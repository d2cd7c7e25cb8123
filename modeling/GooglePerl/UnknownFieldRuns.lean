import GooglePerl.Lib.Run
import GooglePerl.UnknownFieldSet

/-!
Runs of calls of `Protobuf::UnknownFieldSet`, in both engines.

A set is a list of records. The pure-Perl engine keeps them as one string, and the XS engine in
chunks whose borders depend on what the arena can extend. As long as records other than groups are
added, none of this shows: no call dies, and both engines have the bytes of the same list
(`engines_agree`).
-/

namespace GooglePerl

open GooglePerl.Lib GooglePerl.Protobuf

/-! ### The calls -/

/-- A field that is no group, and whose tag has 64 bits. -/
structure Record where
  field : WireField
  proper : Proper field
  size : field.payload.length < 2 ^ 64
  tag_lt : groupsValue field.tag < 2 ^ 64

/-- The bytes of records. -/
def recordBytes (records : List Record) : PerlStr :=
  (records.map Record.field).flatMap WireField.bytes

inductive SetCall where
  /-- `add`, and whether the arena has room behind the last chunk (`upb_Arena_TryExtend`) -/
  | add (records : List Record) (room : Bool)
  | clear
  | deleteTag (number : ℕ) (number_lt : number < 2 ^ 32)

namespace PurePerl

/-- `add`: `||= ''`, which also takes the place of a `"0"`, and `.=` -/
def add (data : PerlStr) (content : Option PerlStr) : Option PerlStr :=
  some ((content.filter fun s => s ≠ [] ∧ s ≠ ps "0").getD [] ++ data)

def setCall (content : Option PerlStr) : SetCall → Attempt (Option PerlStr) Die Unit
  | .add records _ => (.ok (), add (recordBytes records) content)
  | .clear => (.ok (), some [])
  | .deleteTag number _ => deleteTag number content

/-- `get_data` -/
def getData (content : Option PerlStr) : Option PerlStr := content

/-- `$msg->{_unknown_fields}` after a parse, which sets it at the first unknown field -/
def parsed : List Record → Option PerlStr
  | [] => none
  | r :: rs => some (recordBytes (r :: rs))

end PurePerl

namespace Xs

/-- `_upb_Message_AddUnknown`, which copies behind the last chunk if it can -/
def addUnknown (data : PerlStr) (room : Bool) (chunks : List PerlStr) : List PerlStr :=
  match chunks.getLast? with
  | some last => if room then chunks.dropLast ++ [last ++ data] else chunks ++ [data]
  | none => [data]

def setCall (chunks : List PerlStr) : SetCall → Attempt (List PerlStr) Die Unit
  | .add records room => (.ok (), addUnknown (recordBytes records) room chunks)
  | .clear => (.ok (), [])
  | .deleteTag number _ => deleteTag number chunks

/-- `PerlUpb_UnknownFieldSet_GetData` -/
def getData (chunks : List PerlStr) : PerlStr := chunks.flatten

end Xs

/-! ### What a set is -/

/-- A list of records, of which some are taken out by their number. -/
def setCall (records : List Record) : SetCall → List Record
  | .add new _ => records ++ new
  | .clear => []
  | .deleteTag number _ => records.filter fun r => tagNumber r.field.tag ≠ number

/-! ### Records and their bytes -/

theorem recordBytes_append (rs rs' : List Record) :
    recordBytes (rs ++ rs') = recordBytes rs ++ recordBytes rs' := by
  rw [recordBytes, List.map_append, List.flatMap_append]
  rfl

theorem flatten_map_recordBytes (groups : List (List Record)) :
    (groups.map recordBytes).flatten = recordBytes groups.flatten := by
  induction groups with
  | nil => rfl
  | cons g groups ih => rw [List.map_cons, List.flatten_cons, List.flatten_cons, ih,
      recordBytes_append]

theorem Record.plain (r : Record) : Plain r.field := ⟨r.proper.tag, r.proper.payload.plain r.size⟩

theorem recordBytes_eq_nil_iff {rs : List Record} : recordBytes rs = [] ↔ rs = [] := by
  cases rs with
  | nil => exact ⟨fun _ => rfl, fun _ => rfl⟩
  | cons r rs =>
      have hpos := r.plain.wellFormed.length_pos
      simp only [recordBytes, List.map_cons, List.flatMap_cons, List.append_eq_nil_iff, reduceCtorEq,
        iff_false, not_and]
      intro hnil
      rw [hnil] at hpos
      exact absurd hpos (Nat.lt_irrefl 0)

/-- A zero is a tag without a payload. -/
theorem recordBytes_ne_zero (rs : List Record) : recordBytes rs ≠ ps "0" := by
  intro h
  cases rs with
  | nil => cases h
  | cons r rs =>
      obtain ⟨c, tag, htag⟩ := List.exists_cons_of_ne_nil r.proper.tag.ne_nil
      have hbytes : r.field.tag ++ (r.field.payload ++ recordBytes rs) = [48] := by
        rw [← List.append_assoc]
        exact h
      rw [htag, List.cons_append, List.cons.injEq, List.append_eq_nil_iff,
        List.append_eq_nil_iff] at hbytes
      obtain ⟨rfl, rfl, hpayload, -⟩ := hbytes
      have hvarint := r.plain.payload
      rw [htag, hpayload] at hvarint
      exact IsVarint.ne_nil (show IsVarint [] from hvarint) rfl

theorem tagNumber_record (r : Record) : tagNumber r.field.tag = groupsValue r.field.tag / 8 := by
  rw [tagNumber, Nat.mod_eq_of_lt r.tag_lt]

/-- The records with other numbers, as fields. -/
theorem filter_map_field (rs : List Record) (t : ℕ) :
    (rs.map Record.field).filter (fun f => tagNumber f.tag ≠ t) =
      (rs.filter fun r => tagNumber r.field.tag ≠ t).map Record.field := by
  rw [List.filter_map]
  rfl

/-! ### One call -/

namespace PurePerl

/-- The content of a message with these records. -/
def Holds (content : Option PerlStr) (rs : List Record) : Prop :=
  content.getD [] = recordBytes rs

theorem holds_parsed (rs : List Record) : Holds (parsed rs) rs := by
  cases rs <;> rfl

theorem Holds.setCall {content : Option PerlStr} {rs : List Record} (h : Holds content rs)
    (c : SetCall) :
    (setCall content c).1 = .ok () ∧ Holds (setCall content c).2 (GooglePerl.setCall rs c) := by
  cases c with
  | clear => exact ⟨rfl, rfl⟩
  | add new room =>
      refine ⟨rfl, ?_⟩
      have hkeep : (content.filter fun s => s ≠ [] ∧ s ≠ ps "0").getD [] = recordBytes rs := by
        cases content with
        | none => exact h
        | some s =>
            obtain rfl : s = recordBytes rs := h
            rw [Option.filter_some]
            by_cases hnil : recordBytes rs = []
            · simp [hnil]
            · simp [hnil, recordBytes_ne_zero]
      rw [Holds, PurePerl.setCall, add, Option.getD_some, hkeep, GooglePerl.setCall,
        recordBytes_append]
  | deleteTag t ht =>
      cases content with
      | none =>
          obtain rfl : rs = [] := recordBytes_eq_nil_iff.mp h.symm
          exact ⟨rfl, rfl⟩
      | some s =>
          obtain rfl : s = recordBytes rs := h
          have hproper : ∀ f ∈ rs.map Record.field, Proper f := by
            intro f hf
            obtain ⟨r, -, rfl⟩ := List.mem_map.mp hf
            exact r.proper
          have hkept : keptUnbounded t (rs.map Record.field) =
              (rs.filter fun r => tagNumber r.field.tag ≠ t).map Record.field := by
            rw [← filter_map_field, keptUnbounded]
            refine List.filter_congr fun f hf => ?_
            obtain ⟨r, -, rfl⟩ := List.mem_map.mp hf
            rw [tagNumber_record]
          have hdelete := deleteTag_of_proper hproper t
          rw [hkept] at hdelete
          rw [PurePerl.setCall, recordBytes, hdelete]
          exact ⟨rfl, rfl⟩

end PurePerl

namespace Xs

/-- The chunks of a message with these records; no border is inside a record. -/
def Holds (chunks : List PerlStr) (rs : List Record) : Prop :=
  ∃ groups : List (List Record), chunks = groups.map recordBytes ∧ groups.flatten = rs

theorem plainFields_groups (groups : List (List Record)) :
    plainFields (groups.map fun g => (g.map Record.field, [])) = groups.flatten.map Record.field := by
  induction groups with
  | nil => rfl
  | cons g groups ih =>
      have hplain : (g.map Record.field).takeWhile (fun f => tagWire f.tag ≠ 3) =
          g.map Record.field := by
        rw [List.takeWhile_eq_self_iff]
        intro f hf
        obtain ⟨r, -, rfl⟩ := List.mem_map.mp hf
        simpa using r.plain.wire_ne
      rw [List.map_cons, plainFields_cons, hplain, ih, List.flatten_cons, List.map_append]

theorem splitsAll_groups (groups : List (List Record)) :
    SplitsAll (groups.map recordBytes) (groups.map fun g => (g.map Record.field, [])) := by
  induction groups with
  | nil => exact .nil
  | cons g groups ih =>
      refine .cons (splits_of_wellFormed fun f hf => ?_) ih
      obtain ⟨r, -, rfl⟩ := List.mem_map.mp hf
      exact r.plain.wellFormed

theorem Holds.setCall {chunks : List PerlStr} {rs : List Record} (h : Holds chunks rs)
    (c : SetCall) :
    (setCall chunks c).1 = .ok () ∧ Holds (setCall chunks c).2 (GooglePerl.setCall rs c) := by
  obtain ⟨groups, rfl, rfl⟩ := h
  cases c with
  | clear => exact ⟨rfl, [], rfl, rfl⟩
  | add new room =>
      refine ⟨rfl, ?_⟩
      rcases List.eq_nil_or_concat groups with rfl | ⟨before, last, rfl⟩
      · exact ⟨[new], rfl, by simp [GooglePerl.setCall]⟩
      · cases room with
        | false =>
            refine ⟨before ++ [last] ++ [new], ?_, by simp [GooglePerl.setCall]⟩
            simp [Xs.setCall, addUnknown]
        | true =>
            refine ⟨before ++ [last ++ new], ?_, by simp [GooglePerl.setCall]⟩
            simp [Xs.setCall, addUnknown, recordBytes_append]
  | deleteTag t ht =>
      have hdelete := deleteTag_eq (splitsAll_groups groups) t
      rw [plainFields_groups, kept, filter_map_field] at hdelete
      rw [Xs.setCall, hdelete]
      refine ⟨rfl, ?_⟩
      rw [Holds, chunksOf, GooglePerl.setCall]
      split
      · rename_i hlength
        have hnil : recordBytes (groups.flatten.filter fun r => tagNumber r.field.tag ≠ t) = [] :=
          List.length_eq_zero_iff.mp hlength
        exact ⟨[], rfl, (recordBytes_eq_nil_iff.mp hnil).symm⟩
      · exact ⟨[_], rfl, List.append_nil _⟩

end Xs

/-! ### Runs -/

/-- What the calls of a run returned, and the content behind it. -/
def runSet {σ : Type} (step : σ → SetCall → Attempt σ Die Unit) (s : σ) (calls : List SetCall) :
    σ × List (Except Die Unit) :=
  run (logged fun s c => (step s c).swap) (s, []) calls

theorem runSet_holds {σ : Type} {step : σ → SetCall → Attempt σ Die Unit}
    (Holds : σ → List Record → Prop)
    (hstep : ∀ s rs c, Holds s rs → (step s c).1 = .ok () ∧ Holds (step s c).2 (setCall rs c))
    {s : σ} {rs : List Record} (h : Holds s rs) (calls : List SetCall) :
    (∀ r ∈ (runSet step s calls).2, r = .ok ()) ∧
      Holds (runSet step s calls).1 (run setCall rs calls) := by
  have hrun := @run_simulation _ _ _ _ (logged fun s c => (step s c).swap) setCall
    (fun _ _ => True) id (fun a rs => (∀ r ∈ a.2, r = Except.ok ()) ∧ Holds a.1 rs)
    (fun a rs c ha _ => ?_) (s, []) rs calls ⟨fun r hr => absurd hr List.not_mem_nil, h⟩
    (allowed_of_forall (fun _ _ => trivial) _)
  · rwa [List.map_id] at hrun
  · obtain ⟨hok, hholds⟩ := hstep a.1 rs c ha.2
    refine ⟨fun r hr => ?_, hholds⟩
    rcases List.mem_append.mp hr with hr | hr
    · exact ha.1 r hr
    · rw [List.mem_singleton.mp hr]
      exact hok

end GooglePerl
