import GooglePerl.Protobuf.RoundTrip

/-!
The `FREEZE` and `THAW` hooks of `Protobuf::Message`, for a message of the pure-Perl engine.

`THAW` takes an empty string for nothing to thaw. Called on an object it then returns the object,
which still has its fields; called on a class it returns the name of the class. So a message that
says nothing is lost by a serializer that stores what `FREEZE` returned (`thaw_freeze`).
-/

namespace GooglePerl.Protobuf

open GooglePerl.Lib

/-- A message object, with the key that `FREEZE` leaves in it. -/
structure MessageHash where
  msg : Msg
  /-- `_serialized` -/
  serialized : Option PerlStr

/-- `FREEZE`: what it returns, and the object behind it. -/
def freeze (S : Pool) (o : MessageHash) : Except Die (PerlStr × MessageHash) :=
  (serialize S o.msg).map fun bytes => (bytes, { o with serialized := some bytes })

/-- What `THAW` returns. -/
inductive Thawed where
  /-- a message that it has parsed -/
  | parsed (msg : Msg)
  /-- the object that it was called on -/
  | self (o : MessageHash)
  /-- the name of the class that it was called on -/
  | name (cls : String)

/-- The message that was thawed, if it is one. -/
def Thawed.message : Thawed → Option Msg
  | .parsed msg => some msg
  | .self o => some o.msg
  | .name _ => none

/-- `defined $serialized && length($serialized)` -/
def thawable (serialized : Option PerlStr) : Option PerlStr := serialized.filter fun s => s ≠ []

/-- `THAW` of a class -/
def thawClass (S : Pool) (cls : String) (arg : Option PerlStr) : Except Die Thawed :=
  match thawable arg with
  | some bytes => (parse S cls bytes).map .parsed
  | none => .ok (.name cls)

/-- `THAW` of an object, which without an argument thaws what was left in it. -/
def thawObject (S : Pool) (o : MessageHash) (arg : Option PerlStr) : Except Die Thawed :=
  let o' := if arg.isSome then o else { o with serialized := none }
  match thawable (arg.or o.serialized) with
  | some bytes => (parse S o.msg.cls bytes).map .parsed
  | none => .ok (.self o')

/-! ### Messages that say nothing -/

section

variable {S : Pool}

theorem serializeField_of_isEmptyContainer {sh : Shape} {t : FieldType} {f : FieldDef} {v : Val}
    (hshape : f.shape S = sh) (h : Legal wireLegal S sh t v) (hempty : v.isEmptyContainer = true) :
    serializeField S f v = .ok [] := by
  cases h with
  | int _ hv => rcases hv with rfl | rfl <;> cases hempty
  | float | text | msg => cases hempty
  | @repeated _ kind xs _ =>
      cases xs with
      | nil => simp [serializeField, hshape, encodeItems]
      | cons x xs => cases hempty
  | @map c _ kt vt es hentry _ _ _ =>
      cases es with
      | nil =>
          obtain ⟨k, v, -, -, hk, hv⟩ := S.entry_fields (FieldDef.shape_map hshape).2
          simp [serializeField, hshape, hk, hv, encodeEntries]
      | cons e es => cases hempty

theorem mapM_ok_nil {ι : Type} {g : ι → Except Die PerlStr} {l : List ι}
    (h : ∀ i ∈ l, g i = .ok []) : ∃ parts, l.mapM g = .ok parts ∧ parts.flatten = [] := by
  induction l with
  | nil => exact ⟨[], rfl, rfl⟩
  | cons i l ih =>
      obtain ⟨parts, hparts, hflat⟩ := ih fun j hj => h j (List.mem_cons_of_mem _ hj)
      exact ⟨[] :: parts, mapM_ok_cons (h i List.mem_cons_self) hparts, by simpa using hflat⟩

/-- A legal message is serialized to nothing exactly if it says nothing. -/
theorem serialize_nil_iff {m : Msg} (h : m.Legal wireLegal S) {bytes : PerlStr}
    (hbytes : serialize S m = .ok bytes) :
    bytes = [] ↔ m.content = (Msg.create m.cls).content := by
  constructor
  · rintro rfl
    obtain ⟨bytes, hbytes', hreread⟩ := h.reread wireLegal_rereads fun _ _ _ hm => hm
    obtain rfl := Except.ok.inj (hbytes.symm.trans hbytes')
    obtain ⟨m', hparse, hcontent⟩ := hreread (by simp [Fits])
    rw [← hcontent, Except.ok.inj ((show parse S m.cls [] = .ok (.create m.cls) from rfl).symm.trans
      hparse)]
  · intro hcontent
    obtain ⟨cls, fs, u⟩ := m
    rw [Msg.content_eq, Msg.content_eq] at hcontent
    obtain ⟨-, hfields, hunknown⟩ := Content.msg.inj hcontent
    cases h with
    | int hn _ => exact absurd hn.1 not_false
    | msg hnd hknown hfield hmsg =>
        have hplaces : ∀ f ∈ (S.descriptor cls).fields,
            ((Assoc.find fs f.name).map (serializeField S f)).getD (.ok []) = .ok [] := by
          intro f hf
          cases hv : Assoc.find fs f.name with
          | none => rfl
          | some v =>
              have hnone := congrFun hfields f.name
              have hempty : v.isEmptyContainer = true := by
                by_contra hne
                rw [fieldContent, hv] at hnone
                simp [hne, fieldContent] at hnone
              exact serializeField_of_isEmptyContainer rfl (hfield f hf v hv) hempty
        obtain ⟨parts, hparts, hflat⟩ := mapM_ok_nil hplaces
        rw [serialize_eq, if_neg (by simpa using hmsg.1), hparts] at hbytes
        obtain rfl := Except.ok.inj hbytes
        rw [hflat]
        exact hunknown

end

end GooglePerl.Protobuf
