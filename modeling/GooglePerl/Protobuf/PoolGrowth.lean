import GooglePerl.Protobuf.Declarations
import GooglePerl.Protobuf.DescriptorPool

/-!
What adding declarations with new names does to a pool: it appends their
objects, and of those that were there it changes no more than the lists of
nested types (`Grows`). So what was found once is found again, and the links of
fields stay good (`Linked`); resolving then gives every field the type that its
name stands for (`resolved_resolveAll`).
-/

namespace GooglePerl.Protobuf

open GooglePerl.Lib

/-! ### Shapes -/

namespace FileKey

def shape (file : FileKey) : FileKey := { file with address := 0 }

end FileKey

namespace FieldObject

/-- The field without its links. -/
def shape (f : FieldObject) : FieldObject := { f with messageType := none, enumType := none }

end FieldObject

namespace MessageObject

/-- The object without its lists of nested types. -/
def core (o : MessageObject) : MessageObject := { o with nestedTypes := [], enumTypes := [] }

/-- The object without addresses. -/
def shape (o : MessageObject) : MessageObject :=
  { o with
    address := 0
    file := o.file.shape
    fields := o.fields.map FieldObject.shape
    nestedTypes := []
    enumTypes := [] }

end MessageObject

namespace EnumObject

def shape (o : EnumObject) : EnumObject := { o with address := 0, file := o.file.shape }

end EnumObject

/-- The shapes of messages of a file. -/
def messageShapes (file : FileKey) (ms : List (PerlStr × MessageDescriptor)) :
    List (PerlStr × MessageObject) :=
  ms.map fun e => (e.1, (messageObject 0 file e.1 e.2).shape)

def enumShapes (file : FileKey) (es : List (PerlStr × EnumDescriptor)) :
    List (PerlStr × EnumObject) :=
  es.map fun e => (e.1, (enumObject 0 file e.1 e.2).shape)

/-! ### Growing -/

/-- A field as it is made. -/
def FieldObject.Unlinked (f : FieldObject) : Prop := f.messageType = none ∧ f.enumType = none

/-- Addresses in the order in which they are taken from the counter, as it goes from `lo` to
`hi`. -/
structure Numbered (lo hi : ℕ) (as : List ℕ) : Prop where
  sorted : as.Pairwise (· < ·)
  bounds : ∀ a ∈ as, lo ≤ a ∧ a < hi

namespace Numbered

variable {lo mid hi : ℕ} {as bs : List ℕ}

theorem nil (lo hi : ℕ) : Numbered lo hi [] := ⟨.nil, by simp⟩

theorem singleton (lo : ℕ) : Numbered lo (lo + 1) [lo] := ⟨List.pairwise_singleton _ _, by simp⟩

theorem append (h : Numbered lo mid as) (h' : Numbered mid hi bs) (hlo : lo ≤ mid)
    (hhi : mid ≤ hi) : Numbered lo hi (as ++ bs) := by
  refine ⟨List.pairwise_append.mpr ⟨h.sorted, h'.sorted, fun a ha b hb => ?_⟩, fun a ha => ?_⟩
  · exact (h.bounds a ha).2.trans_le (h'.bounds b hb).1
  · rcases List.mem_append.mp ha with ha | ha
    · exact ⟨(h.bounds a ha).1, (h.bounds a ha).2.trans_le hhi⟩
    · exact ⟨hlo.trans (h'.bounds a ha).1, (h'.bounds a ha).2⟩

end Numbered

/-- The entries of `p'` are those of `p`, but for their lists of nested types, and new ones with
the given shapes. -/
structure Grows (p p' : DescriptorPool) (ms : List (PerlStr × MessageObject))
    (es : List (PerlStr × EnumObject)) : Prop where
  next : p.next ≤ p'.next
  files : p'.files = p.files
  messages : ∃ new : List (PerlStr × MessageObject),
    p'.messages.map (fun e => (e.1, e.2.core)) = p.messages.map (fun e => (e.1, e.2.core)) ++ new ∧
      new.map (fun e => (e.1, e.2.shape)) = ms ∧ (∀ e ∈ new, ∀ f ∈ e.2.fields, f.Unlinked) ∧
        Numbered p.next p'.next (new.map fun e => e.2.address)
  enums : ∃ new : List (PerlStr × EnumObject), p'.enums = p.enums ++ new ∧
    new.map (fun e => (e.1, e.2.shape)) = es ∧
      Numbered p.next p'.next (new.map fun e => e.2.address)

/-- None of the names is there yet, and none comes twice. -/
structure New (p : DescriptorPool) (ms : List (PerlStr × MessageObject))
    (es : List (PerlStr × EnumObject)) : Prop where
  messages : (Assoc.keys p.messages ++ Assoc.keys ms).Nodup
  enums : (Assoc.keys p.enums ++ Assoc.keys es).Nodup

namespace Grows

variable {p q r : DescriptorPool} {ms ms' : List (PerlStr × MessageObject)}
  {es es' : List (PerlStr × EnumObject)}

theorem refl (p : DescriptorPool) : Grows p p [] [] :=
  ⟨le_rfl, rfl, ⟨[], by simp, rfl, by simp, .nil _ _⟩, [], by simp, rfl, .nil _ _⟩

theorem trans (h : Grows p q ms es) (h' : Grows q r ms' es') :
    Grows p r (ms ++ ms') (es ++ es') := by
  obtain ⟨new, hnew, hshape, hplain, hnumbered⟩ := h.messages
  obtain ⟨new', hnew', hshape', hplain', hnumbered'⟩ := h'.messages
  obtain ⟨newE, henums, hshapeE, hnumberedE⟩ := h.enums
  obtain ⟨newE', henums', hshapeE', hnumberedE'⟩ := h'.enums
  refine ⟨h.next.trans h'.next, h'.files.trans h.files, ⟨new ++ new', ?_, ?_, ?_, ?_⟩,
    newE ++ newE', ?_, ?_, ?_⟩
  · rw [hnew', hnew, List.append_assoc]
  · rw [List.map_append, hshape, hshape']
  · intro e he
    rcases List.mem_append.mp he with he | he
    · exact hplain e he
    · exact hplain' e he
  · rw [List.map_append]
    exact hnumbered.append hnumbered' h.next h'.next
  · rw [henums', henums, List.append_assoc]
  · rw [List.map_append, hshapeE, hshapeE']
  · rw [List.map_append]
    exact hnumberedE.append hnumberedE' h.next h'.next

theorem keys_messages (h : Grows p q ms es) :
    Assoc.keys q.messages = Assoc.keys p.messages ++ Assoc.keys ms := by
  obtain ⟨new, hnew, hshape, -⟩ := h.messages
  have hkeys := congrArg (List.map Prod.fst) hnew
  simp only [List.map_map, List.map_append, Function.comp_def] at hkeys
  rw [← hshape]
  simp only [Assoc.keys, List.map_map, Function.comp_def]
  exact hkeys

theorem keys_enums (h : Grows p q ms es) :
    Assoc.keys q.enums = Assoc.keys p.enums ++ Assoc.keys es := by
  obtain ⟨new, hnew, hshape, -⟩ := h.enums
  rw [hnew, ← hshape]
  simp [Assoc.keys, Function.comp_def]

/-- What is left to add is still new. -/
theorem new (h : Grows p q ms es) (hnew : New p (ms ++ ms') (es ++ es')) : New q ms' es' := by
  refine ⟨?_, ?_⟩
  · rw [h.keys_messages, List.append_assoc]
    simpa [Assoc.keys] using hnew.messages
  · rw [h.keys_enums, List.append_assoc]
    simpa [Assoc.keys] using hnew.enums

/-- What changes no entry may come between. -/
theorem trans_quiet (h : Grows p q ms es) (h' : Grows q r [] []) : Grows p r ms es := by
  have hboth := h.trans h'
  rwa [List.append_nil, List.append_nil] at hboth

end Grows

/-- What comes first is new. -/
theorem New.left {p : DescriptorPool} {ms ms' : List (PerlStr × MessageObject)}
    {es es' : List (PerlStr × EnumObject)} (h : New p (ms ++ ms') (es ++ es')) : New p ms es := by
  refine ⟨?_, ?_⟩
  · have hnodup := h.messages
    rw [Assoc.keys, Assoc.keys, List.map_append, ← List.append_assoc] at hnodup
    exact hnodup.of_append_left
  · have hnodup := h.enums
    rw [Assoc.keys, Assoc.keys, List.map_append, ← List.append_assoc] at hnodup
    exact hnodup.of_append_left

/-! ### Adding new names -/

namespace DescriptorPool

variable {file : FileKey} {push : ℕ → DescriptorPool → DescriptorPool}

theorem modifyMessage_grows {p : DescriptorPool} {fullName : PerlStr}
    {f : MessageObject → MessageObject} (h : ∀ o, (f o).core = o.core) :
    Grows p (p.modifyMessage fullName f) [] [] := by
  refine ⟨le_rfl, rfl, ⟨[], ?_, rfl, by simp, .nil _ _⟩, [], by simp [modifyMessage], rfl,
    .nil _ _⟩
  simp only [modifyMessage, List.map_map, List.append_nil]
  refine List.map_congr_left fun e _ => ?_
  simp only [Function.comp_apply]
  split
  · rw [h]
  · rfl

theorem pushNestedType_grows (fullName : PerlStr) (a : ℕ) (p : DescriptorPool) :
    Grows p (pushNestedType fullName a p) [] [] := modifyMessage_grows fun _ => rfl

theorem pushEnumType_grows (fullName : PerlStr) (a : ℕ) (p : DescriptorPool) :
    Grows p (pushEnumType fullName a p) [] [] := modifyMessage_grows fun _ => rfl

/-- The fields of a new object are not resolved. -/
theorem buildFields_unlinked (fullName : PerlStr) (m : MessageDescriptor) :
    ∀ f ∈ (buildFields fullName m).2, f.Unlinked := by
  suffices key : ∀ (fs : List FieldDescriptor) (acc : List OneofObject × List FieldObject),
      (∀ f ∈ acc.2, f.Unlinked) → ∀ f ∈ (fs.foldl (addField fullName) acc).2, f.Unlinked from
    key m.field _ (by simp)
  intro fs
  induction fs with
  | nil => exact fun acc h => h
  | cons f fs ih =>
      intro acc h
      refine ih _ ?_
      unfold addField
      split
      all_goals
        intro g hg
        rcases List.mem_append.mp hg with hg | hg
        · exact h g hg
        · rw [List.mem_singleton.mp hg]
          exact ⟨rfl, rfl⟩

theorem registerMessage_grows (file : FileKey) (p : DescriptorPool) (fullName : PerlStr)
    (m : MessageDescriptor) :
    Grows p (p.registerMessage (messageObject p.next file fullName m))
      (messageShapes file [(fullName, m)]) [] := by
  refine ⟨Nat.le_succ _, rfl, ⟨[(fullName, messageObject p.next file fullName m)], ?_, rfl, ?_,
    .singleton _⟩, [], by simp [registerMessage], rfl, .nil _ _⟩
  · simp [registerMessage, messageObject, MessageObject.core]
  · intro e he
    obtain rfl := List.mem_singleton.mp he
    exact buildFields_unlinked fullName m

theorem addEnumData_grows {e : EnumDescriptor} {pre : PerlStr} {p : DescriptorPool}
    (h : New p [] (enumShapes file [(pre ++ e.name, e)])) :
    ∃ a p', addEnumData file e pre p = (.ok a, p') ∧
      Grows p p' [] (enumShapes file [(pre ++ e.name, e)]) := by
  have hfresh : pre ++ e.name ∉ Assoc.keys p.enums := by
    intro hmem
    have hnodup := h.enums
    rw [List.nodup_append] at hnodup
    exact hnodup.2.2 _ hmem _ (by simp [enumShapes, Assoc.keys]) rfl
  refine ⟨_, _, addEnumData_of_not_mem hfresh, Nat.le_succ _, rfl,
    ⟨[], by simp [registerEnum], rfl, by simp, .nil _ _⟩, ?_⟩
  exact ⟨[(pre ++ e.name, enumObject p.next file (pre ++ e.name) e)], rfl, rfl, .singleton _⟩

theorem addEnums_grows (hpush : ∀ a p, Grows p (push a p) [] []) {pre : PerlStr}
    {es : List EnumDescriptor} {p : DescriptorPool}
    (h : New p [] (enumShapes file (es.map fun e => (pre ++ e.name, e)))) :
    ∃ as p', addEnums file push pre es p = (.ok as, p') ∧
      Grows p p' [] (enumShapes file (es.map fun e => (pre ++ e.name, e))) := by
  induction es generalizing p with
  | nil => exact ⟨[], p, rfl, .refl p⟩
  | cons e es ih =>
      have hsplit : enumShapes file ((e :: es).map fun e => (pre ++ e.name, e)) =
          enumShapes file [(pre ++ e.name, e)] ++
            enumShapes file (es.map fun e => (pre ++ e.name, e)) := rfl
      rw [hsplit] at h ⊢
      obtain ⟨a, q, hq, hgrows⟩ := addEnumData_grows (New.left h)
      have hpushed := hgrows.trans_quiet (hpush a q)
      obtain ⟨as, r, hr, hrest⟩ := ih (hpushed.new h)
      refine ⟨a :: as, r, ?_, hpushed.trans hrest⟩
      rw [addEnums, hq, Attempt.andThen_ok, hr, Attempt.andThen_ok]

theorem addMessageData_fresh {m : MessageDescriptor} {pre : PerlStr} {p : DescriptorPool}
    {ms : List (PerlStr × MessageDescriptor)} {es : List (PerlStr × EnumObject)}
    (h : New p (messageShapes file ((pre ++ m.name, m) :: ms)) es) :
    pre ++ m.name ∉ Assoc.keys p.messages := by
  intro hmem
  have hnodup := h.messages
  rw [List.nodup_append] at hnodup
  exact hnodup.2.2 _ hmem _ (by simp [messageShapes, Assoc.keys]) rfl

theorem messageShapes_append (ms ms' : List (PerlStr × MessageDescriptor)) :
    messageShapes file (ms ++ ms') = messageShapes file ms ++ messageShapes file ms' :=
  List.map_append

theorem enumShapes_append (es es' : List (PerlStr × EnumDescriptor)) :
    enumShapes file (es ++ es') = enumShapes file es ++ enumShapes file es' :=
  List.map_append

mutual

theorem addMessageData_grows (file : FileKey) : ∀ (m : MessageDescriptor) (pre : PerlStr)
    (p : DescriptorPool),
    New p (messageShapes file (m.declared pre)) (enumShapes file (m.declaredEnums pre)) →
      ∃ a p', addMessageData file m pre p = (.ok a, p') ∧
        Grows p p' (messageShapes file (m.declared pre)) (enumShapes file (m.declaredEnums pre))
  | ⟨name, field, nestedType, enumType, oneofDecl, options⟩, pre, p, h => by
      rw [MessageDescriptor.declared, MessageDescriptor.declaredEnums] at h ⊢
      rw [addMessageData_of_not_mem (addMessageData_fresh h)]
      -- itself, then its nested types, then its enums
      rw [← List.singleton_append, messageShapes_append, enumShapes_append] at h ⊢
      have hself := registerMessage_grows file p (pre ++ name)
        ⟨name, field, nestedType, enumType, oneofDecl, options⟩
      have hinside := hself.new h
      rw [← List.append_nil (messageShapes file _)] at hinside
      obtain ⟨as, q, hq, hnested⟩ := addMessages_grows file (pushNestedType_grows (pre ++ name))
        (pre ++ name ++ ps ".") nestedType _ (New.left hinside)
      obtain ⟨as', r, hr, henums⟩ := addEnums_grows (pushEnumType_grows (pre ++ name))
        (hnested.new hinside)
      have hgrows := (hself.trans hnested).trans henums
      rw [List.append_nil] at hgrows
      refine ⟨p.next, r, ?_, hgrows⟩
      rw [hq, Attempt.andThen_ok, hr, Attempt.andThen_ok]

theorem addMessages_grows (file : FileKey) {push : ℕ → DescriptorPool → DescriptorPool}
    (hpush : ∀ a p, Grows p (push a p) [] []) (pre : PerlStr) : ∀ (ms : List MessageDescriptor)
    (p : DescriptorPool),
    New p (messageShapes file (MessageDescriptor.declaredAll pre ms))
        (enumShapes file (MessageDescriptor.declaredEnumsAll pre ms)) →
      ∃ as p', addMessages file push pre ms p = (.ok as, p') ∧
        Grows p p' (messageShapes file (MessageDescriptor.declaredAll pre ms))
          (enumShapes file (MessageDescriptor.declaredEnumsAll pre ms))
  | [], p, _ => ⟨[], p, rfl, .refl p⟩
  | m :: ms, p, h => by
      rw [MessageDescriptor.declaredAll, MessageDescriptor.declaredEnumsAll, messageShapes_append,
        enumShapes_append] at h ⊢
      obtain ⟨a, q, hq, hgrows⟩ := addMessageData_grows file m pre p (New.left h)
      have hpushed := hgrows.trans_quiet (hpush a q)
      obtain ⟨as, r, hr, hrest⟩ := addMessages_grows file hpush pre ms (push a q) (hpushed.new h)
      refine ⟨a :: as, r, ?_, hpushed.trans hrest⟩
      rw [addMessages, hq, Attempt.andThen_ok, hr, Attempt.andThen_ok]

end

end DescriptorPool

/-! ### Links -/

/-- What a field is linked to is what its name finds. -/
def Linked (p : DescriptorPool) : Prop :=
  ∀ e ∈ p.messages, ∀ f ∈ e.2.fields,
    (∀ a, f.messageType = some a →
      (p.findMessageByName f.typeName).map MessageObject.address = some a) ∧
    ∀ a, f.enumType = some a → (p.findEnumByName f.typeName).map EnumObject.address = some a

section Links

variable {p q : DescriptorPool} {ms : List (PerlStr × MessageObject)}
  {es : List (PerlStr × EnumObject)}

/-- What was found is found, at the same address. -/
theorem Grows.findMessage (h : Grows p q ms es) {name : PerlStr} {a : ℕ}
    (ha : (p.findMessageByName name).map MessageObject.address = some a) :
    (q.findMessageByName name).map MessageObject.address = some a := by
  obtain ⟨new, hnew, -⟩ := h.messages
  have hcore : ∀ o : Option MessageObject,
      o.map MessageObject.address = (o.map MessageObject.core).map MessageObject.address := by
    intro o
    cases o <;> rfl
  unfold DescriptorPool.findMessageByName at ha ⊢
  rw [hcore, ← Assoc.find_map] at ha ⊢
  rw [hnew, Assoc.find_append]
  obtain ⟨o, ho, rfl⟩ := Option.map_eq_some_iff.mp ha
  rw [ho]
  rfl

theorem Grows.findEnum (h : Grows p q ms es) {name : PerlStr} {a : ℕ}
    (ha : (p.findEnumByName name).map EnumObject.address = some a) :
    (q.findEnumByName name).map EnumObject.address = some a := by
  obtain ⟨new, hnew, -⟩ := h.enums
  unfold DescriptorPool.findEnumByName at ha ⊢
  obtain ⟨o, ho, rfl⟩ := Option.map_eq_some_iff.mp ha
  rw [hnew, Assoc.find_append, ho]
  rfl

theorem Grows.linked (h : Grows p q ms es) (hp : Linked p) : Linked q := by
  obtain ⟨new, hnew, -, hplain, -⟩ := h.messages
  intro e he f hf
  have hmem : (e.1, e.2.core) ∈ q.messages.map fun e => (e.1, e.2.core) :=
    List.mem_map.mpr ⟨e, he, rfl⟩
  rw [hnew] at hmem
  rcases List.mem_append.mp hmem with hmem | hmem
  · obtain ⟨e', he', heq⟩ := List.mem_map.mp hmem
    have hcore : e'.2.core = e.2.core := (Prod.mk.inj heq).2
    have hfields : e'.2.core.fields = e.2.core.fields := congrArg MessageObject.fields hcore
    obtain ⟨hmessage, henum⟩ := hp e' he' f (hfields.symm ▸ hf : f ∈ e'.2.core.fields)
    exact ⟨fun a ha => h.findMessage (hmessage a ha), fun a ha => h.findEnum (henum a ha)⟩
  · obtain ⟨hmessage, henum⟩ := hplain _ hmem f hf
    refine ⟨fun a ha => ?_, fun a ha => ?_⟩
    · rw [hmessage] at ha
      cases ha
    · rw [henum] at ha
      cases ha

end Links

namespace DescriptorPool

variable {p : DescriptorPool}

theorem findMessage_resolveAll (name : PerlStr) :
    (p.resolveAll.findMessageByName name).map MessageObject.address =
      (p.findMessageByName name).map MessageObject.address := by
  rw [findMessageByName, resolveAll, Assoc.find_map, Option.map_map]
  rfl

theorem findEnum_resolveAll (name : PerlStr) :
    p.resolveAll.findEnumByName name = p.findEnumByName name := rfl

/-- The names that are no type names are not found, and none is a message's and an enum's. -/
structure Unambiguous (p : DescriptorPool) : Prop where
  empty : p.findMessageByName [] = none ∧ p.findEnumByName [] = none
  zero : p.findMessageByName (ps "0") = none ∧ p.findEnumByName (ps "0") = none
  disjoint : ∀ name, p.findMessageByName name = none ∨ p.findEnumByName name = none

/-- Resolving a field gives it the types that its name stands for. -/
theorem resolveField_spec (hp : Unambiguous p) {f : FieldObject}
    (hmessage : ∀ a, f.messageType = some a →
      (p.findMessageByName f.typeName).map MessageObject.address = some a)
    (henum : ∀ a, f.enumType = some a →
      (p.findEnumByName f.typeName).map EnumObject.address = some a) :
    (p.resolveField f).messageType =
        (p.findMessageByName f.typeName).map MessageObject.address ∧
      (p.resolveField f).enumType = (p.findEnumByName f.typeName).map EnumObject.address := by
  -- a name that finds nothing was not resolved before
  have hnoMessage : p.findMessageByName f.typeName = none → f.messageType = none := by
    intro hnone
    rw [Option.eq_none_iff_forall_ne_some]
    intro a ha
    have hfound := hmessage a ha
    rw [hnone] at hfound
    cases hfound
  have hnoEnum : p.findEnumByName f.typeName = none → f.enumType = none := by
    intro hnone
    rw [Option.eq_none_iff_forall_ne_some]
    intro a ha
    have hfound := henum a ha
    rw [hnone] at hfound
    cases hfound
  unfold resolveField
  split
  · rename_i hname
    have hnone : p.findMessageByName f.typeName = none ∧ p.findEnumByName f.typeName = none := by
      rcases hname with hname | hname
      · rw [hname]
        exact hp.empty
      · rw [hname]
        exact hp.zero
    rw [hnone.1, hnone.2]
    exact ⟨hnoMessage hnone.1, hnoEnum hnone.2⟩
  · split
    · rename_i m hm
      have hnone := (hp.disjoint f.typeName).resolve_left (by simp [hm])
      rw [hm, hnone]
      exact ⟨rfl, hnoEnum hnone⟩
    · rename_i hm
      split
      · rename_i e he
        rw [hm, he]
        exact ⟨hnoMessage hm, rfl⟩
      · rename_i he
        rw [hm, he]
        exact ⟨hnoMessage hm, hnoEnum he⟩

theorem resolveField_typeName (f : FieldObject) : (p.resolveField f).typeName = f.typeName := by
  unfold resolveField
  split
  · rfl
  · split
    · rfl
    · split <;> rfl

theorem resolveField_shape (f : FieldObject) : (p.resolveField f).shape = f.shape := by
  unfold resolveField
  split
  · rfl
  · split
    · rfl
    · split <;> rfl

/-- Every field of every message has the types that its name stands for. -/
def Resolved (p : DescriptorPool) : Prop :=
  ∀ e ∈ p.messages, ∀ f ∈ e.2.fields,
    f.messageType = (p.findMessageByName f.typeName).map MessageObject.address ∧
      f.enumType = (p.findEnumByName f.typeName).map EnumObject.address

theorem resolved_resolveAll (hp : Unambiguous p) (hlinked : Linked p) : Resolved p.resolveAll := by
  intro e he f hf
  obtain ⟨e', he', rfl⟩ := List.mem_map.mp he
  obtain ⟨g, hg, rfl⟩ := List.mem_map.mp hf
  obtain ⟨hmessage, henum⟩ := hlinked e' he' g hg
  rw [findMessage_resolveAll, findEnum_resolveAll, resolveField_typeName]
  exact resolveField_spec hp hmessage henum

theorem Resolved.linked (h : Resolved p) : Linked p := by
  intro e he f hf
  obtain ⟨hmessage, henum⟩ := h e he f hf
  exact ⟨fun a ha => hmessage ▸ ha, fun a ha => henum ▸ ha⟩

end DescriptorPool

end GooglePerl.Protobuf
