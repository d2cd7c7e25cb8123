import GooglePerl.Protobuf.PoolGrowth

/-!
The contents of a pool do not depend on the order in which files are loaded.

A pool that has what some files declare (`Holds`) has, after a call, what the
files of the call declare as well, whatever the names that their fields refer
to, and each call resolves all fields anew. So the pool in the end is that of
the files in some order, and an order is not seen by lookups (`loads_spec`).
-/

namespace GooglePerl.Protobuf

open GooglePerl.Lib

/-! ### Files -/

namespace FileDescriptor

/-- The file, wherever it lives. -/
def key (fd : FileDescriptor) : FileKey := ⟨0, fd.name, fd.package⟩

def messageEntries (fd : FileDescriptor) : List (PerlStr × MessageObject) :=
  messageShapes fd.key fd.messages

def enumEntries (fd : FileDescriptor) : List (PerlStr × EnumObject) := enumShapes fd.key fd.enums

end FileDescriptor

/-- The pool has what these files declare. -/
structure Holds (p : DescriptorPool) (fds : List FileDescriptor) : Prop where
  files : p.files.map (fun e => (e.1, e.2.key.shape)) = fds.map fun fd => (fd.name, fd.key)
  messages : p.messages.map (fun e => (e.1, e.2.shape)) =
    fds.flatMap FileDescriptor.messageEntries
  enums : p.enums.map (fun e => (e.1, e.2.shape)) = fds.flatMap FileDescriptor.enumEntries
  linked : Linked p
  messageAddresses : Numbered 0 p.next (p.messages.map fun e => e.2.address)
  enumAddresses : Numbered 0 p.next (p.enums.map fun e => e.2.address)

theorem keys_map {κ α β : Type} (f : α → β) (t : List (κ × α)) :
    Assoc.keys (t.map fun e => (e.1, f e.2)) = Assoc.keys t := by
  simp [Assoc.keys, Function.comp_def]

theorem keys_messageEntries (fds : List FileDescriptor) :
    Assoc.keys (fds.flatMap FileDescriptor.messageEntries) =
      Assoc.keys (fds.flatMap FileDescriptor.messages) := by
  induction fds with
  | nil => rfl
  | cons fd fds ih =>
      simp only [Assoc.keys] at ih
      simp [Assoc.keys, FileDescriptor.messageEntries, messageShapes, ih]

theorem keys_enumEntries (fds : List FileDescriptor) :
    Assoc.keys (fds.flatMap FileDescriptor.enumEntries) =
      Assoc.keys (fds.flatMap FileDescriptor.enums) := by
  induction fds with
  | nil => rfl
  | cons fd fds ih =>
      simp only [Assoc.keys] at ih
      simp [Assoc.keys, FileDescriptor.enumEntries, enumShapes, ih]

namespace Holds

variable {p q : DescriptorPool} {fds : List FileDescriptor} {fd : FileDescriptor}

theorem keys_messages (h : Holds p fds) :
    Assoc.keys p.messages = Assoc.keys (fds.flatMap FileDescriptor.messages) := by
  rw [← keys_messageEntries, ← h.messages, keys_map]

theorem keys_enums (h : Holds p fds) :
    Assoc.keys p.enums = Assoc.keys (fds.flatMap FileDescriptor.enums) := by
  rw [← keys_enumEntries, ← h.enums, keys_map]

theorem keys_files (h : Holds p fds) :
    Assoc.keys p.files = fds.map FileDescriptor.name := by
  have hkeys := congrArg (List.map Prod.fst) h.files
  simpa [Assoc.keys, Function.comp_def] using hkeys

/-- The names of another file are new. -/
theorem new (h : Holds p fds) (hdistinct : Distinct (fds ++ [fd])) :
    New p fd.messageEntries fd.enumEntries := by
  have hsymbols := hdistinct.symbols
  simp only [Assoc.keys, List.flatMap_append, List.flatMap_singleton, List.map_append] at hsymbols
  have hmessages : Assoc.keys fd.messageEntries = Assoc.keys fd.messages := by
    simpa using keys_messageEntries [fd]
  have henums : Assoc.keys fd.enumEntries = Assoc.keys fd.enums := by
    simpa using keys_enumEntries [fd]
  refine ⟨?_, ?_⟩
  · rw [h.keys_messages, hmessages]
    exact hsymbols.of_append_left
  · rw [h.keys_enums, henums]
    exact hsymbols.of_append_right

/-- A pool that has grown by the symbols of a file, with the file stored. -/
theorem store (h : Holds p fds) (hgrows : Grows p q fd.messageEntries fd.enumEntries)
    (hdistinct : Distinct (fds ++ [fd])) {file : FileObject} (hfile : file.key.shape = fd.key) :
    Holds { q with nextFile := q.nextFile + 1, files := Assoc.store q.files fd.name file }
      (fds ++ [fd]) := by
  have hname : fd.name ∉ Assoc.keys q.files := by
    rw [hgrows.files, h.keys_files]
    have hfiles := hdistinct.files
    rw [List.map_append, List.nodup_append] at hfiles
    exact fun hmem => hfiles.2.2 _ hmem _ (by simp) rfl
  obtain ⟨new, hnew, hshape, -, hnumbered⟩ := hgrows.messages
  obtain ⟨newE, hnewE, hshapeE, hnumberedE⟩ := hgrows.enums
  have haddresses := congrArg (List.map fun e : PerlStr × MessageObject => e.2.address) hnew
  have hcore := congrArg (List.map fun e : PerlStr × MessageObject => (e.1, e.2.shape)) hnew
  have hstored : Assoc.store q.files fd.name file = p.files ++ [(fd.name, file)] := by
    rw [Assoc.store_of_not_mem file hname, hgrows.files]
  refine ⟨?_, ?_, ?_, hgrows.linked h.linked, ?_, ?_⟩
  · show (Assoc.store q.files fd.name file).map _ = _
    rw [hstored, List.map_append, h.files, List.map_append]
    simp [hfile]
  · rw [List.map_append, List.map_map, List.map_map, hshape] at hcore
    rw [List.flatMap_append, ← h.messages, List.flatMap_singleton]
    exact hcore
  · simp only [hnewE, List.map_append, h.enums, hshapeE, List.flatMap_append,
      List.flatMap_singleton]
  · rw [List.map_append, List.map_map, List.map_map] at haddresses
    have hnumberedAll := h.messageAddresses.append hnumbered (Nat.zero_le _) hgrows.next
    exact haddresses.symm ▸ hnumberedAll
  · rw [hnewE, List.map_append]
    exact h.enumAddresses.append hnumberedE (Nat.zero_le _) hgrows.next

end Holds

/-! ### Loading -/

namespace DescriptorPool

variable {p : DescriptorPool} {fds : List FileDescriptor}

/-- One more file. -/
theorem addFileData_holds {fd : FileDescriptor} (h : Holds p fds)
    (hdistinct : Distinct (fds ++ [fd])) (hpackage : fd.package ≠ ps "0") :
    ∃ file q, p.addFileData fd = (.ok file, q) ∧ Holds q (fds ++ [fd]) := by
  have hscope : fd.symbolPrefix = fd.scope := by
    simp [FileDescriptor.symbolPrefix, FileDescriptor.scope, hpackage]
  have hnew : New p
      (messageShapes ⟨p.nextFile, fd.name, fd.package⟩ fd.messages ++ [])
      (enumShapes ⟨p.nextFile, fd.name, fd.package⟩
          (MessageDescriptor.declaredEnumsAll fd.scope fd.messageType) ++
        enumShapes ⟨p.nextFile, fd.name, fd.package⟩
          (fd.enumType.map fun e => (fd.scope ++ e.name, e))) := by
    rw [List.append_nil, ← enumShapes_append]
    exact h.new hdistinct
  obtain ⟨messageTypes, q, hq, hmessages⟩ := addMessages_grows _ (fun _ => .refl) fd.scope
    fd.messageType p (New.left hnew)
  obtain ⟨enumTypes, r, hr, henums⟩ := addEnums_grows (fun _ => .refl) (hmessages.new hnew)
  have hgrows := hmessages.trans henums
  rw [List.append_nil, ← enumShapes_append] at hgrows
  let file : FileObject := ⟨⟨p.nextFile, fd.name, fd.package⟩, messageTypes, enumTypes⟩
  have hfile : file.key.shape = fd.key := rfl
  refine ⟨file, _, ?_, h.store hgrows hdistinct hfile⟩
  rw [addFileData, hscope, hq, Attempt.andThen_ok, hr, Attempt.andThen_ok]

/-- The files of a set. -/
theorem addFilesData_holds {gs : List FileDescriptor} (h : Holds p fds)
    (hdistinct : Distinct (fds ++ gs)) (hlegal : ∀ fd ∈ gs, fd.Legal) :
    ∃ files q, p.addFilesData gs = (.ok files, q) ∧ Holds q (fds ++ gs) := by
  induction gs generalizing p fds with
  | nil => exact ⟨[], p, rfl, by rwa [List.append_nil]⟩
  | cons fd gs ih =>
      rw [List.append_cons] at hdistinct ⊢
      obtain ⟨file, q, hq, hfirst⟩ := addFileData_holds h hdistinct.left
        (hlegal fd (by simp)).package_ne_zero
      obtain ⟨files, r, hr, hrest⟩ := ih hfirst hdistinct fun fd' h' => hlegal fd' (by simp [h'])
      refine ⟨file :: files, r, ?_, hrest⟩
      rw [addFilesData, hq, Attempt.andThen_ok, hr, Attempt.andThen_ok]

theorem resolveMessage_shape (o : MessageObject) : (p.resolveMessage o).shape = o.shape := by
  have hfields : (o.fields.map p.resolveField).map FieldObject.shape =
      o.fields.map FieldObject.shape := by
    rw [List.map_map]
    exact List.map_congr_left fun f _ => resolveField_shape f
  simp only [resolveMessage, MessageObject.shape, hfields]

end DescriptorPool

namespace Holds

variable {p : DescriptorPool} {fds : List FileDescriptor} {name : PerlStr}

theorem beginsWithLetter_messages (h : Holds p fds) (hlegal : ∀ fd ∈ fds, fd.Legal)
    (hname : name ∈ Assoc.keys p.messages) : BeginsWithLetter name := by
  rw [h.keys_messages] at hname
  obtain ⟨e, he, rfl⟩ := List.mem_map.mp hname
  obtain ⟨fd, hfd, he⟩ := List.mem_flatMap.mp he
  exact (hlegal fd hfd).beginsWithLetter_messages he

theorem beginsWithLetter_enums (h : Holds p fds) (hlegal : ∀ fd ∈ fds, fd.Legal)
    (hname : name ∈ Assoc.keys p.enums) : BeginsWithLetter name := by
  rw [h.keys_enums] at hname
  obtain ⟨e, he, rfl⟩ := List.mem_map.mp hname
  obtain ⟨fd, hfd, he⟩ := List.mem_flatMap.mp he
  exact (hlegal fd hfd).beginsWithLetter_enums he

theorem unambiguous (h : Holds p fds) (hdistinct : Distinct fds)
    (hlegal : ∀ fd ∈ fds, fd.Legal) : p.Unambiguous := by
  refine ⟨⟨?_, ?_⟩, ⟨?_, ?_⟩, fun name => ?_⟩
  · exact Assoc.find_eq_none_iff.mpr fun hmem =>
      (h.beginsWithLetter_messages hlegal hmem).ne_nil rfl
  · exact Assoc.find_eq_none_iff.mpr fun hmem => (h.beginsWithLetter_enums hlegal hmem).ne_nil rfl
  · exact Assoc.find_eq_none_iff.mpr fun hmem =>
      (h.beginsWithLetter_messages hlegal hmem).ne_zero rfl
  · exact Assoc.find_eq_none_iff.mpr fun hmem => (h.beginsWithLetter_enums hlegal hmem).ne_zero rfl
  · have hdisjoint := (List.nodup_append.mp hdistinct.symbols).2.2
    rw [← h.keys_messages, ← h.keys_enums] at hdisjoint
    by_cases hmem : DescriptorPool.normalizeName name ∈ Assoc.keys p.messages
    · exact .inr (Assoc.find_eq_none_iff.mpr fun henum => hdisjoint _ hmem _ henum rfl)
    · exact .inl (Assoc.find_eq_none_iff.mpr hmem)

/-- Resolving the fields changes nothing else. -/
theorem resolveAll (h : Holds p fds) (hdistinct : Distinct fds)
    (hlegal : ∀ fd ∈ fds, fd.Legal) : Holds p.resolveAll fds ∧ p.resolveAll.Resolved := by
  have hresolved := DescriptorPool.resolved_resolveAll (h.unambiguous hdistinct hlegal) h.linked
  refine ⟨⟨h.files, ?_, h.enums, hresolved.linked, ?_, h.enumAddresses⟩, hresolved⟩
  · rw [DescriptorPool.resolveAll, List.map_map, ← h.messages]
    refine List.map_congr_left fun e _ => ?_
    simp only [Function.comp_apply, DescriptorPool.resolveMessage_shape]
  · rw [DescriptorPool.resolveAll, List.map_map]
    exact h.messageAddresses

end Holds

/-- The calls one after the other, up to the first that dies. -/
def Load.runAll (p : DescriptorPool) : List Load → Attempt DescriptorPool Die Unit
  | [] => (.ok (), p)
  | load :: loads => (load.run p).andThen fun _ p => runAll p loads

/-- The files that the calls are given. -/
def Load.ParsedAs (loads : List Load) (groups : List (List FileDescriptor)) : Prop :=
  List.Forall₂ (fun load fds => load.parsed = .ok fds) loads groups

/-- One call. -/
theorem Load.run_holds {load : Load} {gs fds : List FileDescriptor} {p : DescriptorPool}
    (hparsed : load.parsed = .ok gs) (hdistinct : Distinct (fds ++ gs))
    (hlegal : ∀ fd ∈ fds ++ gs, fd.Legal) (h : Holds p fds) :
    ∃ q, load.run p = (.ok (), q) ∧ Holds q (fds ++ gs) ∧ q.Resolved := by
  obtain ⟨files, q, hq, hadded⟩ := DescriptorPool.addFilesData_holds h hdistinct
    fun fd hfd => hlegal fd (List.mem_append_right _ hfd)
  refine ⟨q.resolveAll, ?_, hadded.resolveAll hdistinct hlegal⟩
  rw [Load.run_of_ok p hparsed, DescriptorPool.addFiles, hq, Attempt.andThen_ok]
  rfl

/-- Whatever the order and the grouping, the pool ends up with all files, and all fields
resolved. -/
theorem Load.runAll_holds {loads : List Load} {groups : List (List FileDescriptor)}
    {p : DescriptorPool} {fds : List FileDescriptor} (hparsed : Load.ParsedAs loads groups)
    (hdistinct : Distinct (fds ++ groups.flatten)) (hlegal : ∀ fd ∈ fds ++ groups.flatten, fd.Legal)
    (h : Holds p fds) (hresolved : p.Resolved) :
    ∃ q, Load.runAll p loads = (.ok (), q) ∧ Holds q (fds ++ groups.flatten) ∧ q.Resolved := by
  induction hparsed generalizing p fds with
  | nil => exact ⟨p, rfl, by simpa using h, hresolved⟩
  | @cons load gs loads groups hload hloads ih =>
      rw [List.flatten_cons, ← List.append_assoc] at hdistinct hlegal ⊢
      obtain ⟨q, hq, hholds, hdone⟩ := Load.run_holds hload hdistinct.left
        (fun fd hfd => hlegal fd (List.mem_append_left _ hfd)) h
      obtain ⟨r, hr, hall⟩ := ih hdistinct hlegal hholds hdone
      exact ⟨r, by rw [Load.runAll, hq, Attempt.andThen_ok, hr], hall⟩

/-! ### Oneofs -/

/-- The places of the fields that belong to a oneof. -/
def members (fs : List FieldDescriptor) (i : ℕ) : List ℕ :=
  (fs.zipIdx.filter fun e => e.1.oneofIndex = some (i : ℤ)).map Prod.snd

theorem members_concat (fs : List FieldDescriptor) (f : FieldDescriptor) (i : ℕ) :
    members (fs ++ [f]) i =
      members fs i ++ if f.oneofIndex = some (i : ℤ) then [fs.length] else [] := by
  unfold members
  rw [List.zipIdx_append, List.filter_append, List.map_append]
  split
  · rename_i h
    simp [h]
  · rename_i h
    simp [h]

theorem oneofPlace_of_lt {count i : ℕ} (h : i < count) (hsmall : (i : ℤ) < 2 ^ 31) :
    oneofPlace count i = some i := by
  have hmod : Int.bmod (i : ℤ) (2 ^ 64) = i := by
    rw [Int.bmod_eq_of_le]
    · omega
    · omega
  unfold oneofPlace
  rw [hmod, if_pos (Int.natCast_nonneg i), if_pos (Int.ofNat_lt.mpr h), Int.toNat_natCast]

theorem addField_of_none {fullName : PerlStr} {acc : List OneofObject × List FieldObject}
    {f : FieldDescriptor} (h : f.oneofIndex = none) :
    addField fullName acc f = (acc.1, acc.2 ++ [fieldObject fullName f none]) := by
  rw [addField, h, Option.bind_none]

theorem addField_of_lt {fullName : PerlStr} {acc : List OneofObject × List FieldObject}
    {f : FieldDescriptor} {i : ℕ} (h : f.oneofIndex = some (i : ℤ)) (hlt : i < acc.1.length)
    (hsmall : (i : ℤ) < 2 ^ 31) :
    addField fullName acc f =
      (acc.1.modify i fun o => { o with fields := o.fields ++ [acc.2.length] },
        acc.2 ++ [fieldObject fullName f (some i)]) := by
  rw [addField, h, Option.bind_some, oneofPlace_of_lt hlt hsmall]

/-- What the loop over fields gives when every index is that of a oneof. -/
theorem buildFields_eq {fullName : PerlStr} {m : MessageDescriptor}
    (h : ∀ f ∈ m.field, ∀ i ∈ f.oneofIndex, 0 ≤ i ∧ i < m.oneofDecl.length ∧ i < 2 ^ 31) :
    buildFields fullName m =
      (m.oneofDecl.mapIdx fun i o => ⟨o.name, i, members m.field i⟩,
        m.field.map fun f => fieldObject fullName f (f.oneofIndex.map Int.toNat)) := by
  unfold buildFields
  generalize m.field = fs at h ⊢
  induction fs using List.reverseRecOn with
  | nil => rfl
  | append_singleton fs f ih =>
      rw [List.foldl_append, ih fun g hg => h g (List.mem_append_left _ hg), List.foldl_cons,
        List.foldl_nil, List.map_append]
      cases hindex : f.oneofIndex with
      | none =>
          rw [addField_of_none hindex]
          simp [members_concat, hindex]
      | some i =>
          obtain ⟨hpos, hlt, hsmall⟩ := h f (by simp) i hindex
          obtain ⟨k, rfl⟩ := Int.eq_ofNat_of_zero_le hpos
          rw [addField_of_lt hindex (by simpa using hlt) hsmall]
          refine Prod.ext (List.ext_getElem? fun j => ?_) (by simp [hindex])
          rw [List.getElem?_modify, List.getElem?_mapIdx, List.getElem?_mapIdx, members_concat,
            hindex]
          by_cases hj : k = j
          · simp [hj, Function.comp_def]
          · simp [hj]

/-! ### What is found -/

/-- The object of a declared message: its fields in order, each with its oneof, and its oneofs in
order, each with its fields. -/
structure MessageObject.Describes (o : MessageObject) (fd : FileDescriptor)
    (e : PerlStr × MessageDescriptor) : Prop where
  name : o.name = e.2.name
  fullName : o.fullName = e.1
  file : o.file.shape = fd.key
  fields : o.fields.map FieldObject.shape =
    e.2.field.map fun f => fieldObject e.1 f (f.oneofIndex.map Int.toNat)
  oneofs : o.oneofs = e.2.oneofDecl.mapIdx fun i d => ⟨d.name, i, members e.2.field i⟩

/-- The pool finds what the files declare, and its fields have the types that they name. Objects
are known by their addresses. -/
structure Serves (p : DescriptorPool) (fds : List FileDescriptor) : Prop where
  message : ∀ fd ∈ fds, ∀ e ∈ fd.messages, ∃ o : MessageObject, o.Describes fd e ∧
    p.findMessageByName e.1 = some o ∧ p.findMessageByName (ps "." ++ e.1) = some o
  enum : ∀ fd ∈ fds, ∀ e ∈ fd.enums, ∃ o : EnumObject, o.shape = enumObject 0 fd.key e.1 e.2 ∧
    p.findEnumByName e.1 = some o ∧ p.findEnumByName (ps "." ++ e.1) = some o
  messageAddress : ∀ name name' o o', p.findMessageByName name = some o →
    p.findMessageByName name' = some o' → o.address = o'.address → o = o'
  enumAddress : ∀ name name' o o', p.findEnumByName name = some o →
    p.findEnumByName name' = some o' → o.address = o'.address → o = o'
  fieldType : ∀ name o, p.findMessageByName name = some o → ∀ f ∈ o.fields,
    f.messageType = (p.findMessageByName f.typeName).map MessageObject.address ∧
      f.enumType = (p.findEnumByName f.typeName).map EnumObject.address

/-- Every name finds the same in both pools, wherever the objects live. -/
structure SameLookups (p p' : DescriptorPool) : Prop where
  file : ∀ name, (p.findFileByName name).map (fun o => o.key.shape) =
    (p'.findFileByName name).map fun o => o.key.shape
  message : ∀ name, (p.findMessageByName name).map MessageObject.shape =
    (p'.findMessageByName name).map MessageObject.shape
  enum : ∀ name, (p.findEnumByName name).map EnumObject.shape =
    (p'.findEnumByName name).map EnumObject.shape

theorem normalizeName_of_beginsWithLetter {name : PerlStr} (h : BeginsWithLetter name) :
    DescriptorPool.normalizeName name = name := if_neg h.head?_ne_dot

/-- Entries with different addresses. -/
theorem eq_of_numbered {α : Type} {lo hi : ℕ} {address : α → ℕ} {t : List (PerlStr × α)}
    (h : Numbered lo hi (t.map fun e => address e.2)) {e e' : PerlStr × α} (he : e ∈ t)
    (he' : e' ∈ t) (heq : address e.2 = address e'.2) : e = e' := by
  have hnodup : (t.map fun e => address e.2).Nodup := h.sorted.imp fun hlt => hlt.ne
  exact List.inj_on_of_nodup_map hnodup he he' heq

namespace Holds

variable {p p' : DescriptorPool} {fds fds' : List FileDescriptor} {fd : FileDescriptor}

theorem nodup_messages (hdistinct : Distinct fds) :
    (Assoc.keys (fds.flatMap FileDescriptor.messageEntries)).Nodup := by
  rw [keys_messageEntries]
  exact hdistinct.symbols.of_append_left

theorem nodup_enums (hdistinct : Distinct fds) :
    (Assoc.keys (fds.flatMap FileDescriptor.enumEntries)).Nodup := by
  rw [keys_enumEntries]
  exact hdistinct.symbols.of_append_right

theorem find_message (h : Holds p fds) (hdistinct : Distinct fds) (hfd : fd ∈ fds)
    {e : PerlStr × MessageDescriptor} (he : e ∈ fd.messages) :
    (Assoc.find p.messages e.1).map MessageObject.shape =
      some (messageObject 0 fd.key e.1 e.2).shape := by
  rw [← Assoc.find_map, h.messages]
  refine Assoc.find_of_mem (nodup_messages hdistinct) (List.mem_flatMap.mpr ⟨fd, hfd, ?_⟩)
  exact List.mem_map.mpr ⟨e, he, rfl⟩

theorem find_enum (h : Holds p fds) (hdistinct : Distinct fds) (hfd : fd ∈ fds)
    {e : PerlStr × EnumDescriptor} (he : e ∈ fd.enums) :
    (Assoc.find p.enums e.1).map EnumObject.shape = some (enumObject 0 fd.key e.1 e.2) := by
  rw [← Assoc.find_map, h.enums]
  refine Assoc.find_of_mem (nodup_enums hdistinct) (List.mem_flatMap.mpr ⟨fd, hfd, ?_⟩)
  exact List.mem_map.mpr ⟨e, he, rfl⟩

theorem describes {o : MessageObject} {e : PerlStr × MessageDescriptor} (hlegal : fd.Legal)
    (he : e ∈ fd.messages) (h : o.shape = (messageObject 0 fd.key e.1 e.2).shape) :
    o.Describes fd e := by
  have hbuild : buildFields e.1 e.2 = _ := buildFields_eq (hlegal.oneofs e he)
  have hfields : o.fields.map FieldObject.shape =
      (buildFields e.1 e.2).2.map FieldObject.shape := congrArg MessageObject.fields h
  have honeofs : o.oneofs = (buildFields e.1 e.2).1 := congrArg MessageObject.oneofs h
  rw [hbuild] at hfields honeofs
  refine ⟨congrArg MessageObject.name h, congrArg MessageObject.fullName h,
    congrArg MessageObject.file h, hfields.trans ?_, honeofs⟩
  rw [List.map_map]
  rfl

theorem serves (h : Holds p fds) (hresolved : p.Resolved) (hdistinct : Distinct fds)
    (hlegal : ∀ fd ∈ fds, fd.Legal) : Serves p fds := by
  refine ⟨fun fd hfd e he => ?_, fun fd hfd e he => ?_, fun name name' o o' ho ho' heq => ?_,
    fun name name' o o' ho ho' heq => ?_, fun name o ho => ?_⟩
  · obtain ⟨o, ho, hshape⟩ := Option.map_eq_some_iff.mp (h.find_message hdistinct hfd he)
    have hletter := (hlegal fd hfd).beginsWithLetter_messages he
    refine ⟨o, describes (hlegal fd hfd) he hshape, ?_, ho⟩
    rw [DescriptorPool.findMessageByName, normalizeName_of_beginsWithLetter hletter, ho]
  · obtain ⟨o, ho, hshape⟩ := Option.map_eq_some_iff.mp (h.find_enum hdistinct hfd he)
    have hletter := (hlegal fd hfd).beginsWithLetter_enums he
    refine ⟨o, hshape, ?_, ho⟩
    rw [DescriptorPool.findEnumByName, normalizeName_of_beginsWithLetter hletter, ho]
  · have hentry := eq_of_numbered h.messageAddresses (Assoc.mem_of_find ho)
      (Assoc.mem_of_find ho') heq
    exact congrArg Prod.snd hentry
  · have hentry := eq_of_numbered h.enumAddresses (Assoc.mem_of_find ho) (Assoc.mem_of_find ho') heq
    exact congrArg Prod.snd hentry
  · exact hresolved _ (Assoc.mem_of_find ho)

theorem sameLookups (h : Holds p fds) (h' : Holds p' fds') (hdistinct : Distinct fds)
    (horder : fds.Perm fds') : SameLookups p p' := by
  refine ⟨fun name => ?_, fun name => ?_, fun name => ?_⟩
  · have hnodup : (Assoc.keys (fds.map fun fd => (fd.name, fd.key))).Nodup := by
      simpa [Assoc.keys, Function.comp_def] using hdistinct.files
    unfold DescriptorPool.findFileByName
    rw [← Assoc.find_map, ← Assoc.find_map, h.files, h'.files]
    exact Assoc.find_perm (horder.map _) hnodup name
  · unfold DescriptorPool.findMessageByName
    rw [← Assoc.find_map, ← Assoc.find_map, h.messages, h'.messages]
    exact Assoc.find_perm (horder.flatMap_right _) (nodup_messages hdistinct) _
  · unfold DescriptorPool.findEnumByName
    rw [← Assoc.find_map, ← Assoc.find_map, h.enums, h'.enums]
    exact Assoc.find_perm (horder.flatMap_right _) (nodup_enums hdistinct) _

end Holds

theorem holds_empty : Holds {} [] :=
  ⟨rfl, rfl, rfl, fun _ he => (List.not_mem_nil he).elim, .nil _ _, .nil _ _⟩

theorem Serves.perm {p : DescriptorPool} {fds fds' : List FileDescriptor} (h : Serves p fds)
    (horder : fds.Perm fds') : Serves p fds' :=
  ⟨fun fd hfd => h.message fd (horder.mem_iff.mpr hfd),
    fun fd hfd => h.enum fd (horder.mem_iff.mpr hfd), h.messageAddress, h.enumAddress, h.fieldType⟩

/-- In whatever order and grouping files without a common symbol are loaded, every call succeeds,
in the end all that they declare is found, with the types of its fields, and two orders give pools
that cannot be told apart. -/
theorem loads_spec {fds : List FileDescriptor} (hdistinct : Distinct fds)
    (hlegal : ∀ fd ∈ fds, fd.Legal) {loads loads' : List Load}
    {groups groups' : List (List FileDescriptor)} (hparsed : Load.ParsedAs loads groups)
    (hparsed' : Load.ParsedAs loads' groups') (horder : groups.flatten.Perm fds)
    (horder' : groups'.flatten.Perm fds) :
    ∃ p p', Load.runAll {} loads = (.ok (), p) ∧ Load.runAll {} loads' = (.ok (), p') ∧
      Serves p fds ∧ Serves p' fds ∧ SameLookups p p' := by
  have hrun : ∀ {loads : List Load} {groups : List (List FileDescriptor)},
      Load.ParsedAs loads groups → groups.flatten.Perm fds →
        ∃ p, Load.runAll {} loads = (.ok (), p) ∧ Holds p groups.flatten ∧ Serves p fds := by
    intro loads groups hparsed horder
    have hdistinct' := hdistinct.perm horder.symm
    have hlegal' : ∀ fd ∈ groups.flatten, fd.Legal :=
      fun fd hfd => hlegal fd (horder.mem_iff.mp hfd)
    obtain ⟨p, hp, hholds, hresolved⟩ : ∃ p, Load.runAll {} loads = (.ok (), p) ∧
        Holds p ([] ++ groups.flatten) ∧ p.Resolved :=
      Load.runAll_holds hparsed hdistinct' hlegal' holds_empty
        fun _ he => (List.not_mem_nil he).elim
    exact ⟨p, hp, hholds, (hholds.serves hresolved hdistinct' hlegal').perm horder⟩
  obtain ⟨p, hp, hholds, hserves⟩ := hrun hparsed horder
  obtain ⟨p', hp', hholds', hserves'⟩ := hrun hparsed' horder'
  refine ⟨p, p', hp, hp', hserves, hserves', ?_⟩
  exact hholds.sameLookups hholds' (hdistinct.perm horder.symm) (horder.trans horder'.symm)

/-- A message whose oneof has a field of the message type of `nestingFile`. -/
def dependentFile : FileDescriptor where
  name := ps "a"
  package := ps "p"
  messageType := [{
    name := ps "A"
    field := [{
      name := ps "b", number := 1, type := 11, typeName := ps ".p.B", oneofIndex := some 0 }]
    oneofDecl := [⟨ps "o"⟩] }]

/-- A message with an enum in it. -/
def nestingFile : FileDescriptor where
  name := ps "b"
  package := ps "p"
  messageType := [{ name := ps "B", enumType := [{ name := ps "E" }] }]

def dependentBytes : PerlStr :=
  [10, 1, 97, 18, 1, 112, 34, 25, 10, 1, 65, 18, 15, 10, 1, 98, 24, 1, 40, 11, 50, 4, 46, 112, 46,
    66, 72, 0, 66, 3, 10, 1, 111]

def nestingBytes : PerlStr := [10, 1, 98, 18, 1, 112, 34, 8, 10, 1, 66, 34, 3, 10, 1, 69]

/-- The two files one by one, the dependent one first, and as a set in the other order. -/
theorem loads_dependent_first :
    ∃ p p', Load.runAll {} [.file dependentBytes, .file nestingBytes] = (.ok (), p) ∧
      Load.runAll {} [.set (10 :: 16 :: nestingBytes ++ 10 :: 33 :: dependentBytes)] =
        (.ok (), p') ∧
      Serves p [dependentFile, nestingFile] ∧ Serves p' [dependentFile, nestingFile] ∧
        SameLookups p p' := by
  have hdistinct : Distinct [dependentFile, nestingFile] := ⟨by decide, by decide⟩
  have hlegal : ∀ fd ∈ [dependentFile, nestingFile], fd.Legal := by
    intro fd hfd
    simp only [List.mem_cons, List.not_mem_nil, or_false] at hfd
    rcases hfd with rfl | rfl
    · exact ⟨by decide, by decide, by decide, by decide⟩
    · exact ⟨by decide, by decide, by decide, by decide⟩
  have hparsed : Load.ParsedAs [.file dependentBytes, .file nestingBytes]
      [[dependentFile], [nestingFile]] := .cons rfl (.cons rfl .nil)
  have hparsed' : Load.ParsedAs [.set (10 :: 16 :: nestingBytes ++ 10 :: 33 :: dependentBytes)]
      [[nestingFile, dependentFile]] := .cons rfl .nil
  exact loads_spec hdistinct hlegal hparsed hparsed' (.refl _) (.swap _ _ _)

end GooglePerl.Protobuf
