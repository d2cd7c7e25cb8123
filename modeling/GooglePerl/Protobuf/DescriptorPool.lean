import GooglePerl.Lib.Assoc
import GooglePerl.Lib.Attempt
import GooglePerl.Protobuf.DescriptorParser

/-!
`Protobuf::DescriptorPool::PurePerl`: how files get into a pool.

An object is known by its address, which is taken from a counter; files have one
of their own. Dying leaves in the pool what was registered before, so the
functions that add return the pool beside the result.
-/

namespace GooglePerl.Protobuf

open GooglePerl.Lib

/-! ### Objects -/

/-- A file, as its messages refer to it. -/
structure FileKey where
  address : ℕ
  name : PerlStr
  package : PerlStr
  deriving DecidableEq

/-- `Descriptor::File::PurePerl` -/
structure FileObject where
  key : FileKey
  messageTypes : List ℕ
  enumTypes : List ℕ

/-- `Descriptor::FieldDef::PurePerl`. The oneof is known by its place in the message, the two
types by their addresses. -/
structure FieldObject where
  name : PerlStr
  number : ℤ
  type : ℤ
  label : ℤ
  fullName : PerlStr
  typeName : PerlStr
  containingOneof : Option ℕ
  messageType : Option ℕ := none
  enumType : Option ℕ := none

/-- `Descriptor::OneofDef::PurePerl`. Its fields are known by their places in the message. -/
structure OneofObject where
  name : PerlStr
  index : ℕ
  fields : List ℕ := []

/-- `Descriptor::MessageDef::PurePerl` -/
structure MessageObject where
  address : ℕ
  name : PerlStr
  fullName : PerlStr
  file : FileKey
  fields : List FieldObject
  oneofs : List OneofObject
  nestedTypes : List ℕ := []
  enumTypes : List ℕ := []
  options : Option Bool

/-- `Descriptor::EnumDef::PurePerl`, with the names and numbers of its values. -/
structure EnumObject where
  address : ℕ
  name : PerlStr
  fullName : PerlStr
  file : FileKey
  values : List (PerlStr × ℤ × PerlStr)

structure DescriptorPool where
  next : ℕ := 0
  nextFile : ℕ := 0
  files : List (PerlStr × FileObject) := []
  messages : List (PerlStr × MessageObject) := []
  enums : List (PerlStr × EnumObject) := []

/-! ### Fields and oneofs -/

/-- The place that `$oneof_objs[$oi]` reads: the index as a 64-bit integer, from the end if it is
negative. -/
def oneofPlace (count : ℕ) (oi : ℤ) : Option ℕ :=
  let i := Int.bmod oi (2 ^ 64)
  if 0 ≤ i then if i < count then some i.toNat else none
  else if 0 ≤ count + i then some (count + i).toNat else none

def fieldObject (fullName : PerlStr) (f : FieldDescriptor) (oneof : Option ℕ) : FieldObject where
  name := f.name
  number := f.number
  type := f.type
  label := f.label
  fullName := fullName ++ ps "." ++ f.name
  typeName := f.typeName
  containingOneof := oneof

/-- One turn of the loop over the fields of a message. -/
def addField (fullName : PerlStr) (acc : List OneofObject × List FieldObject)
    (f : FieldDescriptor) : List OneofObject × List FieldObject :=
  match f.oneofIndex.bind (oneofPlace acc.1.length) with
  | none => (acc.1, acc.2 ++ [fieldObject fullName f none])
  | some i =>
      (acc.1.modify i fun o => { o with fields := o.fields ++ [acc.2.length] },
        acc.2 ++ [fieldObject fullName f (some i)])

/-- The oneofs and the fields of a message. -/
def buildFields (fullName : PerlStr) (m : MessageDescriptor) :
    List OneofObject × List FieldObject :=
  m.field.foldl (addField fullName)
    (m.oneofDecl.mapIdx fun i o => { name := o.name, index := i }, [])

/-- The object of a message before its nested types are added. -/
def messageObject (address : ℕ) (file : FileKey) (fullName : PerlStr) (m : MessageDescriptor) :
    MessageObject where
  address := address
  name := m.name
  fullName := fullName
  file := file
  fields := (buildFields fullName m).2
  oneofs := (buildFields fullName m).1
  options := m.options

def enumObject (address : ℕ) (file : FileKey) (fullName : PerlStr) (e : EnumDescriptor) :
    EnumObject where
  address := address
  name := e.name
  fullName := fullName
  file := file
  values := e.value.map fun v => (v.name, v.number, fullName ++ ps "." ++ v.name)

/-! ### Adding -/

def alreadyDefined (fullName : PerlStr) : Die :=
  .croak (ps "Symbol already defined in this DescriptorPool: " ++ fullName)

namespace DescriptorPool

def registerMessage (p : DescriptorPool) (o : MessageObject) : DescriptorPool :=
  { p with next := p.next + 1, messages := p.messages ++ [(o.fullName, o)] }

def registerEnum (p : DescriptorPool) (o : EnumObject) : DescriptorPool :=
  { p with next := p.next + 1, enums := p.enums ++ [(o.fullName, o)] }

/-- A change to the object of a message. -/
def modifyMessage (p : DescriptorPool) (fullName : PerlStr) (f : MessageObject → MessageObject) :
    DescriptorPool :=
  { p with messages := p.messages.map fun e => if e.1 = fullName then (e.1, f e.2) else e }

/-- `push @{$m_obj->{_data}{nested_types}}` -/
def pushNestedType (fullName : PerlStr) (address : ℕ) (p : DescriptorPool) : DescriptorPool :=
  p.modifyMessage fullName fun o => { o with nestedTypes := o.nestedTypes ++ [address] }

/-- `push @{$m_obj->{_data}{enum_types}}` -/
def pushEnumType (fullName : PerlStr) (address : ℕ) (p : DescriptorPool) : DescriptorPool :=
  p.modifyMessage fullName fun o => { o with enumTypes := o.enumTypes ++ [address] }

/-- `_add_enum_data` -/
def addEnumData (file : FileKey) (e : EnumDescriptor) (pre : PerlStr) (p : DescriptorPool) :
    Attempt DescriptorPool Die ℕ :=
  let fullName := pre ++ e.name
  if (Assoc.find p.enums fullName).isSome then (.error (alreadyDefined fullName), p)
  else (.ok p.next, p.registerEnum (enumObject p.next file fullName e))

/-- The loops over enums; `push` keeps the address of each. -/
def addEnums (file : FileKey) (push : ℕ → DescriptorPool → DescriptorPool) (pre : PerlStr) :
    List EnumDescriptor → DescriptorPool → Attempt DescriptorPool Die (List ℕ)
  | [], p => (.ok [], p)
  | e :: es, p =>
      (addEnumData file e pre p).andThen fun address p =>
        (addEnums file push pre es (push address p)).andThen fun addresses p =>
          (.ok (address :: addresses), p)

mutual

/-- `_add_message_data` -/
def addMessageData (file : FileKey) :
    MessageDescriptor → PerlStr → DescriptorPool → Attempt DescriptorPool Die ℕ
  | ⟨name, field, nestedType, enumType, oneofDecl, options⟩, pre, p =>
      let fullName := pre ++ name
      if (Assoc.find p.messages fullName).isSome then (.error (alreadyDefined fullName), p)
      else
        let object := messageObject p.next file fullName
          ⟨name, field, nestedType, enumType, oneofDecl, options⟩
        let innerPrefix := fullName ++ ps "."
        (addMessages file (pushNestedType fullName) innerPrefix nestedType
            (p.registerMessage object)).andThen fun _ p =>
          (addEnums file (pushEnumType fullName) innerPrefix enumType p).andThen fun _ p =>
            (.ok object.address, p)

/-- The loops over messages. -/
def addMessages (file : FileKey) (push : ℕ → DescriptorPool → DescriptorPool) (pre : PerlStr) :
    List MessageDescriptor → DescriptorPool → Attempt DescriptorPool Die (List ℕ)
  | [], p => (.ok [], p)
  | m :: ms, p =>
      (addMessageData file m pre p).andThen fun address p =>
        (addMessages file push pre ms (push address p)).andThen fun addresses p =>
          (.ok (address :: addresses), p)

end

end DescriptorPool

/-- `$prefix` of a file -/
def FileDescriptor.symbolPrefix (fd : FileDescriptor) : PerlStr :=
  if fd.package = [] ∨ fd.package = ps "0" then [] else fd.package ++ ps "."

namespace DescriptorPool

/-- `_add_file_data` -/
def addFileData (p : DescriptorPool) (fd : FileDescriptor) :
    Attempt DescriptorPool Die FileObject :=
  let key : FileKey := ⟨p.nextFile, fd.name, fd.package⟩
  let pre := fd.symbolPrefix
  (addMessages key (fun _ p => p) pre fd.messageType p).andThen fun messageTypes p =>
    (addEnums key (fun _ p => p) pre fd.enumType p).andThen fun enumTypes p =>
      let file : FileObject := ⟨key, messageTypes, enumTypes⟩
      (.ok file, { p with nextFile := p.nextFile + 1, files := Assoc.store p.files fd.name file })

/-! ### Finding and resolving -/

/-- `_normalize_name` -/
def normalizeName (name : PerlStr) : PerlStr :=
  if name.head? = some 46 then name.tail else name

/-- `find_file_by_name` -/
def findFileByName (p : DescriptorPool) (name : PerlStr) : Option FileObject :=
  Assoc.find p.files name

/-- `find_message_by_name` -/
def findMessageByName (p : DescriptorPool) (name : PerlStr) : Option MessageObject :=
  Assoc.find p.messages (normalizeName name)

/-- `find_enum_by_name` -/
def findEnumByName (p : DescriptorPool) (name : PerlStr) : Option EnumObject :=
  Assoc.find p.enums (normalizeName name)

/-- What `_resolve_all` does with a field. -/
def resolveField (p : DescriptorPool) (f : FieldObject) : FieldObject :=
  if f.typeName = [] ∨ f.typeName = ps "0" then f
  else
    match p.findMessageByName f.typeName with
    | some m => { f with messageType := some m.address }
    | none =>
        match p.findEnumByName f.typeName with
        | some e => { f with enumType := some e.address }
        | none => f

def resolveMessage (p : DescriptorPool) (o : MessageObject) : MessageObject :=
  { o with fields := o.fields.map p.resolveField }

/-- `_resolve_all` -/
def resolveAll (p : DescriptorPool) : DescriptorPool :=
  { p with messages := p.messages.map fun e => (e.1, p.resolveMessage e.2) }

/-- The loop over the files of a set. -/
def addFilesData (p : DescriptorPool) :
    List FileDescriptor → Attempt DescriptorPool Die (List FileObject)
  | [] => (.ok [], p)
  | fd :: fds =>
      (p.addFileData fd).andThen fun file p =>
        (addFilesData p fds).andThen fun files p => (.ok (file :: files), p)

/-- `add_serialized_file`, once the file is parsed -/
def addFile (p : DescriptorPool) (fd : FileDescriptor) : Attempt DescriptorPool Die FileObject :=
  (p.addFileData fd).andThen fun file p => (.ok file, p.resolveAll)

/-- `add_serialized_file_descriptor_set`, once the files are parsed -/
def addFiles (p : DescriptorPool) (fds : List FileDescriptor) :
    Attempt DescriptorPool Die (List FileObject) :=
  (p.addFilesData fds).andThen fun files p => (.ok files, p.resolveAll)

/-- `add_serialized_file` -/
def addSerializedFile (p : DescriptorPool) (data : PerlStr) :
    Attempt DescriptorPool Die FileObject :=
  match parseFileDescriptor data with
  | .error why => (.error why, p)
  | .ok fd => p.addFile fd

/-- `add_serialized_file_descriptor_set` -/
def addSerializedFileDescriptorSet (p : DescriptorPool) (data : PerlStr) :
    Attempt DescriptorPool Die (List FileObject) :=
  match parseFileDescriptorSet data with
  | .error why => (.error why, p)
  | .ok fds => p.addFiles fds

end DescriptorPool

/-! ### Loading -/

/-- A call of one of the two methods. -/
inductive Load where
  | file (data : PerlStr)
  | set (data : PerlStr)

namespace Load

/-- The files of the input. -/
def parsed : Load → Except Die (List FileDescriptor)
  | .file data => (parseFileDescriptor data).map fun fd => [fd]
  | .set data => parseFileDescriptorSet data

/-- The call: whether it dies, and the pool after it. -/
def run (p : DescriptorPool) : Load → Attempt DescriptorPool Die Unit
  | .file data => ((p.addSerializedFile data).1.map fun _ => (), (p.addSerializedFile data).2)
  | .set data =>
      ((p.addSerializedFileDescriptorSet data).1.map fun _ => (),
        (p.addSerializedFileDescriptorSet data).2)

theorem run_of_error {load : Load} {why : Die} (p : DescriptorPool)
    (h : load.parsed = .error why) : load.run p = (.error why, p) := by
  cases load with
  | set data =>
      have hparse : parseFileDescriptorSet data = .error why := h
      simp only [run, DescriptorPool.addSerializedFileDescriptorSet, hparse]
      rfl
  | file data =>
      cases hparse : parseFileDescriptor data with
      | error why' =>
          simp only [parsed, hparse, Except.map, Except.error.injEq] at h
          simp only [run, DescriptorPool.addSerializedFile, hparse, Except.map, h]
      | ok fd => simp [parsed, hparse, Except.map] at h

/-- A file by itself is added like a set of one. -/
theorem run_of_ok {load : Load} {fds : List FileDescriptor} (p : DescriptorPool)
    (h : load.parsed = .ok fds) :
    load.run p = ((p.addFiles fds).1.map fun _ => (), (p.addFiles fds).2) := by
  cases load with
  | set data =>
      have hparse : parseFileDescriptorSet data = .ok fds := h
      simp only [run, DescriptorPool.addSerializedFileDescriptorSet, hparse]
  | file data =>
      cases hparse : parseFileDescriptor data with
      | error why' => simp [parsed, hparse, Except.map] at h
      | ok fd =>
          obtain rfl : [fd] = fds := by simpa [parsed, hparse, Except.map] using h
          simp only [run, DescriptorPool.addSerializedFile, hparse, DescriptorPool.addFile,
            DescriptorPool.addFiles, DescriptorPool.addFilesData]
          rcases p.addFileData fd with ⟨_ | _, _⟩ <;> rfl

end Load

/-! ### One symbol -/

namespace DescriptorPool

variable {file : FileKey} {pre : PerlStr} {p : DescriptorPool}

theorem addEnumData_of_mem {e : EnumDescriptor}
    (h : pre ++ e.name ∈ Assoc.keys p.enums) :
    addEnumData file e pre p = (.error (alreadyDefined (pre ++ e.name)), p) := by
  have hsome : (Assoc.find p.enums (pre ++ e.name)).isSome = true := by
    rw [Option.isSome_iff_ne_none]
    exact fun hnone => Assoc.find_eq_none_iff.mp hnone h
  rw [addEnumData, if_pos hsome]

theorem addEnumData_of_not_mem {e : EnumDescriptor}
    (h : pre ++ e.name ∉ Assoc.keys p.enums) :
    addEnumData file e pre p =
      (.ok p.next, p.registerEnum (enumObject p.next file (pre ++ e.name) e)) := by
  have hnone : ¬ (Assoc.find p.enums (pre ++ e.name)).isSome = true := by
    rw [Assoc.find_eq_none_iff.mpr h]
    simp
  rw [addEnumData, if_neg hnone]

theorem addMessageData_of_mem {m : MessageDescriptor}
    (h : pre ++ m.name ∈ Assoc.keys p.messages) :
    addMessageData file m pre p = (.error (alreadyDefined (pre ++ m.name)), p) := by
  have hsome : (Assoc.find p.messages (pre ++ m.name)).isSome = true := by
    rw [Option.isSome_iff_ne_none]
    exact fun hnone => Assoc.find_eq_none_iff.mp hnone h
  cases m
  rw [addMessageData, if_pos hsome]

/-- The pool in which the nested types of a new message are added. -/
theorem addMessageData_of_not_mem {m : MessageDescriptor}
    (h : pre ++ m.name ∉ Assoc.keys p.messages) :
    addMessageData file m pre p =
      (addMessages file (pushNestedType (pre ++ m.name)) (pre ++ m.name ++ ps ".") m.nestedType
          (p.registerMessage (messageObject p.next file (pre ++ m.name) m))).andThen fun _ p' =>
        (addEnums file (pushEnumType (pre ++ m.name)) (pre ++ m.name ++ ps ".") m.enumType
            p').andThen fun _ p' =>
          (.ok p.next, p') := by
  have hnone : ¬ (Assoc.find p.messages (pre ++ m.name)).isSome = true := by
    rw [Assoc.find_eq_none_iff.mpr h]
    simp
  cases m
  rw [addMessageData, if_neg hnone]
  rfl

end DescriptorPool

end GooglePerl.Protobuf
