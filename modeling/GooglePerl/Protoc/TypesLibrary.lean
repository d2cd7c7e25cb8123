import GooglePerl.Protobuf.Declarations
import Mathlib.Data.List.Perm.Basic

/-!
`GenerateTypes` of `protoc/generator.cc`: the library of types for the messages and enums of a
file.

A type is declared under its short name, wherever it is nested, and a message under two more
names made from that. `Type::Library` takes no name twice, so the library loads exactly if the
short names are different and none looks like one that is made (`declaresOnce_iff`).
-/

namespace GooglePerl.Protoc

open GooglePerl.Lib GooglePerl.Protobuf

/-! ### The source -/

/-- A statement of the library. -/
inductive TypeStatement where
  | declare (name base : PerlStr)
  | coerce (name source : PerlStr)
  deriving DecidableEq

namespace TypeStatement

def text : TypeStatement → PerlStr
  | declare name base => ps "declare '" ++ name ++ ps "',\n    as " ++ base ++ ps ";\n\n"
  | coerce name source => ps "coerce '" ++ name ++ ps "',\n    from " ++ source ++ ps ";\n\n"

/-- The name that a statement declares. -/
def declared? : TypeStatement → Option PerlStr
  | declare name _ => some name
  | coerce _ _ => none

end TypeStatement

def repeatedName (name : PerlStr) : PerlStr := ps "Repeated" ++ name

def mapStringName (name : PerlStr) : PerlStr := ps "MapString" ++ name

/-- `PrintMessageTypes` -/
def printMessageTypes (name currentPackage : PerlStr) : List TypeStatement :=
  let fullPerlClass := currentPackage ++ ps "::" ++ name
  let construct := ps "'" ++ fullPerlClass ++ ps "'->new($_)"
  [.declare name (ps "InstanceOf['" ++ fullPerlClass ++ ps "']"),
    .coerce name (ps "HashRef, via \x7b " ++ construct ++ ps " \x7d"),
    .declare (repeatedName name) (ps "ArrayRef[" ++ name ++ ps "()]"),
    .coerce (repeatedName name)
      (ps "ArrayRef[HashRef], via \x7b [ map \x7b " ++ construct ++ ps " \x7d @$_ ] \x7d"),
    .declare (mapStringName name) (ps "HashRef[" ++ name ++ ps "()]")]

/-- `PrintEnumTypes` -/
def printEnumTypes (e : EnumDescriptor) : TypeStatement := .declare e.name (ps "(Int | Str)")

mutual

/-- `PrintTypesRecursively` -/
def printTypesRecursively (currentPackage : PerlStr) : MessageDescriptor → List TypeStatement
  | ⟨name, _, nestedType, enumType, _, _⟩ =>
      printMessageTypes name currentPackage ++ enumType.map printEnumTypes ++
        printTypesAll (currentPackage ++ ps "::" ++ name) nestedType

def printTypesAll (currentPackage : PerlStr) : List MessageDescriptor → List TypeStatement
  | [] => []
  | m :: ms => printTypesRecursively currentPackage m ++ printTypesAll currentPackage ms

end

/-- What `GenerateTypes` puts between the first lines and the last. -/
def typeStatements (packageName : PerlStr) (fd : FileDescriptor) : List TypeStatement :=
  fd.enumType.map printEnumTypes ++ printTypesAll packageName fd.messageType

/-- `GenerateTypes` -/
def generateTypes (packageName : PerlStr) (fd : FileDescriptor) : PerlStr :=
  ps "package " ++ packageName ++ ps "::Types;\n\n" ++ ps "use strict;\nuse warnings;\n\n" ++
    ps "use Type::Library -base;\nuse Type::Utils -all;\nuse Types::Standard -types;\n\n" ++
    (typeStatements packageName fd).flatMap TypeStatement.text ++ ps "1;\n"

/-! ### What is declared -/

def messageNames (fd : FileDescriptor) : List PerlStr := fd.messages.map fun e => e.2.name

def enumNames (fd : FileDescriptor) : List PerlStr := fd.enums.map fun e => e.2.name

/-- The short names of the types of a file. -/
def typeNames (fd : FileDescriptor) : List PerlStr := messageNames fd ++ enumNames fd

/-- The names under which a message is declared. -/
def messageForms (name : PerlStr) : List PerlStr := [name, repeatedName name, mapStringName name]

def declaredNames (packageName : PerlStr) (fd : FileDescriptor) : List PerlStr :=
  (typeStatements packageName fd).filterMap TypeStatement.declared?

theorem declared_messageTypes (name package : PerlStr) :
    (printMessageTypes name package).filterMap TypeStatement.declared? = messageForms name := rfl

theorem declared_enumTypes (es : List EnumDescriptor) :
    (es.map printEnumTypes).filterMap TypeStatement.declared? = es.map fun e => e.name := by
  rw [List.filterMap_map, ← List.filterMap_eq_map]
  rfl

mutual

theorem declared_typesRecursively (package pre : PerlStr) :
    (m : MessageDescriptor) →
      ((printTypesRecursively package m).filterMap TypeStatement.declared?).Perm
        (((m.declared pre).map fun e => e.2.name).flatMap messageForms ++
          (m.declaredEnums pre).map fun e => e.2.name)
  | ⟨name, field, nestedType, enumType, oneofDecl, options⟩ => by
      have hnested := declared_typesAll (package ++ ps "::" ++ name) (pre ++ name ++ ps ".")
        nestedType
      rw [List.perm_iff_count] at hnested ⊢
      intro a
      have hcount := hnested a
      simp only [printTypesRecursively, MessageDescriptor.declared, MessageDescriptor.declaredEnums,
        List.filterMap_append, declared_messageTypes, declared_enumTypes, List.map_cons,
        List.flatMap_cons, List.map_append, List.map_map, Function.comp_def,
        List.count_append] at hcount ⊢
      omega

theorem declared_typesAll (package pre : PerlStr) :
    (ms : List MessageDescriptor) →
      ((printTypesAll package ms).filterMap TypeStatement.declared?).Perm
        (((MessageDescriptor.declaredAll pre ms).map fun e => e.2.name).flatMap messageForms ++
          (MessageDescriptor.declaredEnumsAll pre ms).map fun e => e.2.name)
  | [] => by
      simp [printTypesAll, MessageDescriptor.declaredAll, MessageDescriptor.declaredEnumsAll]
  | m :: ms => by
      have hm := declared_typesRecursively package pre m
      have hms := declared_typesAll package pre ms
      rw [List.perm_iff_count] at hm hms ⊢
      intro a
      have hcount := hm a
      have hcounts := hms a
      simp only [printTypesAll, MessageDescriptor.declaredAll, MessageDescriptor.declaredEnumsAll,
        List.filterMap_append, List.map_append, List.flatMap_append,
        List.count_append] at hcount hcounts ⊢
      omega

end

/-- Each message is declared under three names and each enum under one. -/
theorem declaredNames_perm (package : PerlStr) (fd : FileDescriptor) :
    (declaredNames package fd).Perm ((messageNames fd).flatMap messageForms ++ enumNames fd) := by
  have hmessages := declared_typesAll package fd.scope fd.messageType
  rw [List.perm_iff_count] at hmessages ⊢
  intro a
  have hcount := hmessages a
  simp only [declaredNames, typeStatements, messageNames, enumNames, FileDescriptor.messages,
    FileDescriptor.enums, List.filterMap_append, declared_enumTypes, List.map_append,
    List.map_map, Function.comp_def, List.count_append] at hcount ⊢
  omega

/-! ### When no name comes twice -/

theorem flatMap_messageForms_perm (names : List PerlStr) :
    (names.flatMap messageForms).Perm
      (names ++ (names.map repeatedName ++ names.map mapStringName)) := by
  induction names with
  | nil => simp
  | cons name names ih =>
      rw [List.perm_iff_count] at ih ⊢
      intro a
      have hcount := ih a
      simp only [List.flatMap_cons, messageForms, List.count_append, List.map_cons,
        List.count_cons, List.count_nil] at hcount ⊢
      omega

theorem repeatedName_injective : Function.Injective repeatedName := fun _ _ h =>
  List.append_cancel_left h

theorem mapStringName_injective : Function.Injective mapStringName := fun _ _ h =>
  List.append_cancel_left h

theorem repeatedName_ne_mapStringName (name name' : PerlStr) :
    repeatedName name ≠ mapStringName name' := by
  intro h
  have hhead := congrArg List.head? h
  cases hhead

/-- No two types have one short name, and no type is named like what is made from the name of a
message. -/
structure ShortNamesOwn (fd : FileDescriptor) : Prop where
  types : (typeNames fd).Nodup
  derived : ∀ m ∈ messageNames fd, ∀ t ∈ typeNames fd, t ≠ repeatedName m ∧ t ≠ mapStringName m

/-- A library declares each type once exactly if the short names of the file are its own. -/
theorem declaresOnce_iff (package : PerlStr) (fd : FileDescriptor) :
    (declaredNames package fd).Nodup ↔ ShortNamesOwn fd := by
  have hforms : (declaredNames package fd).Perm
      ((messageNames fd ++ enumNames fd) ++
        ((messageNames fd).map repeatedName ++ (messageNames fd).map mapStringName)) := by
    refine (declaredNames_perm package fd).trans ?_
    refine ((flatMap_messageForms_perm _).append_right _).trans ?_
    rw [List.append_assoc (messageNames fd), List.append_assoc (messageNames fd)]
    exact List.perm_append_comm.append_left _
  rw [hforms.nodup_iff]
  constructor
  · intro h
    obtain ⟨htypes, -, hdisjoint⟩ := List.nodup_append'.mp h
    refine ⟨htypes, fun m hm t ht => ⟨?_, ?_⟩⟩
    · rintro rfl
      exact hdisjoint ht (List.mem_append_left _ (List.mem_map_of_mem hm))
    · rintro rfl
      exact hdisjoint ht (List.mem_append_right _ (List.mem_map_of_mem hm))
  · intro h
    have hmessages : (messageNames fd).Nodup := (List.nodup_append'.mp h.types).1
    refine List.nodup_append'.mpr ⟨h.types, List.nodup_append'.mpr ⟨?_, ?_, ?_⟩, ?_⟩
    · exact hmessages.map repeatedName_injective
    · exact hmessages.map mapStringName_injective
    · rintro t hrepeated hmap
      obtain ⟨m, -, rfl⟩ := List.mem_map.mp hrepeated
      obtain ⟨m', -, hname⟩ := List.mem_map.mp hmap
      exact repeatedName_ne_mapStringName m m' hname.symm
    · rintro t ht hderived
      rcases List.mem_append.mp hderived with hrepeated | hmap
      · obtain ⟨m, hm, rfl⟩ := List.mem_map.mp hrepeated
        exact (h.derived m hm _ ht).1 rfl
      · obtain ⟨m, hm, rfl⟩ := List.mem_map.mp hmap
        exact (h.derived m hm _ ht).2 rfl

/-- Two messages with a map field `labels` each: both have an entry type of one name. -/
theorem not_declaresOnce_labels :
    ¬ (declaredNames (ps "P::F")
      { messageType :=
          [{ name := ps "A", nestedType := [{ name := ps "LabelsEntry", options := some true }] },
            { name := ps "B", nestedType := [{ name := ps "LabelsEntry", options := some true }] }]
        : FileDescriptor }).Nodup := by
  decide

end GooglePerl.Protoc
