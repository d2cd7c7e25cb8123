import GooglePerl.Lib.Assoc
import GooglePerl.Protobuf.DescriptorParser

/-!
The symbols that files declare, under their full names, and what the language
asks of them: names are identifiers, so no full name is empty, or false, or
begins with a dot.
-/

namespace GooglePerl.Protobuf

open GooglePerl.Lib

/-! ### What is declared -/

namespace MessageDescriptor

mutual

/-- The message types of a message type, itself first, under their full names. -/
def declared (pre : PerlStr) : MessageDescriptor → List (PerlStr × MessageDescriptor)
  | ⟨name, field, nestedType, enumType, oneofDecl, options⟩ =>
      (pre ++ name, ⟨name, field, nestedType, enumType, oneofDecl, options⟩) ::
        declaredAll (pre ++ name ++ ps ".") nestedType

def declaredAll (pre : PerlStr) : List MessageDescriptor → List (PerlStr × MessageDescriptor)
  | [] => []
  | m :: ms => m.declared pre ++ declaredAll pre ms

end

mutual

/-- The enums inside a message type. -/
def declaredEnums (pre : PerlStr) : MessageDescriptor → List (PerlStr × EnumDescriptor)
  | ⟨name, _, nestedType, enumType, _, _⟩ =>
      declaredEnumsAll (pre ++ name ++ ps ".") nestedType ++
        enumType.map fun e => (pre ++ name ++ ps "." ++ e.name, e)

def declaredEnumsAll (pre : PerlStr) : List MessageDescriptor → List (PerlStr × EnumDescriptor)
  | [] => []
  | m :: ms => m.declaredEnums pre ++ declaredEnumsAll pre ms

end

mutual

/-- The names from the outermost message type inwards, for a message type and those in it. -/
def paths : MessageDescriptor → List (List PerlStr)
  | ⟨name, _, nestedType, _, _, _⟩ => [name] :: (pathsAll nestedType).map fun path => name :: path

def pathsAll : List MessageDescriptor → List (List PerlStr)
  | [] => []
  | m :: ms => m.paths ++ pathsAll ms

end

end MessageDescriptor

namespace FileDescriptor

/-- What comes before the names of a file's symbols. -/
def scope (fd : FileDescriptor) : PerlStr := if fd.package = [] then [] else fd.package ++ ps "."

def messages (fd : FileDescriptor) : List (PerlStr × MessageDescriptor) :=
  MessageDescriptor.declaredAll fd.scope fd.messageType

def enums (fd : FileDescriptor) : List (PerlStr × EnumDescriptor) :=
  MessageDescriptor.declaredEnumsAll fd.scope fd.messageType ++
    fd.enumType.map fun e => (fd.scope ++ e.name, e)

def paths (fd : FileDescriptor) : List (List PerlStr) := MessageDescriptor.pathsAll fd.messageType

/-- The full name of the message type with these names. -/
def fullName (fd : FileDescriptor) (path : List PerlStr) : PerlStr :=
  fd.scope ++ [46].intercalate path

end FileDescriptor

/-! ### Legal files -/

def isLetter (c : ℕ) : Bool := (65 ≤ c && c ≤ 90) || (97 ≤ c && c ≤ 122) || c == 95

/-- A letter or an underscore, then letters, digits and underscores. -/
def isIdentifier : PerlStr → Bool
  | [] => false
  | c :: cs => isLetter c && cs.all fun c => isLetter c || (48 ≤ c && c ≤ 57)

theorem ne_nil_of_isIdentifier {s : PerlStr} (h : isIdentifier s) : s ≠ [] := by
  rintro rfl
  cases h

/-- A file of the language: its names are identifiers, and the index of a field's oneof, which is
a 32-bit number, is that of a oneof of its message. -/
structure FileDescriptor.Legal (fd : FileDescriptor) : Prop where
  package : fd.package ≠ [] → ∀ s ∈ fd.package.splitOn 46, isIdentifier s
  messages : ∀ e ∈ fd.messages, isIdentifier e.2.name
  enums : ∀ e ∈ fd.enums, isIdentifier e.2.name
  oneofs : ∀ e ∈ fd.messages, ∀ f ∈ e.2.field, ∀ i ∈ f.oneofIndex,
    0 ≤ i ∧ i < e.2.oneofDecl.length ∧ i < 2 ^ 31

/-- No file name and no symbol comes twice. -/
structure Distinct (fds : List FileDescriptor) : Prop where
  files : (fds.map FileDescriptor.name).Nodup
  symbols : (Assoc.keys (fds.flatMap FileDescriptor.messages) ++
    Assoc.keys (fds.flatMap FileDescriptor.enums)).Nodup

/-! ### Full names -/

namespace MessageDescriptor

variable {pre : PerlStr}

theorem ne_nil_of_mem_paths {m : MessageDescriptor} {path : List PerlStr} (h : path ∈ m.paths) :
    path ≠ [] := by
  cases m
  rw [paths] at h
  rcases List.mem_cons.mp h with rfl | h
  · simp
  · obtain ⟨inner, -, rfl⟩ := List.mem_map.mp h
    simp

theorem ne_nil_of_mem_pathsAll {ms : List MessageDescriptor} {path : List PerlStr}
    (h : path ∈ pathsAll ms) : path ≠ [] := by
  induction ms with
  | nil => cases h
  | cons m ms ih =>
      rw [pathsAll] at h
      rcases List.mem_append.mp h with h | h
      · exact ne_nil_of_mem_paths h
      · exact ih h

theorem mem_declaredAll_self {ms : List MessageDescriptor} {m : MessageDescriptor} (h : m ∈ ms) :
    (pre ++ m.name, m) ∈ declaredAll pre ms := by
  induction ms with
  | nil => cases h
  | cons m' ms ih =>
      rw [declaredAll]
      rcases List.mem_cons.mp h with rfl | h
      · exact List.mem_append_left _ (by cases m; simp [declared])
      · exact List.mem_append_right _ (ih h)

mutual

/-- The full name of what is declared inside a message type begins with that of the type. -/
theorem mem_declared : ∀ (m : MessageDescriptor) (pre : PerlStr),
    ∀ e ∈ m.declared pre, ∃ t, e.1 = pre ++ m.name ++ t
  | ⟨name, field, nestedType, enumType, oneofDecl, options⟩, pre, e, he => by
      rw [declared] at he
      rcases List.mem_cons.mp he with rfl | he
      · exact ⟨[], by simp⟩
      · obtain ⟨n, -, t, ht⟩ := mem_declaredAll nestedType _ e he
        exact ⟨ps "." ++ n.name ++ t, by simp [ht, List.append_assoc]⟩

theorem mem_declaredAll : ∀ (ms : List MessageDescriptor) (pre : PerlStr),
    ∀ e ∈ declaredAll pre ms, ∃ m ∈ ms, ∃ t, e.1 = pre ++ m.name ++ t
  | [], _, _, he => by cases he
  | m :: ms, pre, e, he => by
      rw [declaredAll] at he
      rcases List.mem_append.mp he with he | he
      · exact ⟨m, by simp, mem_declared m pre e he⟩
      · obtain ⟨m', hm', ht⟩ := mem_declaredAll ms pre e he
        exact ⟨m', by simp [hm'], ht⟩

end

mutual

theorem mem_declaredEnums : ∀ (m : MessageDescriptor) (pre : PerlStr),
    ∀ e ∈ m.declaredEnums pre, ∃ t, e.1 = pre ++ m.name ++ t
  | ⟨name, field, nestedType, enumType, oneofDecl, options⟩, pre, e, he => by
      rw [declaredEnums] at he
      rcases List.mem_append.mp he with he | he
      · obtain ⟨n, -, t, ht⟩ := mem_declaredEnumsAll nestedType _ e he
        exact ⟨ps "." ++ n.name ++ t, by simp [ht, List.append_assoc]⟩
      · obtain ⟨d, -, rfl⟩ := List.mem_map.mp he
        exact ⟨ps "." ++ d.name, by simp [List.append_assoc]⟩

theorem mem_declaredEnumsAll : ∀ (ms : List MessageDescriptor) (pre : PerlStr),
    ∀ e ∈ declaredEnumsAll pre ms, ∃ m ∈ ms, ∃ t, e.1 = pre ++ m.name ++ t
  | [], _, _, he => by cases he
  | m :: ms, pre, e, he => by
      rw [declaredEnumsAll] at he
      rcases List.mem_append.mp he with he | he
      · exact ⟨m, by simp, mem_declaredEnums m pre e he⟩
      · obtain ⟨m', hm', ht⟩ := mem_declaredEnumsAll ms pre e he
        exact ⟨m', by simp [hm'], ht⟩

end

mutual

theorem isIdentifier_of_mem_paths : ∀ (m : MessageDescriptor) (pre : PerlStr),
    (∀ e ∈ m.declared pre, isIdentifier e.2.name) →
      ∀ path ∈ m.paths, ∀ name ∈ path, isIdentifier name
  | ⟨name, field, nestedType, enumType, oneofDecl, options⟩, pre, h, path, hpath, n, hn => by
      rw [declared] at h
      have hself := h _ List.mem_cons_self
      rw [paths] at hpath
      rcases List.mem_cons.mp hpath with rfl | hpath
      · rwa [List.mem_singleton.mp hn]
      · obtain ⟨inner, hinner, rfl⟩ := List.mem_map.mp hpath
        rcases List.mem_cons.mp hn with rfl | hn
        · exact hself
        · exact isIdentifier_of_mem_pathsAll nestedType _
            (fun e he => h e (List.mem_cons_of_mem _ he)) inner hinner n hn

theorem isIdentifier_of_mem_pathsAll : ∀ (ms : List MessageDescriptor) (pre : PerlStr),
    (∀ e ∈ declaredAll pre ms, isIdentifier e.2.name) →
      ∀ path ∈ pathsAll ms, ∀ name ∈ path, isIdentifier name
  | [], _, _, _, hpath, _, _ => by cases hpath
  | m :: ms, pre, h, path, hpath, n, hn => by
      rw [declaredAll] at h
      rw [pathsAll] at hpath
      rcases List.mem_append.mp hpath with hpath | hpath
      · exact isIdentifier_of_mem_paths m pre (fun e he => h e (List.mem_append_left _ he))
          path hpath n hn
      · exact isIdentifier_of_mem_pathsAll ms pre (fun e he => h e (List.mem_append_right _ he))
          path hpath n hn

end

mutual

theorem keys_declared : ∀ (m : MessageDescriptor) (pre : PerlStr),
    Assoc.keys (m.declared pre) = m.paths.map fun path => pre ++ [46].intercalate path
  | ⟨name, field, nestedType, enumType, oneofDecl, options⟩, pre => by
      have hinner := keys_declaredAll nestedType (pre ++ name ++ ps ".")
      simp only [Assoc.keys] at hinner
      simp only [declared, paths, Assoc.keys, List.map_cons, hinner, List.map_map]
      rw [List.intercalate_singleton]
      refine congrArg (List.cons _) (List.map_congr_left fun path hpath => ?_)
      rw [Function.comp_apply, List.intercalate_cons_of_ne_nil (ne_nil_of_mem_pathsAll hpath)]
      simp [ps]

theorem keys_declaredAll : ∀ (ms : List MessageDescriptor) (pre : PerlStr),
    Assoc.keys (declaredAll pre ms) = (pathsAll ms).map fun path => pre ++ [46].intercalate path
  | [], _ => rfl
  | m :: ms, pre => by
      have hfirst := keys_declared m pre
      have hrest := keys_declaredAll ms pre
      simp only [Assoc.keys] at hfirst hrest
      simp only [declaredAll, pathsAll, Assoc.keys, List.map_append, hfirst, hrest]

end

end MessageDescriptor

/-- Such a text is neither empty nor `"0"` and has no dot in front. -/
def BeginsWithLetter (s : PerlStr) : Prop := ∃ c t, s = c :: t ∧ isLetter c = true

theorem beginsWithLetter_of_isIdentifier {s : PerlStr} (h : isIdentifier s) (t : PerlStr) :
    BeginsWithLetter (s ++ t) := by
  cases s with
  | nil => cases h
  | cons c cs =>
      simp only [isIdentifier, Bool.and_eq_true] at h
      exact ⟨c, cs ++ t, rfl, h.1⟩

namespace BeginsWithLetter

variable {s : PerlStr}

theorem ne_nil (h : BeginsWithLetter s) : s ≠ [] := by
  obtain ⟨c, t, rfl, -⟩ := h
  simp

theorem ne_zero (h : BeginsWithLetter s) : s ≠ ps "0" := by
  obtain ⟨c, t, rfl, hc⟩ := h
  rintro heq
  obtain ⟨rfl, -⟩ := List.cons.inj heq
  cases hc

theorem head?_ne_dot (h : BeginsWithLetter s) : s.head? ≠ some 46 := by
  obtain ⟨c, t, rfl, hc⟩ := h
  rintro heq
  obtain rfl := Option.some.inj heq
  cases hc

end BeginsWithLetter

namespace FileDescriptor.Legal

variable {fd : FileDescriptor}

theorem beginsWithLetter_package (h : fd.Legal) (hp : fd.package ≠ []) (t : PerlStr) :
    BeginsWithLetter (fd.package ++ t) := by
  have hsplit : [46].intercalate (fd.package.splitOn 46) = fd.package :=
    List.intercalate_splitOn 46
  cases hparts : fd.package.splitOn 46 with
  | nil => exact absurd hparts (List.splitOn_ne_nil _ _)
  | cons first rest =>
      have hfirst := h.package hp first (by simp [hparts])
      rw [← hsplit, hparts]
      cases rest with
      | nil => simpa using beginsWithLetter_of_isIdentifier hfirst t
      | cons second rest =>
          rw [List.intercalate_cons_cons, List.append_assoc, List.append_assoc]
          exact beginsWithLetter_of_isIdentifier hfirst _

theorem package_ne_zero (h : fd.Legal) : fd.package ≠ ps "0" := by
  intro hzero
  have hletter := h.beginsWithLetter_package (by simp [hzero, ps]) []
  rw [List.append_nil] at hletter
  exact hletter.ne_zero hzero

theorem beginsWithLetter_scope (h : fd.Legal) {name t : PerlStr} (hname : isIdentifier name) :
    BeginsWithLetter (fd.scope ++ name ++ t) := by
  unfold scope
  split
  · exact beginsWithLetter_of_isIdentifier hname t
  · rename_i hp
    rw [List.append_assoc, List.append_assoc]
    exact h.beginsWithLetter_package hp _

theorem beginsWithLetter_messages (h : fd.Legal) {e : PerlStr × MessageDescriptor}
    (he : e ∈ fd.messages) : BeginsWithLetter e.1 := by
  obtain ⟨m, hm, t, ht⟩ := MessageDescriptor.mem_declaredAll _ _ e he
  rw [ht]
  exact h.beginsWithLetter_scope (h.messages _ (MessageDescriptor.mem_declaredAll_self hm))

theorem beginsWithLetter_enums (h : fd.Legal) {e : PerlStr × EnumDescriptor}
    (he : e ∈ fd.enums) : BeginsWithLetter e.1 := by
  rcases List.mem_append.mp he with hnested | htop
  · obtain ⟨m, hm, t, ht⟩ := MessageDescriptor.mem_declaredEnumsAll _ _ e hnested
    rw [ht]
    exact h.beginsWithLetter_scope (h.messages _ (MessageDescriptor.mem_declaredAll_self hm))
  · obtain ⟨d, hd, rfl⟩ := List.mem_map.mp htop
    rw [← List.append_nil (fd.scope ++ d.name)]
    exact h.beginsWithLetter_scope (h.enums _ he)

theorem isIdentifier_of_mem_paths (h : fd.Legal) {path : List PerlStr} (hpath : path ∈ fd.paths)
    {name : PerlStr} (hname : name ∈ path) : isIdentifier name :=
  MessageDescriptor.isIdentifier_of_mem_pathsAll _ _ h.messages path hpath name hname

end FileDescriptor.Legal

theorem FileDescriptor.keys_messages (fd : FileDescriptor) :
    Assoc.keys fd.messages = fd.paths.map fd.fullName :=
  MessageDescriptor.keys_declaredAll fd.messageType fd.scope

/-! ### Orders -/

namespace Distinct

variable {fds fds' : List FileDescriptor}

theorem perm (h : Distinct fds) (hp : fds.Perm fds') : Distinct fds' := by
  refine ⟨(hp.map _).nodup_iff.mp h.files, ?_⟩
  have hmessages := (hp.flatMap_right FileDescriptor.messages).map Prod.fst
  have henums := (hp.flatMap_right FileDescriptor.enums).map Prod.fst
  exact (hmessages.append henums).nodup_iff.mp h.symbols

theorem left (h : Distinct (fds ++ fds')) : Distinct fds := by
  have hfiles := h.files
  have hsymbols := h.symbols
  rw [List.map_append] at hfiles
  simp only [Assoc.keys, List.flatMap_append, List.map_append] at hsymbols
  refine ⟨hfiles.of_append_left, hsymbols.sublist ?_⟩
  exact (List.sublist_append_left _ _).append (List.sublist_append_left _ _)

end Distinct

end GooglePerl.Protobuf
