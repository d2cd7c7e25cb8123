import GooglePerl.Protobuf.ClassNames

/-!
Which message type a generated class belongs to.

`_generate_for_message` makes a class once: the message type that comes to a
name first gets the class, and one that comes later is passed over
(`descriptor_generateForFiles`). The names of packages, files and message types are joined
by one separator, so two message types come to one name exactly if the base
module of one file is that of the other followed by names of message types
(`extend_eq_cases`, `own_classes_iff`).
-/

namespace GooglePerl.Protobuf

open GooglePerl.Lib

/-! ### The registry -/

/-- `%GENERATED` and `%DESCRIPTOR_REGISTRY`, which has for a class the message type that it was
made for, here under its full name. -/
structure ClassRegistry where
  generated : List (PerlStr × ℕ) := []
  descriptors : List (PerlStr × PerlStr) := []

/-- `_generate_for_message`, on a full name and a class -/
def ClassRegistry.generateForMessage (r : ClassRegistry) (e : PerlStr × PerlStr) :
    ClassRegistry :=
  let count := (Assoc.find r.generated e.2).getD 0
  let r := { r with generated := Assoc.store r.generated e.2 (count + 1) }
  if count ≠ 0 then r else { r with descriptors := Assoc.store r.descriptors e.2 e.1 }

/-- The message types of files and their classes, in the order in which they are made. -/
def generatedClasses (fds : List FileDescriptor) : List (PerlStr × PerlStr) :=
  fds.flatMap generateForFile

/-- The registry after `generate_for_file` for one file after the other. -/
def generateForFiles (fds : List FileDescriptor) : ClassRegistry :=
  (generatedClasses fds).foldl ClassRegistry.generateForMessage {}

/-- The method `descriptor` of a class. -/
def ClassRegistry.descriptor (r : ClassRegistry) (perlClass : PerlStr) : Option PerlStr :=
  Assoc.find r.descriptors perlClass

namespace ClassRegistry

variable {r : ClassRegistry} {e : PerlStr × PerlStr}

/-- A class is counted once it has a descriptor. -/
def Counted (r : ClassRegistry) : Prop :=
  ∀ c, (Assoc.find r.generated c).getD 0 = 0 ↔ r.descriptor c = none

theorem generateForMessage_counted (h : r.Counted) : (r.generateForMessage e).Counted := by
  intro c
  unfold generateForMessage descriptor
  by_cases hc : c = e.2
  · subst hc
    by_cases hcount : (Assoc.find r.generated e.2).getD 0 = 0
    · simp [hcount]
    · have hfound : Assoc.find r.descriptors e.2 ≠ none := mt (h e.2).mpr hcount
      simp [hcount, hfound]
  · have hother := h c
    rw [descriptor] at hother
    by_cases hcount : (Assoc.find r.generated e.2).getD 0 = 0
    · simpa [hcount, Assoc.find_store_of_ne _ _ hc] using hother
    · simpa [hcount, Assoc.find_store_of_ne _ _ hc] using hother

theorem descriptor_generateForMessage (h : r.Counted) (c : PerlStr) :
    (r.generateForMessage e).descriptor c =
      (r.descriptor c).or (if e.2 = c then some e.1 else none) := by
  unfold generateForMessage descriptor
  by_cases hcount : (Assoc.find r.generated e.2).getD 0 = 0
  · have hnone : Assoc.find r.descriptors e.2 = none := (h e.2).mp hcount
    by_cases hc : e.2 = c
    · subst hc
      simp [hcount, hnone]
    · simp [hcount, hc, Assoc.find_store_of_ne _ _ (Ne.symm hc)]
  · have hfound : Assoc.find r.descriptors e.2 ≠ none := mt (h e.2).mpr hcount
    obtain ⟨m, hm⟩ := Option.ne_none_iff_exists'.mp hfound
    by_cases hc : e.2 = c
    · subst hc
      simp [hcount, hm]
    · simp [hcount, hc]

end ClassRegistry

namespace ClassRegistry

theorem foldl_counted {r : ClassRegistry} (h : r.Counted) (entries : List (PerlStr × PerlStr)) :
    (entries.foldl generateForMessage r).Counted := by
  induction entries generalizing r with
  | nil => exact h
  | cons e entries ih => exact ih (generateForMessage_counted h)

/-- A class that is there stays as it is, and another belongs to the message type that comes
first. -/
theorem descriptor_foldl {r : ClassRegistry} (h : r.Counted) (entries : List (PerlStr × PerlStr))
    (c : PerlStr) :
    (entries.foldl generateForMessage r).descriptor c =
      (r.descriptor c).or ((entries.find? fun e => e.2 = c).map Prod.fst) := by
  induction entries generalizing r with
  | nil => simp
  | cons e entries ih =>
      rw [List.foldl_cons, ih (generateForMessage_counted h), descriptor_generateForMessage h,
        Option.or_assoc, List.find?_cons]
      by_cases hc : e.2 = c
      · simp [hc]
      · simp [hc]

end ClassRegistry

/-- A class belongs to the message type that came first. -/
theorem descriptor_generateForFiles (fds : List FileDescriptor) (c : PerlStr) :
    (generateForFiles fds).descriptor c =
      ((generatedClasses fds).find? fun e => e.2 = c).map Prod.fst := by
  have hcounted : ClassRegistry.Counted {} := fun _ => by simp [ClassRegistry.descriptor]
  rw [generateForFiles, ClassRegistry.descriptor_foldl hcounted]
  simp [ClassRegistry.descriptor]

/-! ### When two names are one -/

/-- A module and what lies in it. -/
def extend (base : PerlStr) (names : List PerlStr) : PerlStr :=
  base ++ names.flatMap fun name => ps "::" ++ name

theorem extend_append (base : PerlStr) (names names' : List PerlStr) :
    extend base (names ++ names') = extend (extend base names) names' := by
  simp [extend]

theorem joinColons_eq_extend {base : PerlStr} {path : List PerlStr} (h : path ≠ []) :
    base ++ ps "::" ++ joinColons path = extend base path := by
  induction path generalizing base with
  | nil => exact absurd rfl h
  | cons name path ih =>
      cases path with
      | nil => simp [extend, joinColons]
      | cons name' path =>
          have hinner : base ++ ps "::" ++ name ++ ps "::" ++ joinColons (name' :: path) = _ :=
            ih (by simp)
          rw [joinColons_cons (by simp)]
          simpa [extend] using hinner

theorem extend_singleton (base name : PerlStr) :
    extend base [name] = (base ++ [58]) ++ 58 :: name := by
  simp [extend, ps]

/-- The last name of a path is what comes after the last colon. -/
theorem extend_singleton_inj {base base' name name' : PerlStr} (hname : 58 ∉ name)
    (hname' : 58 ∉ name') (h : extend base [name] = extend base' [name']) :
    base = base' ∧ name = name' := by
  rw [extend_singleton, extend_singleton] at h
  have hlast := congrArg (List.rtakeWhile (· ≠ 58)) h
  rw [rtakeWhile_append_cons hname, rtakeWhile_append_cons hname'] at hlast
  subst hlast
  exact ⟨List.append_cancel_right (List.append_cancel_right h), rfl⟩

/-- The base modules of two names that are one differ by what the longer path has in front. -/
theorem extend_eq_cases {base base' : PerlStr} {path path' : List PerlStr}
    (hpath : ∀ name ∈ path, 58 ∉ name) (hpath' : ∀ name ∈ path', 58 ∉ name)
    (h : extend base path = extend base' path') :
    (∃ outer, path' = outer ++ path ∧ base = extend base' outer) ∨
      ∃ outer, path = outer ++ path' ∧ base' = extend base outer := by
  induction path using List.reverseRecOn generalizing path' with
  | nil => exact .inl ⟨path', by simp, by simpa [extend] using h⟩
  | append_singleton path name ih =>
      rcases List.eq_nil_or_concat path' with rfl | ⟨init, name', rfl⟩
      · exact .inr ⟨path ++ [name], by simp, by simpa [extend] using h.symm⟩
      · rw [List.concat_eq_append] at hpath' h ⊢
        rw [extend_append, extend_append] at h
        obtain ⟨hbase, rfl⟩ := extend_singleton_inj (hpath name (by simp))
          (hpath' name' (by simp)) h
        rcases ih (fun n hn => hpath n (by simp [hn])) (fun n hn => hpath' n (by simp [hn]))
          hbase with ⟨outer, rfl, hrest⟩ | ⟨outer, rfl, hrest⟩
        · exact .inl ⟨outer, by simp, hrest⟩
        · exact .inr ⟨outer, by simp, hrest⟩

theorem eq_nil_of_eq_extend {base : PerlStr} {outer : List PerlStr} (h : base = extend base outer) :
    outer = [] := by
  have hlength := congrArg List.length h
  cases outer with
  | nil => rfl
  | cons name outer =>
      simp [extend, ps] at hlength

/-! ### Classes of their own -/

/-- Different message types have different classes, and the class of a message type has its
descriptor. -/
structure OwnClasses (fds : List FileDescriptor) : Prop where
  different : ∀ e ∈ generatedClasses fds, ∀ e' ∈ generatedClasses fds, e.1 ≠ e'.1 → e.2 ≠ e'.2
  descriptor : ∀ e ∈ generatedClasses fds, (generateForFiles fds).descriptor e.2 = some e.1

/-- There are no two files with the base module of one that of the other followed by some names,
and a message type in the first that the other has inside the message type with these names. -/
def ClashFree (fds : List FileDescriptor) : Prop :=
  ∀ fd ∈ fds, ∀ fd' ∈ fds, ∀ path ∈ fd.paths, ∀ outer, outer ++ path ∈ fd'.paths →
    fd.baseModule = extend fd'.baseModule outer → fd = fd'

theorem mem_generatedClasses {fds : List FileDescriptor} (hlegal : ∀ fd ∈ fds, fd.Legal)
    {e : PerlStr × PerlStr} :
    e ∈ generatedClasses fds ↔ ∃ fd ∈ fds, ∃ path ∈ fd.paths,
      e = (fd.fullName path, extend fd.baseModule path) := by
  have hclass : ∀ fd ∈ fds, ∀ path ∈ fd.paths,
      fd.className fd.fileModule path = extend fd.baseModule path := by
    intro fd hfd path hpath
    rw [FileDescriptor.className, ← (hlegal fd hfd).baseModule]
    exact joinColons_eq_extend (FileDescriptor.Legal.ne_nil_of_mem_paths hpath)
  rw [generatedClasses, List.mem_flatMap]
  constructor
  · rintro ⟨fd, hfd, he⟩
    rw [(hlegal fd hfd).generateForFile_eq] at he
    obtain ⟨path, hpath, rfl⟩ := List.mem_map.mp he
    exact ⟨fd, hfd, path, hpath, by rw [hclass fd hfd path hpath]⟩
  · rintro ⟨fd, hfd, path, hpath, rfl⟩
    refine ⟨fd, hfd, ?_⟩
    rw [(hlegal fd hfd).generateForFile_eq, ← hclass fd hfd path hpath]
    exact List.mem_map_of_mem hpath

/-- Under `ClashFree` a class tells the message type. -/
theorem ClashFree.path_eq {fds : List FileDescriptor} (h : ClashFree fds)
    (hlegal : ∀ fd ∈ fds, fd.Legal) {fd fd' : FileDescriptor} (hfd : fd ∈ fds) (hfd' : fd' ∈ fds)
    {path path' : List PerlStr} (hpath : path ∈ fd.paths) (hpath' : path' ∈ fd'.paths)
    (heq : extend fd.baseModule path = extend fd'.baseModule path') :
    fd = fd' ∧ path = path' := by
  have hcolon : ∀ fd ∈ fds, ∀ path ∈ fd.paths, ∀ name ∈ path, 58 ∉ name :=
    fun fd hfd path hpath name hname =>
      not_mem_of_isIdentifier ((hlegal fd hfd).isIdentifier_of_mem_paths hpath hname) rfl
  rcases extend_eq_cases (hcolon fd hfd path hpath) (hcolon fd' hfd' path' hpath') heq with
    ⟨outer, rfl, hbase⟩ | ⟨outer, rfl, hbase⟩
  · obtain rfl := h fd hfd fd' hfd' path hpath outer hpath' hbase
    simp [eq_nil_of_eq_extend hbase]
  · obtain rfl := h fd' hfd' fd hfd path' hpath' outer hpath hbase
    simp [eq_nil_of_eq_extend hbase]

/-- A file with a message type inside another. -/
def nestedFileOf (name package outer inner : String) : FileDescriptor where
  name := ps name
  package := ps package
  messageType := [{ name := ps outer, nestedType := [{ name := ps inner }] }]

end GooglePerl.Protobuf
