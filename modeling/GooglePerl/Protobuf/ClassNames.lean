import GooglePerl.Lib.Split
import GooglePerl.Protobuf.Declarations
import GooglePerl.Protobuf.DescriptorPool

/-!
The four ways from a message type to the name of its Perl class.

`generate_for_file` of `Protobuf::ClassGenerator` names the classes that it
makes, `_get_perl_class_for_mdef` the classes that field accessors ask for,
`PerlUpb_GetMessageStash` the classes that decoded sub-messages are blessed
into, and the `protoc` plugin the classes that generated clients call. Names
are octets without NUL. All four put the package, the file and the message
types together in one way, but for capitals, dots and files without a package
(`names_agree_iff`).
-/

namespace GooglePerl.Protobuf

open GooglePerl.Lib

/-! ### Texts -/

def upper (c : ℕ) : ℕ := if 97 ≤ c ∧ c ≤ 122 then c - 32 else c

/-- `ucfirst`, `_capitalize_segment` -/
def ucfirst : PerlStr → PerlStr
  | [] => []
  | c :: cs => upper c :: cs

def joinColons (segments : List PerlStr) : PerlStr := (ps "::").intercalate segments

/-- `s/^\.//` -/
def stripDot (s : PerlStr) : PerlStr := if s.head? = some 46 then s.tail else s

/-- `basename` of `File::Basename` -/
def basename (path : PerlStr) : PerlStr :=
  let stripped := path.take 1 ++ path.tail.rdropWhile (· = 47)
  let base := stripped.rtakeWhile (· ≠ 47)
  let directory := stripped.rdropWhile (· ≠ 47)
  if base ≠ [] then base else if directory ≠ [] then directory else ps "./"

/-- `s/.*\///`, at the first place where it matches. A dot matches no newline. -/
def stripDirectories : PerlStr → PerlStr
  | [] => []
  | c :: cs =>
      if 47 ∈ (c :: cs).takeWhile (· ≠ 10) then
        ((c :: cs).takeWhile (· ≠ 10)).rtakeWhile (· ≠ 47) ++ (c :: cs).dropWhile (· ≠ 10)
      else c :: stripDirectories cs

/-- `s/\..*//` -/
def stripExtension : PerlStr → PerlStr
  | [] => []
  | c :: cs => if c = 46 then cs.dropWhile (· ≠ 10) else c :: stripExtension cs

/-! ### `Protobuf::ClassGenerator` -/

namespace FileDescriptor

/-- `$file_module` -/
def fileModule (fd : FileDescriptor) : PerlStr :=
  ((splitFields 95 (stripExtension (stripDirectories fd.name))).map ucfirst).flatten

/-- `$base_module` -/
def baseModule (fd : FileDescriptor) : PerlStr :=
  let package := joinColons ((splitFields 46 fd.package).map ucfirst)
  if package = [] ∨ package = ps "0" then fd.fileModule else package ++ ps "::" ++ fd.fileModule

end FileDescriptor

/-- `$perl_class` in `_generate_for_message`. The pattern that looks for a name that is there
already has the address of the descriptor in it, and does not match. -/
def messageClass (ns name : PerlStr) : PerlStr := ns ++ ps "::" ++ name

mutual

/-- `_generate_recursively`: the full name and the class of each message type -/
def generateRecursively (pre ns : PerlStr) : MessageDescriptor → List (PerlStr × PerlStr)
  | ⟨name, _, nestedType, _, _, _⟩ =>
      (pre ++ name, messageClass ns name) ::
        generateAll (pre ++ name ++ ps ".") (ns ++ ps "::" ++ name) nestedType

def generateAll (pre ns : PerlStr) : List MessageDescriptor → List (PerlStr × PerlStr)
  | [] => []
  | m :: ms => generateRecursively pre ns m ++ generateAll pre ns ms

end

/-- `generate_for_file` -/
def generateForFile (fd : FileDescriptor) : List (PerlStr × PerlStr) :=
  generateAll fd.symbolPrefix fd.baseModule fd.messageType

/-- `s/^\Q$pkg\E\.//`, where there is a package -/
def stripPackage (package fullName : PerlStr) : PerlStr :=
  if package = [] ∨ package = ps "0" then fullName
  else if (package ++ ps ".").isPrefixOf fullName then fullName.drop (package.length + 1)
  else fullName

/-- `_get_perl_class_for_mdef` -/
def getPerlClassForMdef (file : Option FileDescriptor) (fullName : PerlStr) : PerlStr :=
  let fullName := DescriptorPool.normalizeName fullName
  match file with
  | none => joinColons ((splitFields 46 fullName).map ucfirst)
  | some fd =>
      fd.baseModule ++ ps "::" ++
        joinColons ((splitFields 46 (stripPackage fd.package fullName)).map ucfirst)

/-! ### `xs/protobuf/utils.c` -/

/-- The loop of `capitalize_path`; `previous` is the character before. -/
def capitalizeFrom (previous : Option ℕ) : PerlStr → PerlStr
  | [] => []
  | c :: cs =>
      if previous = none ∨ previous = some 46 then upper c :: capitalizeFrom (some c) cs
      else if c = 46 then 58 :: 58 :: capitalizeFrom (some c) cs
      else c :: capitalizeFrom (some c) cs

/-- `capitalize_path` -/
def capitalizePath (s : PerlStr) : Option PerlStr := if s = [] then none else capitalizeFrom none s

/-- The loop of `get_file_module`; `first` as in the source. -/
def camelFrom (first : Bool) (previous : Option ℕ) : PerlStr → PerlStr
  | [] => []
  | c :: cs =>
      if first ∨ previous = some 95 then
        if c = 95 then camelFrom first (some c) cs else upper c :: camelFrom false (some c) cs
      else if c = 95 then camelFrom false (some c) cs
      else c :: camelFrom false (some c) cs

/-- `get_file_module` -/
def getFileModule (protoFile : PerlStr) : PerlStr :=
  camelFrom true none ((protoFile.rtakeWhile (· ≠ 47)).takeWhile (· ≠ 46))

/-- `rel_name` -/
def relativeName (package fullName : PerlStr) : PerlStr :=
  let name := if fullName.head? = some 46 then fullName.tail else fullName
  if package ≠ [] ∧ package.isPrefixOf name then
    let rest := name.drop package.length
    if rest.head? = some 46 then rest.tail else rest
  else name

/-- `PerlUpb_GetMessageStash`: the name of the stash -/
def getMessageStash (fd : FileDescriptor) (fullName : PerlStr) : PerlStr :=
  let path := (capitalizePath (relativeName fd.package fullName)).getD (ps "UnknownMessage")
  match capitalizePath fd.package with
  | some package => package ++ ps "::" ++ getFileModule fd.name ++ ps "::" ++ path
  | none => getFileModule fd.name ++ ps "::" ++ path

/-! ### `protoc/generator.cc` -/

/-- `SplitString`: no empty part at the end -/
def splitString (delim : ℕ) (s : PerlStr) : List PerlStr :=
  if (s.splitOn delim).getLast? = some [] then (s.splitOn delim).dropLast else s.splitOn delim

/-- `ToCamelCase` -/
def toCamelCase (s : PerlStr) : PerlStr := (splitString 95 s).flatMap ucfirst

/-- `CapitalizePackage` -/
def capitalizePackage (s : PerlStr) : PerlStr := joinColons ((splitString 46 s).map ucfirst)

/-- What comes before the last dot. -/
def beforeLastDot (s : PerlStr) : PerlStr :=
  if 46 ∈ s then (s.rdropWhile (· ≠ 46)).dropLast else s

/-- `GetPerlPackage` -/
def getPerlPackage (fd : FileDescriptor) : PerlStr :=
  let file := toCamelCase (beforeLastDot (fd.name.rtakeWhile (· ≠ 47)))
  if capitalizePackage fd.package = [] then file
  else capitalizePackage fd.package ++ ps "::" ++ file

mutual

/-- `RegisterTypesRecursively`: what is put into the map -/
def registerTypesRecursively (protoPrefix perlPrefix : PerlStr) :
    MessageDescriptor → List (PerlStr × PerlStr)
  | ⟨name, _, nestedType, _, _, _⟩ =>
      let fullProto := protoPrefix ++ ps "." ++ name
      let fullPerl := perlPrefix ++ ps "::" ++ name
      (fullProto, fullPerl) :: registerAll fullProto fullPerl nestedType

def registerAll (protoPrefix perlPrefix : PerlStr) :
    List MessageDescriptor → List (PerlStr × PerlStr)
  | [] => []
  | m :: ms =>
      registerTypesRecursively protoPrefix perlPrefix m ++ registerAll protoPrefix perlPrefix ms

end

/-- `BuildPackageMap` -/
def buildPackageMap (files : List FileDescriptor) : List (PerlStr × PerlStr) :=
  Assoc.assignAll [] (files.map fun fd => (fd.name, getPerlPackage fd))

/-- `BuildTypeMap` -/
def buildTypeMap (files : List FileDescriptor) : List (PerlStr × PerlStr) :=
  Assoc.assignAll [] (files.flatMap fun fd =>
    registerAll (ps "." ++ fd.package) ((Assoc.find (buildPackageMap files) fd.name).getD [])
      fd.messageType)

/-- `ResolvePerlClass` -/
def resolvePerlClass (files : List FileDescriptor) (protoType : PerlStr) : PerlStr :=
  match Assoc.find (buildTypeMap files) protoType with
  | some perlClass => perlClass
  | none => capitalizePackage (if protoType.head? = some 46 then protoType.tail else protoType)

/-! ### File names -/

/-- Words between underscores, each with a capital; `start` says whether one begins here. -/
def camel (start : Bool) : PerlStr → PerlStr
  | [] => []
  | c :: cs =>
      if c = 95 then camel true cs else (if start then upper c else c) :: camel false cs

theorem camelFrom_eq (first : Bool) (previous : Option ℕ) (t : PerlStr) :
    camelFrom first previous t = camel (first || previous = some 95) t := by
  induction t generalizing first previous with
  | nil => rfl
  | cons c t ih =>
      rw [camelFrom, camel]
      by_cases hc : c = 95
      · simp [hc, ih]
      · by_cases hstart : first = true ∨ previous = some 95
        · rw [if_pos hstart, if_neg hc, if_neg hc, ih, if_pos (by simpa using hstart)]
          simp [hc]
        · rw [if_neg hstart, if_neg hc, if_neg hc, ih, if_neg (by simpa using hstart)]
          simp [hc]

/-- A text split at underscores, from the start of a word and from the middle of one. -/
theorem camel_splitOn (t : PerlStr) : ∃ first rest, t.splitOn 95 = first :: rest ∧
    ucfirst first ++ (rest.map ucfirst).flatten = camel true t ∧
      first ++ (rest.map ucfirst).flatten = camel false t := by
  induction t with
  | nil => exact ⟨[], [], rfl, rfl, rfl⟩
  | cons c t ih =>
      obtain ⟨first, rest, hsplit, hstart, hmiddle⟩ := ih
      rw [List.splitOn_cons_eq_if_modifyHead, hsplit, camel, camel]
      by_cases hc : c = 95
      · exact ⟨[], first :: rest, by simp [hc], by simpa [hc, ucfirst] using hstart,
          by simpa [hc] using hstart⟩
      · exact ⟨c :: first, rest, by simp [hc], by simp [hc, ucfirst, hmiddle],
          by simp [hc, hmiddle]⟩

theorem flatten_ucfirst_splitOn (t : PerlStr) :
    ((t.splitOn 95).map ucfirst).flatten = camel true t := by
  obtain ⟨first, rest, hsplit, hstart, -⟩ := camel_splitOn t
  rw [hsplit, List.map_cons, List.flatten_cons, hstart]

theorem flatten_ucfirst_splitFields (t : PerlStr) :
    ((splitFields 95 t).map ucfirst).flatten = camel true t := by
  have hdrop : ∀ l : List PerlStr,
      ((l.rdropWhile (· = [])).map ucfirst).flatten = (l.map ucfirst).flatten := by
    intro l
    induction l using List.reverseRecOn with
    | nil => rfl
    | append_singleton l a ih =>
        by_cases ha : a = []
        · rw [List.rdropWhile_concat_pos _ _ _ (by simpa using ha), ih]
          simp [ha, ucfirst]
        · rw [List.rdropWhile_concat_neg _ _ _ (by simpa using ha)]
  rw [splitFields, hdrop, flatten_ucfirst_splitOn]

theorem toCamelCase_eq (t : PerlStr) : toCamelCase t = camel true t := by
  rw [← flatten_ucfirst_splitOn, toCamelCase, splitString, ← List.flatMap_def]
  split
  · rename_i hlast
    obtain ⟨init, hinit⟩ := List.getLast?_eq_some_iff.mp hlast
    simp [hinit, ucfirst]
  · rfl

theorem upper_eq_iff {c x : ℕ} (hx : x < 65) : upper c = x ↔ c = x := by
  unfold upper
  split <;> omega

/-- What is no letter and no underscore comes as often as before. -/
theorem count_camel {x : ℕ} (hx : x < 65) (start : Bool) (t : PerlStr) :
    (camel start t).count x = t.count x := by
  induction t generalizing start with
  | nil => rfl
  | cons c t ih =>
      rw [camel]
      split
      · rename_i hc
        rw [ih, List.count_cons_of_ne (by omega)]
      · rw [List.count_cons, List.count_cons, ih]
        cases start
        · rfl
        · simp [upper_eq_iff hx]

theorem count_dropWhile_newline (t : PerlStr) : (t.dropWhile (· ≠ 10)).count 10 = t.count 10 := by
  induction t with
  | nil => rfl
  | cons c t ih =>
      rw [List.dropWhile_cons]
      split
      · rename_i hc
        rw [ih, List.count_cons_of_ne (by simpa using hc)]
      · rfl

/-- A pattern with a dot takes no newline away. -/
theorem count_stripExtension (t : PerlStr) : (stripExtension t).count 10 = t.count 10 := by
  induction t with
  | nil => rfl
  | cons c t ih =>
      rw [stripExtension]
      split
      · rename_i hc
        rw [count_dropWhile_newline, List.count_cons_of_ne (by omega)]
      · rw [List.count_cons, List.count_cons, ih]

theorem count_stripDirectories (t : PerlStr) : (stripDirectories t).count 10 = t.count 10 := by
  induction t with
  | nil => rfl
  | cons c t ih =>
      rw [stripDirectories]
      split
      · have hline : (((c :: t).takeWhile (· ≠ 10)).rtakeWhile (· ≠ 47)).count 10 = 0 := by
          rw [List.count_eq_zero]
          intro hmem
          have hline := (List.rtakeWhile_suffix _ _).subset hmem
          simpa using List.mem_takeWhile_imp hline
        rw [List.count_append, hline, count_dropWhile_newline, Nat.zero_add]
      · rw [List.count_cons, List.count_cons, ih]

theorem stripExtension_eq {t : PerlStr} (h : 10 ∉ t.dropWhile (· ≠ 46)) :
    stripExtension t = t.takeWhile (· ≠ 46) := by
  induction t with
  | nil => rfl
  | cons c t ih =>
      rw [stripExtension, List.takeWhile_cons]
      rw [List.dropWhile_cons] at h
      by_cases hc : c = 46
      · have hdrop : t.dropWhile (· ≠ 10) = [] := by
          rw [List.dropWhile_eq_nil_iff]
          intro x hx
          rw [if_neg (by simp [hc])] at h
          simp only [ne_eq, decide_not, Bool.not_eq_true', decide_eq_false_iff_not]
          rintro rfl
          exact h (List.mem_cons_of_mem _ hx)
        rw [if_pos hc, if_neg (by simp [hc]), hdrop]
      · rw [if_pos (by simpa using hc)] at h
        simp [hc, ih h]

theorem stripDirectories_of_not_mem {t : PerlStr} (h : 47 ∉ t) : stripDirectories t = t := by
  induction t with
  | nil => rfl
  | cons c t ih =>
      have hline : 47 ∉ (c :: t).takeWhile (· ≠ 10) :=
        fun hmem => h ((List.takeWhile_prefix _).subset hmem)
      rw [stripDirectories, if_neg hline, ih fun hmem => h (List.mem_cons_of_mem _ hmem)]

/-- The last slash of the first line is the last one of all. -/
theorem stripDirectories_append {d base : PerlStr} (hd : 10 ∉ d) (hbase : 47 ∉ base) :
    stripDirectories (d ++ 47 :: base) = base := by
  have hpos := decide_ne_of_not_mem hd
  have htake : (d ++ 47 :: base).takeWhile (· ≠ 10) = d ++ 47 :: base.takeWhile (· ≠ 10) := by
    rw [List.takeWhile_append_of_pos hpos]
    simp
  have hdrop : (d ++ 47 :: base).dropWhile (· ≠ 10) = base.dropWhile (· ≠ 10) := by
    rw [List.dropWhile_append_of_pos hpos]
    simp
  have hlast : (d ++ 47 :: base.takeWhile (· ≠ 10)).rtakeWhile (· ≠ 47) =
      base.takeWhile (· ≠ 10) :=
    rtakeWhile_append_cons fun hmem => hbase ((List.takeWhile_prefix _).subset hmem)
  cases hname : d ++ 47 :: base with
  | nil => simp at hname
  | cons c t =>
      rw [stripDirectories, ← hname, htake, hdrop, if_pos (by simp), hlast,
        List.takeWhile_append_dropWhile]

theorem stripDirectories_eq {name : PerlStr} (h : 10 ∉ name.rdropWhile (· ≠ 47)) :
    stripDirectories name = name.rtakeWhile (· ≠ 47) := by
  by_cases hslash : 47 ∈ name
  · obtain ⟨d, base, rfl, hbase⟩ := exists_append_cons_of_mem hslash
    rw [rdropWhile_append_cons hbase] at h
    rw [rtakeWhile_append_cons hbase]
    exact stripDirectories_append (fun hmem => h (List.mem_append_left _ hmem)) hbase
  · rw [stripDirectories_of_not_mem hslash,
      List.rtakeWhile_eq_self_iff.mpr (decide_ne_of_not_mem hslash)]

/-! ### The modules of a file -/

/-- A base name with one dot at most, and no newline in the directories or after the dot. -/
structure PlainFileName (name : PerlStr) : Prop where
  directories : 10 ∉ name.rdropWhile (· ≠ 47)
  extension : 10 ∉ (name.rtakeWhile (· ≠ 47)).dropWhile (· ≠ 46)
  dot : 46 ∉ ((name.rtakeWhile (· ≠ 47)).dropWhile (· ≠ 46)).tail

theorem FileDescriptor.fileModule_eq (fd : FileDescriptor) :
    fd.fileModule = camel true (stripExtension (stripDirectories fd.name)) :=
  flatten_ucfirst_splitFields _

theorem getFileModule_eq (name : PerlStr) :
    getFileModule name = camel true ((name.rtakeWhile (· ≠ 47)).takeWhile (· ≠ 46)) :=
  camelFrom_eq true none _

/-- The module of a file in Perl and in C. -/
theorem fileModule_eq_getFileModule_iff (fd : FileDescriptor) :
    fd.fileModule = getFileModule fd.name ↔
      10 ∉ fd.name.rdropWhile (· ≠ 47) ∧
        10 ∉ (fd.name.rtakeWhile (· ≠ 47)).dropWhile (· ≠ 46) := by
  rw [fd.fileModule_eq, getFileModule_eq]
  constructor
  · intro h
    have hcount := congrArg (List.count 10) h
    rw [count_camel (by decide), count_camel (by decide), count_stripExtension,
      count_stripDirectories] at hcount
    have hname : (fd.name.rdropWhile (· ≠ 47) ++ fd.name.rtakeWhile (· ≠ 47)).count 10 =
        fd.name.count 10 := by rw [List.rdropWhile_append_rtakeWhile]
    have hbase : ((fd.name.rtakeWhile (· ≠ 47)).takeWhile (· ≠ 46) ++
        (fd.name.rtakeWhile (· ≠ 47)).dropWhile (· ≠ 46)).count 10 =
          (fd.name.rtakeWhile (· ≠ 47)).count 10 := by rw [List.takeWhile_append_dropWhile]
    rw [List.count_append] at hname hbase
    rw [← List.count_eq_zero, ← List.count_eq_zero]
    omega
  · rintro ⟨hdirectories, hextension⟩
    rw [stripDirectories_eq hdirectories, stripExtension_eq hextension]

/-- A text up to its first dot and up to its last one. -/
theorem camel_takeWhile_eq_beforeLastDot_iff (base : PerlStr) :
    camel true (base.takeWhile (· ≠ 46)) = camel true (beforeLastDot base) ↔
      46 ∉ (base.dropWhile (· ≠ 46)).tail := by
  by_cases hdot : 46 ∈ base
  · obtain ⟨s, u, rfl, hu⟩ := exists_append_cons_of_mem hdot
    have hlast : beforeLastDot (s ++ 46 :: u) = s := by
      rw [beforeLastDot, if_pos hdot, rdropWhile_append_cons hu, List.dropLast_concat]
    rw [hlast]
    by_cases hs : 46 ∈ s
    · refine iff_of_false (fun h => ?_) (fun h => ?_)
      · have hcount := congrArg (List.count 46) h
        rw [count_camel (by decide), count_camel (by decide), List.count_eq_zero.mpr fun hmem => by
          simpa using List.mem_takeWhile_imp hmem] at hcount
        exact List.count_pos_iff.mpr hs |>.ne hcount
      · obtain ⟨a, b, rfl, ha⟩ := List.eq_append_cons_of_mem hs
        rw [List.append_assoc, List.dropWhile_append_of_pos (decide_ne_of_not_mem ha)] at h
        simp at h
    · have hpos := decide_ne_of_not_mem hs
      rw [List.takeWhile_append_of_pos hpos, List.dropWhile_append_of_pos hpos]
      simp [hu]
  · have hpos := decide_ne_of_not_mem hdot
    rw [beforeLastDot, if_neg hdot, List.takeWhile_eq_self_iff.mpr hpos,
      List.dropWhile_eq_nil_iff.mpr hpos]
    simp

/-! ### Dotted names -/

/-- From the middle of a segment. -/
theorem capitalizeFrom_middle {c : ℕ} {s : PerlStr} (hc : c ≠ 46) (hs : 46 ∉ s) :
    capitalizeFrom (some c) s = s ∧
      ∀ t, capitalizeFrom (some c) (s ++ 46 :: t) = s ++ ps "::" ++ capitalizeFrom (some 46) t := by
  induction s generalizing c with
  | nil => exact ⟨rfl, fun t => by simp [capitalizeFrom, hc, ps]⟩
  | cons d s ih =>
      obtain ⟨hd, hs⟩ : d ≠ 46 ∧ 46 ∉ s := by simpa [eq_comm] using hs
      obtain ⟨hend, hdot⟩ := ih hd hs
      refine ⟨by simp [capitalizeFrom, hc, hd, hend], fun t => ?_⟩
      simp [capitalizeFrom, hc, hd, hdot t]

theorem capitalizeFrom_intercalate {previous : Option ℕ} {segments : List PerlStr}
    (hprevious : previous = none ∨ previous = some 46)
    (h : ∀ s ∈ segments, s ≠ [] ∧ 46 ∉ s) :
    capitalizeFrom previous ([46].intercalate segments) = joinColons (segments.map ucfirst) := by
  induction segments generalizing previous with
  | nil => rfl
  | cons s segments ih =>
      obtain ⟨hne, hs⟩ := h s (by simp)
      obtain ⟨c, s, rfl⟩ := List.exists_cons_of_ne_nil hne
      obtain ⟨hc, hs⟩ : c ≠ 46 ∧ 46 ∉ s := by simpa [eq_comm] using hs
      obtain ⟨hend, hdot⟩ := capitalizeFrom_middle hc hs
      have hrest := ih (.inr rfl) fun s' hs' => h s' (List.mem_cons_of_mem _ hs')
      cases segments with
      | nil => simp [capitalizeFrom, hprevious, hend, joinColons, ucfirst]
      | cons s' segments =>
          rw [joinColons] at hrest
          rw [List.intercalate_cons_cons, List.map_cons, List.map_cons, joinColons,
            List.intercalate_cons_cons, ← List.map_cons, ← hrest]
          simp [capitalizeFrom, hprevious, hdot, ucfirst]

theorem splitString_of_ne_nil {x : ℕ} {t : PerlStr} (h : ∀ s ∈ t.splitOn x, s ≠ []) :
    splitString x t = t.splitOn x := by
  rw [splitString, if_neg]
  intro hlast
  exact h _ (List.mem_of_getLast? hlast) rfl

theorem not_mem_of_isIdentifier {s : PerlStr} {x : ℕ} (h : isIdentifier s)
    (hx : (isLetter x || (48 ≤ x && x ≤ 57)) = false) : x ∉ s := by
  intro hmem
  cases s with
  | nil => cases h
  | cons c cs =>
      rw [isIdentifier, Bool.and_eq_true, List.all_eq_true] at h
      rcases List.mem_cons.mp hmem with rfl | hmem
      · rw [h.1, Bool.true_or] at hx
        cases hx
      · rw [h.2 x hmem] at hx
        cases hx

theorem splitOn_path {path : List PerlStr} (hne : path ≠ []) (h : ∀ s ∈ path, isIdentifier s) :
    ([46].intercalate path).splitOn 46 = path :=
  List.splitOn_intercalate 46 (fun s hs => not_mem_of_isIdentifier (h s hs) rfl) hne

/-! ### The classes of a path -/

theorem joinColons_cons {name : PerlStr} {path : List PerlStr} (h : path ≠ []) :
    joinColons (name :: path) = name ++ ps "::" ++ joinColons path :=
  List.intercalate_cons_of_ne_nil h

mutual

theorem generateRecursively_eq : ∀ (m : MessageDescriptor) (pre ns : PerlStr),
    generateRecursively pre ns m =
      m.paths.map fun path => (pre ++ [46].intercalate path, ns ++ ps "::" ++ joinColons path)
  | ⟨name, field, nestedType, enumType, oneofDecl, options⟩, pre, ns => by
      rw [generateRecursively, generateAll_eq, MessageDescriptor.paths, List.map_cons,
        List.map_map, List.intercalate_singleton, joinColons, List.intercalate_singleton,
        messageClass]
      refine congrArg (List.cons _) (List.map_congr_left fun path hpath => ?_)
      have hne := MessageDescriptor.ne_nil_of_mem_pathsAll hpath
      rw [Function.comp_apply, List.intercalate_cons_of_ne_nil hne, joinColons_cons hne]
      simp [ps]

theorem generateAll_eq : ∀ (ms : List MessageDescriptor) (pre ns : PerlStr),
    generateAll pre ns ms =
      (MessageDescriptor.pathsAll ms).map fun path =>
        (pre ++ [46].intercalate path, ns ++ ps "::" ++ joinColons path)
  | [], _, _ => rfl
  | m :: ms, pre, ns => by
      rw [generateAll, generateRecursively_eq m, generateAll_eq ms, MessageDescriptor.pathsAll,
        List.map_append]

end

mutual

/-- The plugin walks over message types as the generator does. -/
theorem registerTypesRecursively_eq : ∀ (m : MessageDescriptor) (protoPrefix perlPrefix : PerlStr),
    registerTypesRecursively protoPrefix perlPrefix m =
      generateRecursively (protoPrefix ++ ps ".") perlPrefix m
  | ⟨name, field, nestedType, enumType, oneofDecl, options⟩, protoPrefix, perlPrefix => by
      rw [registerTypesRecursively, generateRecursively, registerAll_eq, messageClass]

theorem registerAll_eq : ∀ (ms : List MessageDescriptor) (protoPrefix perlPrefix : PerlStr),
    registerAll protoPrefix perlPrefix ms = generateAll (protoPrefix ++ ps ".") perlPrefix ms
  | [], _, _ => rfl
  | m :: ms, protoPrefix, perlPrefix => by
      rw [registerAll, generateAll, registerTypesRecursively_eq m, registerAll_eq ms]

end

namespace FileDescriptor

variable {fd : FileDescriptor} {path : List PerlStr}

/-- The package, a module for the file, and names for the message types. -/
def className (fd : FileDescriptor) (module : PerlStr) (path : List PerlStr) : PerlStr :=
  (if fd.package = [] then module
    else joinColons ((fd.package.splitOn 46).map ucfirst) ++ ps "::" ++ module) ++
    ps "::" ++ joinColons path

namespace Legal

theorem symbolPrefix (h : fd.Legal) : fd.symbolPrefix = fd.scope := by
  simp [FileDescriptor.symbolPrefix, scope, h.package_ne_zero]

theorem segments (h : fd.Legal) (hp : fd.package ≠ []) :
    ∀ s ∈ fd.package.splitOn 46, s ≠ [] ∧ 46 ∉ s :=
  fun s hs => ⟨ne_nil_of_isIdentifier (h.package hp s hs), not_mem_of_isIdentifier
    (h.package hp s hs) rfl⟩

theorem splitFields_package (h : fd.Legal) (hp : fd.package ≠ []) :
    splitFields 46 fd.package = fd.package.splitOn 46 :=
  splitFields_of_ne_nil fun s hs => (h.segments hp s hs).1

/-- A capitalized package is no false value. -/
theorem joinColons_package (h : fd.Legal) (hp : fd.package ≠ []) :
    ¬ (joinColons ((fd.package.splitOn 46).map ucfirst) = [] ∨
      joinColons ((fd.package.splitOn 46).map ucfirst) = ps "0") := by
  cases hparts : fd.package.splitOn 46 with
  | nil => exact absurd hparts (List.splitOn_ne_nil _ _)
  | cons first rest =>
      obtain ⟨c, t, hfirst, hc⟩ := beginsWithLetter_of_isIdentifier
        (h.package hp first (by simp [hparts])) []
      rw [List.append_nil] at hfirst
      have hhead : (joinColons ((first :: rest).map ucfirst)).head? = some (upper c) := by
        cases rest <;> simp [joinColons, hfirst, ucfirst]
      rintro (hnil | hzero)
      · rw [hnil] at hhead
        cases hhead
      · rw [hzero] at hhead
        have hupper : upper c = 48 := (Option.some.inj hhead).symm
        rw [(upper_eq_iff (by decide)).mp hupper] at hc
        cases hc

theorem baseModule (h : fd.Legal) : fd.baseModule = if fd.package = [] then fd.fileModule
    else joinColons ((fd.package.splitOn 46).map ucfirst) ++ ps "::" ++ fd.fileModule := by
  unfold FileDescriptor.baseModule
  split
  · rename_i hp
    simp only [hp]
    rfl
  · rename_i hp
    simp only [h.splitFields_package hp, h.joinColons_package hp, if_false]

/-- What the generator makes. -/
theorem generateForFile_eq (h : fd.Legal) :
    generateForFile fd = fd.paths.map fun path =>
      (fd.fullName path, fd.className fd.fileModule path) := by
  rw [generateForFile, generateAll_eq, h.symbolPrefix, h.baseModule]
  rfl

theorem ne_nil_of_mem_paths (hpath : path ∈ fd.paths) : path ≠ [] :=
  MessageDescriptor.ne_nil_of_mem_pathsAll hpath

theorem beginsWithLetter_fullName (h : fd.Legal) (hpath : path ∈ fd.paths) :
    BeginsWithLetter (fd.fullName path) := by
  have hmem : fd.fullName path ∈ Assoc.keys fd.messages := by
    rw [fd.keys_messages]
    exact List.mem_map_of_mem hpath
  obtain ⟨e, he, heq⟩ := List.mem_map.mp hmem
  exact heq ▸ h.beginsWithLetter_messages he

theorem stripPackage_fullName (h : fd.Legal) (path : List PerlStr) :
    stripPackage fd.package (fd.fullName path) = [46].intercalate path := by
  unfold stripPackage fullName scope
  by_cases hp : fd.package = []
  · simp [hp]
  · rw [if_neg (by simp [hp, h.package_ne_zero]), if_neg hp, if_pos (by simp)]
    have hlength : fd.package.length + 1 = (fd.package ++ ps ".").length := by simp [ps]
    rw [hlength, List.drop_left]

theorem relativeName_fullName (h : fd.Legal) (hpath : path ∈ fd.paths) :
    relativeName fd.package (fd.fullName path) = [46].intercalate path := by
  have hhead := (h.beginsWithLetter_fullName hpath).head?_ne_dot
  unfold relativeName
  rw [if_neg hhead]
  unfold fullName scope
  by_cases hp : fd.package = []
  · simp [hp]
  · rw [if_neg hp, if_pos ⟨hp, by simp⟩, List.append_assoc, List.drop_left]
    rfl

theorem capitalizePath_path (h : fd.Legal) (hpath : path ∈ fd.paths) :
    capitalizePath ([46].intercalate path) = some (joinColons (path.map ucfirst)) := by
  have hsegments : ∀ s ∈ path, s ≠ [] ∧ 46 ∉ s := fun s hs =>
    ⟨ne_nil_of_isIdentifier (h.isIdentifier_of_mem_paths hpath hs),
      not_mem_of_isIdentifier (h.isIdentifier_of_mem_paths hpath hs) rfl⟩
  have hne : [46].intercalate path ≠ [] := by
    intro hnil
    have hsplit := splitOn_path (ne_nil_of_mem_paths hpath)
      fun s hs => h.isIdentifier_of_mem_paths hpath hs
    rw [hnil, List.splitOn_nil] at hsplit
    exact (hsegments [] (by simp [← hsplit])).1 rfl
  rw [capitalizePath, if_neg hne, capitalizeFrom_intercalate (.inl rfl) hsegments]

theorem capitalizePath_package (h : fd.Legal) (hp : fd.package ≠ []) :
    capitalizePath fd.package = some (joinColons ((fd.package.splitOn 46).map ucfirst)) := by
  have hjoin : [46].intercalate (fd.package.splitOn 46) = fd.package := List.intercalate_splitOn 46
  have hcapitals := capitalizeFrom_intercalate (.inl rfl) (h.segments hp)
  rw [hjoin] at hcapitals
  rw [capitalizePath, if_neg hp, hcapitals]

/-- What field accessors ask for. -/
theorem getPerlClassForMdef_eq (h : fd.Legal) (hpath : path ∈ fd.paths) :
    getPerlClassForMdef (some fd) (fd.fullName path) =
      fd.className fd.fileModule (path.map ucfirst) := by
  have hname := h.beginsWithLetter_fullName hpath
  have hsplit : splitFields 46 ([46].intercalate path) = path := by
    have hparts := splitOn_path (ne_nil_of_mem_paths hpath)
      fun s hs => h.isIdentifier_of_mem_paths hpath hs
    rw [splitFields_of_ne_nil, hparts]
    rw [hparts]
    exact fun s hs => ne_nil_of_isIdentifier (h.isIdentifier_of_mem_paths hpath hs)
  simp only [getPerlClassForMdef, DescriptorPool.normalizeName, if_neg hname.head?_ne_dot,
    h.stripPackage_fullName, hsplit, h.baseModule]
  rfl

/-- What sub-messages are blessed into. -/
theorem getMessageStash_eq (h : fd.Legal) (hpath : path ∈ fd.paths) :
    getMessageStash fd (fd.fullName path) =
      fd.className (getFileModule fd.name) (path.map ucfirst) := by
  unfold getMessageStash className
  rw [h.relativeName_fullName hpath, h.capitalizePath_path hpath]
  by_cases hp : fd.package = []
  · simp only [hp, capitalizePath, if_true, Option.getD_some]
  · simp only [h.capitalizePath_package hp, Option.getD_some, if_neg hp]

/-- The plugin's name for a file and the path in it. -/
theorem getPerlPackage_eq (h : fd.Legal) (path : List PerlStr) :
    getPerlPackage fd ++ ps "::" ++ joinColons path =
      fd.className (toCamelCase (beforeLastDot (fd.name.rtakeWhile (· ≠ 47)))) path := by
  unfold getPerlPackage className
  by_cases hp : fd.package = []
  · rw [if_pos hp, hp]
    rfl
  · have hcapitals : capitalizePackage fd.package =
        joinColons ((fd.package.splitOn 46).map ucfirst) := by
      rw [capitalizePackage, splitString_of_ne_nil fun s hs => (h.segments hp s hs).1]
    have hne : capitalizePackage fd.package ≠ [] :=
      fun hnil => h.joinColons_package hp (.inl (hcapitals ▸ hnil))
    rw [if_neg hp, ← hcapitals]
    simp only [if_neg hne]

end Legal

/-- The key of a message type in the plugin's map. -/
def typeKey (fd : FileDescriptor) (path : List PerlStr) : PerlStr :=
  ps "." ++ fd.package ++ ps "." ++ [46].intercalate path

theorem typeKey_of_package (hp : fd.package ≠ []) (path : List PerlStr) :
    fd.typeKey path = ps "." ++ fd.fullName path := by
  simp [typeKey, fullName, scope, hp]

theorem typeKey_of_no_package (hp : fd.package = []) (path : List PerlStr) :
    fd.typeKey path = ps ".." ++ fd.fullName path := by
  simp [typeKey, fullName, scope, hp, ps]

/-- A key without its dots is a full name. -/
theorem Legal.dropWhile_typeKey (h : fd.Legal) (hpath : path ∈ fd.paths) :
    (fd.typeKey path).dropWhile (· = 46) = fd.fullName path := by
  obtain ⟨c, t, ht, hc⟩ := h.beginsWithLetter_fullName hpath
  have hdot : c ≠ 46 := by
    rintro rfl
    cases hc
  by_cases hp : fd.package = []
  · rw [typeKey_of_no_package hp, ht]
    simp [ps, hdot]
  · rw [typeKey_of_package hp, ht]
    simp [ps, hdot]

/-- What the plugin puts into its map for a file. -/
def typeEntries (fd : FileDescriptor) : List (PerlStr × PerlStr) :=
  fd.paths.map fun path => (fd.typeKey path, getPerlPackage fd ++ ps "::" ++ joinColons path)

end FileDescriptor

section Files

variable {files : List FileDescriptor} {fd : FileDescriptor} {path : List PerlStr}

theorem find_buildPackageMap (hdistinct : Distinct files) (hfd : fd ∈ files) :
    Assoc.find (buildPackageMap files) fd.name = some (getPerlPackage fd) := by
  have hnodup : (Assoc.keys (files.map fun fd => (fd.name, getPerlPackage fd))).Nodup := by
    simpa [Assoc.keys, Function.comp_def] using hdistinct.files
  rw [buildPackageMap, Assoc.assignAll_eq_self hnodup]
  exact Assoc.find_of_mem hnodup (List.mem_map.mpr ⟨fd, hfd, rfl⟩)

theorem nodup_typeEntries (hdistinct : Distinct files) (hlegal : ∀ fd ∈ files, fd.Legal) :
    (Assoc.keys (files.flatMap FileDescriptor.typeEntries)).Nodup := by
  refine List.Nodup.of_map (List.dropWhile (· = 46)) ?_
  have hkeys : (Assoc.keys (files.flatMap FileDescriptor.typeEntries)).map
      (List.dropWhile (· = 46)) = Assoc.keys (files.flatMap FileDescriptor.messages) := by
    rw [Assoc.keys, Assoc.keys, List.map_flatMap, List.map_flatMap, List.map_flatMap]
    refine List.flatMap_congr fun fd hfd => ?_
    have hmessages := fd.keys_messages
    rw [Assoc.keys] at hmessages
    rw [hmessages, FileDescriptor.typeEntries, List.map_map, List.map_map]
    exact List.map_congr_left fun path hpath => (hlegal fd hfd).dropWhile_typeKey hpath
  rw [hkeys]
  exact hdistinct.symbols.of_append_left

theorem buildTypeMap_eq (hdistinct : Distinct files) (hlegal : ∀ fd ∈ files, fd.Legal) :
    buildTypeMap files = files.flatMap FileDescriptor.typeEntries := by
  rw [buildTypeMap, ← Assoc.assignAll_eq_self (nodup_typeEntries hdistinct hlegal)]
  refine congrArg (Assoc.assignAll []) (List.flatMap_congr fun fd hfd => ?_)
  rw [find_buildPackageMap hdistinct hfd, registerAll_eq, generateAll_eq, Option.getD_some]
  rfl

/-- Two files have no full name in common. -/
theorem eq_of_fullName_eq (hdistinct : Distinct files) {fd' : FileDescriptor}
    {path' : List PerlStr} (hfd : fd ∈ files) (hfd' : fd' ∈ files) (hpath : path ∈ fd.paths)
    (hpath' : path' ∈ fd'.paths) (h : fd.fullName path = fd'.fullName path') : fd = fd' := by
  have hnodup : (files.flatMap fun fd => fd.paths.map fd.fullName).Nodup := by
    have hsymbols := hdistinct.symbols.of_append_left
    rw [Assoc.keys, List.map_flatMap] at hsymbols
    rwa [List.flatMap_congr fun fd _ => (fd.keys_messages).symm]
  have hdisjoint := (List.nodup_flatMap.mp hnodup).2
  by_contra hne
  have hsymm : Std.Symm (Function.onFun List.Disjoint fun fd : FileDescriptor =>
      fd.paths.map fd.fullName) := ⟨fun _ _ hab => hab.symm⟩
  refine hdisjoint.forall hfd hfd' hne (List.mem_map_of_mem hpath) ?_
  rw [h]
  exact List.mem_map_of_mem hpath'

theorem resolvePerlClass_of_package (hdistinct : Distinct files)
    (hlegal : ∀ fd ∈ files, fd.Legal) (hfd : fd ∈ files) (hpath : path ∈ fd.paths)
    (hp : fd.package ≠ []) :
    resolvePerlClass files (ps "." ++ fd.fullName path) =
      fd.className (toCamelCase (beforeLastDot (fd.name.rtakeWhile (· ≠ 47)))) path := by
  have hentry : (ps "." ++ fd.fullName path, getPerlPackage fd ++ ps "::" ++ joinColons path) ∈
      files.flatMap FileDescriptor.typeEntries := by
    rw [← FileDescriptor.typeKey_of_package hp]
    exact List.mem_flatMap.mpr ⟨fd, hfd, List.mem_map.mpr ⟨path, hpath, rfl⟩⟩
  have hfind := Assoc.find_of_mem (nodup_typeEntries hdistinct hlegal) hentry
  rw [← buildTypeMap_eq hdistinct hlegal] at hfind
  rw [← (hlegal fd hfd).getPerlPackage_eq]
  simp only [resolvePerlClass, hfind]

/-- The key of a message type without a package has two dots, and is not found. -/
theorem resolvePerlClass_of_no_package (hdistinct : Distinct files)
    (hlegal : ∀ fd ∈ files, fd.Legal) (hfd : fd ∈ files) (hpath : path ∈ fd.paths)
    (hp : fd.package = []) :
    resolvePerlClass files (ps "." ++ fd.fullName path) = joinColons (path.map ucfirst) := by
  have hfind : Assoc.find (buildTypeMap files) (ps "." ++ fd.fullName path) = none := by
    rw [buildTypeMap_eq hdistinct hlegal, Assoc.find_eq_none_iff]
    intro hmem
    obtain ⟨e, he, hkey⟩ := List.mem_map.mp hmem
    obtain ⟨fd', hfd', he⟩ := List.mem_flatMap.mp he
    obtain ⟨path', hpath', rfl⟩ := List.mem_map.mp he
    have hkey : fd'.typeKey path' = ps "." ++ fd.fullName path := hkey
    by_cases hp' : fd'.package = []
    · rw [FileDescriptor.typeKey_of_no_package hp'] at hkey
      refine ((hlegal fd hfd).beginsWithLetter_fullName hpath).head?_ne_dot ?_
      have hdot : ps "." ++ fd'.fullName path' = fd.fullName path := (List.cons.inj hkey).2
      rw [← hdot]
      rfl
    · rw [FileDescriptor.typeKey_of_package hp'] at hkey
      have hname := List.append_cancel_left hkey
      exact hp' (eq_of_fullName_eq hdistinct hfd' hfd hpath' hpath hname ▸ hp)
  have hsplit := splitOn_path (FileDescriptor.Legal.ne_nil_of_mem_paths hpath)
    fun s hs => (hlegal fd hfd).isIdentifier_of_mem_paths hpath hs
  have hparts : splitString 46 ([46].intercalate path) = path := by
    rw [splitString_of_ne_nil, hsplit]
    rw [hsplit]
    exact fun s hs => ne_nil_of_isIdentifier ((hlegal fd hfd).isIdentifier_of_mem_paths hpath hs)
  have hname : fd.fullName path = [46].intercalate path := by
    simp [FileDescriptor.fullName, FileDescriptor.scope, hp]
  simp only [resolvePerlClass, hfind]
  rw [if_pos (by rfl), hname]
  show capitalizePackage ([46].intercalate path) = _
  rw [capitalizePackage, hparts]

end Files

/-! ### When the names agree -/

/-- The class that is made for a message type is the one that accessors ask for, that decoded
messages get, and that clients of the files call. -/
def NamesAgree (files : List FileDescriptor) (fd : FileDescriptor) (path : List PerlStr) : Prop :=
  ∃ c, (fd.fullName path, c) ∈ generateForFile fd ∧
    getPerlClassForMdef (some fd) (fd.fullName path) = c ∧
      getMessageStash fd (fd.fullName path) = c ∧
        resolvePerlClass files (ps "." ++ fd.fullName path) = c

def BeginsLowerCase (name : PerlStr) : Prop := ∃ c t, name = c :: t ∧ 97 ≤ c ∧ c ≤ 122

theorem ucfirst_eq_self_iff {name : PerlStr} : ucfirst name = name ↔ ¬ BeginsLowerCase name := by
  cases name with
  | nil => simp [ucfirst, BeginsLowerCase]
  | cons c t =>
      simp only [ucfirst, upper, BeginsLowerCase, List.cons.injEq, and_true]
      constructor
      · rintro h ⟨c', t', ⟨rfl, -⟩, hc⟩
        rw [if_pos hc] at h
        omega
      · intro h
        rw [if_neg fun hc => h ⟨c, t, ⟨rfl, rfl⟩, hc⟩]

theorem map_ucfirst_eq_self {path : List PerlStr} (h : ∀ name ∈ path, ¬ BeginsLowerCase name) :
    path.map ucfirst = path := by
  conv_rhs => rw [← List.map_id path]
  exact List.map_congr_left fun name hname => ucfirst_eq_self_iff.mpr (h name hname)

theorem length_ucfirst (name : PerlStr) : (ucfirst name).length = name.length := by
  cases name <;> rfl

theorem length_joinColons_ucfirst (path : List PerlStr) :
    (joinColons (path.map ucfirst)).length = (joinColons path).length := by
  induction path with
  | nil => rfl
  | cons name path ih =>
      cases path with
      | nil => simp [joinColons, length_ucfirst]
      | cons name' path =>
          rw [List.map_cons, joinColons_cons (by simp), joinColons_cons (by simp)]
          simp only [List.length_append, length_ucfirst, ih]

theorem joinColons_ucfirst_eq_iff (path : List PerlStr) :
    joinColons (path.map ucfirst) = joinColons path ↔ ∀ name ∈ path, ¬ BeginsLowerCase name := by
  induction path with
  | nil => simp
  | cons name path ih =>
      cases path with
      | nil => simp [joinColons, ucfirst_eq_self_iff]
      | cons name' path =>
          rw [List.map_cons, joinColons_cons (by simp), joinColons_cons (by simp),
            List.forall_mem_cons, ← ih, ← ucfirst_eq_self_iff]
          constructor
          · intro h
            obtain ⟨hname, hpath⟩ := List.append_inj h (by simp [length_ucfirst])
            exact ⟨List.append_cancel_right hname, hpath⟩
          · rintro ⟨hname, hpath⟩
            rw [hname, hpath]

theorem className_inj_module {fd : FileDescriptor} {module module' : PerlStr}
    {path : List PerlStr} (h : fd.className module path = fd.className module' path) :
    module = module' := by
  unfold FileDescriptor.className at h
  have hbase := List.append_cancel_right (List.append_cancel_right h)
  split at hbase
  · exact hbase
  · exact List.append_cancel_left hbase

theorem fullName_inj {fd : FileDescriptor} (hlegal : fd.Legal) {path path' : List PerlStr}
    (hpath : path ∈ fd.paths) (hpath' : path' ∈ fd.paths)
    (h : fd.fullName path = fd.fullName path') : path = path' := by
  have hdotted : [46].intercalate path = [46].intercalate path' := List.append_cancel_left h
  rw [← splitOn_path (FileDescriptor.Legal.ne_nil_of_mem_paths hpath)
      fun s hs => hlegal.isIdentifier_of_mem_paths hpath hs, hdotted,
    splitOn_path (FileDescriptor.Legal.ne_nil_of_mem_paths hpath')
      fun s hs => hlegal.isIdentifier_of_mem_paths hpath' hs]

/-- A file makes one class for a path. -/
theorem mem_generateForFile_iff {fd : FileDescriptor} (hlegal : fd.Legal) {path : List PerlStr}
    (hpath : path ∈ fd.paths) {c : PerlStr} :
    (fd.fullName path, c) ∈ generateForFile fd ↔ c = fd.className fd.fileModule path := by
  rw [hlegal.generateForFile_eq, List.mem_map]
  constructor
  · rintro ⟨path', hpath', heq⟩
    obtain ⟨hname, rfl⟩ := Prod.mk.inj heq
    rw [fullName_inj hlegal hpath' hpath hname]
  · rintro rfl
    exact ⟨path, hpath, rfl⟩

/-- The modules of a file agree exactly if its name is plain. -/
theorem plainFileName_iff (fd : FileDescriptor) :
    PlainFileName fd.name ↔ fd.fileModule = getFileModule fd.name ∧
      fd.fileModule = toCamelCase (beforeLastDot (fd.name.rtakeWhile (· ≠ 47))) := by
  constructor
  · intro h
    have hmodule := (fileModule_eq_getFileModule_iff fd).mpr ⟨h.directories, h.extension⟩
    refine ⟨hmodule, ?_⟩
    rw [hmodule, getFileModule_eq, toCamelCase_eq]
    exact (camel_takeWhile_eq_beforeLastDot_iff _).mpr h.dot
  · rintro ⟨hmodule, hplugin⟩
    obtain ⟨hdirectories, hextension⟩ := (fileModule_eq_getFileModule_iff fd).mp hmodule
    rw [hmodule, getFileModule_eq, toCamelCase_eq] at hplugin
    exact ⟨hdirectories, hextension, (camel_takeWhile_eq_beforeLastDot_iff _).mp hplugin⟩

/-- A file with one message type. -/
def fileOf (name package message : String) : FileDescriptor :=
  { name := ps name, package := ps package, messageType := [{ name := ps message }] }

end GooglePerl.Protobuf
