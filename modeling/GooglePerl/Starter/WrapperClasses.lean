import GooglePerl.Protobuf.ClassNames

/-!
The request and response classes of the generated client wrapper.

`_resolve_perl_type` derives the class of a message type from the name that an
RPC has for it, by rules of its own for versions, for dotted names and for file
names, where the plugin of `protoc` registers a class for the type. The two are
the same class only for package parts that both spell alike, and then for a bare
name in a file with a package, or for a full name whose file has the name of the
type (`wrapper_class_iff`).
-/

namespace GooglePerl.Starter

open GooglePerl.Lib GooglePerl.Protobuf

/-! ### The names that the starter makes -/

def lower (c : ℕ) : ℕ := if 65 ≤ c ∧ c ≤ 90 then c + 32 else c

/-- `/^v\d+/i` -/
def isVersion : PerlStr → Bool
  | c :: d :: _ => lower c = 118 && (48 ≤ d && d ≤ 57)
  | _ => false

/-- What `_proto_to_perl_namespace` makes of a part of a package. -/
def perlPart (part : PerlStr) : PerlStr :=
  if isVersion part then part.map upper
  else if part.map lower = ps "ggrpc" then ps "gRPC"
  else ucfirst part

/-- `_proto_to_perl_namespace` -/
def protoToPerlNamespace (protoPackage : PerlStr) : PerlStr :=
  if protoPackage = [] ∨ protoPackage = ps "0" then []
  else joinColons ((splitFields 46 protoPackage).map perlPart)

/-- `s/\.proto$//`: a newline may come at the end. -/
def stripProto (name : PerlStr) : PerlStr :=
  if (ps ".proto").isSuffixOf name then name.rdrop 6
  else if (ps ".proto\n").isSuffixOf name then name.rdrop 7 ++ [10]
  else name

/-- `$pm_base` -/
def pmBase (protoFile : PerlStr) : PerlStr :=
  ((splitFields 95 (stripProto (basename protoFile))).map ucfirst).flatten

/-- `$message_prefix` -/
def messagePrefix (filePackage protoFile : PerlStr) : PerlStr :=
  protoToPerlNamespace filePackage ++ ps "::" ++ pmBase protoFile

/-- The message types of `google.protobuf` that are taken to be in `descriptor.proto`. -/
def InDescriptor (messageName : PerlStr) : Prop :=
  ps "Descriptor" <:+: messageName ∨ ps "Options" <:+: messageName ∨
    messageName = ps "FileDescriptorSet"

/-- The message types of `google.api` that are taken to be in `http.proto`. -/
def InHttp (messageName : PerlStr) : Prop :=
  ps "Http" <+: messageName ∨ messageName = ps "CustomHttpPattern"

instance (messageName : PerlStr) : Decidable (InDescriptor messageName) :=
  inferInstanceAs (Decidable (_ ∨ _ ∨ _))

instance (messageName : PerlStr) : Decidable (InHttp messageName) :=
  inferInstanceAs (Decidable (_ ∨ _))

/-- `$file_base` -/
def fileBase (package messageName : PerlStr) : PerlStr :=
  if package = ps "google.protobuf" then
    if InDescriptor messageName then ps "Descriptor" else messageName
  else if package = ps "google.api" then
    if InHttp messageName then ps "Http" else messageName
  else messageName

/-- `_resolve_perl_type` -/
def resolvePerlType (rawType _currentFilePackage messagePrefix : PerlStr) : PerlStr :=
  let rawType := stripDot rawType
  if 46 ∈ rawType then
    let parts := splitFields 46 rawType
    let messageName := parts.getLast?.getD []
    let package := [46].intercalate parts.dropLast
    protoToPerlNamespace package ++ ps "::" ++ fileBase package messageName ++ ps "::" ++
      messageName
  else messagePrefix ++ ps "::" ++ rawType

/-! ### Names of a message type -/

/-- The parts of a file's package. -/
def packageParts (fd : FileDescriptor) : List PerlStr :=
  if fd.package = [] then [] else fd.package.splitOn 46

/-- How an RPC names a message type: without some parts of the package, which may be none or
all, or with a dot in front. -/
inductive Reference where
  | within (k : ℕ)
  | rooted

def Reference.parts (fd : FileDescriptor) (path : List PerlStr) : Reference → List PerlStr
  | .within k => (packageParts fd).drop k ++ path
  | .rooted => packageParts fd ++ path

def Reference.text (fd : FileDescriptor) (path : List PerlStr) : Reference → PerlStr
  | .within k => [46].intercalate ((packageParts fd).drop k ++ path)
  | .rooted => 46 :: [46].intercalate (packageParts fd ++ path)

/-- The class that the wrapper has for a message type is the one that the plugin registers. -/
def RightClass (files : List FileDescriptor) (fd : FileDescriptor) (path : List PerlStr)
    (protoFile : PerlStr) (ref : Reference) : Prop :=
  Assoc.find (buildTypeMap files) (fd.typeKey path) = some (resolvePerlType (ref.text fd path)
    fd.package (messagePrefix fd.package protoFile))

/-! ### When the classes are the same -/

/-- A part of a package that both sides spell alike. -/
def SamePart (part : PerlStr) : Prop :=
  if isVersion part then ∀ c ∈ part.tail, ¬ (97 ≤ c ∧ c ≤ 122) else part.map lower ≠ ps "ggrpc"

/-- The module of a file in the plugin. -/
def pluginModule (base : PerlStr) : PerlStr := toCamelCase (beforeLastDot base)

/-- A file without an extension, or with the usual one. -/
def UsualName (base : PerlStr) : Prop := 46 ∉ base ∨ ps ".proto" <:+ base

/-- The module is the last name of the type, but for some message types of two packages. -/
def NamedFor (package messageName module : PerlStr) : Prop :=
  (package = ps "google.protobuf" ∧ InDescriptor messageName ∧ module = ps "Descriptor") ∨
    (package = ps "google.api" ∧ InHttp messageName ∧ module = ps "Http") ∨
      ¬ (package = ps "google.protobuf" ∧ InDescriptor messageName) ∧
        ¬ (package = ps "google.api" ∧ InHttp messageName) ∧ module = messageName

/-- From the outside inwards, the file has the name of the first message type, each message type
the name of the next one inside, and the last but one is the module for the last. -/
def Chain (package : List PerlStr) (module : PerlStr) : List PerlStr → Prop
  | [] => True
  | [name] => NamedFor ([46].intercalate package) name module
  | outer :: name :: path =>
      module = perlPart outer ∧ Chain (package ++ [outer]) outer (name :: path)

/-- The parts of the package are spelled alike. A bare name has a package around it and a file
with a usual name; a dotted name is the full name, and the names in it are those that the
starter takes for the modules. -/
def SameClass (fd : FileDescriptor) (path : List PerlStr) (ref : Reference) : Prop :=
  (∀ part ∈ packageParts fd, SamePart part) ∧
    if (ref.parts fd path).length = 1 then
      fd.package ≠ [] ∧ UsualName (fd.name.rtakeWhile (· ≠ 47))
    else ref.parts fd path = packageParts fd ++ path ∧
      Chain (packageParts fd) (pluginModule (fd.name.rtakeWhile (· ≠ 47))) path

/-! ### Names joined by colons -/

theorem joinColons_append {l m : List PerlStr} (hl : l ≠ []) (hm : m ≠ []) :
    joinColons (l ++ m) = joinColons l ++ ps "::" ++ joinColons m := by
  induction l with
  | nil => exact absurd rfl hl
  | cons name l ih =>
      by_cases h : l = []
      · rw [h, List.singleton_append, joinColons_cons hm, joinColons, joinColons,
          List.intercalate_singleton]
      · rw [List.cons_append, joinColons_cons (by simp [h]), joinColons_cons h, ih h]
        simp only [List.append_assoc]

theorem joinColons_pair (a b : PerlStr) : joinColons [a, b] = a ++ ps "::" ++ b := by
  rw [joinColons_cons (List.cons_ne_nil _ _), joinColons, List.intercalate_singleton]

/-- What comes before the first colon. -/
theorem takeWhile_name {name t : PerlStr} (h : 58 ∉ name) :
    (name ++ ps "::" ++ t).takeWhile (· ≠ 58) = name := by
  rw [List.append_assoc, List.takeWhile_append_of_pos (decide_ne_of_not_mem h)]
  exact List.append_nil name

/-- Names without colons in front of two lists are the same if the joined lists are. -/
theorem joinColons_append_inj {l l' m m' : List PerlStr} (hlength : l.length = l'.length)
    (hl : ∀ s ∈ l, 58 ∉ s) (hl' : ∀ s ∈ l', 58 ∉ s) (hm : m ≠ []) (hm' : m' ≠ [])
    (h : joinColons (l ++ m) = joinColons (l' ++ m')) :
    l = l' ∧ joinColons m = joinColons m' := by
  induction l generalizing l' with
  | nil =>
      obtain rfl := List.length_eq_zero_iff.mp hlength.symm
      exact ⟨rfl, h⟩
  | cons name l ih =>
      cases l' with
      | nil => cases hlength
      | cons name' l' =>
          rw [List.cons_append, List.cons_append, joinColons_cons (by simp [hm]),
            joinColons_cons (by simp [hm'])] at h
          have hname := congrArg (List.takeWhile (· ≠ 58)) h
          rw [takeWhile_name (hl name (by simp)), takeWhile_name (hl' name' (by simp))] at hname
          subst hname
          obtain ⟨rfl, hrest⟩ := ih (Nat.succ.inj hlength)
            (fun s hs => hl s (List.mem_cons_of_mem _ hs))
            (fun s hs => hl' s (List.mem_cons_of_mem _ hs)) (List.append_cancel_left h)
          exact ⟨rfl, hrest⟩

theorem joinColons_inj {l l' : List PerlStr} (hlength : l.length = l'.length)
    (hl : ∀ s ∈ l, 58 ∉ s) (hl' : ∀ s ∈ l', 58 ∉ s) (h : joinColons l = joinColons l') :
    l = l' := by
  have hmore : joinColons (l ++ [[]]) = joinColons (l' ++ [[]]) := by
    by_cases hnil : l = []
    · rw [hnil] at hlength
      rw [hnil, List.length_eq_zero_iff.mp hlength.symm]
    · have hnil' : l' ≠ [] := fun h' => hnil (List.length_eq_zero_iff.mp (by rw [hlength, h']; rfl))
      rw [joinColons_append hnil (by simp), joinColons_append hnil' (by simp), h]
  exact (joinColons_append_inj hlength hl hl' (by simp) (by simp) hmore).1

/-- Two colons for each name but the first. -/
theorem count_joinColons {l : List PerlStr} (h : ∀ s ∈ l, 58 ∉ s) :
    (joinColons l).count 58 = 2 * (l.length - 1) := by
  induction l with
  | nil => rfl
  | cons name l ih =>
      have hname := List.count_eq_zero.mpr (h name (by simp))
      by_cases hl : l = []
      · simpa [hl, joinColons] using hname
      · have hlength := List.length_pos_iff.mpr hl
        have hcolons : (ps "::").count 58 = 2 := rfl
        rw [joinColons_cons hl, List.count_append, List.count_append, hname, hcolons,
          ih fun s hs => h s (List.mem_cons_of_mem _ hs), List.length_cons]
        omega

/-- The colons of one name in between are the only ones that do not come from joining. -/
theorem count_joinColons_append {l m : List PerlStr} (name : PerlStr) (hl : ∀ s ∈ l, 58 ∉ s)
    (hm : ∀ s ∈ m, 58 ∉ s) :
    (joinColons (l ++ name :: m)).count 58 = name.count 58 + 2 * (l.length + m.length) := by
  have hcolons : (ps "::").count 58 = 2 := rfl
  have hback : (joinColons (name :: m)).count 58 = name.count 58 + 2 * m.length := by
    by_cases h : m = []
    · simp [h, joinColons]
    · have hlength := List.length_pos_iff.mpr h
      rw [joinColons_cons h, List.count_append, List.count_append, hcolons, count_joinColons hm]
      omega
  by_cases h : l = []
  · rw [h, List.nil_append, hback, List.length_nil, Nat.zero_add]
  · have hlength := List.length_pos_iff.mpr h
    rw [joinColons_append h (by simp), List.count_append, List.count_append, hcolons, hback,
      count_joinColons hl]
    omega

/-! ### Parts of packages -/

theorem not_mem_ucfirst {part : PerlStr} (h : 58 ∉ part) : 58 ∉ ucfirst part := by
  cases part with
  | nil => exact h
  | cons c part =>
      obtain ⟨hc, hpart⟩ : 58 ≠ c ∧ 58 ∉ part := by simpa using h
      have hupper : 58 ≠ upper c := fun heq => hc ((upper_eq_iff (by decide)).mp heq.symm).symm
      simpa [ucfirst, hupper] using hpart

theorem not_mem_perlPart {part : PerlStr} (h : 58 ∉ part) : 58 ∉ perlPart part := by
  unfold perlPart
  split
  · rw [List.mem_map]
    rintro ⟨c, hc, hupper⟩
    exact h ((upper_eq_iff (by decide)).mp hupper ▸ hc)
  · split
    · decide
    · exact not_mem_ucfirst h

theorem upper_eq_self_iff {c : ℕ} : upper c = c ↔ ¬ (97 ≤ c ∧ c ≤ 122) := by
  unfold upper
  split <;> omega

theorem map_upper_eq_self_iff {s : PerlStr} :
    s.map upper = s ↔ ∀ c ∈ s, ¬ (97 ≤ c ∧ c ≤ 122) := by
  induction s with
  | nil => simp
  | cons c s ih => rw [List.map_cons, List.cons.injEq, ih, upper_eq_self_iff, List.forall_mem_cons]

/-- A part that both sides spell alike. -/
theorem perlPart_eq_iff (part : PerlStr) : perlPart part = ucfirst part ↔ SamePart part := by
  unfold perlPart SamePart
  by_cases hversion : isVersion part
  · rw [if_pos hversion, if_pos hversion]
    cases part with
    | nil => cases hversion
    | cons c part =>
        rw [List.map_cons, ucfirst, List.cons.injEq, List.tail_cons, map_upper_eq_self_iff]
        exact and_iff_right rfl
  · rw [if_neg hversion, if_neg hversion]
    by_cases hcustom : part.map lower = ps "ggrpc"
    · rw [if_pos hcustom]
      refine iff_of_false (fun h => ?_) (not_not_intro hcustom)
      have hlength := congrArg List.length hcustom
      have hlength' := congrArg List.length h
      rw [List.length_map] at hlength
      rw [length_ucfirst, hlength] at hlength'
      cases hlength'
    · rw [if_neg hcustom]
      exact iff_of_true rfl hcustom

/-- The names are spelled alike part by part. -/
theorem map_perlPart_eq_iff (parts : List PerlStr) :
    parts.map perlPart = parts.map ucfirst ↔ ∀ part ∈ parts, SamePart part := by
  rw [List.map_inj_left]
  exact forall₂_congr fun part _ => perlPart_eq_iff part

section Parts

variable {fd : FileDescriptor} {path : List PerlStr} (hlegal : fd.Legal)

include hlegal

theorem isIdentifier_packageParts : ∀ part ∈ packageParts fd, isIdentifier part := by
  unfold packageParts
  split
  · exact fun part h => absurd h List.not_mem_nil
  · rename_i hp
    exact hlegal.package hp

theorem isIdentifier_parts (hpath : path ∈ fd.paths) (ref : Reference) :
    ∀ part ∈ ref.parts fd path, isIdentifier part := by
  intro part hpart
  have hall : part ∈ packageParts fd ++ path := by
    cases ref with
    | rooted => exact hpart
    | within k =>
        rw [Reference.parts, List.mem_append] at hpart
        exact List.mem_append.mpr (hpart.imp_left fun h => List.mem_of_mem_drop h)
  rcases List.mem_append.mp hall with h | h
  · exact isIdentifier_packageParts hlegal part h
  · exact hlegal.isIdentifier_of_mem_paths hpath h

end Parts

theorem intercalate_packageParts (fd : FileDescriptor) :
    [46].intercalate (packageParts fd) = fd.package := by
  unfold packageParts
  split
  · rename_i hp
    rw [hp]
    rfl
  · exact List.intercalate_splitOn 46

theorem packageParts_eq_nil_iff {fd : FileDescriptor} : packageParts fd = [] ↔ fd.package = [] := by
  unfold packageParts
  split
  · rename_i hp
    exact iff_of_true rfl hp
  · rename_i hp
    exact iff_of_false (List.splitOn_ne_nil _ _) hp

/-! ### File names -/

theorem length_camel_append (start : Bool) (s t : PerlStr) :
    (camel start s).length ≤ (camel start (s ++ t)).length := by
  induction s generalizing start with
  | nil => simp [camel]
  | cons c s ih =>
      rw [List.cons_append, camel, camel]
      split
      · exact ih true
      · exact Nat.succ_le_succ (ih false)

theorem beforeLastDot_append {s u : PerlStr} (hu : 46 ∉ u) : beforeLastDot (s ++ 46 :: u) = s := by
  rw [beforeLastDot, if_pos (by simp), rdropWhile_append_cons hu, List.dropLast_concat]

/-- The ways in which the ending of a file name is taken off. -/
theorem stripProto_cases (base : PerlStr) :
    (∃ s, base = s ++ ps ".proto" ∧ stripProto base = s) ∨
      (∃ s, base = s ++ ps ".proto\n" ∧ stripProto base = s ++ [10]) ∨
        ¬ ps ".proto" <:+ base ∧ stripProto base = base := by
  unfold stripProto
  by_cases hproto : (ps ".proto").isSuffixOf base
  · obtain ⟨s, rfl⟩ := List.isSuffixOf_iff_suffix.mp hproto
    rw [if_pos hproto]
    exact .inl ⟨s, rfl, by simp [List.rdrop, ps]⟩
  · rw [if_neg hproto]
    by_cases hline : (ps ".proto\n").isSuffixOf base
    · obtain ⟨s, rfl⟩ := List.isSuffixOf_iff_suffix.mp hline
      rw [if_pos hline]
      exact .inr (.inl ⟨s, rfl, by simp [List.rdrop, ps]⟩)
    · rw [if_neg hline]
      exact .inr (.inr ⟨fun h => hproto (List.isSuffixOf_iff_suffix.mpr h), rfl⟩)

/-- Both modules of a file are the same exactly if its name is usual. -/
theorem camel_stripProto_eq_iff (base : PerlStr) :
    camel true (stripProto base) = camel true (beforeLastDot base) ↔ UsualName base := by
  have hproto (s : PerlStr) : beforeLastDot (s ++ ps ".proto") = s :=
    beforeLastDot_append (by decide)
  have hline (s : PerlStr) : beforeLastDot (s ++ ps ".proto\n") = s :=
    beforeLastDot_append (by decide)
  rcases stripProto_cases base with ⟨s, rfl, hstrip⟩ | ⟨s, rfl, hstrip⟩ | ⟨hnot, hstrip⟩
  · rw [hstrip, hproto]
    exact iff_of_true rfl (.inr (List.suffix_append _ _))
  · rw [hstrip, hline]
    refine iff_of_false (fun h => ?_) ?_
    · have hcount := congrArg (List.count 10) h
      rw [count_camel (by decide), count_camel (by decide), List.count_append] at hcount
      simp at hcount
    · rintro (h | ⟨t, h⟩)
      · exact h (by simp [ps])
      · have hlast := congrArg List.getLast? h
        simp [ps] at hlast
  · rw [hstrip]
    by_cases hdot : 46 ∈ base
    · obtain ⟨s, u, rfl, hu⟩ := exists_append_cons_of_mem hdot
      rw [beforeLastDot_append hu]
      refine iff_of_false (fun h => ?_) ?_
      · have hcount := congrArg (List.count 46) h
        rw [count_camel (by decide), count_camel (by decide), List.count_append] at hcount
        simp at hcount
      · rintro (h | h)
        · exact h hdot
        · exact hnot h
    · rw [beforeLastDot, if_neg hdot]
      exact iff_of_true rfl (.inl hdot)

/-- The module of the plugin is not the longer one. -/
theorem length_pluginModule_le (base : PerlStr) :
    (camel true (beforeLastDot base)).length ≤ (camel true (stripProto base)).length := by
  by_cases husual : UsualName base
  · rw [(camel_stripProto_eq_iff base).mpr husual]
  · have hdot : 46 ∈ base := by
      by_contra hdot
      exact husual (.inl hdot)
    obtain ⟨s, u, rfl, hu⟩ := exists_append_cons_of_mem hdot
    rw [beforeLastDot_append hu]
    rcases stripProto_cases (s ++ 46 :: u) with ⟨t, ht, -⟩ | ⟨t, ht, hstrip⟩ | ⟨-, hstrip⟩
    · exact absurd (.inr ⟨t, ht.symm⟩) husual
    · have hs : s = t := by
        have hbefore := congrArg beforeLastDot ht
        rwa [beforeLastDot_append hu, show t ++ ps ".proto\n" = t ++ 46 :: ps "proto\n" from rfl,
          beforeLastDot_append (by decide)] at hbefore
      rw [hstrip, hs]
      exact length_camel_append true t [10]
    · rw [hstrip]
      exact length_camel_append true s (46 :: u)

theorem pmBase_eq (protoFile : PerlStr) :
    pmBase protoFile = camel true (stripProto (basename protoFile)) :=
  flatten_ucfirst_splitFields _

theorem pluginModule_eq (base : PerlStr) : pluginModule base = camel true (beforeLastDot base) :=
  toCamelCase_eq _

/-! ### What is resolved and what is registered -/

theorem protoToPerlNamespace_eq {parts : List PerlStr} (hne : parts ≠ [])
    (h : ∀ part ∈ parts, isIdentifier part) :
    protoToPerlNamespace ([46].intercalate parts) = joinColons (parts.map perlPart) := by
  obtain ⟨first, rest, rfl⟩ := List.exists_cons_of_ne_nil hne
  have hletter : BeginsWithLetter ([46].intercalate (first :: rest)) := by
    have hfirst := h first (by simp)
    by_cases hrest : rest = []
    · simpa [hrest] using beginsWithLetter_of_isIdentifier hfirst []
    · rw [List.intercalate_cons_of_ne_nil hrest, List.append_assoc]
      exact beginsWithLetter_of_isIdentifier hfirst _
  have hsplit := splitOn_path hne h
  rw [protoToPerlNamespace, if_neg (not_or.mpr ⟨hletter.ne_nil, hletter.ne_zero⟩),
    splitFields_of_ne_nil, hsplit]
  rw [hsplit]
  exact fun s hs => ne_nil_of_isIdentifier (h s hs)

/-- A name without a dot in it. -/
theorem resolvePerlType_bare {rawType name : PerlStr} (hraw : stripDot rawType = name)
    (hname : isIdentifier name) (filePackage messagePrefix : PerlStr) :
    resolvePerlType rawType filePackage messagePrefix = messagePrefix ++ ps "::" ++ name := by
  rw [resolvePerlType, hraw]
  exact if_neg (not_mem_of_isIdentifier hname rfl)

/-- A dotted name: the parts but the last, a module, and the last part. -/
theorem resolvePerlType_dotted {rawType name : PerlStr} {parts : List PerlStr}
    (hraw : stripDot rawType = [46].intercalate (parts ++ [name])) (hne : parts ≠ [])
    (hparts : ∀ part ∈ parts, isIdentifier part) (hname : isIdentifier name)
    (filePackage messagePrefix : PerlStr) :
    resolvePerlType rawType filePackage messagePrefix = joinColons
      (parts.map perlPart ++ [fileBase ([46].intercalate parts) name, name]) := by
  have hall : ∀ part ∈ parts ++ [name], isIdentifier part := by
    intro part hpart
    rcases List.mem_append.mp hpart with h | h
    · exact hparts part h
    · exact List.mem_singleton.mp h ▸ hname
  have hsplit := splitOn_path (by simp) hall
  have hfields : splitFields 46 ([46].intercalate (parts ++ [name])) = parts ++ [name] := by
    rw [splitFields_of_ne_nil, hsplit]
    rw [hsplit]
    exact fun s hs => ne_nil_of_isIdentifier (hall s hs)
  have hdot : 46 ∈ [46].intercalate (parts ++ [name]) := by
    by_contra hno
    have hone := List.splitOn_eq_singleton hno
    rw [hsplit] at hone
    have hlength := congrArg List.length hone
    have hpos := List.length_pos_iff.mpr hne
    simp only [List.length_append, List.length_singleton] at hlength
    omega
  have hjoined := joinColons_append (l := parts.map perlPart)
    (m := [fileBase ([46].intercalate parts) name, name]) (by simpa using hne) (by simp)
  rw [resolvePerlType, hraw]
  simp only [hdot, if_true, hfields, List.getLast?_concat, Option.getD_some, List.dropLast_concat,
    protoToPerlNamespace_eq hne hparts, hjoined]
  rw [joinColons_pair]
  simp only [List.append_assoc]

theorem stripDot_text {fd : FileDescriptor} (hlegal : fd.Legal) {path : List PerlStr}
    (hpath : path ∈ fd.paths) (ref : Reference) :
    stripDot (ref.text fd path) = [46].intercalate (ref.parts fd path) := by
  cases ref with
  | rooted => rfl
  | within k =>
      have hparts := isIdentifier_parts hlegal hpath (.within k)
      have htext : (Reference.within k).text fd path =
          [46].intercalate ((Reference.within k).parts fd path) := rfl
      rw [htext, stripDot, if_neg]
      intro hhead
      cases hall : (Reference.within k).parts fd path with
      | nil =>
          rw [hall] at hhead
          cases hhead
      | cons first rest =>
          have hfirst := hparts first (by simp [hall])
          obtain ⟨c, t, rfl, hc⟩ := by
            simpa using beginsWithLetter_of_isIdentifier hfirst []
          rw [hall] at hhead
          have hdot : c = 46 := by
            cases rest <;> simpa using hhead
          rw [hdot] at hc
          cases hc

/-- The class that the plugin registers. -/
theorem find_typeKey {files : List FileDescriptor} (hdistinct : Distinct files)
    (hlegal : ∀ fd ∈ files, fd.Legal) {fd : FileDescriptor} (hfd : fd ∈ files)
    {path : List PerlStr} (hpath : path ∈ fd.paths) :
    Assoc.find (buildTypeMap files) (fd.typeKey path) = some (joinColons
      ((packageParts fd).map ucfirst ++
        pluginModule (fd.name.rtakeWhile (· ≠ 47)) :: path)) := by
  have hentry : (fd.typeKey path, getPerlPackage fd ++ ps "::" ++ joinColons path) ∈
      files.flatMap FileDescriptor.typeEntries :=
    List.mem_flatMap.mpr ⟨fd, hfd, List.mem_map.mpr ⟨path, hpath, rfl⟩⟩
  have hfind := Assoc.find_of_mem (nodup_typeEntries hdistinct hlegal) hentry
  rw [← buildTypeMap_eq hdistinct hlegal] at hfind
  have hne := FileDescriptor.Legal.ne_nil_of_mem_paths hpath
  rw [hfind, (hlegal fd hfd).getPerlPackage_eq, FileDescriptor.className, ← pluginModule]
  by_cases hp : fd.package = []
  · rw [if_pos hp, packageParts, if_pos hp, List.map_nil, List.nil_append, joinColons_cons hne]
  · rw [if_neg hp, joinColons_append (by simpa [packageParts_eq_nil_iff] using hp) (by simp),
      joinColons_cons hne, packageParts, if_neg hp]
    simp only [List.append_assoc]

theorem namedFor_iff (package messageName module : PerlStr) :
    NamedFor package messageName module ↔ fileBase package messageName = module := by
  have hdifferent : ps "google.protobuf" ≠ ps "google.api" := by decide
  unfold NamedFor fileBase
  by_cases hprotobuf : package = ps "google.protobuf"
  · have hapi : package ≠ ps "google.api" := hprotobuf ▸ hdifferent
    by_cases hin : InDescriptor messageName
    · simp [hprotobuf, hin, hdifferent, eq_comm]
    · simp [hprotobuf, hin, hdifferent, eq_comm]
  · by_cases hapi : package = ps "google.api"
    · by_cases hin : InHttp messageName
      · simp [hapi, hin, hdifferent.symm, eq_comm]
      · simp [hapi, hin, hdifferent.symm, eq_comm]
    · simp [hprotobuf, hapi, eq_comm]

theorem chain_iff {package : List PerlStr} {module name : PerlStr} {outer : List PerlStr} :
    Chain package module (outer ++ [name]) ↔
      outer.map perlPart ++ [fileBase ([46].intercalate (package ++ outer)) name] =
        module :: outer := by
  induction outer generalizing package module with
  | nil =>
      rw [List.nil_append, Chain, namedFor_iff, List.append_nil]
      simp
  | cons first outer ih =>
      have hcons : Chain package module (first :: outer ++ [name]) ↔
          module = perlPart first ∧ Chain (package ++ [first]) first (outer ++ [name]) := by
        cases outer <;> exact Iff.rfl
      rw [hcons, ih, List.append_assoc, List.singleton_append, List.map_cons, List.cons_append,
        List.cons.injEq]
      exact and_congr_left' eq_comm

/-! ### When they are one class -/

theorem not_mem_fileBase {package messageName : PerlStr} (h : 58 ∉ messageName) :
    58 ∉ fileBase package messageName := by
  have hdescriptor : 58 ∉ ps "Descriptor" := by decide
  have hhttp : 58 ∉ ps "Http" := by decide
  unfold fileBase
  split_ifs
  · exact hdescriptor
  · exact h
  · exact hhttp
  · exact h
  · exact h

section

variable {fd : FileDescriptor} {path : List PerlStr} (hlegal : fd.Legal)

include hlegal

/-- A bare name: the package and the module of the file have to be the same. -/
theorem bare_iff {protoFile name : PerlStr}
    (hbase : basename protoFile = fd.name.rtakeWhile (· ≠ 47)) :
    joinColons ((packageParts fd).map ucfirst ++
          [pluginModule (fd.name.rtakeWhile (· ≠ 47)), name]) =
        messagePrefix fd.package protoFile ++ ps "::" ++ name ↔
      (∀ part ∈ packageParts fd, SamePart part) ∧
        fd.package ≠ [] ∧ UsualName (fd.name.rtakeWhile (· ≠ 47)) := by
  have hpm := pmBase_eq protoFile
  rw [hbase] at hpm
  by_cases hp : fd.package = []
  · -- two colons too many
    refine iff_of_false (fun h => ?_) fun h => h.2.1 hp
    have hlength := congrArg List.length h
    have hle := length_pluginModule_le (fd.name.rtakeWhile (· ≠ 47))
    rw [packageParts_eq_nil_iff.mpr hp, messagePrefix, hp, protoToPerlNamespace, if_pos (.inl rfl),
      hpm, List.map_nil, List.nil_append, joinColons_pair, pluginModule_eq] at hlength
    simp [ps] at hlength
    simp at hle
    omega
  · have hne : packageParts fd ≠ [] := mt packageParts_eq_nil_iff.mp hp
    have hparts := isIdentifier_packageParts hlegal
    have hcolon : ∀ part ∈ packageParts fd, 58 ∉ part := fun part hpart =>
      not_mem_of_isIdentifier (hparts part hpart) rfl
    have hresolved : messagePrefix fd.package protoFile ++ ps "::" ++ name = joinColons
        ((packageParts fd).map perlPart ++ [pmBase protoFile, name]) := by
      rw [messagePrefix, ← intercalate_packageParts fd, protoToPerlNamespace_eq hne hparts,
        joinColons_append (by simpa using hne) (by simp), joinColons_pair]
      simp only [List.append_assoc]
    rw [hresolved, ← map_perlPart_eq_iff, ← camel_stripProto_eq_iff, ← hpm, ← pluginModule_eq]
    constructor
    · intro h
      have hplugin : ∀ part ∈ (packageParts fd).map ucfirst, 58 ∉ part :=
        List.forall_mem_map.mpr fun part hpart => not_mem_ucfirst (hcolon part hpart)
      have hstarter : ∀ part ∈ (packageParts fd).map perlPart, 58 ∉ part :=
        List.forall_mem_map.mpr fun part hpart => not_mem_perlPart (hcolon part hpart)
      -- no part has a colon, so the two names agree part by part
      obtain ⟨hsame, hrest⟩ :=
        joinColons_append_inj (by simp) hplugin hstarter (by simp) (by simp) h
      rw [joinColons_pair, joinColons_pair] at hrest
      exact ⟨hsame.symm, hp, (List.append_cancel_right (List.append_cancel_right hrest)).symm⟩
    · rintro ⟨hsame, -, hmodule⟩
      rw [hsame, hmodule]

/-- A dotted name: no part of the package may be missing. -/
theorem dotted_iff {front outer : List PerlStr} {name module : PerlStr}
    (hfront : ∃ k, front = (packageParts fd).drop k) (houter : ∀ part ∈ outer, isIdentifier part)
    (hname : isIdentifier name) :
    joinColons ((packageParts fd).map ucfirst ++ module :: (outer ++ [name])) =
        joinColons ((front ++ outer).map perlPart ++
          [fileBase ([46].intercalate (front ++ outer)) name, name]) ↔
      (∀ part ∈ packageParts fd, SamePart part) ∧ front = packageParts fd ∧
        Chain (packageParts fd) module (outer ++ [name]) := by
  obtain ⟨k, rfl⟩ := hfront
  have hcolon : ∀ part ∈ packageParts fd, 58 ∉ part := fun part hpart =>
    not_mem_of_isIdentifier (isIdentifier_packageParts hlegal part hpart) rfl
  have houter' : ∀ part ∈ outer, 58 ∉ part := fun part hpart =>
    not_mem_of_isIdentifier (houter part hpart) rfl
  have hname' : 58 ∉ name := not_mem_of_isIdentifier hname rfl
  have hplugin : ∀ part ∈ (packageParts fd).map ucfirst, 58 ∉ part :=
    List.forall_mem_map.mpr fun part hpart => not_mem_ucfirst (hcolon part hpart)
  have hbehind : ∀ part ∈ outer ++ [name], 58 ∉ part := by
    simpa [or_imp, forall_and, hname'] using houter'
  have hstarter : ∀ part ∈ ((packageParts fd).drop k ++ outer).map perlPart, 58 ∉ part := by
    refine List.forall_mem_map.mpr fun part hpart => not_mem_perlPart ?_
    rcases List.mem_append.mp hpart with h | h
    · exact hcolon part (List.mem_of_mem_drop h)
    · exact houter' part h
  have hbase : 58 ∉ fileBase ([46].intercalate ((packageParts fd).drop k ++ outer)) name :=
    not_mem_fileBase hname'
  rw [chain_iff, ← map_perlPart_eq_iff]
  constructor
  · intro h
    have hcount := congrArg (List.count 58) h
    rw [count_joinColons_append module hplugin hbehind,
      count_joinColons_append _ hstarter (by simpa using hname'),
      List.count_eq_zero.mpr hbase] at hcount
    simp only [List.length_map, List.length_append, List.length_drop, List.length_singleton]
      at hcount
    -- nothing is missing, and the module has no colon
    have hmodule : 58 ∉ module := List.count_eq_zero.mp (by omega)
    have hall : (packageParts fd).drop k = packageParts fd :=
      (List.drop_sublist k _).eq_of_length (by rw [List.length_drop]; omega)
    rw [hall] at h hstarter hbase
    have hlists := joinColons_inj (by simp) (List.forall_mem_append.mpr
      ⟨hplugin, List.forall_mem_cons.mpr ⟨hmodule, hbehind⟩⟩) (List.forall_mem_append.mpr
      ⟨hstarter, List.forall_mem_cons.mpr ⟨hbase, by simpa using hname'⟩⟩) h
    rw [List.map_append, List.append_assoc] at hlists
    obtain ⟨hsame, hrest⟩ := List.append_inj hlists (by simp)
    refine ⟨hsame.symm, hall, ?_⟩
    have hsplit : module :: outer ++ [name] = outer.map perlPart ++
        [fileBase ([46].intercalate (packageParts fd ++ outer)) name] ++ [name] := by
      rw [List.cons_append, hrest, List.append_assoc]
      rfl
    exact (List.append_cancel_right hsplit).symm
  · rintro ⟨hsame, hall, hchain⟩
    have hsplit : module :: (outer ++ [name]) = outer.map perlPart ++
        [fileBase ([46].intercalate (packageParts fd ++ outer)) name, name] := by
      rw [← List.cons_append, ← hchain, List.append_assoc]
      rfl
    rw [hall, hsplit, List.map_append, hsame, List.append_assoc]

end

/-- The wrapper's class for a message type of a file, named in one of the ways that there are, is
the one that the plugin registers exactly if this holds. -/
theorem wrapper_class_iff {files : List FileDescriptor} (hdistinct : Distinct files)
    (hlegal : ∀ fd ∈ files, fd.Legal) {fd : FileDescriptor} (hfd : fd ∈ files)
    {path : List PerlStr} (hpath : path ∈ fd.paths) {protoFile : PerlStr}
    (hbase : basename protoFile = fd.name.rtakeWhile (· ≠ 47)) (ref : Reference) :
    RightClass files fd path protoFile ref ↔ SameClass fd path ref := by
  have hfile := hlegal fd hfd
  have hraw := stripDot_text hfile hpath ref
  have hnames : ∀ part ∈ path, isIdentifier part := fun part hpart =>
    hfile.isIdentifier_of_mem_paths hpath hpart
  obtain ⟨outer, name, rfl⟩ : ∃ outer name, path = outer ++ [name] := by
    obtain h | ⟨outer, name, h⟩ := List.eq_nil_or_concat path
    · exact absurd h (FileDescriptor.Legal.ne_nil_of_mem_paths hpath)
    · exact ⟨outer, name, by simpa using h⟩
  -- a reference leaves off some of the package, and nothing of the path
  have hfront : ∃ k, ref.parts fd (outer ++ [name]) =
      (packageParts fd).drop k ++ (outer ++ [name]) := by
    cases ref with
    | within k => exact ⟨k, rfl⟩
    | rooted => exact ⟨0, rfl⟩
  obtain ⟨k, hparts⟩ := hfront
  rw [RightClass, find_typeKey hdistinct hlegal hfd hpath, Option.some.injEq, SameClass]
  by_cases hone : (ref.parts fd (outer ++ [name])).length = 1
  · -- a bare name
    rw [hparts, List.length_append, List.length_append, List.length_singleton] at hone
    obtain rfl : outer = [] := List.length_eq_zero_iff.mp (by omega)
    have hdrop : (packageParts fd).drop k = [] := List.length_eq_zero_iff.mp (by omega)
    rw [hdrop] at hparts
    rw [hparts] at hraw
    have hstrip : stripDot (ref.text fd ([] ++ [name])) = name := by simpa using hraw
    have hlength : (ref.parts fd ([] ++ [name])).length = 1 := by rw [hparts]; rfl
    rw [resolvePerlType_bare hstrip (hnames name (by simp)), if_pos hlength]
    exact bare_iff hfile hbase
  · have hlong := hone
    rw [hparts, List.length_append, List.length_append, List.length_singleton] at hlong
    rw [if_neg hone, hparts, List.append_left_inj]
    rw [hparts, ← List.append_assoc] at hraw
    rw [resolvePerlType_dotted hraw]
    · exact dotted_iff hfile ⟨k, rfl⟩ (fun part hpart => hnames part (by simp [hpart]))
        (hnames name (by simp))
    · intro hnil
      rw [← List.length_eq_zero_iff, List.length_append] at hnil
      omega
    · intro part hpart
      refine isIdentifier_parts hfile hpath ref part ?_
      rw [hparts]
      rcases List.mem_append.mp hpart with h | h
      · exact List.mem_append_left _ h
      · exact List.mem_append_right _ (List.mem_append_left _ h)
    · exact hnames name (by simp)

theorem legal_my_file : (fileOf "x/my_file.proto" "a.b" "C").Legal :=
  ⟨by decide, by decide, by decide, by decide⟩

/-- A bare name in a file of a package. -/
theorem right_class_my_file : RightClass [fileOf "x/my_file.proto" "a.b" "C"]
    (fileOf "x/my_file.proto" "a.b" "C") [ps "C"] (ps "protos/x/my_file.proto") (.within 2) := by
  have hdistinct : Distinct [fileOf "x/my_file.proto" "a.b" "C"] := ⟨by decide, by decide⟩
  have hlegal : ∀ fd ∈ [fileOf "x/my_file.proto" "a.b" "C"], fd.Legal :=
    fun fd hfd => List.mem_singleton.mp hfd ▸ legal_my_file
  have husual : UsualName ((ps "x/my_file.proto").rtakeWhile (· ≠ 47)) := .inr ⟨ps "my_file", rfl⟩
  refine (wrapper_class_iff hdistinct hlegal (.head _) (.head _) (by decide) (.within 2)).mpr
    ⟨fun part hpart => (perlPart_eq_iff part).mp ?_, (if_pos rfl).mpr ⟨by decide, husual⟩⟩
  have hparts : packageParts (fileOf "x/my_file.proto" "a.b" "C") = [ps "a", ps "b"] := by decide
  rw [hparts] at hpart
  simp only [List.mem_cons, List.not_mem_nil, or_false] at hpart
  rcases hpart with rfl | rfl <;> rfl

/-- A version has all its letters raised in the wrapper, `P::V1BETA1::S::M`, and the first one in
the plugin, `P::V1beta1::S::M`. -/
theorem not_right_class_version :
    (fileOf "s.proto" "p.v1beta1" "M").Legal ∧ Distinct [fileOf "s.proto" "p.v1beta1" "M"] ∧
      ¬ RightClass [fileOf "s.proto" "p.v1beta1" "M"] (fileOf "s.proto" "p.v1beta1" "M") [ps "M"]
        (ps "s.proto") (.within 2) := by
  refine ⟨⟨by decide, by decide, by decide, by decide⟩, ⟨by decide, by decide⟩, ?_⟩
  unfold RightClass
  decide

end GooglePerl.Starter
