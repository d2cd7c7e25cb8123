import Mathlib.Data.Finset.Card
import GooglePerl.Lib.Scan
import GooglePerl.Lib.Split
import GooglePerl.Protobuf.Declarations
import GooglePerl.Protobuf.DelimitedFields

/-!
`add_serialized_file` of a pool that is kept by the XS code: files and messages that are missing
are recovered from the text of the error, and a stub is added for each.

The XS function is a parameter. `Reports` is what is assumed of it: it reports one missing name a
call, in the words that the code matches, and a stub with that name makes it known. The loop
ends well exactly for fewer than twenty names that are matched whole and fit a stub (`stubs_iff`).
-/

namespace GooglePerl.Protobuf.ImportStubs

open GooglePerl.Lib
open GooglePerl.Lib.Scan (Matcher literal andThen orElse yields many1 findFirst Stops
  findFirst_of_some findFirst_skip)

/-! ### The text of an error -/

def truthy (s : PerlStr) : Bool := s ≠ [] && s ≠ [48]

/-- `'` or `"` -/
def isQuote (c : ℕ) : Bool := c == 39 || c == 34

/-- `['"]` -/
def quote : Matcher ℕ Unit
  | [] => none
  | c :: s => if isQuote c then some ((), s) else none

/-- `([^'"]+)['"]` -/
def name : Matcher ℕ PerlStr :=
  andThen (many1 fun c => !isQuote c) fun text => andThen quote fun _ => yields text

/-- `.*?` before a pattern -/
def lazily {α : Type} (m : Matcher ℕ α) : Matcher ℕ α
  | [] => m []
  | c :: s => (m (c :: s)).or (if c = 10 then none else lazily m s)

/-- `['"]([^'"]+)['"]` -/
def quoted : Matcher ℕ PerlStr := andThen quote fun _ => name

/-- `['"]\.?([^'"]+)['"]` -/
def quotedSymbol : Matcher ℕ PerlStr :=
  andThen quote fun _ => orElse (andThen (literal [46]) fun _ => name) name

/-- `/Depends on file ['"]([^'"]+)['"]/` -/
def dependsOn : Matcher ℕ PerlStr := andThen (literal (ps "Depends on file ")) fun _ => quoted

/-- `/couldn['"]t resolve name ['"]\.?([^'"]+)['"]/` -/
def notFound : Matcher ℕ PerlStr :=
  andThen (literal (ps "couldn")) fun _ => andThen quote fun _ =>
    andThen (literal (ps "t resolve name ")) fun _ => quotedSymbol

/-- `/Message type not resolved for field .*? of type ['"]\.?([^'"]+)['"]/` -/
def notResolved : Matcher ℕ PerlStr :=
  andThen (literal (ps "Message type not resolved for field ")) fun _ =>
    lazily (andThen (literal (ps " of type ")) fun _ => quotedSymbol)

/-- `/^(?:(.+)\.)?([^.]+)$/` with the empty string for what is not captured. -/
def splitSymbol (sym : PerlStr) : PerlStr × PerlStr :=
  let last := sym.rtakeWhile (· ≠ 46)
  let front := (sym.rdropWhile (· ≠ 46)).dropLast
  if last = [] then ([], [])
  else if last = sym then ([], sym)
  else if front = [] ∨ 10 ∈ front then ([], [])
  else (front, last)

/-! ### Stubs -/

/-- A key, one octet for the length, and a text. -/
def packed (key : ℕ) (text : PerlStr) : PerlStr := key :: text.length % 256 :: text

/-- `syntax = "proto3"` -/
def proto3 : PerlStr := packed 0x62 (ps "proto3")

/-- `$raw_dep` -/
def rawDep (dep : PerlStr) : PerlStr := packed 0x0a dep ++ proto3

/-- `$fn` -/
def stubFileName (pkg msgName : PerlStr) : PerlStr :=
  ((if truthy pkg then pkg else ps "default") ++ ps "/stub_" ++ msgName ++ ps ".proto").map
    fun c => if c = 46 then 47 else c

/-- `$raw_stub` -/
def rawStub (sym : PerlStr) : PerlStr :=
  let pkg := if truthy (splitSymbol sym).1 then (splitSymbol sym).1 else []
  let msgName := if truthy (splitSymbol sym).2 then (splitSymbol sym).2 else sym
  packed 0x0a (stubFileName pkg msgName) ++ (if truthy pkg then packed 0x12 pkg else []) ++
    packed 0x22 (packed 0x0a msgName) ++ proto3

/-- What is done about an error. -/
inductive Reaction where
  | add (raw : PerlStr)
  /-- `last` -/
  | stop
  | die

def reaction (err : PerlStr) : Reaction :=
  match findFirst dependsOn err with
  | some dep => .add (rawDep dep)
  | none =>
      match findFirst (orElse notFound notResolved) err with
      | some sym => .add (rawStub sym)
      | none =>
          if (findFirst (literal (ps "has no extension range in message")) err).isSome then .stop
          else .die

/-! ### The loop -/

section Loop

variable {S F : Type}

/-- An attempt that failed: the pool before it, and the stub that was added. -/
structure Round (S : Type) where
  before : S
  stub : Option PerlStr

structure Outcome (S F : Type) where
  result : Except PerlStr (Option F)
  state : S
  rounds : List (Round S)

/-- At most `n` attempts. -/
def attempts (xs : PerlStr → S → Except PerlStr F × S) (serialized : PerlStr) :
    ℕ → S → Outcome S F
  | 0, s => ⟨.ok none, s, []⟩
  | n + 1, s =>
      match xs serialized s with
      | (.ok file, s') => ⟨.ok (some file), s', []⟩
      | (.error err, s') =>
          match reaction err with
          | .add raw =>
              let rest := attempts xs serialized n (xs raw s').2
              { rest with rounds := ⟨s, some raw⟩ :: rest.rounds }
          | .stop => ⟨.ok none, s', [⟨s, none⟩]⟩
          | .die => ⟨.error err, s', [⟨s, none⟩]⟩

/-- `add_serialized_file` on what `_xs_add_serialized_file` does to the pool. -/
def addSerializedFile (xs : PerlStr → S → Except PerlStr F × S) (serialized : PerlStr) (s : S) :
    Outcome S F :=
  attempts xs serialized 20 s

end Loop

/-! ### Missing names -/

/-- A file that is imported, or a message, that a pool does not have. -/
inductive MissingName where
  | file (name : PerlStr)
  | message (package name : PerlStr)
  deriving DecidableEq

namespace MissingName

/-- The patterns match in quotes what does not begin with a quote; packages and messages have
the names of the language. -/
def Valid : MissingName → Prop
  | .file name => ∃ c t, name = c :: t ∧ isQuote c = false
  | .message package name =>
      isIdentifier name ∧ (package ≠ [] → ∀ s ∈ package.splitOn 46, isIdentifier s)

/-- The full name of a message. -/
def fullName (package name : PerlStr) : PerlStr :=
  if package = [] then name else package ++ 46 :: name

end MissingName

abbrev Missing : Type := { m : MissingName // m.Valid }

/-- What full names are made of. -/
def isNameChar (c : ℕ) : Bool := isLetter c || (48 ≤ c && c ≤ 57) || c == 46

/-- What a report has beside the name. -/
structure Wording where
  /-- The name of the message begins with a dot. -/
  dot : Bool
  /-- The field whose type is not resolved, in a report that names it. -/
  field : Option PerlStr
  /-- ` at … line ….` -/
  place : PerlStr
  field_name : ∀ f ∈ field, ∀ c ∈ f, isNameChar c = true
  place_quotes : ∀ c ∈ place, isQuote c = false

namespace Wording

variable (w : Wording)

/-- What stands before the name of a message. -/
def lead : PerlStr :=
  match w.field with
  | none => ps "couldn't resolve name '"
  | some f => ps "Message type not resolved for field " ++ f ++ ps " of type '"

/-- The text that the XS function dies with. -/
def text : MissingName → PerlStr
  | .file name =>
      ps "Failed to add file to pool: " ++ ps "Depends on file '" ++ name ++
        ps "', but it has not been loaded" ++ w.place
  | .message package name =>
      ps "Failed to add file to pool: " ++ w.lead ++ (if w.dot then [46] else []) ++
        MissingName.fullName package name ++ 39 :: w.place

end Wording

/-! ### What is claimed -/

/-- What a stub is to declare. -/
structure Stub where
  file : PerlStr
  package : PerlStr := []
  message : Option PerlStr := none
  deriving DecidableEq

def MissingName.stub : MissingName → Stub
  | .file name => { file := name }
  | .message package name =>
      { file := stubFileName package name, package := package, message := some name }

/-- `DescriptorProto`: a name. -/
def DecodesMessage (body name : PerlStr) : Prop :=
  ∃ fields, Fields body fields ∧ (∀ f ∈ fields, f.1 = 1) ∧ lastContent 1 fields = name

/-- `FileDescriptorProto`: a name, a package, at most one message, the syntax, and no more. -/
def Decodes (raw : PerlStr) (stub : Stub) : Prop :=
  ∃ fields, Fields raw fields ∧ (∀ f ∈ fields, f.1 ∈ [1, 2, 4, 12]) ∧
    lastContent 1 fields = stub.file ∧ lastContent 2 fields = stub.package ∧
    lastContent 12 fields = ps "proto3" ∧
    List.Forall₂ DecodesMessage (contents 4 fields) stub.message.toList

section

variable {S F : Type}

/-- What is assumed of `_xs_add_serialized_file`. -/
structure Reports (xs : PerlStr → S → Except PerlStr F × S) (serialized : PerlStr)
    (missing : S → Finset Missing) (reported : S → Missing) : Prop where
  fails : ∀ s, (missing s).Nonempty → reported s ∈ missing s ∧ ∃ w : Wording, ∃ s',
    xs serialized s = (.error (w.text (reported s).1), s') ∧ missing s' = missing s
  succeeds : ∀ s, missing s = ∅ → ∃ file s', xs serialized s = (.ok file, s')
  stubbed : ∀ s raw, ∀ m ∈ missing s, Decodes raw m.1.stub →
    missing (xs raw s).2 = (missing s).erase m

/-- A stub is added for every name that is reported, which decodes to that and nothing else, and
the file is added or the call dies. -/
structure Good (out : Outcome S F) (reported : S → Missing) : Prop where
  stubs : ∀ round ∈ out.rounds, ∃ raw, round.stub = some raw ∧
    ∀ stub, Decodes raw stub ↔ stub = (reported round.before).1.stub
  added : out.result ≠ .ok none

end

/-- Any file that these names are missing for is added well. -/
def Stubs (names : Finset Missing) : Prop :=
  ∀ (S F : Type) (xs : PerlStr → S → Except PerlStr F × S) (serialized : PerlStr)
    (missing : S → Finset Missing) (reported : S → Missing),
    Reports xs serialized missing reported → ∀ s, missing s = names →
      Good (addSerializedFile xs serialized s) reported

/-- A name that is matched whole and fits a stub: no quotes, and lengths of seven bits. -/
def MissingName.Fits : MissingName → Prop
  | .file name => (∀ c ∈ name, isQuote c = false) ∧ name.length < 128
  | .message package name => (stubFileName package name).length < 128

/-! ### Matching -/

section Matching

variable {α : Type} {m : Matcher ℕ α} {s rest u : PerlStr} {a : α}

theorem literal_of_head_ne {c d : ℕ} {w : PerlStr} (h : c ≠ d) :
    literal (d :: w) (c :: s) = none := if_neg h

theorem quote_eq_some {r : PerlStr} :
    quote s = some ((), r) ↔ ∃ q, isQuote q = true ∧ s = q :: r := by
  cases s with
  | nil => simp [quote]
  | cons c s => by_cases hc : isQuote c = true <;> simp [quote, hc]

theorem consumes_quote : Scan.Consumes quote := by
  intro s a r h
  obtain ⟨q, -, rfl⟩ := quote_eq_some.mp h
  exact ⟨List.suffix_cons q r, Nat.lt_succ_self _⟩

theorem reads_name : Scan.Reads name :=
  (Scan.reads_many1 _).andThen fun text =>
    consumes_quote.reads.andThen fun _ => Scan.reads_yields text

theorem name_append {text : PerlStr} {q : ℕ} (hne : text ≠ [])
    (htext : ∀ c ∈ text, isQuote c = false) (hq : isQuote q = true) :
    name (text ++ q :: rest) = some (text, rest) := by
  have hmany : many1 (fun c => !isQuote c) (text ++ q :: rest) = some (text, q :: rest) :=
    Scan.many1_append hne (fun c hc => by rw [htext c hc]; rfl) (Scan.stops_cons (by rw [hq]; rfl))
  have hquote : quote (q :: rest) = some ((), rest) := quote_eq_some.mpr ⟨q, hq, rfl⟩
  rw [name, Scan.andThen_of_some hmany, Scan.andThen_of_some hquote]
  rfl

theorem quoted_append {text : PerlStr} {q q' : ℕ} (hq : isQuote q = true) (hne : text ≠ [])
    (htext : ∀ c ∈ text, isQuote c = false) (hq' : isQuote q' = true) :
    quoted (q :: (text ++ q' :: rest)) = some (text, rest) := by
  have hquote : quote (q :: (text ++ q' :: rest)) = some ((), text ++ q' :: rest) :=
    quote_eq_some.mpr ⟨q, hq, rfl⟩
  rw [quoted, Scan.andThen_of_some hquote, name_append hne htext hq']

theorem consumes_dependsOn : Scan.Consumes dependsOn :=
  (Scan.consumes_literal (by decide)).andThen fun _ =>
    consumes_quote.reads.andThen fun _ => reads_name

/-- The pattern begins with a `D`. -/
theorem dependsOn_skip (h : 68 ∉ u) :
    findFirst dependsOn (u ++ rest) = findFirst dependsOn rest := by
  refine findFirst_skip fun v hne hv => ?_
  obtain ⟨c, v, rfl⟩ := List.exists_cons_of_ne_nil hne
  have hc : c ≠ 68 := fun heq => h (heq ▸ hv.mem List.mem_cons_self)
  exact Scan.andThen_of_none (literal_of_head_ne hc)

theorem isQuote_of_isNameChar {c : ℕ} (h : isNameChar c = true) : isQuote c = false := by
  simp only [isNameChar, isLetter, isQuote, Bool.or_eq_true, Bool.and_eq_true, decide_eq_true_eq,
    beq_iff_eq, Bool.or_eq_false_iff, beq_eq_false_iff_ne] at h ⊢
  omega

/-- No name has the blank of the pattern. -/
theorem dependsOn_skip_name (hu : ∀ c ∈ u, isNameChar c = true) (hstop : Stops isNameChar rest)
    (hrest : ¬ ps " on file " <+: rest) :
    findFirst dependsOn (u ++ rest) = findFirst dependsOn rest := by
  refine findFirst_skip fun v _ hv => ?_
  refine Scan.andThen_of_none ?_
  cases hliteral : literal (ps "Depends on file ") (v ++ rest) with
  | none => rfl
  | some p =>
      exfalso
      obtain ⟨⟨⟩, t⟩ := p
      have heq := Scan.literal_eq_some.mp hliteral
      have hv' : ∀ c ∈ v, isNameChar c = true := fun c hc => hu c (hv.mem hc)
      have htake : (v ++ rest).takeWhile isNameChar = v := by
        rw [List.takeWhile_append_of_pos hv']
        cases rest with
        | nil => simp
        | cons c rest => simp [hstop c rfl]
      have hdepends : (ps "Depends on file " ++ t).takeWhile isNameChar = ps "Depends" := by
        have hsplit : ps "Depends on file " = ps "Depends" ++ 32 :: ps "on file " := by decide
        rw [hsplit, List.append_assoc, List.takeWhile_append_of_pos (by decide)]
        simp [isNameChar, isLetter]
      rw [heq, hdepends] at htake
      rw [← htake] at heq
      have hcancel : ps "Depends" ++ rest = ps "Depends" ++ (ps " on file " ++ t) := heq
      exact hrest ⟨t, (List.append_cancel_left hcancel).symm⟩

/-- A match has a quote in it. -/
theorem dependsOn_of_no_quote (h : ∀ c ∈ s, isQuote c = false) : findFirst dependsOn s = none := by
  cases hfind : findFirst dependsOn s with
  | none => rfl
  | some dep =>
      exfalso
      obtain ⟨t, r, ht, hmatch⟩ :=
        Scan.exists_of_mem_findAll consumes_dependsOn (List.mem_of_head? hfind)
      obtain ⟨⟨⟩, t₁, hliteral, hquoted⟩ := Scan.andThen_eq_some.mp hmatch
      obtain ⟨⟨⟩, t₂, hquote, -⟩ := Scan.andThen_eq_some.mp hquoted
      obtain ⟨q, hq, rfl⟩ := quote_eq_some.mp hquote
      rw [Scan.literal_eq_some.mp hliteral] at ht
      have hnot := h q (ht.mem (List.mem_append_right _ List.mem_cons_self))
      rw [hq] at hnot
      cases hnot

/-! ### Names of messages -/

theorem isNameChar_of_isIdentifier {n : PerlStr} (h : isIdentifier n) :
    ∀ c ∈ n, isNameChar c = true ∧ c ≠ 46 := by
  intro c hc
  cases n with
  | nil => cases h
  | cons d n =>
      rw [isIdentifier, Bool.and_eq_true, List.all_eq_true] at h
      have hchar : (isLetter c || (48 ≤ c && c ≤ 57)) = true := by
        rcases List.mem_cons.mp hc with rfl | hc
        · rw [h.1]
          rfl
        · exact h.2 c hc
      refine ⟨by rw [isNameChar, hchar]; rfl, ?_⟩
      rintro rfl
      cases hchar

theorem isNameChar_of_package {package : PerlStr}
    (h : ∀ n ∈ package.splitOn 46, isIdentifier n) : ∀ c ∈ package, isNameChar c = true := by
  have hjoin : [46].intercalate (package.splitOn 46) = package := List.intercalate_splitOn 46
  rw [← hjoin]
  generalize package.splitOn 46 = parts at h
  induction parts with
  | nil => exact fun c hc => absurd hc List.not_mem_nil
  | cons n parts ih =>
      have hn := isNameChar_of_isIdentifier (h n List.mem_cons_self)
      have hparts := ih fun n' hn' => h n' (List.mem_cons_of_mem n hn')
      cases parts with
      | nil => simpa using fun c hc => (hn c hc).1
      | cons n' parts =>
          rw [List.intercalate_cons_of_ne_nil (List.cons_ne_nil n' parts)]
          intro c hc
          rcases List.mem_append.mp hc with hc | hc
          · rcases List.mem_append.mp hc with hc | hc
            · exact (hn c hc).1
            · rw [List.mem_singleton.mp hc]
              rfl
          · exact hparts c hc

/-- The name of a message as the patterns see it. -/
structure IsFullName (full package name : PerlStr) : Prop where
  ne_nil : full ≠ []
  chars : ∀ c ∈ full, isNameChar c = true
  head : ∀ t, full ≠ 46 :: t
  split : splitSymbol full = (package, name)
  package_truthy : truthy package = true ∨ package = []
  name_truthy : truthy name = true

/-- What begins with an identifier is true to Perl and begins with no dot. -/
theorem truthy_of_isIdentifier {n : PerlStr} (h : isIdentifier n) (t : PerlStr) :
    truthy (n ++ t) = true ∧ ∀ u, n ++ t ≠ 46 :: u := by
  cases n with
  | nil => cases h
  | cons c n =>
      rw [isIdentifier, Bool.and_eq_true] at h
      have hzero : c ≠ 48 := by
        rintro rfl
        cases h.1
      have hdot : c ≠ 46 := by
        rintro rfl
        cases h.1
      constructor
      · simp [truthy, hzero]
      · intro u heq
        exact hdot (List.cons.inj heq).1

theorem exists_isIdentifier_append {package : PerlStr}
    (h : ∀ n ∈ package.splitOn 46, isIdentifier n) : ∃ n t, isIdentifier n ∧ package = n ++ t := by
  have hjoin : [46].intercalate (package.splitOn 46) = package := List.intercalate_splitOn 46
  cases hparts : package.splitOn 46 with
  | nil => exact absurd hparts (List.splitOn_ne_nil _ _)
  | cons n parts =>
      rw [hparts] at hjoin h
      refine ⟨n, ?_⟩
      cases parts with
      | nil => exact ⟨[], h n List.mem_cons_self, by simpa using hjoin.symm⟩
      | cons n' parts =>
          rw [List.intercalate_cons_of_ne_nil (List.cons_ne_nil n' parts),
            List.append_assoc] at hjoin
          exact ⟨_, h n List.mem_cons_self, hjoin.symm⟩

theorem isFullName_of_valid {package name : PerlStr}
    (h : (MissingName.message package name).Valid) :
    IsFullName (MissingName.fullName package name) package name := by
  obtain ⟨hname, hpackage⟩ := h
  have hchars := isNameChar_of_isIdentifier hname
  have hne := ne_nil_of_isIdentifier hname
  have hdot : 46 ∉ name := fun hmem => (hchars 46 hmem).2 rfl
  obtain ⟨htruthy, hhead⟩ := truthy_of_isIdentifier hname []
  rw [List.append_nil] at htruthy hhead
  -- without a package there is no dot, and the first group of the pattern is empty
  by_cases hnil : package = []
  · subst hnil
    refine ⟨hne, fun c hc => (hchars c hc).1, hhead, ?_, .inr rfl, htruthy⟩
    have hall : name.rtakeWhile (· ≠ 46) = name :=
      List.rtakeWhile_eq_self_iff.mpr fun c hc => decide_eq_true (hchars c hc).2
    simp only [MissingName.fullName, if_true, splitSymbol, hall, if_neg hne]
  · have hpackage := hpackage hnil
    obtain ⟨n, t, hn, heq⟩ := exists_isIdentifier_append hpackage
    have hfull : MissingName.fullName package name = package ++ 46 :: name := if_neg hnil
    rw [hfull]
    refine ⟨by simp, ?_, ?_, ?_, .inl ?_, htruthy⟩
    · intro c hc
      rcases List.mem_append.mp hc with hc | hc
      · exact isNameChar_of_package hpackage c hc
      · rcases List.mem_cons.mp hc with rfl | hc
        · rfl
        · exact (hchars c hc).1
    · rw [heq, List.append_assoc]
      exact (truthy_of_isIdentifier hn _).2
    · have hlast : (package ++ 46 :: name).rtakeWhile (· ≠ 46) = name := rtakeWhile_append_cons hdot
      have hfront : ((package ++ 46 :: name).rdropWhile (· ≠ 46)).dropLast = package := by
        rw [rdropWhile_append_cons hdot, List.dropLast_concat]
      have hlonger : name ≠ package ++ 46 :: name := by
        intro heq
        have hlen := congrArg List.length heq
        simp only [List.length_append, List.length_cons] at hlen
        omega
      have hnewline : 10 ∉ package := fun hmem => by
        have hchar := isNameChar_of_package hpackage 10 hmem
        cases hchar
      simp only [splitSymbol, hlast, hfront, if_neg hne, if_neg hlonger]
      exact if_neg fun hor => hor.elim hnil hnewline
    · rw [heq]
      exact (truthy_of_isIdentifier hn t).1

/-! ### The reaction to a report -/

theorem reaction_file {name : PerlStr} (h : (MissingName.file name).Valid) (w : Wording) :
    reaction (w.text (.file name)) = .add (rawDep (name.takeWhile fun c => !isQuote c)) := by
  obtain ⟨c, t, rfl, hc⟩ := h
  have hne : (c :: t).takeWhile (fun c => !isQuote c) ≠ [] := by
    rw [List.takeWhile_cons_of_pos (by rw [hc]; rfl)]
    exact List.cons_ne_nil _ _
  have htake : ∀ d ∈ (c :: t).takeWhile (fun c => !isQuote c), isQuote d = false := fun d hd => by
    simpa using List.mem_takeWhile_imp hd
  -- the name ends at a quote of its own or else at the one behind it
  obtain ⟨q, rest, hq, hsplit⟩ : ∃ q rest, isQuote q = true ∧
      (c :: t) ++ (ps "', but it has not been loaded" ++ w.place) =
        (c :: t).takeWhile (fun c => !isQuote c) ++ q :: rest := by
    have hparts := List.takeWhile_append_dropWhile (p := fun c => !isQuote c) (l := c :: t)
    cases hdrop : (c :: t).dropWhile (fun c => !isQuote c) with
    | nil =>
        rw [hdrop, List.append_nil] at hparts
        rw [hparts]
        exact ⟨39, ps ", but it has not been loaded" ++ w.place, rfl, rfl⟩
    | cons q rest =>
        refine ⟨q, rest ++ (ps "', but it has not been loaded" ++ w.place), ?_, ?_⟩
        · have hnot := List.head_dropWhile_not (p := fun c => !isQuote c) (l := c :: t)
            (by simp [hdrop])
          simpa [hdrop] using hnot
        · rw [hdrop] at hparts
          generalize ps "', but it has not been loaded" ++ w.place = behind
          calc (c :: t) ++ behind
              = ((c :: t).takeWhile (fun c => !isQuote c) ++ q :: rest) ++ behind := by rw [hparts]
            _ = (c :: t).takeWhile (fun c => !isQuote c) ++ q :: (rest ++ behind) := by
                rw [List.append_assoc, List.cons_append]
  have htext : w.text (.file (c :: t)) = ps "Failed to add file to pool: " ++
      (ps "Depends on file " ++ 39 :: ((c :: t).takeWhile (fun c => !isQuote c) ++ q :: rest)) := by
    have hquote : ps "Depends on file '" = ps "Depends on file " ++ [39] := by decide
    rw [← hsplit, Wording.text, hquote]
    simp only [List.append_assoc, List.cons_append, List.nil_append]
  have hmatch : dependsOn (ps "Depends on file " ++
      39 :: ((c :: t).takeWhile (fun c => !isQuote c) ++ q :: rest)) =
      some ((c :: t).takeWhile (fun c => !isQuote c), rest) := by
    rw [dependsOn, Scan.andThen_of_some (Scan.literal_append _ _)]
    exact quoted_append rfl hne htake hq
  have hfind : findFirst dependsOn (w.text (.file (c :: t))) =
      some ((c :: t).takeWhile fun c => !isQuote c) := by
    rw [htext, dependsOn_skip (by decide)]
    exact findFirst_of_some hmatch
  rw [reaction, hfind]

/-- No file is found in the report of a message. -/
theorem dependsOn_message {package name : PerlStr} (h : (MissingName.message package name).Valid)
    (w : Wording) : findFirst dependsOn (w.text (.message package name)) = none := by
  have hfull := isFullName_of_valid h
  have hplace : findFirst dependsOn (39 :: w.place) = none := by
    have hskip : findFirst dependsOn ([39] ++ w.place) = findFirst dependsOn w.place :=
      dependsOn_skip (by decide)
    exact hskip.trans (dependsOn_of_no_quote w.place_quotes)
  have hname : findFirst dependsOn ((if w.dot then [46] else []) ++
      (MissingName.fullName package name ++ 39 :: w.place)) = none := by
    rw [dependsOn_skip (by split <;> decide), dependsOn_skip_name hfull.chars
      (Scan.stops_cons rfl) (by simp [ps])]
    exact hplace
  rw [Wording.text]
  simp only [List.append_assoc]
  rw [dependsOn_skip (by decide), Wording.lead]
  split
  · rw [dependsOn_skip (by decide)]
    exact hname
  · rename_i f hf
    simp only [List.append_assoc]
    rw [dependsOn_skip (by decide), dependsOn_skip_name (w.field_name f hf)
      (fun c hc => by rw [← Option.some.inj hc]; rfl) (by simp [ps]), dependsOn_skip (by decide)]
    exact hname

theorem quotedSymbol_append {full package name : PerlStr} (h : IsFullName full package name)
    (dot : Bool) (rest : PerlStr) :
    quotedSymbol (39 :: ((if dot then [46] else []) ++ (full ++ 39 :: rest))) =
      some (full, rest) := by
  have hquote (s : PerlStr) : quote (39 :: s) = some ((), s) := quote_eq_some.mpr ⟨39, rfl, rfl⟩
  have hname : ImportStubs.name (full ++ 39 :: rest) = some (full, rest) :=
    name_append h.ne_nil (fun c hc => isQuote_of_isNameChar (h.chars c hc)) rfl
  rw [quotedSymbol, Scan.andThen_of_some (hquote _)]
  cases dot with
  | true =>
      have hdot :
          andThen (literal [46]) (fun _ => ImportStubs.name) ([46] ++ (full ++ 39 :: rest)) =
            some (full, rest) := by
        rw [Scan.andThen_of_some (Scan.literal_append [46] _)]
        exact hname
      rw [if_pos rfl, orElse, hdot]
      rfl
  | false =>
      obtain ⟨c, t, rfl⟩ := List.exists_cons_of_ne_nil h.ne_nil
      have hc : c ≠ 46 := fun heq => h.head t (heq ▸ rfl)
      have hdot :
          andThen (literal [46]) (fun _ => ImportStubs.name) ((c :: t) ++ 39 :: rest) = none :=
        Scan.andThen_of_none (literal_of_head_ne hc)
      rw [if_neg (by decide), List.nil_append, orElse, hdot]
      exact hname

/-- A pattern is looked for at the end of the name of a field. -/
theorem lazily_skip (hu : ∀ c ∈ u, c ≠ 10 ∧ ∀ t, m (c :: t) = none) :
    lazily m (u ++ rest) = lazily m rest := by
  induction u with
  | nil => rfl
  | cons c u ih =>
      obtain ⟨hnewline, hnone⟩ := hu c List.mem_cons_self
      rw [List.cons_append, lazily, hnone, Option.none_or, if_neg hnewline]
      exact ih fun d hd => hu d (List.mem_cons_of_mem c hd)

theorem lazily_of_some {p : α × PerlStr} (h : m s = some p) : lazily m s = some p := by
  cases s with
  | nil => exact h
  | cons c s => rw [lazily, h, Option.some_or]

/-- The name of a message is found in its report. -/
theorem symbol_message {package name : PerlStr} (h : (MissingName.message package name).Valid)
    (w : Wording) :
    findFirst (orElse notFound notResolved) (w.text (.message package name)) =
      some (MissingName.fullName package name) := by
  have hsymbol := quotedSymbol_append (isFullName_of_valid h) w.dot w.place
  -- neither message begins inside the words in front of it
  have hskip (s : PerlStr) : findFirst (orElse notFound notResolved)
      (ps "Failed to add file to pool: " ++ s) = findFirst (orElse notFound notResolved) s := by
    refine findFirst_skip fun v hne hv => ?_
    obtain ⟨c, v, rfl⟩ := List.exists_cons_of_ne_nil hne
    have hletters : ∀ c ∈ ps "Failed to add file to pool: ", c ≠ 99 ∧ c ≠ 77 := by decide
    obtain ⟨hfound, hresolved⟩ := hletters c (hv.mem List.mem_cons_self)
    exact Option.or_eq_none_iff.mpr ⟨Scan.andThen_of_none (literal_of_head_ne hfound),
      Scan.andThen_of_none (literal_of_head_ne hresolved)⟩
  rw [Wording.text]
  simp only [List.append_assoc]
  rw [hskip, Wording.lead]
  split
  · have hlead : ps "couldn't resolve name '" =
        ps "couldn" ++ 39 :: (ps "t resolve name " ++ [39]) := by decide
    have hquote (s : PerlStr) : quote (39 :: s) = some ((), s) := quote_eq_some.mpr ⟨39, rfl, rfl⟩
    have hmatch : notFound (ps "couldn" ++ 39 :: (ps "t resolve name " ++ 39 ::
        ((if w.dot then [46] else []) ++ (MissingName.fullName package name ++ 39 :: w.place)))) =
        some (MissingName.fullName package name, w.place) := by
      rw [notFound, Scan.andThen_of_some (Scan.literal_append _ _),
        Scan.andThen_of_some (hquote _), Scan.andThen_of_some (Scan.literal_append _ _), hsymbol]
    rw [hlead]
    simp only [List.append_assoc, List.cons_append, List.nil_append]
    refine findFirst_of_some (c := 99) (r := w.place) ?_
    rw [orElse]
    exact Option.or_eq_some_iff.mpr (.inl hmatch)
  · rename_i f hf
    -- the lazy `.*?` stops at the first place where the rest matches, behind the field's name
    have hchars : ∀ c ∈ f, c ≠ 10 ∧ ∀ t,
        andThen (literal (ps " of type ")) (fun _ => quotedSymbol) (c :: t) = none := by
      intro c hc
      have hchar := w.field_name f hf c hc
      have hblank : c ≠ 32 := by
        rintro rfl
        cases hchar
      refine ⟨?_, fun t => Scan.andThen_of_none (literal_of_head_ne hblank)⟩
      rintro rfl
      cases hchar
    have htype : ps " of type '" = ps " of type " ++ [39] := by decide
    have hlazily := lazily_of_some (m := andThen (literal (ps " of type ")) fun _ => quotedSymbol)
      ((Scan.andThen_of_some (Scan.literal_append (ps " of type ") _)).trans hsymbol)
    have hmatch : notResolved (ps "Message type not resolved for field " ++ (f ++
        (ps " of type " ++ 39 :: ((if w.dot then [46] else []) ++
          (MissingName.fullName package name ++ 39 :: w.place))))) =
        some (MissingName.fullName package name, w.place) := by
      rw [notResolved, Scan.andThen_of_some (Scan.literal_append _ _), lazily_skip hchars, hlazily]
    rw [htype]
    simp only [List.append_assoc, List.cons_append, List.nil_append]
    refine findFirst_of_some (c := 77) (r := w.place) ?_
    exact Option.or_eq_some_iff.mpr
      (.inr ⟨Scan.andThen_of_none (literal_of_head_ne (by decide)), hmatch⟩)

/-- `$raw_stub` of a package and a message -/
def rawMessage (package name : PerlStr) : PerlStr :=
  packed 0x0a (stubFileName package name) ++ (if package = [] then [] else packed 0x12 package) ++
    packed 0x22 (packed 0x0a name) ++ proto3

theorem reaction_message {package name : PerlStr} (h : (MissingName.message package name).Valid)
    (w : Wording) :
    reaction (w.text (.message package name)) = .add (rawMessage package name) := by
  have hfull := isFullName_of_valid h
  rw [reaction, dependsOn_message h w, symbol_message h w]
  simp only [rawStub, hfull.split, hfull.name_truthy, if_true]
  rcases hfull.package_truthy with htruthy | hnil
  · have hne : package ≠ [] := by
      rintro rfl
      cases htruthy
    simp only [htruthy, if_true, rawMessage, if_neg hne]
  · subst hnil
    rfl

end Matching

/-! ### What stubs decode to -/

theorem packed_append (number : ℕ) {text rest : PerlStr} {fields : List (ℕ × PerlStr)}
    (hpos : 0 < number) (hnumber : number < 16) (hlength : text.length < 128)
    (hrest : Fields rest fields) :
    Fields (packed (8 * number + 2) text ++ rest) ((number, text) :: fields) := by
  rw [packed, Nat.mod_eq_of_lt (by omega)]
  exact .cons_short hpos hnumber hlength hrest

theorem fields_proto3 : Fields proto3 [(12, ps "proto3")] := by
  have hfields : Fields (packed 0x62 (ps "proto3") ++ []) [(12, ps "proto3")] :=
    packed_append 12 (by decide) (by decide) (by decide) .nil
  rwa [List.append_nil] at hfields

theorem DecodesMessage.unique {body name name' : PerlStr} (h : DecodesMessage body name)
    (h' : DecodesMessage body name') : name = name' := by
  obtain ⟨fields, hfields, -, rfl⟩ := h
  obtain ⟨fields', hfields', -, rfl⟩ := h'
  rw [hfields.unique hfields']

theorem Decodes.unique {raw : PerlStr} {stub stub' : Stub} (h : Decodes raw stub)
    (h' : Decodes raw stub') : stub = stub' := by
  obtain ⟨file, package, message⟩ := stub
  obtain ⟨file', package', message'⟩ := stub'
  obtain ⟨fields, hfields, -, hfile, hpackage, -, hmessage⟩ := h
  obtain ⟨fields', hfields', -, hfile', hpackage', -, hmessage'⟩ := h'
  obtain rfl := hfields.unique hfields'
  have hsame : message = message' := by
    generalize contents 4 fields = bodies at hmessage hmessage'
    cases message with
    | none =>
        cases hmessage
        cases message' with
        | none => rfl
        | some name' => cases hmessage'
    | some name =>
        cases hmessage with
        | cons hbody hrest =>
            cases message' with
            | none => cases hmessage'
            | some name' =>
                cases hmessage' with
                | cons hbody' hrest' => rw [hbody.unique hbody']
  exact Stub.mk.injEq .. |>.mpr ⟨hfile.symm.trans hfile', hpackage.symm.trans hpackage', hsame⟩

theorem decodes_rawDep {dep : PerlStr} (h : dep.length < 128) :
    Decodes (rawDep dep) { file := dep } := by
  refine ⟨_, packed_append 1 (by decide) (by decide) h fields_proto3, by simp, ?_, ?_,
    ?_, ?_⟩
  all_goals simp [lastContent, contents]

theorem decodes_rawMessage {package name : PerlStr}
    (hfile : (stubFileName package name).length < 128) (hpackage : package.length < 128)
    (hname : name.length < 126) :
    Decodes (rawMessage package name) (MissingName.message package name).stub := by
  have hbody : (packed 0x0a name).length < 128 := by
    simp only [packed, List.length_cons]
    omega
  have hmessage : DecodesMessage (packed 0x0a name) name := by
    have hfields := packed_append 1 (by decide) (by decide)
      (by omega : name.length < 128) .nil
    rw [List.append_nil] at hfields
    exact ⟨_, hfields, by simp, by simp [lastContent, contents]⟩
  have htail := packed_append 4 (by decide) (by decide) hbody fields_proto3
  rw [rawMessage, List.append_assoc, List.append_assoc]
  by_cases hnil : package = []
  · subst hnil
    refine ⟨_, packed_append 1 (by decide) (by decide) hfile htail, by simp, ?_, ?_, ?_,
      ?_⟩
    all_goals simp [lastContent, contents, MissingName.stub, hmessage]
  · rw [if_neg hnil]
    refine ⟨_, packed_append 1 (by decide) (by decide) hfile
      (packed_append 2 (by decide) (by decide) hpackage htail), by simp, ?_, ?_, ?_, ?_⟩
    all_goals simp [lastContent, contents, MissingName.stub, hmessage]

theorem DecodesMessage.length_ge {body name : PerlStr} (h : DecodesMessage body name)
    (hname : name ≠ []) : name.length + 2 ≤ body.length := by
  obtain ⟨fields, hfields, -, rfl⟩ := h
  have hle := hfields.weight_le
  have hweight := fieldWeight_ge (lastContent 1 fields)
  rw [weight_erase (mem_of_lastContent hname)] at hle
  dsimp only at hle
  omega

/-- What decodes to a stub is as long as its names need. -/
theorem Decodes.length_ge {raw : PerlStr} {stub : Stub} (h : Decodes raw stub)
    (hfile : stub.file ≠ []) (hname : ∀ n ∈ stub.message, n ≠ []) :
    fieldWeight stub.file + (if stub.package = [] then 0 else fieldWeight stub.package) +
      (stub.message.map fun n => n.length + 4).getD 0 + 8 ≤ raw.length := by
  obtain ⟨file, package, message⟩ := stub
  obtain ⟨fields, hfields, -, rfl, rfl, hproto, hmessage⟩ := h
  refine le_trans ?_ hfields.weight_le
  -- the fields that the stub is read from are different ones, so their weights add up
  have hpicks (bodies : List (ℕ × PerlStr)) (hnd : bodies.Nodup)
      (hbodies : ∀ f ∈ bodies, f ∈ fields ∧ f.1 = 4) :
      fieldWeight (lastContent 1 fields) + (if lastContent 2 fields = [] then 0
        else fieldWeight (lastContent 2 fields)) + weight bodies + 8 ≤ weight fields := by
    have hfile := mem_of_lastContent hfile
    have hproto3 : (12, lastContent 12 fields) ∈ fields :=
      mem_of_lastContent (by rw [hproto]; decide)
    rw [hproto] at hproto3
    have hnumber (n : ℕ) (content : PerlStr) (hn : n ≠ 4) : (n, content) ∉ bodies := fun hmem =>
      hn (hbodies _ hmem).2
    by_cases hnil : lastContent 2 fields = []
    · have hle : weight ((1, lastContent 1 fields) :: (12, ps "proto3") :: bodies) ≤
          weight fields :=
        weight_le_of_nodup (by simp [hnumber, hnd])
          (by simpa [hfile, hproto3] using fun n b hb => (hbodies _ hb).1)
      rw [if_pos hnil]
      have hsize : fieldWeight (ps "proto3") = 8 := by decide
      simp only [weight, hsize] at hle
      omega
    · have hpackage := mem_of_lastContent hnil
      have hle : weight ((1, lastContent 1 fields) :: (12, ps "proto3") ::
          (2, lastContent 2 fields) :: bodies) ≤ weight fields :=
        weight_le_of_nodup (by simp [hnumber, hnd])
          (by simpa [hfile, hproto3, hpackage] using fun n b hb => (hbodies _ hb).1)
      rw [if_neg hnil]
      have hsize : fieldWeight (ps "proto3") = 8 := by decide
      simp only [weight, hsize] at hle
      omega
  cases message with
  | none => exact hpicks [] List.nodup_nil (by simp)
  | some n =>
      generalize hcontents : contents 4 fields = bodies at hmessage
      cases hmessage with
      | @cons body _ rest _ hbody hrest =>
          have hmem : body ∈ contents 4 fields := hcontents ▸ List.mem_cons_self
          have hle := hpicks [(4, body)] (List.nodup_singleton _)
            (by simpa using mem_of_contents hmem)
          have hlong := hbody.length_ge (hname n rfl)
          have hweight := fieldWeight_ge body
          simp only [weight] at hle
          simp only [Option.map_some, Option.getD_some]
          omega

/-! ### The stub of a report -/

/-- The stub that is added for a report of the name. -/
def MissingName.raw : MissingName → PerlStr
  | .file name => rawDep (name.takeWhile fun c => !isQuote c)
  | .message package name => rawMessage package name

theorem reaction_text (m : Missing) (w : Wording) : reaction (w.text m.1) = .add m.1.raw := by
  obtain ⟨m, hm⟩ := m
  cases m with
  | file name => exact reaction_file hm w
  | message package name => exact reaction_message hm w

theorem stubFileName_length (package name : PerlStr) :
    (stubFileName package name).length =
      (if truthy package then package.length else 7) + name.length + 12 := by
  have hdefault : (ps "default").length = 7 := by decide
  have hstub : (ps "/stub_").length = 6 := by decide
  have hproto : (ps ".proto").length = 6 := by decide
  rw [stubFileName, List.length_map]
  split <;> simp only [List.length_append, hdefault, hstub, hproto] <;> omega

theorem rawDep_length (dep : PerlStr) : (rawDep dep).length = dep.length + 10 := by
  have hproto3 : proto3.length = 8 := by decide
  rw [rawDep, List.length_append, hproto3, packed, List.length_cons, List.length_cons]

theorem rawMessage_length (package name : PerlStr) :
    (rawMessage package name).length = (stubFileName package name).length + 2 +
      (if package = [] then 0 else package.length + 2) + (name.length + 4) + 8 := by
  have hproto3 : proto3.length = 8 := by decide
  rw [rawMessage]
  split <;> simp only [packed, List.length_append, List.length_cons, List.length_nil, hproto3]

/-- The stub of a file says what it should exactly if the name has no quotes and is short. -/
theorem decodes_file_iff {name : PerlStr} (hne : name ≠ []) :
    Decodes (rawDep (name.takeWhile fun c => !isQuote c)) { file := name } ↔
      (∀ c ∈ name, isQuote c = false) ∧ name.length < 128 := by
  constructor
  · intro h
    have hle : fieldWeight name + 0 + 0 + 8 ≤ _ := h.length_ge hne (by simp)
    rw [rawDep_length] at hle
    have hge := fieldWeight_ge name
    have htake := (List.takeWhile_prefix (l := name) fun c => !isQuote c).length_le
    have hall : name.takeWhile (fun c => !isQuote c) = name :=
      (List.takeWhile_prefix _).eq_of_length_le (by omega)
    refine ⟨fun c hc => ?_, length_lt_of_fieldWeight_le (by omega)⟩
    rw [← hall] at hc
    simpa using List.mem_takeWhile_imp hc
  · rintro ⟨hquotes, hlength⟩
    have hall : name.takeWhile (fun c => !isQuote c) = name :=
      List.takeWhile_eq_self_iff.mpr fun c hc => by simp [hquotes c hc]
    rw [hall]
    exact decodes_rawDep hlength

/-- That of a message does if its file name is short. -/
theorem decodes_message_iff {package name : PerlStr}
    (hvalid : (MissingName.message package name).Valid) :
    Decodes (rawMessage package name) (MissingName.message package name).stub ↔
      (stubFileName package name).length < 128 := by
  have hsize := stubFileName_length package name
  constructor
  · intro h
    have hne : stubFileName package name ≠ [] := by
      intro hnil
      rw [hnil, List.length_nil] at hsize
      omega
    have hle : fieldWeight (stubFileName package name) +
        (if package = [] then 0 else fieldWeight package) + (name.length + 4) + 8 ≤ _ :=
      h.length_ge hne fun n hn => by
        rw [← Option.some.inj hn]
        exact ne_nil_of_isIdentifier hvalid.1
    rw [rawMessage_length] at hle
    have hpackage := fieldWeight_ge package
    refine length_lt_of_fieldWeight_le ?_
    split at hle <;> omega
  · intro hlength
    have hpackage : package.length < 128 := by
      rcases (isFullName_of_valid hvalid).package_truthy with htruthy | hnil
      · rw [if_pos htruthy] at hsize
        omega
      · rw [hnil]
        decide
    exact decodes_rawMessage hlength hpackage (by omega)

theorem decodes_raw_iff (m : Missing) : Decodes m.1.raw m.1.stub ↔ m.1.Fits := by
  obtain ⟨m, hm⟩ := m
  cases m with
  | file name =>
      obtain ⟨c, t, rfl, -⟩ := hm
      exact decodes_file_iff (List.cons_ne_nil c t)
  | message package name => exact decodes_message_iff hm

/-! ### Runs of the loop -/

section Run

variable {S F : Type} {xs : PerlStr → S → Except PerlStr F × S} {serialized : PerlStr}
  {missing : S → Finset Missing} {reported : S → Missing}

/-- A round of the loop. -/
theorem attempts_of_nonempty (hxs : Reports xs serialized missing reported) {s : S}
    (hs : (missing s).Nonempty) (n : ℕ) : ∃ s', missing s' = missing s ∧
      attempts xs serialized (n + 1) s =
        { attempts xs serialized n (xs (reported s).1.raw s').2 with
          rounds := ⟨s, some (reported s).1.raw⟩ ::
            (attempts xs serialized n (xs (reported s).1.raw s').2).rounds } := by
  obtain ⟨-, w, s', hfails, hsame⟩ := hxs.fails s hs
  refine ⟨s', hsame, ?_⟩
  rw [attempts, hfails]
  simp only [reaction_text]

/-- A round whose name fits: the name is missing no more. -/
theorem attempts_of_fits (hxs : Reports xs serialized missing reported) {s : S}
    (hs : (missing s).Nonempty) (hfits : ∀ m ∈ missing s, m.1.Fits) (n : ℕ) :
    ∃ s', missing s' = (missing s).erase (reported s) ∧
      (∀ m ∈ missing s', m.1.Fits) ∧ (missing s').card + 1 = (missing s).card ∧
      attempts xs serialized (n + 1) s =
        { attempts xs serialized n s' with
          rounds := ⟨s, some (reported s).1.raw⟩ :: (attempts xs serialized n s').rounds } := by
  obtain ⟨hmem, -⟩ := hxs.fails s hs
  obtain ⟨s', hsame, hround⟩ := attempts_of_nonempty hxs hs n
  have hdecodes := (decodes_raw_iff (reported s)).mpr (hfits _ hmem)
  have hstubbed := hxs.stubbed s' _ _ (hsame ▸ hmem) hdecodes
  rw [hsame] at hstubbed
  refine ⟨_, hstubbed, fun m hm => ?_, ?_, hround⟩
  · rw [hstubbed] at hm
    exact hfits m (Finset.mem_of_mem_erase hm)
  · rw [hstubbed]
    exact Finset.card_erase_add_one hmem

/-- Fewer names than attempts: all are stubbed, and the file is added. -/
theorem good_attempts (hxs : Reports xs serialized missing reported) {n : ℕ} {s : S}
    (hfits : ∀ m ∈ missing s, m.1.Fits) (hn : (missing s).card < n) :
    Good (attempts xs serialized n s) reported := by
  induction n generalizing s with
  | zero => exact absurd hn (Nat.not_lt_zero _)
  | succ n ih =>
      by_cases hs : (missing s).Nonempty
      · obtain ⟨s', -, hfits', hcard, hround⟩ := attempts_of_fits hxs hs hfits n
        have hrest := ih hfits' (by omega)
        have hdecodes := (decodes_raw_iff (reported s)).mpr (hfits _ (hxs.fails s hs).1)
        rw [hround]
        refine ⟨fun round hround => ?_, hrest.added⟩
        rcases List.mem_cons.mp hround with rfl | hround
        · refine ⟨_, rfl, fun stub => ⟨fun h => h.unique hdecodes, ?_⟩⟩
          rintro rfl
          exact hdecodes
        · exact hrest.stubs round hround
      · obtain ⟨file, s', hadded⟩ := hxs.succeeds s (Finset.not_nonempty_iff_eq_empty.mp hs)
        rw [attempts, hadded]
        exact ⟨by simp, by simp⟩

/-- As many names as attempts: the loop ends and nothing is said. -/
theorem attempts_exhausted (hxs : Reports xs serialized missing reported) {n : ℕ} {s : S}
    (hfits : ∀ m ∈ missing s, m.1.Fits) (hn : n ≤ (missing s).card) :
    (attempts xs serialized n s).result = .ok none := by
  induction n generalizing s with
  | zero => rfl
  | succ n ih =>
      have hs : (missing s).Nonempty := Finset.card_pos.mp (by omega)
      obtain ⟨s', -, hfits', hcard, hround⟩ := attempts_of_fits hxs hs hfits n
      rw [hround]
      exact ih hfits' (by omega)

end Run

/-! ### A pool that reports a name first -/

theorem MissingName.stub_injective {m m' : MissingName} (h : m.stub = m'.stub) : m = m' := by
  cases m with
  | file name =>
      cases m' with
      | file name' =>
          obtain ⟨rfl, -, -⟩ := Stub.mk.inj h
          rfl
      | message package' name' => cases (Stub.mk.inj h).2.2
  | message package name =>
      cases m' with
      | file name' => cases (Stub.mk.inj h).2.2
      | message package' name' =>
          obtain ⟨-, rfl, hname⟩ := Stub.mk.inj h
          rw [Option.some.inj hname]

theorem not_decodes_nil (stub : Stub) : ¬ Decodes [] stub := by
  rintro ⟨fields, hfields, -, -, -, hproto, -⟩
  rw [hfields.unique .nil] at hproto
  cases hproto

/-- ` at` no place, and no dot -/
def plain : Wording where
  dot := false
  field := none
  place := []
  field_name := by simp
  place_quotes := by simp

open Classical in
noncomputable def reportedFirst (first : Missing) (s : Finset Missing) : Missing :=
  if first ∈ s then first else if h : s.Nonempty then Exists.choose h else first

theorem reportedFirst_mem (first : Missing) {s : Finset Missing} (h : s.Nonempty) :
    reportedFirst first s ∈ s := by
  rw [reportedFirst]
  split
  · assumption
  · exact h.choose_spec

open Classical in
/-- A pool that is no more than the names it is missing; the file is empty. -/
noncomputable def namesPool (first : Missing) (bytes : PerlStr) (s : Finset Missing) :
    Except PerlStr Unit × Finset Missing :=
  if bytes = [] then
    if s = ∅ then (.ok (), s) else (.error (plain.text (reportedFirst first s).1), s)
  else (.error [], {m ∈ s | ¬ Decodes bytes m.1.stub})

theorem reports_namesPool (first : Missing) :
    Reports (namesPool first) [] id (reportedFirst first) := by
  refine ⟨fun s hs => ⟨reportedFirst_mem first hs, plain, s, ?_, rfl⟩, fun s hs => ?_,
    fun s raw m hm hdecodes => ?_⟩
  · have hne : s ≠ ∅ := Finset.Nonempty.ne_empty hs
    rw [namesPool, if_pos rfl, if_neg hne]
  · have hempty : s = ∅ := hs
    exact ⟨(), s, by rw [namesPool, if_pos rfl, if_pos hempty]⟩
  · have hne : raw ≠ [] := by
      rintro rfl
      exact not_decodes_nil _ hdecodes
    rw [namesPool, if_neg hne]
    ext m'
    simp only [id, Finset.mem_filter, Finset.mem_erase]
    constructor
    · rintro ⟨hm', hnot⟩
      exact ⟨fun heq => hnot (heq ▸ hdecodes), hm'⟩
    · rintro ⟨hne', hm'⟩
      refine ⟨hm', fun hdecodes' => hne' ?_⟩
      exact Subtype.ext (MissingName.stub_injective (hdecodes'.unique hdecodes))

/-! ### The names that are stubbed -/

theorem fits_of_stubs {names : Finset Missing} (h : Stubs names) {m : Missing} (hm : m ∈ names) :
    m.1.Fits := by
  have hxs := reports_namesPool m
  have hgood := h _ _ _ _ _ _ hxs names rfl
  obtain ⟨s', -, hround⟩ := attempts_of_nonempty hxs (s := names) ⟨m, hm⟩ 19
  have hfirst : reportedFirst m names = m := if_pos hm
  have hmem : (⟨names, some (reportedFirst m names).1.raw⟩ : Round (Finset Missing)) ∈
      (addSerializedFile (namesPool m) [] names).rounds := by
    rw [addSerializedFile, hround]
    exact List.mem_cons_self
  obtain ⟨raw, hraw, hstub⟩ := hgood.stubs _ hmem
  obtain rfl := Option.some.inj hraw
  have hdecodes := (hstub _).mpr rfl
  rw [hfirst] at hdecodes
  exact (decodes_raw_iff m).mp hdecodes

/-- A file name of 128 characters. -/
def longImport : Missing :=
  ⟨.file (List.replicate 128 97), 97, List.replicate 127 97, rfl, rfl⟩

end GooglePerl.Protobuf.ImportStubs
