import GooglePerl.Starter.Stripping
import Mathlib.Data.Bool.AllAny

/-!
Which RPCs the generated client wrapper covers.

The token scanner reads a file statement by statement, for no pattern reaches over the `;` or
the brace that closes one. A file in which nothing hides an RPC from it (`ProtoFile.Scanned`)
gives one method for each RPC that it declares; the class then has them all unless two names
come out equal in snake case.
-/

namespace GooglePerl.Starter

open Lib Lib.Scan

/-! ### Characters -/

theorem toNat_lt_of_wordChar {c : Char} (h : c.isAlphanum ∨ c = '_') : c.toNat < 128 := by
  rcases h with h | rfl
  · change (decide (c.val ≥ 'A'.val ∧ c.val ≤ 'Z'.val) ||
      (decide (c.val ≥ 'a'.val) && decide (c.val ≤ 'z'.val)) ||
      (decide (c.val ≥ '0'.val) && decide (c.val ≤ '9'.val))) = true at h
    simp only [Bool.or_eq_true, Bool.and_eq_true, decide_eq_true_eq, UInt32.le_iff_toNat_le,
      ge_iff_le] at h
    have hval : c.toNat = c.val.toNat := rfl
    have hZ : 'Z'.val.toNat = 90 := rfl
    have hz : 'z'.val.toNat = 122 := rfl
    have h9 : '9'.val.toNat = 57 := rfl
    omega
  · decide

theorem mem_blanks_of_mem_bare {g : List Trivia} {c : Char} (h : c ∈ bare (gapLexemes g)) :
    c ∈ blanks := by
  simp only [bare, gapLexemes, List.flatMap_map, List.mem_flatMap] at h
  obtain ⟨t, -, hc⟩ := h
  cases t with
  | blank b hb =>
      rw [List.mem_singleton.mp hc]
      exact hb
  | line s hs =>
      rw [List.mem_singleton.mp hc]
      decide
  | block s hs => exact absurd hc List.not_mem_nil

theorem findAll_gap_of_forall {α : Type} {m : Matcher Char α}
    (hm : ∀ c ∈ blanks, ∀ s, m (c :: s) = none) (g : List Trivia) (rest : List Char) :
    findAll m (bare (gapLexemes g) ++ rest) = findAll m rest := by
  have hall : ∀ c ∈ bare (gapLexemes g), c ∈ blanks := fun c h => mem_blanks_of_mem_bare h
  generalize bare (gapLexemes g) = w at hall
  induction w with
  | nil => rfl
  | cons c w ih =>
      obtain ⟨hc, hw⟩ := List.forall_mem_cons.mp hall
      rw [List.cons_append, findAll_cons_of_none (hm c hc _), ih hw]

/-! ### Statements without traps -/

def TypeName.chars (t : TypeName) : List Char := (t.dot.elim [] fun _ => ['.']) ++ t.name.chars

/-- No blank is left inside the name. -/
def DottedName.Joined (n : DottedName) : Prop :=
  ∀ p ∈ n.tail, bare (gapLexemes p.1.1) = [] ∧ bare (gapLexemes p.1.2) = []

def TypeName.Joined (t : TypeName) : Prop :=
  (∀ g ∈ t.dot, bare (gapLexemes g) = []) ∧ t.name.Joined

/-- A type that the pattern for RPCs takes. -/
def Argument.Scanned (a : Argument) : Prop := a.stream = none ∧ a.type.Joined

theorem DottedName.bare_lexemes {n : DottedName} (h : n.Joined) : bare n.lexemes = n.chars := by
  have htail : bare (n.tail.flatMap DottedName.tailLexemes) =
      n.tail.flatMap fun p => '.' :: p.2.chars := by
    rw [DottedName.Joined] at h
    generalize n.tail = tail at h
    induction tail with
    | nil => rfl
    | cons p ps ih =>
        obtain ⟨hp, hps⟩ := List.forall_mem_cons.mp h
        rw [List.flatMap_cons, bare_append, ih hps, List.flatMap_cons]
        simp [DottedName.tailLexemes, hp, symbol, Ident.lexeme, Lexeme.bare, Lexeme.text]
  rw [DottedName.lexemes, bare_cons, htail]
  rfl

theorem TypeName.bare_lexemes {t : TypeName} (h : t.Joined) : bare t.lexemes = t.chars := by
  rw [TypeName.lexemes, bare_append, DottedName.bare_lexemes h.2, TypeName.chars]
  cases hdot : t.dot with
  | none => rfl
  | some g => simp [h.1 g hdot, symbol, Lexeme.bare, Lexeme.text]

namespace Runtime

variable {P : Runtime} {c d : Char}

theorem word_of_blank (h : c ∈ blanks) : P.word c = false := by
  have hall : ∀ b ∈ blanks, b.toNat < 128 ∧ (b.isAlphanum || b == '_') = false :=
    List.all_iff_forall_prop.mp (by decide)
  rw [P.word_ascii c (hall c h).1, (hall c h).2]

theorem word_of_wordChar (h : c.isAlphanum ∨ c = '_') : P.word c = true := by
  rw [P.word_ascii c (toNat_lt_of_wordChar h)]
  simpa using h

theorem space_of_blank (h : c ∈ blanks) : P.space c = true := by
  have hall : ∀ b ∈ blanks, b.toNat < 128 :=
    List.all_iff_forall_prop.mp (by decide)
  rw [P.space_ascii c (hall c h)]
  simpa using h

theorem space_of_wordChar (h : c.isAlphanum ∨ c = '_') : P.space c = false := by
  rw [P.space_ascii c (toNat_lt_of_wordChar h), Bool.eq_false_iff]
  intro hc
  have hall : ∀ b ∈ blanks,
      ¬ (b.isAlphanum = true ∨ b = '_') :=
    List.all_iff_forall_prop.mp (by decide)
  exact hall c (by simpa using hc) h

/-- The characters that end a statement or open a body. -/
def delimiters : List Char := [';', '{', '}']

def punctuation : List Char := delimiters ++ ['(', ')', '.']

theorem word_punctuation (h : d ∈ punctuation) : P.word d = false := by
  have hall : ∀ b ∈ punctuation, b.toNat < 128 ∧ (b.isAlphanum || b == '_') = false :=
    List.all_iff_forall_prop.mp (by decide)
  rw [P.word_ascii d (hall d h).1, (hall d h).2]

theorem space_punctuation (h : d ∈ punctuation) : P.space d = false := by
  have hall : ∀ b ∈ punctuation, b.toNat < 128 ∧
      blanks.contains b = false :=
    List.all_iff_forall_prop.mp (by decide)
  rw [P.space_ascii d (hall d h).1, (hall d h).2]

theorem nameChar_punctuation (h : d ∈ punctuation) (hdot : d ≠ '.') : P.nameChar d = false := by
  rw [nameChar, word_punctuation h, Bool.false_or, beq_eq_false_iff_ne]
  exact hdot

theorem mem_punctuation (h : d ∈ delimiters) : d ∈ punctuation ∧ d ≠ '.' := by
  have hall : ∀ b ∈ delimiters, b ∈ punctuation ∧ b ≠ '.' :=
    List.all_iff_forall_prop.mp (by decide)
  exact hall d h

/-! ### Where the patterns stop -/

theorem before_typePattern (h : d ∈ delimiters) : Before d P.typePattern := by
  obtain ⟨hd, hdot⟩ := mem_punctuation h
  have hparen : ∀ b ∈ delimiters, b ∉ ['('] ∧ b ∉ [')'] :=
    List.all_iff_forall_prop.mp (by decide)
  obtain ⟨hopen, hclose⟩ := hparen d h
  exact (before_literal hopen).andThen fun _ =>
    (before_many (space_punctuation hd)).andThen fun _ =>
    (before_many1 (nameChar_punctuation hd hdot)).andThen fun name =>
    (before_many (space_punctuation hd)).andThen fun _ =>
    (before_literal hclose).andThen fun _ => before_yields name

theorem before_tokenPattern (h : d ∈ delimiters) : Before d P.tokenPattern := by
  obtain ⟨hd, -⟩ := mem_punctuation h
  have hspace : P.space d = false := space_punctuation hd
  have hword : P.word d = false := word_punctuation hd
  have hkeyword : ∀ b ∈ delimiters,
      b ∉ "service".toList ∧ b ∉ "rpc".toList ∧ b ∉ "returns".toList :=
    List.all_iff_forall_prop.mp (by decide)
  obtain ⟨hservice, hrpc, hreturns⟩ := hkeyword d h
  refine Before.orElse ?_ ?_
  · exact (before_literal hservice).andThen fun _ => (before_many1 hspace).andThen fun _ =>
      (before_many1 hword).andThen fun _ => before_yields _
  · exact (before_literal hrpc).andThen fun _ => (before_many1 hspace).andThen fun _ =>
      (before_many1 hword).andThen fun _ => (before_many hspace).andThen fun _ =>
      (before_typePattern h).andThen fun _ => (before_many hspace).andThen fun _ =>
      (before_literal hreturns).andThen fun _ => (before_many hspace).andThen fun _ =>
      (before_typePattern h).andThen fun _ => before_yields _

theorem within_packagePattern (h : d ∈ delimiters) : Within d P.packagePattern := by
  obtain ⟨hd, hdot⟩ := mem_punctuation h
  have hkeyword : ∀ b ∈ delimiters, b ∉ "package".toList :=
    List.all_iff_forall_prop.mp (by decide)
  exact (before_literal (hkeyword d h)).andThen_within fun _ =>
    (before_many1 (space_punctuation hd)).andThen_within fun _ =>
    (before_many1 (nameChar_punctuation hd hdot)).andThen_within fun name =>
    (within_literal_singleton ';').andThen_yields name

theorem reads_typePattern : Reads P.typePattern :=
  (consumes_literal (by simp)).reads.andThen fun _ => (reads_many _).andThen fun _ =>
    (reads_many1 _).andThen fun _ => (reads_many _).andThen fun _ =>
    (consumes_literal (by simp)).reads.andThen fun _ => reads_yields _

theorem consumes_rpcPattern : Consumes P.rpcPattern :=
  (consumes_literal (by decide)).andThen fun _ => (reads_many1 _).andThen fun _ =>
    (reads_many1 _).andThen fun _ => (reads_many _).andThen fun _ =>
    reads_typePattern.andThen fun _ => (reads_many _).andThen fun _ =>
    (consumes_literal (by decide)).reads.andThen fun _ => (reads_many _).andThen fun _ =>
    reads_typePattern.andThen fun _ => reads_yields _

theorem consumes_tokenPattern : Consumes P.tokenPattern := by
  refine Consumes.orElse ?_ consumes_rpcPattern
  exact (consumes_literal (by decide)).andThen fun _ => (reads_many1 _).andThen fun _ =>
    (reads_many1 _).andThen fun _ => reads_yields _

theorem consumes_packagePattern : Consumes P.packagePattern :=
  (consumes_literal (by decide)).andThen fun _ => (reads_many1 _).andThen fun _ =>
    (reads_many1 _).andThen fun _ => (consumes_literal (by simp)).reads.andThen fun _ =>
    reads_yields _

/-! ### What the patterns read -/

theorem space_of_mem_bare {g : List Trivia} (h : c ∈ bare (gapLexemes g)) : P.space c = true :=
  space_of_blank (mem_blanks_of_mem_bare h)

theorem tokenPattern_eq_none {s : List Char} (hs : c ≠ 's') (hr : c ≠ 'r') :
    P.tokenPattern (c :: s) = none := by
  have hservice : P.servicePattern (c :: s) = none := andThen_of_none (if_neg hs)
  have hrpc : P.rpcPattern (c :: s) = none := andThen_of_none (if_neg hr)
  rw [tokenPattern, orElse, hservice, hrpc, Option.none_or]

theorem packagePattern_eq_none {s : List Char} (h : c ≠ 'p') : P.packagePattern (c :: s) = none :=
  andThen_of_none (if_neg h)

/-- Nothing is found between two tokens. -/
theorem findAll_gap (g : List Trivia) (rest : List Char) :
    findAll P.tokenPattern (bare (gapLexemes g) ++ rest) = findAll P.tokenPattern rest := by
  have hletter : ∀ b ∈ blanks, b ≠ 's' ∧ b ≠ 'r' :=
    List.all_iff_forall_prop.mp (by decide)
  exact findAll_gap_of_forall
    (fun c hc _ => tokenPattern_eq_none (hletter c hc).1 (hletter c hc).2) g rest

theorem many_space_gap (g : List Trivia) {rest : List Char} (h : Stops P.space rest) :
    many P.space (bare (gapLexemes g) ++ rest) = some (bare (gapLexemes g), rest) :=
  many_append (fun _ h => space_of_mem_bare h) h

theorem many1_space_gap {g : List Trivia} {rest : List Char} (hg : bare (gapLexemes g) ≠ [])
    (h : Stops P.space rest) :
    many1 P.space (bare (gapLexemes g) ++ rest) = some (bare (gapLexemes g), rest) :=
  many1_append hg (fun _ h => space_of_mem_bare h) h

theorem stops_space_ident (i : Ident) (rest : List Char) : Stops P.space (i.chars ++ rest) :=
  stops_cons (space_of_wordChar (i.wordChar_of_mem (by simp [Ident.chars])))

theorem many1_word_ident (i : Ident) {rest : List Char} (h : Stops P.word rest) :
    many1 P.word (i.chars ++ rest) = some (i.chars, rest) :=
  many1_append (by simp [Ident.chars]) (fun _ h => word_of_wordChar (i.wordChar_of_mem h)) h

theorem servicePattern_append {g : List Trivia} (hg : bare (gapLexemes g) ≠ []) (i : Ident)
    {rest : List Char} (hrest : Stops P.word rest) :
    P.tokenPattern ("service".toList ++ (bare (gapLexemes g) ++ (i.chars ++ rest))) =
      some (.service i.chars, rest) := by
  have hmatch : P.servicePattern ("service".toList ++ (bare (gapLexemes g) ++ (i.chars ++ rest))) =
      some (.service i.chars, rest) := by
    rw [servicePattern, andThen_of_some (literal_append _ _),
      andThen_of_some (many1_space_gap hg (stops_space_ident i rest)),
      andThen_of_some (many1_word_ident i hrest)]
    rfl
  rw [tokenPattern, orElse, hmatch, Option.some_or]

theorem nameChar_of_mem_dottedName {n : DottedName} (h : c ∈ n.chars) : P.nameChar c = true := by
  have hident {i : Ident} (hc : c ∈ i.chars) : P.nameChar c = true := by
    rw [nameChar, word_of_wordChar (i.wordChar_of_mem hc), Bool.true_or]
  rcases List.mem_append.mp h with hc | hc
  · exact hident hc
  · obtain ⟨p, -, hc⟩ := List.mem_flatMap.mp hc
    rcases List.mem_cons.mp hc with rfl | hc
    · exact Bool.or_true _
    · exact hident hc

theorem nameChar_of_mem_typeName {t : TypeName} (h : c ∈ t.chars) : P.nameChar c = true := by
  rcases List.mem_append.mp h with hc | hc
  · cases hdot : t.dot with
    | none => simp [hdot] at hc
    | some g =>
        have hc : c = '.' := by simpa [hdot] using hc
        rw [hc]
        exact Bool.or_true _
  · exact nameChar_of_mem_dottedName hc

theorem stops_space_typeName (t : TypeName) (rest : List Char) :
    Stops P.space (t.chars ++ rest) := by
  rw [TypeName.chars]
  cases t.dot with
  | none =>
      rw [Option.elim_none, List.nil_append, DottedName.chars, List.append_assoc]
      exact stops_space_ident t.name.head _
  | some g => exact stops_cons (space_punctuation (by decide))

theorem many1_nameChar_typeName (t : TypeName) {rest : List Char} (h : Stops P.nameChar rest) :
    many1 P.nameChar (t.chars ++ rest) = some (t.chars, rest) :=
  many1_append (by simp [TypeName.chars, DottedName.chars, Ident.chars])
    (fun _ h => nameChar_of_mem_typeName h) h

theorem stops_nameChar_gap (g : List Trivia) {rest : List Char} (h : Stops P.nameChar rest) :
    Stops P.nameChar (bare (gapLexemes g) ++ rest) := by
  cases hg : bare (gapLexemes g) with
  | nil => exact h
  | cons c w =>
      have hc : c ∈ blanks := mem_blanks_of_mem_bare (g := g) (by simp [hg])
      have hdot : ∀ b ∈ blanks, (b == '.') = false :=
    List.all_iff_forall_prop.mp (by decide)
      refine stops_cons ?_
      rw [nameChar, word_of_blank hc, hdot c hc]
      rfl

theorem bare_argument {a : Argument} (h : a.Scanned) :
    bare a.lexemes = bare (gapLexemes a.before) ++ (['('] ++ (bare (gapLexemes a.opened) ++
      (a.type.chars ++ (bare (gapLexemes a.closing) ++ [')'])))) := by
  simp [Argument.lexemes, h.1, TypeName.bare_lexemes h.2, symbol, Lexeme.bare, Lexeme.text]

theorem typePattern_append (t : TypeName) (opened closing : List Trivia) (rest : List Char) :
    P.typePattern (['('] ++ (bare (gapLexemes opened) ++ (t.chars ++
      (bare (gapLexemes closing) ++ ([')'] ++ rest))))) = some (t.chars, rest) := by
  have hclose : Stops P.nameChar ([')'] ++ rest) :=
    stops_cons (nameChar_punctuation (by decide) (by decide))
  have hspace : Stops P.space ([')'] ++ rest) := stops_cons (space_punctuation (by decide))
  rw [typePattern, andThen_of_some (literal_append _ _),
    andThen_of_some (many_space_gap opened (stops_space_typeName t _)),
    andThen_of_some (many1_nameChar_typeName t (stops_nameChar_gap closing hclose)),
    andThen_of_some (many_space_gap closing hspace), andThen_of_some (literal_append _ _)]
  rfl

theorem stops_space_returns (rest : List Char) : Stops P.space ("returns".toList ++ rest) :=
  stops_cons (space_of_wordChar (by decide))

theorem stops_space_open (rest : List Char) : Stops P.space (['('] ++ rest) :=
  stops_cons (space_punctuation (by decide))

theorem stops_word_gap (g : List Trivia) {d : Char} (hd : d ∈ punctuation) (rest : List Char) :
    Stops P.word (bare (gapLexemes g) ++ ([d] ++ rest)) := by
  cases hg : bare (gapLexemes g) with
  | nil => exact stops_cons (word_punctuation hd)
  | cons c w =>
      have hc : c ∈ blanks := mem_blanks_of_mem_bare (g := g) (by simp [hg])
      exact stops_cons (word_of_blank hc)

/-- The token of an RPC. -/
def rpcToken (r : Rpc) : Token :=
  .rpc r.name.chars r.request.type.chars r.response.type.chars

theorem rpcPattern_append {r : Rpc} (hgap : bare (gapLexemes r.gap) ≠ [])
    (hrequest : r.request.Scanned) (hresponse : r.response.Scanned) (rest : List Char) :
    P.tokenPattern ("rpc".toList ++ (bare (gapLexemes r.gap) ++ (r.name.chars ++
      (bare r.request.lexemes ++ (bare (gapLexemes r.between) ++ ("returns".toList ++
        (bare r.response.lexemes ++ rest))))))) = some (rpcToken r, rest) := by
  simp only [bare_argument hrequest, bare_argument hresponse, List.append_assoc]
  rw [tokenPattern, orElse]
  have hservice : ∀ s, P.servicePattern ("rpc".toList ++ s) = none :=
    fun s => andThen_of_none (if_neg (by decide))
  rw [hservice, Option.none_or, rpcPattern, andThen_of_some (literal_append _ _),
    andThen_of_some (many1_space_gap hgap (stops_space_ident r.name _)),
    andThen_of_some (many1_word_ident r.name (stops_word_gap _ (by decide) _)),
    andThen_of_some (many_space_gap _ (stops_space_open _)),
    andThen_of_some (typePattern_append r.request.type _ _ _),
    andThen_of_some (many_space_gap _ (stops_space_returns _)),
    andThen_of_some (literal_append _ _),
    andThen_of_some (many_space_gap _ (stops_space_open _)),
    andThen_of_some (typePattern_append r.response.type _ _ _)]
  rfl

theorem closer_mem_delimiters (k : Closer) : k.char ∈ delimiters := by
  cases k <;> decide

theorem bare_closer (k : Closer) : k.lexeme.bare = [k.char] := by
  cases k <;> rfl

/-- A run of lexemes that a closer ends is scanned on its own. -/
theorem findAll_closed {α : Type} {m : Matcher Char α} (hm : Consumes m)
    (hd : ∀ d ∈ delimiters, Within d m) (ls : List Lexeme) (k : Closer) (rest : List Char) :
    findAll m (bare (ls ++ [k.lexeme]) ++ rest) =
      findAll m (bare (ls ++ [k.lexeme])) ++ findAll m rest := by
  rw [bare_append, bare_cons, bare_nil, List.append_nil, bare_closer, List.append_assoc,
    List.singleton_append]
  exact findAll_append_cons hm (hd k.char (closer_mem_delimiters k)) _ _

theorem within_tokenPattern : ∀ d ∈ delimiters, Within d P.tokenPattern :=
  fun _ h => (before_tokenPattern h).within

end Runtime

/-! ### What the scanner finds in a file -/

section

variable (P : Runtime)

/-- An RPC that the scanner finds, with nothing found in its options. -/
def Rpc.Scanned (r : Rpc) : Prop :=
  bare (gapLexemes r.gap) ≠ [] ∧ r.request.Scanned ∧ r.response.Scanned ∧
    findAll P.tokenPattern (bare (r.options ++ [r.closer.lexeme])) = []

def Member.Scanned : Member → Prop
  | .rpc r => r.Scanned P
  | .other s _ => findAll P.tokenPattern (bare s.lexemes) = []

def Service.Scanned (s : Service) : Prop :=
  bare (gapLexemes s.gap) ≠ [] ∧ ∀ m ∈ s.members, m.Scanned P

/-- The tokens of a service. -/
def Service.tokens (s : Service) : List Token :=
  .service s.name.chars :: (s.members.filterMap Member.rpc?).map Runtime.rpcToken

end

variable {P : Runtime}

theorem Statement.findAll_append (s : Statement) (rest : List Char) :
    findAll P.tokenPattern (bare s.lexemes ++ rest) =
      findAll P.tokenPattern (bare s.lexemes) ++ findAll P.tokenPattern rest := by
  have hlexemes : s.lexemes =
      (gapLexemes s.before ++ .code s.keyword s.keyword_ok :: s.body) ++ [s.closer.lexeme] := by
    simp [Statement.lexemes]
  rw [hlexemes]
  exact Runtime.findAll_closed Runtime.consumes_tokenPattern Runtime.within_tokenPattern _ _ rest

theorem Rpc.findAll_append {r : Rpc} (h : r.Scanned P) (rest : List Char) :
    findAll P.tokenPattern (bare r.lexemes ++ rest) =
      Runtime.rpcToken r :: findAll P.tokenPattern rest := by
  obtain ⟨hgap, hrequest, hresponse, hoptions⟩ := h
  have hlexemes : bare r.lexemes ++ rest = bare (gapLexemes r.before) ++ ("rpc".toList ++
      (bare (gapLexemes r.gap) ++ (r.name.chars ++ (bare r.request.lexemes ++
        (bare (gapLexemes r.between) ++ ("returns".toList ++ (bare r.response.lexemes ++
          (bare (r.options ++ [r.closer.lexeme]) ++ rest)))))))) := by
    simp [Rpc.lexemes, Ident.lexeme, Lexeme.bare, Lexeme.text]
  rw [hlexemes, Runtime.findAll_gap, findAll_of_some Runtime.consumes_tokenPattern
    (Runtime.rpcPattern_append hgap hrequest hresponse _), Runtime.findAll_closed
    Runtime.consumes_tokenPattern Runtime.within_tokenPattern, hoptions, List.nil_append]

theorem findAll_members {ms : List Member} (h : ∀ m ∈ ms, m.Scanned P) (rest : List Char) :
    findAll P.tokenPattern (bare (ms.flatMap Member.lexemes) ++ rest) =
      (ms.filterMap Member.rpc?).map Runtime.rpcToken ++ findAll P.tokenPattern rest := by
  induction ms with
  | nil => rfl
  | cons m ms ih =>
      obtain ⟨hm, hms⟩ := List.forall_mem_cons.mp h
      rw [List.flatMap_cons, bare_append, List.append_assoc]
      cases m with
      | rpc r =>
          have hrpc : Member.rpc? (.rpc r) = some r := rfl
          rw [List.filterMap_cons_some hrpc, List.map_cons, List.cons_append, ← ih hms]
          exact Rpc.findAll_append hm _
      | other s hs =>
          have hrpc : Member.rpc? (.other s hs) = none := rfl
          rw [List.filterMap_cons_none hrpc, ← ih hms]
          refine (Statement.findAll_append s _).trans ?_
          rw [show findAll P.tokenPattern (bare s.lexemes) = [] from hm, List.nil_append]

theorem Service.findAll_append {s : Service} (h : s.Scanned P) (rest : List Char) :
    findAll P.tokenPattern (bare s.lexemes ++ rest) =
      s.tokens ++ findAll P.tokenPattern rest := by
  obtain ⟨hgap, hmembers⟩ := h
  have hlexemes : bare s.lexemes ++ rest = bare (gapLexemes s.before) ++ ("service".toList ++
      (bare (gapLexemes s.gap) ++ (s.name.chars ++ (bare (gapLexemes s.opening) ++ (['{'] ++
        (bare (s.members.flatMap Member.lexemes) ++ (bare (gapLexemes s.closing) ++
          ('}' :: rest)))))))) := by
    simp [Service.lexemes, Ident.lexeme, symbol, Lexeme.bare, Lexeme.text]
  rw [hlexemes, Runtime.findAll_gap, findAll_of_some Runtime.consumes_tokenPattern
    (Runtime.servicePattern_append hgap s.name (Runtime.stops_word_gap _ (by decide) _)),
    Runtime.findAll_gap, List.singleton_append, findAll_cons_of_none
    (Runtime.tokenPattern_eq_none (by decide) (by decide)), findAll_members hmembers,
    Runtime.findAll_gap, findAll_cons_of_none
    (Runtime.tokenPattern_eq_none (by decide) (by decide)), Service.tokens, List.cons_append]

def Token.isService : Token → Bool
  | .service _ => true
  | .rpc _ _ _ => false

/-- Without a parenthesis there is no RPC. -/
theorem isService_of_not_mem {s : List Char} {t : Token} (hs : '(' ∉ s)
    (ht : t ∈ findAll P.tokenPattern s) : t.isService = true := by
  obtain ⟨u, r, hsuffix, hmatch⟩ := exists_of_mem_findAll Runtime.consumes_tokenPattern ht
  rcases Option.or_eq_some_iff.mp hmatch with hservice | ⟨-, hrpc⟩
  · obtain ⟨-, u₁, -, hservice⟩ := andThen_eq_some.mp hservice
    obtain ⟨-, u₂, -, hservice⟩ := andThen_eq_some.mp hservice
    obtain ⟨name, u₃, -, hservice⟩ := andThen_eq_some.mp hservice
    obtain ⟨rfl, -⟩ := Prod.mk.inj (Option.some.inj hservice)
    rfl
  · exfalso
    obtain ⟨_, u₁, h₁, hrpc⟩ := andThen_eq_some.mp hrpc
    obtain ⟨_, u₂, h₂, hrpc⟩ := andThen_eq_some.mp hrpc
    obtain ⟨name, u₃, h₃, hrpc⟩ := andThen_eq_some.mp hrpc
    obtain ⟨_, u₄, h₄, hrpc⟩ := andThen_eq_some.mp hrpc
    obtain ⟨type, u₅, h₅, -⟩ := andThen_eq_some.mp hrpc
    obtain ⟨_, u₆, h₆, -⟩ := andThen_eq_some.mp h₅
    have hopen : '(' ∈ u₄ := by
      rw [literal_eq_some.mp h₆]
      simp
    have hend : u₄ <:+ s := (reads_many _ _ _ _ h₄).trans <| (reads_many1 _ _ _ _ h₃).trans <|
      (reads_many1 _ _ _ _ h₂).trans <|
      ((consumes_literal (by decide)).reads _ _ _ h₁).trans hsuffix
    exact hs (hend.mem hopen)

/-- A statement of a file in which the scanner finds the RPCs that are there. -/
def Item.Scanned (P : Runtime) : Item → Prop
  | .package _ => True
  | .service s => s.Scanned P
  | .other s _ => ∀ t ∈ findAll P.tokenPattern (bare s.lexemes), t.isService = true

theorem Item.exists_closed (i : Item) : ∃ ls k, i.lexemes = ls ++ [Closer.lexeme k] := by
  cases i with
  | package p =>
      refine ⟨gapLexemes p.before ++ .code "package".toList (by decide) :: (gapLexemes p.gap ++
        p.name.lexemes ++ gapLexemes p.closing), .semicolon, ?_⟩
      simp [Item.lexemes, Package.lexemes, Closer.lexeme]
  | service s =>
      refine ⟨gapLexemes s.before ++ .code "service".toList (by decide) :: (gapLexemes s.gap ++
        s.name.lexeme :: (gapLexemes s.opening ++ symbol '{' (by decide) ::
          (s.members.flatMap Member.lexemes ++ gapLexemes s.closing))), .brace, ?_⟩
      simp [Item.lexemes, Service.lexemes, Closer.lexeme]
  | other s _ =>
      refine ⟨gapLexemes s.before ++ .code s.keyword s.keyword_ok :: s.body, s.closer, ?_⟩
      simp [Item.lexemes, Statement.lexemes]

theorem findAll_items {α : Type} {m : Matcher Char α} (hm : Consumes m)
    (hd : ∀ d ∈ Runtime.delimiters, Within d m) (items : List Item) (rest : List Char) :
    findAll m (bare (items.flatMap Item.lexemes) ++ rest) =
      (items.flatMap fun i => findAll m (bare i.lexemes)) ++ findAll m rest := by
  induction items with
  | nil => rfl
  | cons i items ih =>
      obtain ⟨ls, k, hi⟩ := i.exists_closed
      rw [List.flatMap_cons, bare_append, List.append_assoc, List.flatMap_cons, List.append_assoc,
        ← ih, hi]
      exact Runtime.findAll_closed hm hd ls k _

theorem not_mem_bare_gap (g : List Trivia) : '(' ∉ bare (gapLexemes g) :=
  fun h => absurd (mem_blanks_of_mem_bare h) (by decide)

theorem Ident.not_mem_chars (i : Ident) : '(' ∉ i.chars :=
  fun h => absurd (i.wordChar_of_mem h) (by decide)

theorem Package.not_mem_bare (p : Package) : '(' ∉ bare p.lexemes := by
  have htail : '(' ∉ bare (p.name.tail.flatMap DottedName.tailLexemes) := by
    induction p.name.tail with
    | nil => exact List.not_mem_nil
    | cons q qs ih =>
        rw [List.flatMap_cons, bare_append, List.mem_append, not_or]
        refine ⟨?_, ih⟩
        simp [DottedName.tailLexemes, symbol, Ident.lexeme, Lexeme.bare, Lexeme.text,
          not_mem_bare_gap, Ident.not_mem_chars]
  simp [Package.lexemes, DottedName.lexemes, htail, symbol, Ident.lexeme, Lexeme.bare,
    Lexeme.text, not_mem_bare_gap, Ident.not_mem_chars]

/-! ### Collecting -/

/-- A method as the class has it: its name and what it calls. -/
def RpcMethod.entry (m : RpcMethod) : List Char × Call := (m.perlName, m.call)

/-- The entries of the RPCs of a service, below a package. -/
def Service.entries (P : Runtime) (package : List Char) (s : Service) : List (List Char × Call) :=
  (s.members.filterMap Member.rpc?).map fun r =>
    (P.camelToSnake r.name.chars, ⟨package ++ '.' :: s.name.chars, r.name.chars⟩)

theorem Ident.truthy_chars (i : Ident) : Runtime.truthy i.chars = true := by
  have hne : i.chars ≠ ['0'] := by
    intro h
    have hfirst : i.first = '0' := (List.cons.inj h).1
    exact absurd i.first_ok (by rw [hfirst]; decide)
  have hnil : i.chars ≠ [] := List.cons_ne_nil _ _
  simp [Runtime.truthy, hne, hnil]

theorem collect_services {package : List Char} {ts : List Token}
    (h : ∀ t ∈ ts, t.isService = true) (state : List Char × List RpcMethod) :
    (ts.foldl (P.collectToken package) state).2 = state.2 := by
  induction ts generalizing state with
  | nil => rfl
  | cons t ts ih =>
      obtain ⟨ht, hts⟩ := List.forall_mem_cons.mp h
      cases t with
      | service name =>
          rw [List.foldl_cons, ih hts, Runtime.collectToken]
          split <;> rfl
      | rpc name inputType outputType => cases ht

theorem collect_rpcs {package : List Char} {name : Ident} (rs : List Rpc)
    (ms : List RpcMethod) :
    ((rs.map Runtime.rpcToken).foldl (P.collectToken package) (name.chars, ms)).2.map
        RpcMethod.entry =
      ms.map RpcMethod.entry ++ rs.map fun r =>
        (P.camelToSnake r.name.chars, ⟨package ++ '.' :: name.chars, r.name.chars⟩) := by
  induction rs generalizing ms with
  | nil => simp
  | cons r rs ih =>
      rw [List.map_cons, List.foldl_cons, Runtime.rpcToken, Runtime.collectToken,
        Ident.truthy_chars, Ident.truthy_chars, Bool.and_self, if_pos rfl, ih, List.map_cons]
      simp [RpcMethod.entry, RpcMethod.call]

theorem collect_items {package : List Char} {items : List Item}
    (h : ∀ i ∈ items, i.Scanned P) (state : List Char × List RpcMethod) :
    ((items.flatMap fun i => findAll P.tokenPattern (bare i.lexemes)).foldl
        (P.collectToken package) state).2.map RpcMethod.entry =
      state.2.map RpcMethod.entry ++
        (items.filterMap Item.service?).flatMap (Service.entries P package) := by
  induction items generalizing state with
  | nil => simp
  | cons i items ih =>
      obtain ⟨hi, hitems⟩ := List.forall_mem_cons.mp h
      rw [List.flatMap_cons, List.foldl_append, ih hitems]
      cases i with
      | package p =>
          have hservice : Item.service? (.package p) = none := rfl
          have htokens : ∀ t ∈ findAll P.tokenPattern (bare (Item.package p).lexemes),
              t.isService = true := fun t ht => isService_of_not_mem p.not_mem_bare ht
          rw [List.filterMap_cons_none hservice, collect_services htokens]
      | service s =>
          have hservice : Item.service? (.service s) = some s := rfl
          have htokens : findAll P.tokenPattern (bare (Item.service s).lexemes) = s.tokens := by
            have hfound := Service.findAll_append hi []
            rwa [findAll_nil, List.append_nil, List.append_nil] at hfound
          rw [List.filterMap_cons_some hservice, htokens, Service.tokens, List.foldl_cons,
            Runtime.collectToken, if_pos s.name.truthy_chars, collect_rpcs, List.flatMap_cons,
            List.append_assoc, Service.entries]
      | other s hs =>
          have hservice : Item.service? (.other s hs) = none := rfl
          have htokens : ∀ t ∈ findAll P.tokenPattern (bare (Item.other s hs).lexemes),
              t.isService = true := hi
          rw [List.filterMap_cons_none hservice, collect_services htokens]

/-! ### Files -/

namespace ProtoFile

variable (P : Runtime) (f : ProtoFile)

/-- The first package statement is the first text that the package pattern takes. -/
def PackageFound : Prop :=
  ∃ before p after, f.items = before ++ .package p :: after ∧
    (∀ i ∈ before, i.package? = none) ∧
    findAll P.packagePattern (bare (before.flatMap Item.lexemes)) = [] ∧
    bare (gapLexemes p.gap) ≠ [] ∧ p.name.Joined ∧ bare (gapLexemes p.closing) = []

/-- A file in which nothing hides an RPC from the scanner. -/
structure Scanned : Prop where
  strippable : Strippable f.lastText f.lexemes
  items : ∀ i ∈ f.items, i.Scanned P
  package : f.declared ≠ [] → f.PackageFound P

variable {P f}

theorem stripLineComments_lastText : stripLineComments f.lastText = [] := by
  rw [lastText]
  cases f.lastComment with
  | none => rfl
  | some s => exact stripLineComments_last s.2

theorem stripComments_content (h : f.Scanned P) : stripComments f.content = bare f.lexemes :=
  stripComments_text h.strippable stripLineComments_lastText

end ProtoFile

theorem Package.findAll_append {p : Package} (hgap : bare (gapLexemes p.gap) ≠ [])
    (hname : p.name.Joined) (hclosing : bare (gapLexemes p.closing) = []) (rest : List Char) :
    findAll P.packagePattern (bare p.lexemes ++ rest) =
      p.name.chars :: findAll P.packagePattern rest := by
  have hlexemes : bare p.lexemes ++ rest = bare (gapLexemes p.before) ++ ("package".toList ++
      (bare (gapLexemes p.gap) ++ (p.name.chars ++ ([';'] ++ rest)))) := by
    simp [Package.lexemes, DottedName.bare_lexemes hname, hclosing, symbol, Lexeme.bare,
      Lexeme.text]
  have hspace : Stops P.space (p.name.chars ++ ([';'] ++ rest)) := by
    rw [DottedName.chars, List.append_assoc]
    exact Runtime.stops_space_ident p.name.head _
  have hword : many1 P.nameChar (p.name.chars ++ ([';'] ++ rest)) =
      some (p.name.chars, [';'] ++ rest) :=
    many1_append (by simp [DottedName.chars, Ident.chars])
      (fun _ h => Runtime.nameChar_of_mem_dottedName h)
      (stops_cons (Runtime.nameChar_punctuation (by decide) (by decide)))
  have hmatch : P.packagePattern ("package".toList ++ (bare (gapLexemes p.gap) ++
      (p.name.chars ++ ([';'] ++ rest)))) = some (p.name.chars, rest) := by
    rw [Runtime.packagePattern, andThen_of_some (literal_append _ _),
      andThen_of_some (Runtime.many1_space_gap hgap hspace), andThen_of_some hword,
      andThen_of_some (literal_append _ _)]
    rfl
  have hletter : ∀ b ∈ blanks, b ≠ 'p' :=
    List.all_iff_forall_prop.mp (by decide)
  rw [hlexemes, findAll_gap_of_forall
    (fun c hc _ => Runtime.packagePattern_eq_none (hletter c hc)),
    findAll_of_some Runtime.consumes_packagePattern hmatch]

namespace ProtoFile

variable {f : ProtoFile}

theorem PackageFound.findFirst_eq (h : f.PackageFound P) :
    ∃ n, f.package? = some n ∧ findFirst P.packagePattern (bare f.lexemes) = some n.chars := by
  obtain ⟨before, p, after, hitems, hnone, hempty, hgap, hname, hclosing⟩ := h
  refine ⟨p.name, ?_, ?_⟩
  · rw [package?, hitems, List.findSome?_append, List.findSome?_eq_none_iff.mpr hnone]
    rfl
  · have hsplit := findAll_items Runtime.consumes_packagePattern
      (fun _ h => Runtime.within_packagePattern (P := P) h) before
    have hbefore := hsplit []
    rw [List.append_nil, hempty, findAll_nil, List.append_nil] at hbefore
    have hlexemes : bare f.lexemes = bare (before.flatMap Item.lexemes) ++
        (bare p.lexemes ++ bare (after.flatMap Item.lexemes ++ gapLexemes f.closing)) := by
      simp [lexemes, hitems, Item.lexemes]
    rw [findFirst, hlexemes, hsplit, ← hbefore, List.nil_append,
      Package.findAll_append hgap hname hclosing, List.head?_cons]

theorem length_entries (services : List Service) (package : List Char) :
    (services.flatMap (Service.entries P package)).length =
      (services.flatMap fun s => (s.members.filterMap Member.rpc?).map fun r =>
        (⟨f.servicePath s, r.name.chars⟩ : Call)).length := by
  simp [List.length_flatMap, Service.entries]

/-- The methods of a file are its RPCs, in order. -/
theorem fileMethods_content (h : f.Scanned P) :
    (P.fileMethods f.content).map RpcMethod.entry =
      f.declared.map fun c => (P.camelToSnake c.method, c) := by
  have htokens : findAll P.tokenPattern (bare f.lexemes) =
      f.items.flatMap fun i => findAll P.tokenPattern (bare i.lexemes) := by
    have hclosing := Runtime.findAll_gap (P := P) f.closing []
    rw [List.append_nil, findAll_nil] at hclosing
    rw [lexemes, bare_append, findAll_items Runtime.consumes_tokenPattern
      Runtime.within_tokenPattern, hclosing, List.append_nil]
  rw [Runtime.fileMethods, stripComments_content h, htokens, collect_items h.items, List.map_nil,
    List.nil_append]
  by_cases hdeclared : f.declared = []
  · rw [hdeclared, List.map_nil, ← List.length_eq_zero_iff, length_entries (f := f)]
    exact List.length_eq_zero_iff.mpr hdeclared
  · obtain ⟨n, hpackage, hfound⟩ := (h.package hdeclared).findFirst_eq
    have hentries (s : Service) : Service.entries P n.chars s =
        ((s.members.filterMap Member.rpc?).map fun r =>
          (⟨f.servicePath s, r.name.chars⟩ : Call)).map fun c => (P.camelToSnake c.method, c) := by
      simp [Service.entries, servicePath, hpackage]
    rw [hfound, Option.getD_some, declared, List.map_flatMap, services]
    exact List.flatMap_congr fun s _ => hentries s

end ProtoFile

/-! ### The class -/

/-- The class has one method for each RPC, which calls it, and no others. -/
def Covers (cls : Option (List (List Char × Call))) (rpcs : List Call) : Prop :=
  ∃ table, cls = some table ∧ (Assoc.keys table).Nodup ∧ (table.map Prod.snd).Perm rpcs

/-- The methods' names are distinct and none is refused. -/
def OwnNames (P : Runtime) (rpcs : List Call) : Prop :=
  (rpcs.map fun c => P.camelToSnake c.method).Nodup ∧
    ∀ c ∈ rpcs, P.refused (P.camelToSnake c.method) = false

theorem methods_contents {files : List ProtoFile} (h : ∀ f ∈ files, f.Scanned P) :
    (P.methods (files.map ProtoFile.content)).map RpcMethod.entry =
      (files.flatMap ProtoFile.declared).map fun c => (P.camelToSnake c.method, c) := by
  rw [Runtime.methods, List.flatMap_map, List.map_flatMap, List.map_flatMap]
  exact List.flatMap_congr fun f hf => ProtoFile.fileMethods_content (h f hf)

theorem loadClass_eq {ms : List RpcMethod} {rpcs : List Call}
    (h : ms.map RpcMethod.entry = rpcs.map fun c => (P.camelToSnake c.method, c)) :
    P.loadClass ms =
      if rpcs.any fun c => P.refused (P.camelToSnake c.method) then none
      else some (Assoc.assignAll [] (rpcs.map fun c => (P.camelToSnake c.method, c))) := by
  have hany : (ms.any fun m => P.refused m.perlName) =
      rpcs.any fun c => P.refused (P.camelToSnake c.method) := by
    have hmap := congrArg (List.any · fun e => P.refused e.1) h
    simpa [List.any_map, Function.comp_def, RpcMethod.entry] using hmap
  have hfold : ms.foldl (fun table m => Assoc.store table m.perlName m.call) [] =
      Assoc.assignAll [] (ms.map RpcMethod.entry) := by
    rw [Assoc.assignAll, List.foldl_map]
    rfl
  rw [Runtime.loadClass, hany, hfold, h]

/-- Over files in which nothing hides an RPC from the scanner, the wrapper covers the declared
RPCs exactly when each of them has a name of its own. -/
theorem covers_iff {files : List ProtoFile} (h : ∀ f ∈ files, f.Scanned P) :
    Covers (P.generateClientWrapper (files.map ProtoFile.content))
        (files.flatMap ProtoFile.declared) ↔
      OwnNames P (files.flatMap ProtoFile.declared) := by
  rw [Runtime.generateClientWrapper, loadClass_eq (methods_contents h)]
  generalize files.flatMap ProtoFile.declared = rpcs
  have hkeys : Assoc.keys (rpcs.map fun c => (P.camelToSnake c.method, c)) =
      rpcs.map fun c => P.camelToSnake c.method := by
    simp [Assoc.keys]
  constructor
  · rintro ⟨table, htable, -, hperm⟩
    split at htable
    · cases htable
    · rename_i hrefused
      obtain rfl := Option.some.inj htable
      refine ⟨?_, by simpa using hrefused⟩
      rw [← hkeys, ← Assoc.length_assignAll_eq_iff, List.length_map]
      simpa using hperm.length_eq
  · rintro ⟨hnodup, haccepted⟩
    have hany : ¬ (rpcs.any fun c => P.refused (P.camelToSnake c.method)) = true := by
      simpa using haccepted
    rw [← hkeys] at hnodup
    refine ⟨_, if_neg hany, Assoc.nodup_keys_assignAll (t := []) List.nodup_nil _, ?_⟩
    rw [Assoc.assignAll_eq_self hnodup, List.map_map]
    simp [Function.comp_def]

/-! ### Two files -/

/-- Perl on ASCII, and the names that `Moo` and the generated class do not leave to a `sub`. -/
def Runtime.ascii : Runtime where
  word c := c.isAlphanum || c == '_'
  space c := blanks.contains c
  lc := List.map Char.toLower
  refused name :=
    ["credentials".toList, "transport".toList, "has".toList, "new".toList].contains name
  word_ascii _ _ := rfl
  space_ascii _ _ := rfl
  lc_ascii _ _ := rfl

def space : Trivia := .blank ' ' (by decide)

def dottedName (first : Char) (h : first.isAlpha ∨ first = '_') : DottedName :=
  ⟨⟨first, [], h, rfl⟩, []⟩

def packageStatement : Package := ⟨[], [space], by simp, dottedName 'p' (by decide), []⟩

def argument (first : Char) (h : first.isAlpha ∨ first = '_') : Argument :=
  ⟨[], [], none, ⟨none, dottedName first h⟩, []⟩

/-- `rpc Get(A)returns(B);` -/
def getRpc (before : List Trivia) : Rpc where
  before := before
  gap := [space]
  gap_ne := by simp
  name := ⟨'G', ['e', 't'], by decide, by decide⟩
  request := argument 'A' (by decide)
  between := []
  response := argument 'B' (by decide)
  options := []
  closer := .semicolon

/-- `package p;service S{…rpc Get(A)returns(B);}`, with something before the RPC. -/
def getFile (before : List Trivia) : ProtoFile where
  items := [.package packageStatement, .service {
    before := []
    gap := [space]
    gap_ne := by simp
    name := ⟨'S', [], by decide, rfl⟩
    opening := []
    members := [.rpc (getRpc before)]
    closing := [] }]
  closing := []
  lastComment := none

/-- A block comment `/*a//b` with a newline before its end, and one without. -/
def twoLineComment : Trivia := .block ['a', '/', '/', 'b', '\n'] (by decide)

def oneLineComment : Trivia := .block ['a', '/', '/', 'b'] (by decide)

theorem dottedName_joined (first : Char) (h : first.isAlpha ∨ first = '_') :
    (dottedName first h).Joined :=
  fun _ hp => absurd hp List.not_mem_nil

theorem argument_scanned (first : Char) (h : first.isAlpha ∨ first = '_') :
    (argument first h).Scanned := by
  refine ⟨rfl, ?_, dottedName_joined first h⟩
  intro g hg
  cases hg

theorem getFile_scanned : (getFile [twoLineComment]).Scanned Runtime.ascii where
  strippable := by decide
  items := by
    intro i hi
    rcases List.mem_cons.mp hi with rfl | hi
    · trivial
    · rw [List.mem_singleton.mp hi]
      refine ⟨by decide, fun m hm => ?_⟩
      rw [List.mem_singleton.mp hm]
      exact ⟨by decide, argument_scanned 'A' (by decide), argument_scanned 'B' (by decide),
        by decide⟩
  package _ := by
    refine ⟨[], packageStatement, _, rfl, fun i hi => absurd hi List.not_mem_nil, by decide,
      by decide, dottedName_joined 'p' (by decide), by decide⟩

theorem covers_two_line_comment :
    Covers (Runtime.ascii.generateClientWrapper
        ([getFile [twoLineComment]].map ProtoFile.content))
      ([getFile [twoLineComment]].flatMap ProtoFile.declared) := by
  refine (covers_iff ?_).mpr ?_
  · intro f hf
    rw [List.mem_singleton.mp hf]
    exact getFile_scanned
  · exact ⟨by decide, by decide⟩

/-- A comment `/*a//b*/` before an RPC, on its line, takes the RPC with it. -/
theorem not_covers_one_line_comment :
    ¬ Covers (Runtime.ascii.generateClientWrapper
        ([getFile [oneLineComment]].map ProtoFile.content))
      ([getFile [oneLineComment]].flatMap ProtoFile.declared) := by
  have hempty : Runtime.ascii.generateClientWrapper
      ([getFile [oneLineComment]].map ProtoFile.content) = some [] := by decide +kernel
  rintro ⟨table, htable, -, hperm⟩
  rw [hempty] at htable
  obtain rfl := Option.some.inj htable
  exact absurd hperm.length_eq (by decide)

end GooglePerl.Starter
