import GooglePerl.Starter.ClientWrapper

/-!
Proto files as their grammar has them, down to the blanks and comments between tokens.

Services and their RPCs, and the package statement, are taken apart; every other statement is
its first word, a run of lexemes and the `;` or the brace that closes it. What such a file
declares (`ProtoFile.declared`) is read off from its parts and not from its text.
-/

namespace GooglePerl.Starter

open Lib Lib.Scan

/-! ### Lexemes -/

/-- What may stand between two tokens. -/
inductive Trivia where
  | blank (c : Char) (h : c ∈ blanks)
  /-- A comment `//…` with the newline that ends it. -/
  | line (s : List Char) (h : '\n' ∉ s)
  | block (s : List Char) (h : ¬ ['*', '/'] <:+: s)

def Trivia.text : Trivia → List Char
  | .blank c _ => [c]
  | .line s _ => '/' :: '/' :: (s ++ ['\n'])
  | .block s _ => '/' :: '*' :: (s ++ ['*', '/'])

/-- Between the quotes of a literal: no newline and no quote, unless behind a backslash. -/
def quotable (q : Char) : List Char → Bool
  | [] => true
  | ['\\'] => false
  | '\\' :: _ :: s => quotable q s
  | c :: s => c ≠ q && c ≠ '\n' && quotable q s

/-- Not the beginning of a comment or a literal. -/
def isCode (c : Char) : Bool := c ≠ '/' && c ≠ '"' && c ≠ '\''

inductive Lexeme where
  | trivia (t : Trivia)
  /-- A run of characters outside literals and comments. -/
  | code (s : List Char) (h : s.all isCode = true)
  /-- A slash that opens no comment, as in the names of extended options, and what follows it. -/
  | slash (c : Char) (h : c ∉ ['/', '*', '"', '\''])
  | literal (q : Char) (s : List Char) (hq : q ∈ ['"', '\'']) (hs : quotable q s)

def Lexeme.text : Lexeme → List Char
  | .trivia t => t.text
  | .code s _ => s
  | .slash c _ => ['/', c]
  | .literal q s _ _ => q :: (s ++ [q])

/-! ### Names -/

structure Ident where
  first : Char
  rest : List Char
  first_ok : first.isAlpha ∨ first = '_'
  rest_ok : rest.all (fun c => c.isAlphanum || c == '_') = true

def Ident.chars (i : Ident) : List Char := i.first :: i.rest

theorem Ident.wordChar_of_mem (i : Ident) {c : Char} (h : c ∈ i.chars) :
    c.isAlphanum ∨ c = '_' := by
  rcases List.mem_cons.mp h with rfl | h
  · rcases i.first_ok with hc | hc
    · refine .inl ?_
      change (i.first.isAlpha || i.first.isDigit) = true
      rw [hc, Bool.true_or]
    · exact .inr hc
  · simpa using List.all_eq_true.mp i.rest_ok c h

theorem isCode_of_wordChar {c : Char} (h : c.isAlphanum ∨ c = '_') : isCode c = true := by
  have hne (b : Char) (hb : ¬ (b.isAlphanum = true ∨ b = '_')) : c ≠ b := by
    rintro rfl
    exact hb h
  simp [isCode, hne '/' (by decide), hne '"' (by decide), hne '\'' (by decide)]

def Ident.lexeme (i : Ident) : Lexeme :=
  .code i.chars (List.all_eq_true.mpr fun _ h => isCode_of_wordChar (i.wordChar_of_mem h))

/-- Identifiers with dots between; blanks and comments may stand around each dot. -/
structure DottedName where
  head : Ident
  tail : List ((List Trivia × List Trivia) × Ident)

def DottedName.chars (n : DottedName) : List Char :=
  n.head.chars ++ n.tail.flatMap fun p => '.' :: p.2.chars

/-- The name of a message type, with what follows the dot when it begins with one. -/
structure TypeName where
  dot : Option (List Trivia)
  name : DottedName

/-! ### Statements -/

/-- A type in parentheses, with what follows `stream` when that keyword stands before it. -/
structure Argument where
  before : List Trivia
  opened : List Trivia
  stream : Option (List Trivia)
  type : TypeName
  closing : List Trivia

inductive Closer where
  | semicolon
  | brace

def Closer.char : Closer → Char
  | .semicolon => ';'
  | .brace => '}'

/-- `rpc name (type) returns (type)` and its `;` or its options in braces. -/
structure Rpc where
  before : List Trivia
  gap : List Trivia
  gap_ne : gap ≠ []
  name : Ident
  request : Argument
  between : List Trivia
  response : Argument
  options : List Lexeme
  closer : Closer

/-- A statement of which only the first word is known; an empty statement has none. -/
structure Statement where
  before : List Trivia
  keyword : List Char
  keyword_ok : keyword.all isCode = true
  body : List Lexeme
  closer : Closer
  body_empty : keyword = [] → body = []

inductive Member where
  | rpc (r : Rpc)
  | other (s : Statement) (h : s.keyword ∈ ["option".toList, []])

structure Service where
  before : List Trivia
  gap : List Trivia
  gap_ne : gap ≠ []
  name : Ident
  opening : List Trivia
  members : List Member
  closing : List Trivia

structure Package where
  before : List Trivia
  gap : List Trivia
  gap_ne : gap ≠ []
  name : DottedName
  closing : List Trivia

def topLevelKeywords : List (List Char) :=
  [ "syntax".toList, "edition".toList, "import".toList, "option".toList, "message".toList,
    "enum".toList, "extend".toList, "export".toList, "local".toList, [] ]

inductive Item where
  | package (p : Package)
  | service (s : Service)
  | other (s : Statement) (h : s.keyword ∈ topLevelKeywords)

/-- A proto file. Its last line may be a comment without a newline. -/
structure ProtoFile where
  items : List Item
  closing : List Trivia
  lastComment : Option {s : List Char // '\n' ∉ s}

/-! ### The text of a file -/

def gapLexemes (g : List Trivia) : List Lexeme := g.map .trivia

def symbol (c : Char) (h : isCode c = true) : Lexeme := .code [c] (by simpa using h)

def Closer.lexeme : Closer → Lexeme
  | .semicolon => symbol ';' (by decide)
  | .brace => symbol '}' (by decide)

namespace DottedName

def tailLexemes (p : (List Trivia × List Trivia) × Ident) : List Lexeme :=
  gapLexemes p.1.1 ++ symbol '.' (by decide) :: (gapLexemes p.1.2 ++ [p.2.lexeme])

def lexemes (n : DottedName) : List Lexeme := n.head.lexeme :: n.tail.flatMap tailLexemes

end DottedName

def TypeName.lexemes (t : TypeName) : List Lexeme :=
  (t.dot.elim [] fun g => symbol '.' (by decide) :: gapLexemes g) ++ t.name.lexemes

def Argument.lexemes (a : Argument) : List Lexeme :=
  gapLexemes a.before ++ symbol '(' (by decide) :: (gapLexemes a.opened ++
    (a.stream.elim [] fun g => .code "stream".toList (by decide) :: gapLexemes g) ++
    a.type.lexemes ++ gapLexemes a.closing ++ [symbol ')' (by decide)])

def Rpc.lexemes (r : Rpc) : List Lexeme :=
  gapLexemes r.before ++ .code "rpc".toList (by decide) :: (gapLexemes r.gap ++
    r.name.lexeme :: (r.request.lexemes ++ gapLexemes r.between ++
      .code "returns".toList (by decide) :: (r.response.lexemes ++ r.options ++ [r.closer.lexeme])))

def Statement.lexemes (s : Statement) : List Lexeme :=
  gapLexemes s.before ++ .code s.keyword s.keyword_ok :: (s.body ++ [s.closer.lexeme])

def Member.lexemes : Member → List Lexeme
  | .rpc r => r.lexemes
  | .other s _ => s.lexemes

def Service.lexemes (s : Service) : List Lexeme :=
  gapLexemes s.before ++ .code "service".toList (by decide) :: (gapLexemes s.gap ++
    s.name.lexeme :: (gapLexemes s.opening ++ symbol '{' (by decide) ::
      (s.members.flatMap Member.lexemes ++ gapLexemes s.closing ++ [symbol '}' (by decide)])))

def Package.lexemes (p : Package) : List Lexeme :=
  gapLexemes p.before ++ .code "package".toList (by decide) :: (gapLexemes p.gap ++
    p.name.lexemes ++ gapLexemes p.closing ++ [symbol ';' (by decide)])

def Item.lexemes : Item → List Lexeme
  | .package p => p.lexemes
  | .service s => s.lexemes
  | .other s _ => s.lexemes

/-- The text of a run of lexemes. -/
def text (ls : List Lexeme) : List Char := ls.flatMap Lexeme.text

namespace ProtoFile

def lexemes (f : ProtoFile) : List Lexeme :=
  f.items.flatMap Item.lexemes ++ gapLexemes f.closing

def lastText (f : ProtoFile) : List Char := f.lastComment.elim [] fun s => '/' :: '/' :: s.1

/-- The content of the file. -/
def content (f : ProtoFile) : List Char := text f.lexemes ++ f.lastText

end ProtoFile

/-! ### What a file declares -/

def Item.package? : Item → Option DottedName
  | .package p => some p.name
  | _ => none

def Member.rpc? : Member → Option Rpc
  | .rpc r => some r
  | .other _ _ => none

def Item.service? : Item → Option Service
  | .service s => some s
  | _ => none

namespace ProtoFile

def package? (f : ProtoFile) : Option DottedName := f.items.findSome? Item.package?

def services (f : ProtoFile) : List Service := f.items.filterMap Item.service?

/-- The full name of a service of the file. -/
def servicePath (f : ProtoFile) (s : Service) : List Char :=
  match f.package? with
  | none => s.name.chars
  | some p => p.chars ++ '.' :: s.name.chars

/-- What calls of the file's RPCs name, in the order of the file. -/
def declared (f : ProtoFile) : List Call :=
  f.services.flatMap fun s =>
    (s.members.filterMap Member.rpc?).map fun r => ⟨f.servicePath s, r.name.chars⟩

end ProtoFile

end GooglePerl.Starter
