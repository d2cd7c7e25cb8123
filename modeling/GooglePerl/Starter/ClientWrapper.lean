import GooglePerl.Lib.Assoc
import GooglePerl.Lib.Scan

/-!
The client wrapper that `Module::Starter::Protobuf` generates (`_generate_client_wrapper`).

Each proto file is stripped of its comments and then scanned with regular expressions: one for
the package, one for services and RPCs. Every RPC found becomes one `sub` of the wrapper class,
under its name in snake case.
-/

namespace GooglePerl.Starter

open Lib Lib.Scan

/-- The blanks below 128: space, tab, newline, vertical tab, form feed, carriage return. -/
def blanks : List Char := [' ', '\t', '\n', '\x0b', '\x0c', '\r']

/-- What the generator uses of Perl and what the generated class meets on loading. -/
structure Runtime where
  /-- `\w` -/
  word : Char → Bool
  /-- `\s` -/
  space : Char → Bool
  lc : List Char → List Char
  /-- Names under which a `sub` keeps the class from loading: `has` of the class is then not the
  one of `Moo`, or it dies rather than put a constructor or an accessor over the `sub`. -/
  refused : List Char → Bool
  word_ascii : ∀ c : Char, c.toNat < 128 → word c = (c.isAlphanum || c == '_')
  space_ascii : ∀ c : Char, c.toNat < 128 → space c = blanks.contains c
  lc_ascii : ∀ s : List Char, (∀ c ∈ s, c.toNat < 128) → lc s = s.map Char.toLower

/-! ### Stripping comments -/

/-- The pattern `//.*?$` under `/m`. -/
def lineComment : Matcher Char (List Char) :=
  andThen (literal ['/', '/']) fun _ => many (· ≠ '\n')

/-- The pattern `/\*.*?\*/` under `/s`. -/
def blockComment : Matcher Char Unit :=
  andThen (literal ['/', '*']) fun _ => upTo ['*', '/']

def stripLineComments : List Char → List Char := replaceAll lineComment fun _ => []

def stripBlockComments : List Char → List Char := replaceAll blockComment fun _ => []

/-- The content of a proto file with `s{//.*?$}{}gm` and then `s{/\*.*?\*/}{}gs` applied. -/
def stripComments (content : List Char) : List Char :=
  stripBlockComments (stripLineComments content)

/-! ### The patterns -/

/-- What the token scanner stops at. -/
inductive Token where
  | service (name : List Char)
  | rpc (name inputType outputType : List Char)
  deriving DecidableEq, Repr

/-- One generated method. -/
structure RpcMethod where
  rawName : List Char
  perlName : List Char
  inputType : List Char
  outputType : List Char
  servicePath : List Char
  deriving DecidableEq, Repr

/-- What a generated method calls: a service path and the method's name. -/
structure Call where
  service : List Char
  method : List Char
  deriving DecidableEq, Repr

def RpcMethod.call (m : RpcMethod) : Call := ⟨m.servicePath, m.rawName⟩

namespace Runtime

variable (P : Runtime)

/-- `[\w\.]` -/
def nameChar (c : Char) : Bool := P.word c || c == '.'

/-- The pattern `package\s+([\w\.]+);`. -/
def packagePattern : Matcher Char (List Char) :=
  andThen (literal "package".toList) fun _ =>
  andThen (many1 P.space) fun _ =>
  andThen (many1 P.nameChar) fun name =>
  andThen (literal [';']) fun _ => yields name

/-- The pattern `service\s+(\w+)`. -/
def servicePattern : Matcher Char Token :=
  andThen (literal "service".toList) fun _ =>
  andThen (many1 P.space) fun _ =>
  andThen (many1 P.word) fun name => yields (.service name)

/-- The pattern `\(\s*([\w\.]+)\s*\)`. -/
def typePattern : Matcher Char (List Char) :=
  andThen (literal ['(']) fun _ =>
  andThen (many P.space) fun _ =>
  andThen (many1 P.nameChar) fun name =>
  andThen (many P.space) fun _ =>
  andThen (literal [')']) fun _ => yields name

/-- The pattern `rpc\s+(\w+)\s*\(\s*([\w\.]+)\s*\)\s*returns\s*\(\s*([\w\.]+)\s*\)`. -/
def rpcPattern : Matcher Char Token :=
  andThen (literal "rpc".toList) fun _ =>
  andThen (many1 P.space) fun _ =>
  andThen (many1 P.word) fun name =>
  andThen (many P.space) fun _ =>
  andThen P.typePattern fun inputType =>
  andThen (many P.space) fun _ =>
  andThen (literal "returns".toList) fun _ =>
  andThen (many P.space) fun _ =>
  andThen P.typePattern fun outputType => yields (.rpc name inputType outputType)

def tokenPattern : Matcher Char Token := orElse P.servicePattern P.rpcPattern

/-! ### Collecting methods -/

/-- `([a-z0-9])([A-Z])` -/
def humpPattern : Matcher Char (Char × Char)
  | x :: y :: s => if (x.isLower || x.isDigit) && y.isUpper then some ((x, y), s) else none
  | _ => none

/-- `_camel_to_snake` -/
def camelToSnake (str : List Char) : List Char :=
  P.lc (replaceAll humpPattern (fun p => [p.1, '_', p.2]) str)

/-- The truth of a string. -/
def truthy (s : List Char) : Bool := s ≠ [] && s ≠ ['0']

/-- One turn of the scanner's loop: the service the scanner is in and the methods so far. -/
def collectToken (filePackage : List Char) (state : List Char × List RpcMethod) :
    Token → List Char × List RpcMethod
  | .service name => if truthy name then (name, state.2) else state
  | .rpc name inputType outputType =>
      if truthy state.1 && truthy name then
        (state.1, state.2 ++ [{
          rawName := name
          perlName := P.camelToSnake name
          inputType := inputType
          outputType := outputType
          servicePath := filePackage ++ '.' :: state.1 }])
      else state

/-- The methods of one proto file. -/
def fileMethods (content : List Char) : List RpcMethod :=
  let protoContent := stripComments content
  let filePackage := (findFirst P.packagePattern protoContent).getD []
  ((findAll P.tokenPattern protoContent).foldl (P.collectToken filePackage) ([], [])).2

/-- `@methods` after all proto files are read. -/
def methods (files : List (List Char)) : List RpcMethod := files.flatMap P.fileMethods

/-- The RPC methods of the class that the generated text declares: of two `sub`s with one name
the later stays, and a refused name leaves no class. -/
def loadClass (ms : List RpcMethod) : Option (List (List Char × Call)) :=
  if ms.any fun m => P.refused m.perlName then none
  else some (ms.foldl (fun table m => Assoc.store table m.perlName m.call) [])

/-- `_generate_client_wrapper`, and the class loaded from what it writes. -/
def generateClientWrapper (files : List (List Char)) : Option (List (List Char × Call)) :=
  P.loadClass (P.methods files)

end Runtime

end GooglePerl.Starter
