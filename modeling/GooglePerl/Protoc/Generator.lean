import GooglePerl.Lib.Decimal
import GooglePerl.Protobuf.ClassNames
import GooglePerl.Protoc.EmbeddedDescriptor
import GooglePerl.Protoc.TypesLibrary

/-!
`PerlCodeGenerator` of `protoc/generator.cc`: what the plugin writes for a request.

A module carries the descriptor of its file, which Perl reads back as it was
(`embedded_survives`). Its clients name the classes of requests and responses by the plugin's map
of types and the service by package and name; both go wrong exactly without a package
(`refersTo_iff`).
-/

namespace GooglePerl.Protoc

open GooglePerl.Lib GooglePerl.Protobuf

/-! ### The request -/

structure MethodDescriptor where
  name : PerlStr := []
  inputType : PerlStr := []
  outputType : PerlStr := []

structure ServiceDescriptor where
  name : PerlStr := []
  method : List MethodDescriptor := []

/-- A file as the plugin gets it; `serialized` are the octets that upb writes for it. -/
structure FileProto extends FileDescriptor where
  dependency : List PerlStr := []
  service : List ServiceDescriptor := []
  serialized : List UInt8 := []

structure CodeGeneratorRequest where
  fileToGenerate : List PerlStr
  protoFile : List FileProto

def CodeGeneratorRequest.files (req : CodeGeneratorRequest) : List FileDescriptor :=
  req.protoFile.map FileProto.toFileDescriptor

/-! ### `protoc/helpers.cc` -/

/-- The loop of `ToSnakeCase`; `previous` is the character before. -/
def toSnakeFrom (previous : Option ℕ) : PerlStr → PerlStr
  | [] => []
  | c :: cs =>
      if 65 ≤ c ∧ c ≤ 90 then
        (if previous = none ∨ previous = some 95 then [] else [95]) ++
          (c + 32) :: toSnakeFrom (some c) cs
      else c :: toSnakeFrom (some c) cs

/-- `ToSnakeCase` -/
def toSnakeCase (s : PerlStr) : PerlStr := toSnakeFrom none s

/-- `ConsumePrefix` -/
def consumePrefix (s start : PerlStr) : Option PerlStr :=
  if start.isPrefixOf s then some (s.drop start.length) else none

/-- `GetDefaultHost` -/
def getDefaultHost (protoPkg : PerlStr) : PerlStr :=
  let sub := (consumePrefix protoPkg (ps "google.cloud.")).or
    (consumePrefix protoPkg (ps "google."))
  sub.elim (ps "localhost:443") fun sub =>
    if 46 ∈ sub then sub.takeWhile (· ≠ 46) ++ ps ".googleapis.com:443" else ps "localhost:443"

/-! ### Messages in comments and documentation -/

/-- `FieldTypeToString` -/
def fieldTypeToString : ℤ → PerlStr
  | 1 => ps "Double"
  | 2 => ps "Float"
  | 3 => ps "Int64"
  | 4 => ps "UInt64"
  | 5 => ps "Int32"
  | 6 => ps "Fixed64"
  | 7 => ps "Fixed32"
  | 8 => ps "Bool"
  | 9 => ps "String"
  | 10 => ps "Group"
  | 11 => ps "Message"
  | 12 => ps "Bytes"
  | 13 => ps "UInt32"
  | 14 => ps "Enum"
  | 15 => ps "SFixed32"
  | 16 => ps "SFixed64"
  | 17 => ps "SInt32"
  | 18 => ps "SInt64"
  | _ => ps "Unknown"

def fieldComment (f : FieldDescriptor) : PerlStr :=
  ps "    # Field: " ++ f.name ++ ps " Type: " ++ decimalText f.type ++ ps " (" ++ f.typeName ++
    ps ")\n"

def fieldItem (f : FieldDescriptor) : PerlStr :=
  ps "=item * B<" ++ f.name ++ ps ">\n\n" ++ ps "Type: " ++ fieldTypeToString f.type ++
    (if f.typeName ≠ [] then ps " (" ++ f.typeName ++ ps ")" else []) ++ ps "\n\n"

def enumText (msgName : PerlStr) (e : EnumDescriptor) : PerlStr :=
  ps "# Enum: " ++ msgName ++ ps "::" ++ e.name ++ ps "\n" ++
    (e.value.flatMap fun ev =>
      ps "our $" ++ msgName ++ ps "_" ++ ev.name ++ ps " = " ++ decimalText ev.number ++
        ps ";\n") ++
    ps "\n=pod\n\n=head2 Enum: " ++ msgName ++ ps "::" ++ e.name ++
    ps "\n\nValues:\n\n=over 4\n\n" ++
    (e.value.flatMap fun ev =>
      ps "=item * C<" ++ ev.name ++ ps "> => " ++ decimalText ev.number ++ ps "\n\n") ++
    ps "=back\n\n=cut\n\n"

def messageText (packageName : PerlStr) (m : MessageDescriptor) : PerlStr :=
  let perlClass := packageName ++ ps "::" ++ m.name
  ps "# === Message: " ++ perlClass ++ ps " ===\n" ++
    ps "    # Fields for " ++ m.name ++ ps "\n" ++ m.field.flatMap fieldComment ++ ps "\n" ++
    ps "=pod\n\n=head1 NAME\n\n" ++ perlClass ++
    ps " - Compiled Protocol Buffers message class\n\n" ++
    ps "=head1 SYNOPSIS\n\n    use " ++ packageName ++ ps ";\n\n" ++
    ps "    my $msg = " ++ perlClass ++ ps "->new(\n" ++
    (m.field.head?.elim [] fun f => ps "        " ++ f.name ++ ps " => $value,\n") ++
    ps "    );\n\n=head1 FIELDS\n\n=over 4\n\n" ++ m.field.flatMap fieldItem ++
    ps "=back\n\n=cut\n\n" ++ m.enumType.flatMap (enumText m.name)

/-! ### Services -/

/-- What a client method says: its name, the classes of its request and its response, and what
is called. -/
structure MethodStub where
  snakeMethod : PerlStr
  reqClass : PerlStr
  resClass : PerlStr
  service : PerlStr
  method : PerlStr

def methodStub (files : List FileDescriptor) (protoPkg srvName : PerlStr) (m : MethodDescriptor) :
    MethodStub where
  snakeMethod := toSnakeCase m.name
  reqClass := resolvePerlClass files m.inputType
  resClass := resolvePerlClass files m.outputType
  service := protoPkg ++ ps "." ++ srvName
  method := m.name

def MethodStub.text (s : MethodStub) : PerlStr :=
  ps "sub " ++ s.snakeMethod ++ ps " \x7b\n    my ($self, $args) = @_;\n" ++
    ps "    my $req = ref($args) eq 'HASH'\n        ? " ++ s.reqClass ++
    ps "->new($args)\n        : $args;\n    return $self->_grpc_client->call(\x7b\n" ++
    ps "        service        => '" ++ s.service ++ ps "',\n" ++
    ps "        method         => '" ++ s.method ++ ps "',\n" ++
    ps "        request        => $req,\n        response_class => '" ++ s.resClass ++
    ps "',\n    \x7d);\n\x7d\n\n"

def clientHead (packageName srvName host : PerlStr) : PerlStr :=
  let client := packageName ++ ps "::" ++ srvName ++ ps "Client"
  ps "# === Service Client: " ++ client ++ ps " ===\n" ++ ps "package " ++ client ++ ps ";\n\n" ++
    ps "=pod\n\n=head1 NAME\n\n" ++ client ++ ps " - Client stub representing the remote " ++
    srvName ++ ps " service\n\n=head1 DESCRIPTION\n\n" ++
    ps "This class acts as a local client stub for the remote gRPC service.\n" ++
    ps "It delegates call dispatching to an underlying L<Google::gRPC::Client>\n" ++
    ps "instance, ensuring type-safe request parsing and response mapping.\n\n" ++
    ps "=head1 CONFIGURATION AND ENVIRONMENT\n\n=head2 target\n\n" ++
    ps "The endpoint target address. Defaults to C<" ++ host ++ ps ">.\n\n" ++
    ps "=head2 credentials\n\nThe authentication credentials provider. " ++
    ps "Defaults to application default credentials via L<Google::Auth>.\n\n=cut\n\n" ++
    ps "use Moo;\nuse Google::Auth;\nuse Google::gRPC::Client;\n\n" ++
    ps "has credentials => ( is => 'ro', default => sub \x7b Google::Auth->default() \x7d );\n" ++
    ps "has target      => ( is => 'ro', default => '" ++ host ++ ps "' );\n\n" ++
    ps "has _grpc_client => (\n    is => 'ro',\n    lazy => 1,\n    builder => sub \x7b\n" ++
    ps "        my $self = shift;\n        return Google::gRPC::Client->new(\n" ++
    ps "            target     => $self->target,\n" ++
    ps "            auth_token => $self->credentials->get_token(),\n        );\n    \x7d\n);\n\n"

def serviceText (files : List FileDescriptor) (packageName protoPkg : PerlStr)
    (srv : ServiceDescriptor) : PerlStr :=
  clientHead packageName srv.name (getDefaultHost protoPkg) ++
    (srv.method.map (methodStub files protoPkg srv.name)).flatMap MethodStub.text

/-! ### `GenerateModule` and `Generate` -/

/-- The module up to the heredoc. -/
def moduleHead (fileToPackage : List (PerlStr × PerlStr)) (packageName : PerlStr)
    (dependency : List PerlStr) : PerlStr :=
  ps "package " ++ packageName ++ ps ";\n\nuse strict;\nuse warnings;\n\n" ++
    ps "our $VERSION = '0.05';\n\n" ++
    ps "use Protobuf::Message;\nuse Protobuf::DescriptorPool;\n" ++
    ps "use Protobuf::Internal qw(:all);\nuse MIME::Base64;\n\nBEGIN \x7b\n" ++
    (dependency.flatMap fun dep => (Assoc.find fileToPackage dep).elim [] fun p =>
      ps "    eval \x7b require " ++ p ++ ps " \x7d;\n") ++
    ps "    my $descriptor_b64 = <<'EOF';\n"

/-- The module from the line after the heredoc on. -/
def moduleTail (files : List FileDescriptor) (packageName : PerlStr) (fd : FileProto) : PerlStr :=
  ps "    Protobuf::DescriptorPool->generated_pool->add_serialized_file(" ++
    ps "MIME::Base64::decode_base64($descriptor_b64));\n\x7d\n\n# Message definitions\n\n" ++
    fd.messageType.flatMap (messageText packageName) ++
    fd.service.flatMap (serviceText files packageName fd.package) ++ ps "1;\n"

/-- `GenerateModule` -/
def generateModule (files : List FileDescriptor) (packageName : PerlStr) (fd : FileProto) :
    PerlStr :=
  moduleHead (buildPackageMap files) packageName fd.dependency ++
    (descriptorText fd.serialized ++ ps "\nEOF\n" ++ moduleTail files packageName fd)

/-- Runs of slashes become one. -/
def squeezeSlashes : PerlStr → PerlStr
  | 47 :: 47 :: s => squeezeSlashes (47 :: s)
  | c :: s => c :: squeezeSlashes s
  | [] => []

/-- The path of a package, without `.pm`. -/
def packagePath (packageName : PerlStr) : PerlStr :=
  squeezeSlashes (packageName.map fun c => if c = 58 then 47 else c)

/-- `Generate`: the names and contents of the files in the response. -/
def generate (req : CodeGeneratorRequest) : List (PerlStr × PerlStr) :=
  req.fileToGenerate.flatMap fun name =>
    (req.protoFile.find? fun fd => fd.name = name).elim [] fun fd =>
      let packageName := (Assoc.find (buildPackageMap req.files) name).getD []
      [(packagePath packageName ++ ps ".pm", generateModule req.files packageName fd),
        (packagePath packageName ++ ps "/Types.pm", generateTypes packageName fd.toFileDescriptor)]

/-! ### The embedded descriptor -/

/-- Perl ends the heredoc of a module at the terminator written for it, and what it has read
decodes to the octets of the descriptor. -/
theorem embedded_survives (files : List FileDescriptor) (packageName : PerlStr) (fd : FileProto) :
    ∃ here, generateModule files packageName fd =
        moduleHead (buildPackageMap files) packageName fd.dependency ++ here ∧
      heredoc (ps "EOF") here =
        some (descriptorText fd.serialized ++ [10], moduleTail files packageName fd) ∧
      decodeBase64 (descriptorText fd.serialized ++ [10]) = fd.serialized.map UInt8.toNat :=
  ⟨_, rfl, heredoc_descriptor _ _, decodeBase64_descriptor _⟩

/-! ### The classes of requests and responses -/

/-- The class that `BuildTypeMap` registers for a message type. -/
def registeredClass (files : List FileDescriptor) (fd : FileDescriptor) (path : List PerlStr) :
    PerlStr :=
  (Assoc.find (buildPackageMap files) fd.name).getD [] ++ ps "::" ++ joinColons path

section Classes

variable {files : List FileDescriptor} {fd : FileDescriptor} {path : List PerlStr}

theorem registeredClass_eq (hdistinct : Distinct files) (hfd : fd ∈ files) (path : List PerlStr) :
    registeredClass files fd path = getPerlPackage fd ++ ps "::" ++ joinColons path := by
  rw [registeredClass, find_buildPackageMap hdistinct hfd, Option.getD_some]

/-- A message type is found under its name exactly if its file has a package. -/
theorem resolvePerlClass_iff (hdistinct : Distinct files) (hlegal : ∀ fd ∈ files, fd.Legal)
    (hfd : fd ∈ files) (hpath : path ∈ fd.paths) :
    resolvePerlClass files (ps "." ++ fd.fullName path) = registeredClass files fd path ↔
      fd.package ≠ [] := by
  rw [registeredClass_eq hdistinct hfd]
  constructor
  · intro hclass hp
    rw [resolvePerlClass_of_no_package hdistinct hlegal hfd hpath hp] at hclass
    have hlength := congrArg List.length hclass
    have hcolons : (ps "::").length = 2 := rfl
    rw [length_joinColons_ucfirst, List.length_append, List.length_append, hcolons] at hlength
    omega
  · intro hp
    rw [resolvePerlClass_of_package hdistinct hlegal hfd hpath hp,
      (hlegal fd hfd).getPerlPackage_eq]

end Classes

/-- A method names the classes registered for its messages, and the full name of its service. -/
structure RefersTo (files : List FileDescriptor) (fd : FileProto) (srv : ServiceDescriptor)
    (m : MethodDescriptor) (input output : FileDescriptor × List PerlStr) : Prop where
  request : (methodStub files fd.package srv.name m).reqClass =
    registeredClass files input.1 input.2
  response : (methodStub files fd.package srv.name m).resClass =
    registeredClass files output.1 output.2
  service : (methodStub files fd.package srv.name m).service = fd.fullName [srv.name]

theorem infix_flatMap {α : Type} {f : α → PerlStr} {l : List α} {x : α} (h : x ∈ l) :
    f x <:+: l.flatMap f := by
  obtain ⟨s, t, rfl⟩ := List.append_of_mem h
  exact ⟨s.flatMap f, t.flatMap f, by simp⟩

/-- What a method names is what its module says. -/
theorem methodStub_emitted (files : List FileDescriptor) (packageName : PerlStr) {fd : FileProto}
    {srv : ServiceDescriptor} {m : MethodDescriptor} (hsrv : srv ∈ fd.service)
    (hm : m ∈ srv.method) :
    (methodStub files fd.package srv.name m).text <:+: generateModule files packageName fd := by
  have hstub : (methodStub files fd.package srv.name m).text <:+:
      serviceText files packageName fd.package srv :=
    (infix_flatMap (List.mem_map_of_mem hm)).trans (List.suffix_append _ _).isInfix
  have hservice := hstub.trans (infix_flatMap hsrv)
  have htail : (fd.service.flatMap (serviceText files packageName fd.package)) <:+:
      moduleTail files packageName fd := ⟨_, _, rfl⟩
  exact (hservice.trans htail).trans
    ((List.suffix_append _ _).trans (List.suffix_append _ _)).isInfix

theorem service_eq_fullName_iff (files : List FileDescriptor) (fd : FileProto)
    (srv : ServiceDescriptor) (m : MethodDescriptor) :
    (methodStub files fd.package srv.name m).service = fd.fullName [srv.name] ↔
      fd.package ≠ [] := by
  have hname : fd.fullName [srv.name] = fd.scope ++ srv.name := by
    simp [FileDescriptor.fullName]
  rw [hname, FileDescriptor.scope]
  show fd.package ++ ps "." ++ srv.name = _ ++ srv.name ↔ fd.package ≠ []
  rw [List.append_cancel_right_eq]
  by_cases hp : fd.package = []
  · simp [hp, ps]
  · simp [hp]

/-- The methods of a request refer to what exists exactly where files have packages: that of the
service, and those of its messages. -/
theorem refersTo_iff {req : CodeGeneratorRequest} (hdistinct : Distinct req.files)
    (hlegal : ∀ fd ∈ req.files, fd.Legal) {fd : FileProto} {srv : ServiceDescriptor}
    {m : MethodDescriptor} {input output : FileDescriptor × List PerlStr}
    (hinput : input.1 ∈ req.files ∧ input.2 ∈ input.1.paths)
    (houtput : output.1 ∈ req.files ∧ output.2 ∈ output.1.paths)
    (hinputType : m.inputType = ps "." ++ input.1.fullName input.2)
    (houtputType : m.outputType = ps "." ++ output.1.fullName output.2) :
    RefersTo req.files fd srv m input output ↔
      fd.package ≠ [] ∧ input.1.package ≠ [] ∧ output.1.package ≠ [] := by
  have hreq : (methodStub req.files fd.package srv.name m).reqClass =
      resolvePerlClass req.files (ps "." ++ input.1.fullName input.2) :=
    congrArg (resolvePerlClass req.files) hinputType
  have hres : (methodStub req.files fd.package srv.name m).resClass =
      resolvePerlClass req.files (ps "." ++ output.1.fullName output.2) :=
    congrArg (resolvePerlClass req.files) houtputType
  have hrequest := resolvePerlClass_iff hdistinct hlegal hinput.1 hinput.2
  have hresponse := resolvePerlClass_iff hdistinct hlegal houtput.1 houtput.2
  have hservice := service_eq_fullName_iff req.files fd srv m
  constructor
  · rintro ⟨hin, hout, hsrv⟩
    exact ⟨hservice.mp hsrv, hrequest.mp (hreq ▸ hin), hresponse.mp (hres ▸ hout)⟩
  · rintro ⟨hsrv, hin, hout⟩
    exact ⟨hreq.trans (hrequest.mpr hin), hres.trans (hresponse.mpr hout), hservice.mpr hsrv⟩

/-- One message, and a service that takes it and gives it back. -/
def echoFile (package typeName : String) : FileProto where
  name := ps "echo.proto"
  package := ps package
  messageType := [{ name := ps "Word" }]
  service := [⟨ps "Echo", [⟨ps "Say", ps typeName, ps typeName⟩]⟩]

def echoRequest (package typeName : String) : CodeGeneratorRequest where
  fileToGenerate := [ps "echo.proto"]
  protoFile := [echoFile package typeName]

theorem refersTo_echo :
    RefersTo (echoRequest "a.b" ".a.b.Word").files (echoFile "a.b" ".a.b.Word")
      ⟨ps "Echo", [⟨ps "Say", ps ".a.b.Word", ps ".a.b.Word"⟩]⟩
      ⟨ps "Say", ps ".a.b.Word", ps ".a.b.Word"⟩
      ((echoFile "a.b" ".a.b.Word").toFileDescriptor, [ps "Word"])
      ((echoFile "a.b" ".a.b.Word").toFileDescriptor, [ps "Word"]) := by
  have hlegal : ∀ fd ∈ (echoRequest "a.b" ".a.b.Word").files, fd.Legal := by
    intro fd hfd
    obtain rfl := List.mem_singleton.mp hfd
    exact ⟨by decide, by decide, by decide, by decide⟩
  have hword : (echoFile "a.b" ".a.b.Word").toFileDescriptor ∈
        (echoRequest "a.b" ".a.b.Word").files ∧
      [ps "Word"] ∈ (echoFile "a.b" ".a.b.Word").paths := ⟨List.mem_singleton.mpr rfl, by decide⟩
  exact (refersTo_iff ⟨by decide, by decide⟩ hlegal hword hword (by decide) (by decide)).mpr
    ⟨by decide, by decide, by decide⟩

/-- A file without a package: the type is not found under its name. -/
theorem not_refersTo_echo :
    ¬ RefersTo (echoRequest "" ".Word").files (echoFile "" ".Word")
      ⟨ps "Echo", [⟨ps "Say", ps ".Word", ps ".Word"⟩]⟩ ⟨ps "Say", ps ".Word", ps ".Word"⟩
      ((echoFile "" ".Word").toFileDescriptor, [ps "Word"])
      ((echoFile "" ".Word").toFileDescriptor, [ps "Word"]) := by
  intro h
  have hrequest := h.request
  revert hrequest
  decide

end GooglePerl.Protoc
