import GooglePerl.Lib.Drain
import GooglePerl.Protobuf.Message
import GooglePerl.Protobuf.Observe
import GooglePerl.Protobuf.RoundTrip
import GooglePerl.Xs.Scalar

/-!
`bin/conformance_perl.pl`, the program that the conformance suite runs as a sub-process, with the
pure-Perl engine.

A request is a length in four octets and a `ConformanceRequest` of that length; the answer is a
`ConformanceResponse` framed in the same way. Requests are answered one after the other, and no
request changes how another one is answered: what the suite reads from the program is one response
for each request, in the order of the requests (`run_eq`). A response has one member of its oneof
`result` set and nothing else (`respond_spec`).
-/

namespace GooglePerl.Protobuf.Conformance

open GooglePerl.Lib

/-! ### The messages of `conformance.proto` -/

/-- `conformance.WireFormat` -/
def wireFormat : List (PerlStr × ℤ) :=
  [(ps "UNSPECIFIED", 0), (ps "PROTOBUF", 1), (ps "JSON", 2), (ps "JSPB", 3), (ps "TEXT_FORMAT", 4)]

/-- `conformance.TestCategory` -/
def testCategory : List (PerlStr × ℤ) :=
  [(ps "UNSPECIFIED_TEST", 0), (ps "BINARY_TEST", 1), (ps "JSON_TEST", 2),
    (ps "JSON_IGNORE_UNKNOWN_PARSING_TEST", 3), (ps "JSPB_TEST", 4), (ps "TEXT_FORMAT_TEST", 5)]

/-- The members of the oneof `payload`. -/
def payloadFields : List FieldDef :=
  [⟨ps "protobuf_payload", 1, .bytes, .optional⟩, ⟨ps "json_payload", 2, .string, .optional⟩,
    ⟨ps "jspb_payload", 7, .string, .optional⟩, ⟨ps "text_payload", 8, .string, .optional⟩]

/-- `conformance.ConformanceRequest` -/
def requestDef : MessageDef where
  fields := payloadFields ++
    [⟨ps "requested_output_format", 3, .enum (some wireFormat), .optional⟩,
      ⟨ps "message_type", 4, .string, .optional⟩,
      ⟨ps "test_category", 5, .enum (some testCategory), .optional⟩,
      ⟨ps "jspb_encoding_options", 6, .message "Conformance::JspbEncodingConfig", .optional⟩,
      ⟨ps "print_unknown_fields", 9, .bool, .optional⟩]
  oneofs := [⟨ps "payload", payloadFields⟩]

/-- The members of the oneof `result`. -/
def resultFields : List FieldDef :=
  [⟨ps "parse_error", 1, .string, .optional⟩, ⟨ps "serialize_error", 6, .string, .optional⟩,
    ⟨ps "timeout_error", 9, .string, .optional⟩, ⟨ps "runtime_error", 2, .string, .optional⟩,
    ⟨ps "protobuf_payload", 3, .bytes, .optional⟩, ⟨ps "json_payload", 4, .string, .optional⟩,
    ⟨ps "skipped", 5, .string, .optional⟩, ⟨ps "jspb_payload", 7, .string, .optional⟩,
    ⟨ps "text_payload", 8, .string, .optional⟩]

/-- `conformance.ConformanceResponse` -/
def responseDef : MessageDef where
  fields := resultFields
  oneofs := [⟨ps "result", resultFields⟩]

/-- The program: its descriptors, and the text of `$@` after a call has died, in which a croak's
own text is followed by where it was called. -/
structure Testee where
  schema : Pool
  errorText : Die → PerlStr
  request : schema.descriptor "Conformance::ConformanceRequest" = requestDef
  response : schema.descriptor "Conformance::ConformanceResponse" = responseDef
  /-- the type `Str` lets every string pass as it is -/
  check : ∀ f ∈ resultFields, ∀ s, schema.checkField f (.str s) = some (.str s)
  croak : ∀ text, text <+: errorText (.croak text)

/-! ### One request -/

/-- `==` of a field's value and a number -/
def numEq (v : Val) (n : ℤ) : Bool :=
  match v with
  | .undef => n == 0
  | .iv m | .big m => m == n
  | .str s => decide (Xs.roundTo .double (Xs.textValue s) = .fin n)
  -- no field of a request is a floating-point number or a container
  | .nv _ | .arr _ _ | .hash _ | .msg _ _ _ => false

/-- `$@ =~ /not yet implemented/i` -/
def notImplemented (text : PerlStr) : Bool :=
  decide (ps "not yet implemented" <:+: text.map fun c => if 65 ≤ c ∧ c ≤ 90 then c + 32 else c)

/-- `to_json` of the pure-Perl engine -/
def toJson (_ : Msg) : Except Die PerlStr :=
  .error (.croak (ps "PurePerl JSON encoder not yet implemented"))

/-- `from_json` of the pure-Perl engine -/
def fromJson (_ : String) (_ : Val) : Except Die Msg :=
  .error (.croak (ps "PurePerl JSON decoder not yet implemented"))

/-- What a response is to hold: a member of the oneof `result`, and its text. -/
structure Result where
  member : PerlStr
  text : PerlStr
  deriving DecidableEq

/-- The Perl class of a message type. -/
def classOf (messageType : PerlStr) : Option String :=
  if messageType = ps "protobuf_test_messages.proto3.TestAllTypesProto3" then
    some "Protobuf_test_messages::Proto3::TestMessagesProto3::TestAllTypesProto3"
  else if messageType = ps "protobuf_test_messages.proto2.TestAllTypesProto2" then
    some "Protobuf_test_messages::Proto2::TestMessagesProto2::TestAllTypesProto2"
  else none

namespace Testee

variable (T : Testee)

/-- `$request->$name` -/
def value (r : Msg) (name : PerlStr) : Val := (get T.schema r name).1

/-- Decoding the payload, or the result when there is no message to go on with. -/
def decode (r : Msg) (cls : String) (format : PerlStr) : Except Result Msg :=
  if format = ps "protobuf_payload" then
    ((T.value r (ps "protobuf_payload")).stringify.bind (parse T.schema cls)).mapError fun e =>
      ⟨ps "parse_error", ps "Protobuf parse error: " ++ T.errorText e⟩
  else if format = ps "json_payload" then
    (fromJson cls (T.value r (ps "json_payload"))).mapError fun e =>
      if notImplemented (T.errorText e) then
        ⟨ps "skipped", ps "JSON decoding not implemented in this engine"⟩
      else ⟨ps "parse_error", ps "JSON parse error: " ++ T.errorText e⟩
  else if format = ps "text_payload" then
    .error ⟨ps "skipped", ps "Text format decoding not supported"⟩
  else .error ⟨ps "runtime_error", ps "Unsupported input payload format: " ++ format⟩

/-- The message in the output format that is asked for. -/
def encode (r m : Msg) : Except Die Result :=
  let format := T.value r (ps "requested_output_format")
  if numEq format 1 then
    match serialize T.schema m with
    | .ok bytes => .ok ⟨ps "protobuf_payload", bytes⟩
    | .error e => .ok ⟨ps "serialize_error", ps "Protobuf serialize error: " ++ T.errorText e⟩
  else if numEq format 2 then
    match toJson m with
    | .ok json => .ok ⟨ps "json_payload", json⟩
    | .error e =>
        if notImplemented (T.errorText e) then
          .ok ⟨ps "skipped", ps "JSON encoding not implemented in this engine"⟩
        else .ok ⟨ps "serialize_error", ps "JSON serialize error: " ++ T.errorText e⟩
  else if numEq format 4 then
    match toText T.schema m with
    | .ok text => .ok ⟨ps "text_payload", text⟩
    | .error e => .ok ⟨ps "serialize_error", ps "Text format serialize error: " ++ T.errorText e⟩
  else format.stringify.map fun text =>
    ⟨ps "skipped", ps "Unsupported requested output format: " ++ text⟩

/-- `Conformance::ConformanceResponse->new($member => $text)` -/
def newResponse (res : Result) : Except Die Msg :=
  (fromPerl T.schema [(res.member, .str res.text)]
    (.create "Conformance::ConformanceResponse")).mapError Prod.fst

/-- `handle_request`, up to the response that it makes. -/
def result (r : Msg) : Except Die Result := do
  let messageType ← (T.value r (ps "message_type")).stringify
  let payload ← whichOneof T.schema r (ps "payload")
  match classOf messageType with
  | none => return ⟨ps "skipped", ps "Unsupported message type: " ++ messageType⟩
  | some cls =>
      match T.decode r cls (payload.getD []) with
      | .error res => return res
      | .ok m => T.encode r m

/-- `handle_request` -/
def handleRequest (r : Msg) : Except Die Msg := (T.result r).bind T.newResponse

/-- `send_runtime_error`, up to the frame. -/
def runtimeError (text : PerlStr) : Except Die PerlStr :=
  (T.newResponse ⟨ps "runtime_error", text⟩).bind (serialize T.schema)

/-- The octets of the response to a request. Outside its three `eval` blocks the program dies of
an error. -/
def respond (payload : PerlStr) : Except Die PerlStr :=
  match parse T.schema "Conformance::ConformanceRequest" payload with
  | .error e => T.runtimeError (ps "Failed to parse ConformanceRequest: " ++ T.errorText e)
  | .ok r => do
      let response ← T.handleRequest r
      match serialize T.schema response with
      | .error e => T.runtimeError (ps "Failed to serialize ConformanceResponse: " ++ T.errorText e)
      | .ok bytes => return bytes

end Testee

/-! ### The loop -/

/-- A length prefix, `pack('V', ...)`, and what it counts. -/
def frame (bytes : PerlStr) : PerlStr := leBytes 4 bytes.length ++ bytes

/-- How the program ends. -/
inductive Exit where
  | eof
  | died (e : Die)
  deriving DecidableEq

/-- `"Failed to read 4-byte length prefix (read $bytes_read bytes)"` -/
def shortPrefix (read : ℕ) : Die :=
  .croak (ps "Failed to read 4-byte length prefix (read " ++ natText read ++ ps " bytes)")

/-- `"Failed to read payload of length $len (read $bytes_read bytes)"` -/
def shortPayload (len read : ℕ) : Die :=
  .croak (ps "Failed to read payload of length " ++ natText len ++ ps " (read " ++ natText read ++
    ps " bytes)")

/-- At most `n` turns of the main loop, over what is left of standard input: what they print, and
how they end. `read` waits until it has all that it is to read, or the input is at its end. -/
def Testee.loop (T : Testee) : ℕ → PerlStr → PerlStr × Exit
  | 0, _ => ([], .eof)
  | n + 1, stdin =>
      let lenBytes := stdin.take 4
      if lenBytes.length = 0 then ([], .eof)
      else if lenBytes.length ≠ 4 then ([], .died (shortPrefix lenBytes.length))
      else
        let len := leValue lenBytes
        let payload := (stdin.drop 4).take len
        if payload.length ≠ len then ([], .died (shortPayload len payload.length))
        else
          match T.respond payload with
          | .error e => ([], .died e)
          | .ok bytes =>
              let later := T.loop n ((stdin.drop 4).drop len)
              (frame bytes ++ later.1, later.2)

/-- The program on a standard input. Each turn but the last one takes a prefix off it. -/
def Testee.run (T : Testee) (stdin : PerlStr) : PerlStr × Exit := T.loop (stdin.length + 1) stdin

/-! ### What a request holds

The values of a request that the program looks at have a text: the parser stores undef, numbers
and strings in their fields, whatever the wire types on the way. -/

/-- The types whose stored values have a text. -/
def HasText (t : FieldType) : Prop := t ≠ .double ∧ t ≠ .float ∧ ∀ c, t ≠ .message c

theorem exists_stringify {S : Pool} {t : FieldType} (ht : HasText t) {data rest : PerlStr} {wire : ℕ}
    {v : Val} (h : Decodes (parse S) t data wire v rest) : ∃ s, v.stringify = .ok s := by
  obtain ⟨hdouble, hfloat, hmessage⟩ := ht
  cases h with
  | varint hread =>
      cases t <;> simp only [varintValue] <;> first | exact ⟨_, rfl⟩ | (split <;> exact ⟨_, rfl⟩)
  | fixed64 hlen =>
      cases t <;> simp only [fixed64Value] <;>
        first | exact absurd rfl hdouble | exact ⟨_, rfl⟩ | (split <;> exact ⟨_, rfl⟩)
  | message hc => exact absurd hc (hmessage _)
  | text _ hread hle => exact ⟨_, rfl⟩
  | fixed32 hlen =>
      cases t <;> simp only [fixed32Value] <;> first | exact absurd rfl hfloat | exact ⟨_, rfl⟩
  | other => exact ⟨_, rfl⟩

/-- A stored value of a singular field has a text. -/
structure Readable (S : Pool) (m : Msg) : Prop where
  stored : ∀ f ∈ (S.descriptor m.cls).fields, f.shape S = .singular → HasText f.type →
    ∀ v, Assoc.find m.fields f.name = some v → ∃ s, v.stringify = .ok s

theorem Readable.step {S : Pool} {m m' : Msg} {data rest : PerlStr} (h : Readable S m)
    (hstep : parseStep S (parse S) data m = .ok (m', rest)) : Readable S m' := by
  obtain ⟨tagWire, afterTag, -, ⟨-, -, rfl⟩ | ⟨g, w, hfind, hdec, hstore⟩⟩ :=
    parseStep_cases hstep
  · exact ⟨h.stored⟩
  obtain ⟨x, hx, rfl⟩ := map_eq_ok.mp hstore
  obtain ⟨hg, -⟩ := MessageDef.findFieldByNumber_eq_some.mp hfind
  refine ⟨fun f hf hshape htext v hv => ?_⟩
  rw [Msg.put_fields, Assoc.find_store] at hv
  split at hv
  · rename_i hname
    obtain rfl := MessageDef.eq_of_name_eq hf hg hname
    obtain rfl := Option.some.inj hv
    simp only [storedValue, hshape, Except.ok.injEq] at hx
    subst hx
    exact exists_stringify htext (decodeField_eq_ok.mp hdec)
  · exact h.stored f hf hshape htext v hv

theorem readable_of_parse {S : Pool} {cls : String} {data : PerlStr} {m : Msg}
    (h : parse S cls data = .ok m) : m.cls = cls ∧ Readable S m := by
  have hrun := parse_eq_ok.mp h
  refine ⟨parseInto_cls hrun, ?_⟩
  refine parseInto_run (motive := fun _ m m' => Readable S m → Readable S m')
    (fun _ h => h) (fun data m m₁ rest m' hstep _ ih hm => ih (hm.step hstep)) hrun ⟨?_⟩
  rintro f hf hshape htext v ⟨⟩

/-! ### The response -/

/-- The response that holds a result and nothing else. -/
def Result.message (res : Result) : Msg :=
  ⟨"Conformance::ConformanceResponse", [(res.member, .str res.text)], none⟩

/-- Texts of any kind, and no unknown fields that would not be read again. -/
def responseLegal : Legality where
  int _ _ := False
  text _ _ := True
  message d fs u := missingRequired d fs = [] ∧ UnknownFields d (u.getD [])

/-- The members of `result` are fields for a text. -/
theorem resultField_text {f : FieldDef} (hf : f ∈ resultFields) :
    f.label = .optional ∧ (f.type = .string ∨ f.type = .bytes) := by
  have hall : ∀ f ∈ resultFields, f.label = .optional ∧ (f.type = .string ∨ f.type = .bytes) := by
    decide
  exact hall f hf

theorem shape_of_optional {S : Pool} {f : FieldDef} (h : f.label = .optional) :
    f.shape S = .singular := by
  obtain ⟨name, number, type, label⟩ := f
  obtain rfl : label = .optional := h
  rfl

section

variable {T : Testee}

theorem findFieldByName_result {res : Result} (h : res.member ∈ resultFields.map FieldDef.name) :
    ∃ f ∈ resultFields, f.name = res.member ∧
      (T.schema.descriptor "Conformance::ConformanceResponse").findFieldByName res.member =
        some f := by
  obtain ⟨f, hf, hname⟩ := List.mem_map.mp h
  refine ⟨f, hf, hname, MessageDef.findFieldByName_eq_some.mpr ⟨?_, hname⟩⟩
  rw [T.response]
  exact hf

theorem newResponse_eq {res : Result} (h : res.member ∈ resultFields.map FieldDef.name) :
    T.newResponse res = .ok res.message := by
  obtain ⟨f, hf, hname, hfind⟩ := findFieldByName_result (T := T) h
  obtain ⟨hlabel, htype⟩ := resultField_text hf
  have haccessor : accessor T.schema (.create "Conformance::ConformanceResponse") f
      (.str res.text) = .ok res.message := by
    rw [accessor, T.check f hf]
    simp only [set, Msg.create_cls, hname, hfind]
    rcases htype with htype | htype <;>
      simp [resolveEnum, cloneForSet, shape_of_optional hlabel, htype, nativeIfFits, Msg.put,
        Assoc.store, Result.message, Msg.create]
  simp only [Testee.newResponse, fromPerl, Msg.create_cls, hfind, haccessor, Except.mapError]

theorem legal_message {res : Result} (h : res.member ∈ resultFields.map FieldDef.name) :
    res.message.Legal responseLegal T.schema := by
  have hdef : T.schema.descriptor res.message.cls = responseDef := T.response
  refine .msg (List.nodup_singleton _) ?_ ?_ ⟨?_, .nil⟩
  · intro name hmem
    obtain rfl : name = res.member := List.mem_singleton.mp hmem
    obtain ⟨f, -, -, hfind⟩ := findFieldByName_result (T := T) h
    exact ne_of_eq_of_ne hfind (Option.some_ne_none f)
  · intro g hg v hv
    rw [hdef] at hg
    obtain ⟨hlabel, htype⟩ := resultField_text hg
    rw [shape_of_optional hlabel]
    rw [Result.message, Assoc.find_cons] at hv
    split at hv
    · obtain rfl := Option.some.inj hv
      exact .text htype trivial
    · cases hv
  · rw [hdef, missingRequired, List.map_eq_nil_iff, List.filter_eq_nil_iff]
    intro g hg
    simp [(resultField_text hg).1]

/-- The octets of a response are what `serialize` makes of it, and read back they are the response
again. -/
theorem serialize_message {res : Result} (h : res.member ∈ resultFields.map FieldDef.name) :
    ∃ bytes, serialize T.schema res.message = .ok bytes ∧
      (Fits bytes → ∃ m, parse T.schema "Conformance::ConformanceResponse" bytes = .ok m ∧
        m.content = res.message.content) :=
  (legal_message h).reread (fun _ _ hint => absurd hint not_false) fun _ _ _ hm => hm

/-! ### Every request has a result -/

/-- A request as the parser leaves it. -/
structure ParsedRequest (T : Testee) (r : Msg) : Prop where
  cls : r.cls = "Conformance::ConformanceRequest"
  readable : Readable T.schema r

theorem parsedRequest {payload : PerlStr} {r : Msg}
    (h : parse T.schema "Conformance::ConformanceRequest" payload = .ok r) : ParsedRequest T r :=
  ⟨(readable_of_parse h).1, (readable_of_parse h).2⟩

theorem ParsedRequest.descriptor {r : Msg} (hr : ParsedRequest T r) :
    T.schema.descriptor r.cls = requestDef := by
  rw [hr.cls, T.request]

theorem ParsedRequest.exists_text {r : Msg} (hr : ParsedRequest T r) {f : FieldDef}
    (hf : f ∈ requestDef.fields) (ht : HasText f.type) :
    ∃ s, (T.value r f.name).stringify = .ok s := by
  have hlabel : ∀ f ∈ requestDef.fields, f.label = .optional := by decide
  have hshape : f.shape T.schema = .singular := shape_of_optional (hlabel f hf)
  rw [Testee.value, get]
  cases hv : Assoc.find r.fields f.name with
  | some v => exact hr.readable.stored f (by rwa [hr.descriptor]) hshape ht v hv
  | none =>
      rw [hr.descriptor, MessageDef.findFieldByName_eq_some.mpr ⟨hf, rfl⟩]
      simp only [hshape]
      obtain ⟨hdouble, hfloat, -⟩ := ht
      cases htype : f.type <;> first | exact absurd htype hdouble | exact absurd htype hfloat |
        exact ⟨_, rfl⟩

/-- `$request->payload`: the first member that is set. -/
theorem ParsedRequest.whichOneof_eq {r : Msg} (hr : ParsedRequest T r) :
    whichOneof T.schema r (ps "payload") =
      .ok ((payloadFields.find? fun f => has r f.name).map FieldDef.name) := by
  rw [whichOneof, hr.descriptor]
  rfl

/-- The engine's own words are found in `$@`, whatever comes after them. -/
theorem notImplemented_errorText {text : PerlStr} (h : notImplemented text = true) :
    notImplemented (T.errorText (.croak text)) = true := by
  unfold notImplemented at h ⊢
  exact decide_eq_true ((of_decide_eq_true h).trans ((T.croak text).map _).isInfix)

/-- JSON is left to the other engine. -/
theorem decode_json (r : Msg) (cls : String) : T.decode r cls (ps "json_payload") =
    .error ⟨ps "skipped", ps "JSON decoding not implemented in this engine"⟩ := by
  have hskip : notImplemented (T.errorText (.croak
      (ps "PurePerl JSON decoder not yet implemented"))) = true :=
    notImplemented_errorText (by decide)
  rw [Testee.decode, if_neg (by decide), if_pos rfl, fromJson, Except.mapError, if_pos hskip]

theorem member_of_decode {r : Msg} {cls : String} {format : PerlStr} {res : Result}
    (h : T.decode r cls format = .error res) : res.member ∈ resultFields.map FieldDef.name := by
  unfold Testee.decode at h
  split at h
  · cases hparse : ((T.value r (ps "protobuf_payload")).stringify.bind (parse T.schema cls)) with
    | ok m =>
        rw [hparse] at h
        cases h
    | error e =>
        rw [hparse] at h
        obtain rfl := Except.error.inj h
        exact (by decide : ps "parse_error" ∈ resultFields.map FieldDef.name)
  rename_i hprotobuf
  split at h
  · rename_i hjson
    subst hjson
    have hdecode := decode_json (T := T) r cls
    rw [Testee.decode, if_neg hprotobuf, if_pos rfl, h] at hdecode
    obtain rfl := Except.error.inj hdecode
    exact (by decide : ps "skipped" ∈ resultFields.map FieldDef.name)
  split at h
  · obtain rfl := Except.error.inj h
    exact (by decide : ps "skipped" ∈ resultFields.map FieldDef.name)
  · obtain rfl := Except.error.inj h
    exact (by decide : ps "runtime_error" ∈ resultFields.map FieldDef.name)

theorem ParsedRequest.exists_encode {r : Msg} (hr : ParsedRequest T r) (m : Msg) :
    ∃ res, T.encode r m = .ok res ∧ res.member ∈ resultFields.map FieldDef.name := by
  have hserialize : ps "serialize_error" ∈ resultFields.map FieldDef.name := by decide
  have hskipped : ps "skipped" ∈ resultFields.map FieldDef.name := by decide
  unfold Testee.encode
  dsimp only
  split
  · split
    · exact ⟨_, rfl, (by decide : ps "protobuf_payload" ∈ resultFields.map FieldDef.name)⟩
    · exact ⟨_, rfl, hserialize⟩
  split
  · simp only [toJson]
    split
    · exact ⟨_, rfl, hskipped⟩
    · exact ⟨_, rfl, hserialize⟩
  split
  · split
    · exact ⟨_, rfl, (by decide : ps "text_payload" ∈ resultFields.map FieldDef.name)⟩
    · exact ⟨_, rfl, hserialize⟩
  · obtain ⟨s, hs⟩ := hr.exists_text
      (f := ⟨ps "requested_output_format", 3, .enum (some wireFormat), .optional⟩) (by decide)
      ⟨by decide, by decide, by rintro c ⟨⟩⟩
    simp only [hs]
    exact ⟨_, rfl, hskipped⟩

theorem ParsedRequest.exists_result {r : Msg} (hr : ParsedRequest T r) :
    ∃ res, T.result r = .ok res ∧ res.member ∈ resultFields.map FieldDef.name := by
  obtain ⟨s, hs⟩ := hr.exists_text (f := ⟨ps "message_type", 4, .string, .optional⟩) (by decide)
    ⟨by decide, by decide, by rintro c ⟨⟩⟩
  simp only [Testee.result, hs, hr.whichOneof_eq, ok_bind]
  cases classOf s with
  | none => exact ⟨_, rfl, (by decide : ps "skipped" ∈ resultFields.map FieldDef.name)⟩
  | some cls =>
      dsimp only
      cases hdecode : T.decode r cls _ with
      | error res => exact ⟨res, rfl, member_of_decode hdecode⟩
      | ok m => exact hr.exists_encode m

end

/-! ### What the suite is told -/

/-- The request brings a message of the class in wire format, and wants it back in the format of
the number. -/
structure Testee.Asks (T : Testee) (payload : PerlStr) (cls : String) (data : PerlStr) (format : ℤ) :
    Prop where
  exists_request : ∃ r messageType, parse T.schema "Conformance::ConformanceRequest" payload = .ok r ∧
    (T.value r (ps "message_type")).stringify = .ok messageType ∧ classOf messageType = some cls ∧
    has r (ps "protobuf_payload") = true ∧
    (T.value r (ps "protobuf_payload")).stringify = .ok data ∧
    (T.value r (ps "requested_output_format")).IsNum format

/-- A result that tells the suite what came of its request. -/
structure Testee.Tells (T : Testee) (payload : PerlStr) (res : Result) : Prop where
  member : res.member ∈ resultFields.map FieldDef.name
  garbled : ∀ e, parse T.schema "Conformance::ConformanceRequest" payload = .error e →
    res.member = ps "runtime_error"
  unparsed : ∀ {cls data n e}, T.Asks payload cls data n → parse T.schema cls data = .error e →
    res.member = ps "parse_error"
  unserialized : ∀ {cls data m e}, T.Asks payload cls data 1 → parse T.schema cls data = .ok m →
    serialize T.schema m = .error e → res.member = ps "serialize_error"
  /-- what the suite reads out of the response says what its own message said -/
  wire : ∀ {cls data m}, T.Asks payload cls data 1 → parse T.schema cls data = .ok m →
    m.Legal wireLegal T.schema → res.member = ps "protobuf_payload" ∧
      (Fits res.text → ∃ m', parse T.schema cls res.text = .ok m' ∧ m'.content = m.content)
  json : ∀ {cls data m}, T.Asks payload cls data 2 → parse T.schema cls data = .ok m →
    res.member = ps "skipped"
  text : ∀ {cls data m text}, T.Asks payload cls data 4 → parse T.schema cls data = .ok m →
    toText T.schema m = .ok text → res = ⟨ps "text_payload", text⟩

section

variable {T : Testee}

theorem numEq_iff {v : Val} {format : ℤ} (h : v.IsNum format) (n : ℤ) :
    numEq v n = true ↔ format = n := by
  rcases h with rfl | rfl <;> exact beq_iff_eq

/-- A message in wire format is decoded, and then written in the format that is asked for. -/
theorem Testee.Asks.result_eq {payload : PerlStr} {cls : String} {data : PerlStr} {format : ℤ}
    (h : T.Asks payload cls data format) :
    ∃ r, parse T.schema "Conformance::ConformanceRequest" payload = .ok r ∧
      (∀ n, numEq (T.value r (ps "requested_output_format")) n = true ↔ format = n) ∧
      (∀ e, parse T.schema cls data = .error e → T.result r =
        .ok ⟨ps "parse_error", ps "Protobuf parse error: " ++ T.errorText e⟩) ∧
      ∀ m, parse T.schema cls data = .ok m → T.result r = T.encode r m := by
  obtain ⟨r, messageType, hparse, htype, hcls, hhas, hdata, hformat⟩ := h.exists_request
  have hmember : (payloadFields.find? fun f => has r f.name).map FieldDef.name =
      some (ps "protobuf_payload") := by
    have hfind : payloadFields.find? (fun f => has r f.name) =
        some ⟨ps "protobuf_payload", 1, .bytes, .optional⟩ := List.find?_cons_of_pos hhas
    rw [hfind]
    rfl
  have hresult : T.result r = match T.decode r cls (ps "protobuf_payload") with
      | .error res => .ok res
      | .ok m => T.encode r m := by
    simp only [Testee.result, htype, (parsedRequest hparse).whichOneof_eq, hmember, ok_bind, hcls,
      Option.getD_some]
    cases T.decode r cls (ps "protobuf_payload") <;> rfl
  have hdecode : T.decode r cls (ps "protobuf_payload") =
      (parse T.schema cls data).mapError fun e =>
        ⟨ps "parse_error", ps "Protobuf parse error: " ++ T.errorText e⟩ := by
    rw [Testee.decode, if_pos rfl, hdata]
    rfl
  refine ⟨r, hparse, numEq_iff hformat, fun e he => ?_, fun m hm => ?_⟩
  · rw [hresult, hdecode, he]
    rfl
  · rw [hresult, hdecode, hm]
    rfl

theorem tells_of_result {payload : PerlStr} {r : Msg} {res : Result}
    (hparse : parse T.schema "Conformance::ConformanceRequest" payload = .ok r)
    (hres : T.result r = .ok res) : T.Tells payload res := by
  have hsame : ∀ {r' : Msg}, parse T.schema "Conformance::ConformanceRequest" payload = .ok r' →
      T.result r' = .ok res := by
    intro r' hr'
    obtain rfl := Except.ok.inj (hparse.symm.trans hr')
    exact hres
  have hencode : ∀ {cls data format m}, T.Asks payload cls data format →
      parse T.schema cls data = .ok m → ∃ r',
        (∀ n, numEq (T.value r' (ps "requested_output_format")) n = true ↔ format = n) ∧
        T.encode r' m = .ok res := by
    intro cls data format m hasks hm
    obtain ⟨r', hr', hformat, -, hok⟩ := hasks.result_eq
    exact ⟨r', hformat, (hok m hm).symm.trans (hsame hr')⟩
  refine ⟨?_, ?_, ?_, ?_, ?_, ?_, ?_⟩
  · obtain ⟨res', hres', hmember⟩ := (parsedRequest hparse).exists_result
    obtain rfl := Except.ok.inj (hres.symm.trans hres')
    exact hmember
  · intro e he
    rw [hparse] at he
    cases he
  · intro cls data n e hasks he
    obtain ⟨r', hr', -, herror, -⟩ := hasks.result_eq
    obtain rfl := Except.ok.inj ((herror e he).symm.trans (hsame hr'))
    rfl
  · intro cls data m e hasks hm he
    obtain ⟨r', hformat, hencode⟩ := hencode hasks hm
    rw [Testee.encode, if_pos ((hformat 1).mpr rfl), he] at hencode
    obtain rfl := Except.ok.inj hencode
    rfl
  · intro cls data m hasks hm hlegal
    obtain ⟨r', hformat, hencode⟩ := hencode hasks hm
    obtain ⟨bytes, hbytes, hreread⟩ := hlegal.reread wireLegal_rereads fun _ _ _ h => h
    rw [Testee.encode, if_pos ((hformat 1).mpr rfl), hbytes] at hencode
    obtain rfl := Except.ok.inj hencode
    rw [(readable_of_parse hm).1] at hreread
    exact ⟨rfl, hreread⟩
  · intro cls data m hasks hm
    obtain ⟨r', hformat, hencode⟩ := hencode hasks hm
    have hskip : notImplemented (T.errorText (.croak
        (ps "PurePerl JSON encoder not yet implemented"))) = true :=
      notImplemented_errorText (by decide)
    rw [Testee.encode, if_neg (mt (hformat 1).mp (by decide)), if_pos ((hformat 2).mpr rfl)] at hencode
    simp only [toJson, hskip, if_true] at hencode
    obtain rfl := Except.ok.inj hencode
    rfl
  · intro cls data m text hasks hm htext
    obtain ⟨r', hformat, hencode⟩ := hencode hasks hm
    rw [Testee.encode, if_neg (mt (hformat 1).mp (by decide)), if_neg (mt (hformat 2).mp (by decide)),
      if_pos ((hformat 4).mpr rfl), htext] at hencode
    exact (Except.ok.inj hencode).symm

/-- The octets of a response to a request. -/
structure Testee.Answers (T : Testee) (payload bytes : PerlStr) : Prop where
  exists_result : ∃ res, T.Tells payload res ∧
    (Fits bytes → ∃ m, parse T.schema "Conformance::ConformanceResponse" bytes = .ok m ∧
      m.content = res.message.content)

/-- Every request gets a response, with one member of `result` and nothing else. -/
theorem respond_spec (T : Testee) (payload : PerlStr) :
    ∃ bytes, T.respond payload = .ok bytes ∧ T.Answers payload bytes := by
  unfold Testee.respond
  cases hparse : parse T.schema "Conformance::ConformanceRequest" payload with
  | error e =>
      have hnever : ∀ {cls data n}, ¬ T.Asks payload cls data n := by
        intro cls data n hasks
        obtain ⟨r, hr, -⟩ := hasks.result_eq
        rw [hparse] at hr
        cases hr
      obtain ⟨res, hres, hmember⟩ : ∃ res : Result,
          res = ⟨ps "runtime_error", ps "Failed to parse ConformanceRequest: " ++ T.errorText e⟩ ∧
            res.member = ps "runtime_error" := ⟨_, rfl, rfl⟩
      have hresult : res.member ∈ resultFields.map FieldDef.name := by
        rw [hmember]
        decide
      obtain ⟨bytes, hbytes, hread⟩ := serialize_message (T := T) hresult
      refine ⟨bytes, ?_, ⟨res, ⟨hresult, fun _ _ => hmember, fun h => absurd h hnever,
        fun h => absurd h hnever, fun h => absurd h hnever, fun h => absurd h hnever,
        fun h => absurd h hnever⟩, hread⟩⟩
      simp only [Testee.runtimeError, ← hres, newResponse_eq hresult]
      exact hbytes
  | ok r =>
      obtain ⟨res, hres, hmember⟩ := (parsedRequest hparse).exists_result
      obtain ⟨bytes, hbytes, hread⟩ := serialize_message (T := T) hmember
      have hhandle : T.handleRequest r = .ok res.message := by
        rw [Testee.handleRequest, hres]
        exact newResponse_eq hmember
      refine ⟨bytes, ?_, ⟨res, tells_of_result hparse hres, hread⟩⟩
      simp only [hhandle, ok_bind, hbytes]
      rfl

end

/-! ### The whole dialogue -/

/-- The first frame of a stream, if it is whole. -/
def nextFrame (b : PerlStr) : Option (PerlStr × PerlStr) :=
  let lenBytes := b.take 4
  if lenBytes.length ≠ 4 then none
  else
    let payload := (b.drop 4).take (leValue lenBytes)
    if payload.length ≠ leValue lenBytes then none
    else some (payload, (b.drop 4).drop (leValue lenBytes))

theorem nextFrame_eq_some_iff {b p r : PerlStr} :
    nextFrame b = some (p, r) ↔
      ∃ lenBytes, lenBytes.length = 4 ∧ p.length = leValue lenBytes ∧ b = lenBytes ++ (p ++ r) := by
  unfold nextFrame
  constructor
  · intro h
    dsimp only at h
    split at h
    · cases h
    rename_i hlen
    split at h
    · cases h
    rename_i hpayload
    obtain ⟨rfl, rfl⟩ := Prod.mk.inj (Option.some.inj h)
    exact ⟨b.take 4, not_not.mp hlen, not_not.mp hpayload,
      by rw [List.take_append_drop, List.take_append_drop]⟩
  · rintro ⟨lenBytes, hlen, hpayload, rfl⟩
    simp only [List.take_left' hlen, List.drop_left' hlen, List.take_left' hpayload,
      List.drop_left' hpayload]
    simp [hlen, hpayload]

/-- How the suite cuts what it reads into responses, and the program into requests. -/
def frameReader : Extractor ℕ PerlStr where
  next := nextFrame
  next_shorter := by
    intro b p r h
    obtain ⟨lenBytes, hlen, -, rfl⟩ := nextFrame_eq_some_iff.mp h
    simp only [List.length_append]
    omega
  next_append := by
    intro b p r c h
    obtain ⟨lenBytes, hlen, hpayload, rfl⟩ := nextFrame_eq_some_iff.mp h
    exact nextFrame_eq_some_iff.mpr ⟨lenBytes, hlen, hpayload, by simp⟩

theorem frameReader_next : frameReader.next = nextFrame := rfl

theorem reads_frame {bytes : PerlStr} (h : bytes.length < 2 ^ 32) :
    frameReader.Reads frame bytes := by
  rw [Extractor.Reads, frameReader_next, nextFrame_eq_some_iff]
  refine ⟨leBytes 4 bytes.length, leBytes_length 4 _, ?_, ?_⟩
  · exact (leValue_leBytes 4 h).symm
  · rw [List.append_nil, frame]

/-- How the program ends when what is left of its input is no whole frame. -/
def exitAt (rest : PerlStr) : Exit :=
  if rest = [] then .eof
  else if rest.length < 4 then .died (shortPrefix rest.length)
  else .died (shortPayload (leValue (rest.take 4)) (rest.length - 4))

section

variable {T : Testee}

/-- A turn of the main loop on an input that begins with a whole frame. -/
theorem loop_turn {n : ℕ} {stdin payload rest bytes : PerlStr}
    (h : nextFrame stdin = some (payload, rest)) (hrespond : T.respond payload = .ok bytes) :
    T.loop (n + 1) stdin = (frame bytes ++ (T.loop n rest).1, (T.loop n rest).2) := by
  obtain ⟨lenBytes, hlen, hpayload, rfl⟩ := nextFrame_eq_some_iff.mp h
  rw [Testee.loop]
  simp only [List.take_left' hlen, List.drop_left' hlen, List.take_left' hpayload,
    List.drop_left' hpayload, hlen, hpayload, hrespond]
  simp

theorem loop_wait {n : ℕ} {stdin : PerlStr} (h : nextFrame stdin = none) :
    T.loop (n + 1) stdin = ([], exitAt stdin) := by
  rw [Testee.loop, exitAt]
  by_cases hnil : stdin = []
  · simp [hnil]
  by_cases hshort : stdin.length < 4
  · simp [List.take_of_length_le hshort.le, hnil, hshort, hshort.ne]
  · have hlen : (stdin.take 4).length = 4 := by
      rw [List.length_take]
      omega
    simp only [nextFrame, hlen, ne_eq, not_true, if_false] at h
    split at h
    · rename_i hpayload
      have hcut : ((stdin.drop 4).take (leValue (stdin.take 4))).length = stdin.length - 4 := by
        rw [List.length_take, List.length_drop] at hpayload ⊢
        omega
      rw [hcut] at hpayload
      simp [hlen, hnil, hshort, hcut, hpayload]
    · cases h

/-- On any input the program answers the whole frames at its front, and then ends. -/
theorem loop_eq (T : Testee) {n : ℕ} {stdin : PerlStr} (hn : stdin.length < n) :
    ∃ responses, List.Forall₂ T.Answers (frameReader.drain stdin).1 responses ∧
      T.loop n stdin = ((responses.map frame).flatten, exitAt (frameReader.drain stdin).2) := by
  induction stdin using frameReader.drain_induct generalizing n with
  | wait stdin h =>
      obtain ⟨n, rfl⟩ := Nat.exists_eq_succ_of_ne_zero (Nat.ne_of_gt (Nat.zero_lt_of_lt hn))
      rw [frameReader.drain_of_none h, loop_wait h]
      exact ⟨[], .nil, rfl⟩
  | turn stdin payload rest h ih =>
      obtain ⟨n, rfl⟩ := Nat.exists_eq_succ_of_ne_zero (Nat.ne_of_gt (Nat.zero_lt_of_lt hn))
      obtain ⟨bytes, hrespond, hanswers⟩ := respond_spec T payload
      have hshorter := frameReader.next_shorter h
      obtain ⟨responses, hall, hloop⟩ := ih (n := n) (by omega)
      refine ⟨bytes :: responses, ?_, ?_⟩
      · rw [frameReader.drain_of_some h]
        exact .cons hanswers hall
      · rw [loop_turn h hrespond, hloop, frameReader.drain_of_some h]
        simp

end

/-- A program whose test messages are all of the type `Simple`. -/
def simpleTestee : Testee where
  schema :=
    { descriptor := fun cls =>
        if cls = "Conformance::ConformanceRequest" then requestDef
        else if cls = "Conformance::ConformanceResponse" then responseDef
        else simpleDef }
  errorText
    | .croak text => text ++ ps " at bin/conformance_perl.pl line 93.\n"
    | .fault _ => ps "Can't call method \"parse\" on an undefined value"
  request := rfl
  response := rfl
  check _ _ _ := rfl
  croak text := List.prefix_append text _

end GooglePerl.Protobuf.Conformance
