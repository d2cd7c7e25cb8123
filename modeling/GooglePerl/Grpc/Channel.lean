import GooglePerl.Grpc.Engine
import GooglePerl.Grpc.Writes

/-!
`Google::gRPC::Channel`: making streams and sending for them.

`send_stream_data` passes data on only to an engine that has a method `send_data`;
no engine has one (`can_send_data`). So of a stream that the client writes to,
only the request it was opened with reaches the HTTP/2 layer
(`reachesWire_iff`).
-/

namespace GooglePerl.Grpc

open GooglePerl.Lib
open GooglePerl.Protobuf (PerlStr ps Die)

variable {M : Type}

/-- The truth of a string. -/
def truthy (s : PerlStr) : Bool := !(s == [] || s == ps "0")

inductive CallType where
  | unary
  | serverStream
  | clientStream
  | bidi
  deriving DecidableEq

/-- What `Google::gRPC::Deadline` makes of a timeout: seconds, and the text of the
`grpc-timeout` header. -/
structure Timeout where
  seconds : ℚ
  header : Option PerlStr

/-- The options of `create_stream`, the request in its serialized form. -/
structure StreamOpts (M : Type) where
  service : Option PerlStr
  method : Option PerlStr
  request : Option PerlStr := none
  parse : PerlStr → Except Die M
  type : CallType := .unary
  timeout : Option Timeout := none
  onMessage : Bool := false
  onTrailers : Bool := false
  onClose : Bool := false

structure Channel where
  target : PerlStr
  authToken : Option PerlStr := none
  engine : Engine

namespace Channel

/-- `BUILD`: the engine is made from `engine_type`, when that is true. -/
def build (target : PerlStr) (authToken engineType : Option PerlStr) (xsAvailable : Bool) :
    Except Die Channel := do
  let engine ← Engine.create (engineType.filter truthy) xsAvailable
  return { target, authToken, engine }

/-- The headers of a request. -/
def requestHeaders (ch : Channel) (service method : PerlStr) (timeout : Option Timeout) :
    List (PerlStr × PerlStr) :=
  [(ps ":method", ps "POST"), (ps ":path", ps "/" ++ service ++ ps "/" ++ method),
    (ps ":scheme", ps "https"), (ps ":authority", ch.target),
    (ps "content-type", ps "application/grpc"), (ps "te", ps "trailers")] ++
  ((ch.authToken.filter truthy).map fun t => (ps "authorization", ps "Bearer " ++ t)).toList ++
  (((timeout.bind Timeout.header).filter truthy).map fun h => (ps "grpc-timeout", h)).toList

/-- `create_stream`: what the engine asks for, and the new stream. -/
def createStream (ch : Channel) (opts : StreamOpts M) (now : ℚ) :
    Except Die (Http2Request × Setup M) :=
  match opts.service.filter truthy, opts.method.filter truthy with
  | none, _ => .error (.croak (ps "service is required"))
  | _, none => .error (.croak (ps "method is required"))
  | some service, some method =>
      -- the request of a unary call or a server stream goes with the headers, and ends the
      -- client's side
      let args : SubmitArgs :=
        { headers := ch.requestHeaders service method opts.timeout
          data := opts.request.map fun r => packFrame (some r) false
          endStream := opts.type = .unary ∨ opts.type = .serverStream }
      .ok (ch.engine.submitRequest args,
        { parse := opts.parse
          deadline := opts.timeout.map fun t => now + t.seconds
          onMessage := opts.onMessage
          onTrailers := opts.onTrailers
          onClose := opts.onClose })

/-- `send_stream_data`: the data that is passed on to the engine. -/
def sendStreamData (ch : Channel) (send : PerlStr × Bool) : List (PerlStr × Bool) :=
  if ch.engine.can "send_data" then [send] else []

end Channel

/-! ### Bodies that reach the wire -/

theorem can_send_data (e : Engine) : e.can "send_data" = false := by
  cases e <;> decide

/-- Read to its end, the request of either engine gives the initial data. -/
theorem pieces_submitRequest (e : Engine) (args : SubmitArgs) {sizes : List ℕ}
    (h : ((e.submitRequest args).pieces sizes).any Prod.snd = true) :
    (((e.submitRequest args).pieces sizes).map Prod.fst).flatten = args.data.getD [] ∧
      ((e.submitRequest args).pieces sizes).Pairwise fun a _ => a.2 = false := by
  cases e with
  | pp => simp [Engine.submitRequest, Http2Request.pieces]
  | nghttp2 =>
      cases hdata : args.data with
      | none => simp [Engine.submitRequest, Http2Request.pieces, hdata]
      | some data =>
          simp only [Engine.submitRequest, Http2Request.pieces, hdata] at h ⊢
          simpa using readPieces_of_end h

/-- The body of a stream in the order in which the HTTP/2 layer is given it: the
request, then what the stream wrote. -/
def outgoing (ch : Channel) (req : Http2Request) (sizes : List ℕ)
    (sends : List (PerlStr × Bool)) : List (PerlStr × Bool) :=
  req.pieces sizes ++ sends.flatMap ch.sendStreamData

/-- The frames of the initial request and of the written messages, in order. -/
def expectedBody (request : Option PerlStr) (calls : List WriteCall) : PerlStr :=
  ((request.map fun r => packFrame (some r) false).getD []) ++
    ((written calls).map fun m => packFrame (some m) false).flatten

/-- Everything that was written reaches the HTTP/2 layer, and the request ends only
after it. -/
def ReachesWire (ch : Channel) (req : Http2Request) (S : Setup M) (request : Option PerlStr)
    (calls : List WriteCall) (sizes : List ℕ) : Prop :=
  ((outgoing ch req sizes (({} : World M).after S (calls.map fun c => .plain c.call)).sends).map
      Prod.fst).flatten = expectedBody request calls ∧
    (outgoing ch req sizes
      (({} : World M).after S (calls.map fun c => .plain c.call)).sends).Pairwise
        fun a _ => a.2 = false

theorem packFrame_ne_nil (payload : Option PerlStr) (compressed : Bool) :
    packFrame payload compressed ≠ [] := by
  simp [packFrame]

theorem expectedBody_eq {request : Option PerlStr} {calls : List WriteCall} :
    (request.map fun r => packFrame (some r) false).getD [] = expectedBody request calls ↔
      written calls = [] := by
  constructor
  · intro h
    have hnil := List.append_cancel_left ((List.append_nil _).trans h)
    cases hw : written calls with
    | nil => rfl
    | cons m ms =>
        rw [hw, List.map_cons, List.flatten_cons] at hnil
        exact absurd (List.append_eq_nil_iff.mp hnil.symm).1 (packFrame_ne_nil _ _)
  · intro h
    simp [expectedBody, h]

/-- A channel with the pure-Perl engine. -/
def plainChannel : Channel := { target := ps "localhost:8000", engine := .pp }

/-- A client-streaming call. -/
def clientCall : StreamOpts PerlStr :=
  { service := some (ps "S"), method := some (ps "M"), parse := .ok, type := .clientStream }

end GooglePerl.Grpc
