import GooglePerl.Grpc.Framing

/-!
The two HTTP/2 engines: `Google::gRPC::Engine::PP` over `Protocol::HTTP2` and
`Google::gRPC::Engine::NGHTTP2` over nghttp2.

The libraries themselves are not modelled. What an engine asks of them for a
request is an `Http2Request`; `pieces` is what they are thereby given to send:
`Protocol::HTTP2::Client::request` ends the stream after the data it is given,
nghttp2 ends it with the headers when there is no data provider and else when the
provider says so.
-/

namespace GooglePerl.Grpc

open GooglePerl.Lib
open GooglePerl.Protobuf (PerlStr ps Die)

inductive Engine where
  | pp
  | nghttp2
  deriving DecidableEq

namespace Engine

/-- `Google::gRPC::Engine::create`. The `return` inside `eval` only leaves the
`eval`, so that without a preference the pure-Perl engine is made. -/
def create (preferred : Option PerlStr) (xsAvailable : Bool) : Except Die Engine :=
  if preferred = some (ps "NGHTTP2") then
    if xsAvailable then .ok .nghttp2
    else .error (.croak (ps "C/XS engine (nghttp2) is not available on this system"))
  else .ok .pp

/-- The methods of the engine classes. -/
def methods : Engine → List String
  | .pp => ["new", "on_headers", "on_data", "on_trailers", "on_stream_close", "client", "is_xs",
      "send_ping", "submit_request", "feed_input", "get_output"]
  | .nghttp2 => ["new", "set_callbacks", "send_ping", "submit_request", "_xs_new", "DESTROY",
      "is_xs", "_xs_set_callbacks", "_xs_submit_request", "feed_input", "get_output"]

/-- `$engine->can(...)` -/
def can (e : Engine) (name : String) : Bool := e.methods.contains name

end Engine

/-! ### Requests -/

/-- The argument of `submit_request`. -/
structure SubmitArgs where
  headers : List (PerlStr × PerlStr)
  data : Option PerlStr
  endStream : Bool
  deriving DecidableEq

/-- What an engine asks its library for. -/
inductive Http2Request where
  /-- `Protocol::HTTP2::Client::request` -/
  | request (method path scheme authority : PerlStr) (headers : List (PerlStr × PerlStr))
      (data : Option PerlStr)
  /-- `nghttp2_submit_request`, with the octets of its data provider -/
  | submitRequest (nva : List (PerlStr × PerlStr)) (provider : Option PerlStr)
  deriving DecidableEq

/-- `$k =~ /^:(.*)$/` -/
def isPseudo (name : PerlStr) : Bool := name.head? == some 58

/-- `$pseudo{$name} || $default`: the last header of that name, unless it is false. -/
def pseudoHeader (headers : List (PerlStr × PerlStr)) (name : String) (default : String) :
    PerlStr :=
  match Assoc.find headers.reverse (ps name) with
  | none => ps default
  | some v => if v = [] ∨ v = ps "0" then ps default else v

/-- `submit_request` of the two engines; neither uses `end_stream`. -/
def Engine.submitRequest : Engine → SubmitArgs → Http2Request
  | .pp, args =>
      .request (pseudoHeader args.headers ":method" "POST") (pseudoHeader args.headers ":path" "/")
        (pseudoHeader args.headers ":scheme" "https")
        (pseudoHeader args.headers ":authority" "localhost")
        ((args.headers.filter fun h => !isPseudo h.1).map fun h => (lc h.1, h.2)) args.data
  | .nghttp2, args => .submitRequest args.headers args.data

/-! ### Bodies -/

/-- `perl_data_source_t` -/
structure DataSource where
  buf : PerlStr
  pos : ℕ

/-- `my_data_read_callback`: the octets copied to a buffer of the given size, whether
the end was reached, and the source afterwards. -/
def dataRead (src : DataSource) (length : ℕ) : PerlStr × Bool × DataSource :=
  let piece := (src.buf.drop src.pos).take length
  (piece, src.buf.length ≤ src.pos + piece.length, ⟨src.buf, src.pos + piece.length⟩)

/-- nghttp2 calls the provider with buffers of these sizes until it has signalled the
end. -/
def readPieces (src : DataSource) : List ℕ → List (PerlStr × Bool)
  | [] => []
  | n :: sizes =>
      let (piece, atEnd, src') := dataRead src n
      (piece, atEnd) :: if atEnd then [] else readPieces src' sizes

/-- The body that the library is given: its pieces, each with whether the request
ends there. -/
def Http2Request.pieces (sizes : List ℕ) : Http2Request → List (PerlStr × Bool)
  | .request _ _ _ _ _ data => [(data.getD [], true)]
  | .submitRequest _ none => [([], true)]
  | .submitRequest _ (some data) => readPieces ⟨data, 0⟩ sizes

/-- A provider that is read to its end has given all its octets, the end with the
last of them. -/
theorem readPieces_of_end {src : DataSource} {sizes : List ℕ}
    (h : (readPieces src sizes).any Prod.snd = true) :
    ((readPieces src sizes).map Prod.fst).flatten = src.buf.drop src.pos ∧
      (readPieces src sizes).Pairwise fun a _ => a.2 = false := by
  induction sizes generalizing src with
  | nil => simp [readPieces] at h
  | cons n sizes ih =>
      obtain ⟨rest, hrest⟩ : (src.buf.drop src.pos).take n <+: src.buf.drop src.pos :=
        List.take_prefix _ _
      have hdrop : src.buf.drop (src.pos + ((src.buf.drop src.pos).take n).length) = rest := by
        have hleft := congrArg (List.drop ((src.buf.drop src.pos).take n).length) hrest
        rw [List.drop_left] at hleft
        rw [← List.drop_drop, ← hleft]
      by_cases hend : src.buf.length ≤ src.pos + ((src.buf.drop src.pos).take n).length
      · have hnil : rest = [] := by
          rw [← hdrop]
          exact List.drop_eq_nil_of_le hend
        simp only [readPieces, dataRead, hend, decide_true, if_true]
        refine ⟨?_, List.pairwise_singleton _ _⟩
        simpa [hnil] using hrest
      · simp only [readPieces, dataRead, hend, decide_false, Bool.false_eq_true, if_false,
          List.any_cons, Bool.false_or] at h ⊢
        obtain ⟨hpieces, hpairwise⟩ := ih h
        refine ⟨?_, List.pairwise_cons.mpr ⟨fun _ _ => rfl, hpairwise⟩⟩
        rw [List.map_cons, List.flatten_cons, hpieces, hdrop, hrest]

end GooglePerl.Grpc
