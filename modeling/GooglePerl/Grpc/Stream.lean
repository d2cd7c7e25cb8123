import GooglePerl.Grpc.Framing
import GooglePerl.Lib.Triple

/-!
`Google::gRPC::Stream`, with callbacks that may call the stream again.

A method is code over a `World`: the stream, and the history of what happened to
it, one `Moment` for each attribute that is written, each callback that is called
and each piece of data that is handed on. A callback is arbitrary Perl; what
matters of it here are the calls it makes on its stream and whether it dies. So
each method is given, as `Callbacks`, the code that the callbacks run during this
one call, and `Act` is a call together with that code, written out as further
acts. Every run that ends is some list of acts.
-/

namespace GooglePerl.Grpc

open GooglePerl.Lib
open GooglePerl.Protobuf (PerlStr ps Die)

variable {M : Type}

inductive StreamState where
  | opened
  | halfClosedLocal
  | halfClosedRemote
  | closed
  deriving DecidableEq

/-- The attributes that methods write. -/
structure Stream (M : Type) where
  state : StreamState := .opened
  readBuffer : PerlStr := []
  responseQueue : List M := []
  status : FloatVal := .fin 0
  statusMessage : PerlStr := []
  statusDetails : Option Status := none
  headersReceived : Bool := false
  deriving DecidableEq

/-- The attributes that are set when the stream is made. -/
structure Setup (M : Type) where
  /-- `response_class->parse`, or the payload itself without such a class -/
  parse : PerlStr → Except Die M
  deadline : Option ℚ := none
  /-- which callbacks are set -/
  onMessage : Bool := false
  onTrailers : Bool := false
  onClose : Bool := false
  /-- `ip_key`, when the stream has a pool and a key in it -/
  ipKey : Option PerlStr := none

/-- What happened at a moment. -/
inductive Event (M : Type) where
  /-- `abort_stream` was called -/
  | aborting
  /-- the loop of `push_incoming_data` came to a frame -/
  | turn (payload : PerlStr)
  /-- an attribute was written, or a message put on the queue -/
  | wrote
  /-- `recv_message` took from the queue -/
  | received
  | recordRequest (ipKey : PerlStr) (size : ℕ)
  | sendStreamData (bytes : PerlStr) (endStream : Bool)
  | onMessage (message : M)
  | onTrailers (info : TrailerInfo)
  | onClose (status : FloatVal) (message : PerlStr)
  deriving DecidableEq

/-- An event and the stream as it is then. -/
structure Moment (M : Type) where
  event : Event M
  stream : Stream M
  deriving DecidableEq

structure World (M : Type) where
  stream : Stream M := {}
  history : List (Moment M) := []
  deriving DecidableEq

/-- Perl code that runs on the stream. -/
abbrev Perl (M : Type) := EStateM Die (World M)

/-- The code that callbacks run during one call: the i-th call of `on_message`
runs the i-th entry. -/
structure Callbacks (M : Type) where
  onMessage : List (Perl M Unit)
  onTrailers : Perl M Unit
  onClose : Perl M Unit

/-- Callbacks that only look on. -/
def onlookers : Callbacks M := ⟨[], pure (), pure ()⟩

def World.noted (w : World M) (e : Event M) (f : Stream M → Stream M) : World M :=
  ⟨f w.stream, w.history ++ [⟨e, f w.stream⟩]⟩

/-- An event, and what it writes. -/
def note (e : Event M) (f : Stream M → Stream M := id) : Perl M Unit := modify fun w => w.noted e f

/-- Run code where the stream is not closed: `return if $self->state eq 'closed'`. -/
def unlessClosed (x : Perl M Unit) : Perl M Unit := do
  let w ← get
  if w.stream.state = .closed then pure () else x

def onlyIf (c : Bool) (x : Perl M Unit) : Perl M Unit := if c then x else pure ()

/-- `if (my $cb = ...) { $cb->(...) }` -/
def callback (set : Bool) (e : Event M) (code : Perl M Unit) : Perl M Unit :=
  onlyIf set do
    note e
    code

variable (S : Setup M) (cb : Callbacks M)

/-- `handle_close` -/
def handleClose : Perl M Unit :=
  unlessClosed do
    note .wrote fun s => { s with state := .closed }
    let w ← get
    callback S.onClose (.onClose w.stream.status w.stream.statusMessage) cb.onClose

/-- `abort_stream`, which does not look at the state. -/
def abortStream (statusCode : Option FloatVal) (statusMsg : Option PerlStr) : Perl M Unit := do
  let code := statusCode.getD (.fin 4)
  let msg := statusMsg.getD (ps "Deadline Exceeded")
  note .aborting
  note .wrote fun s => { s with status := code }
  note .wrote fun s => { s with statusMessage := msg }
  callback S.onTrailers (.onTrailers ⟨code, msg, none⟩) cb.onTrailers
  handleClose S cb

/-- `time() > $self->deadline`, when there is one. -/
def Setup.expired (now : ℚ) : Bool :=
  match S.deadline with
  | none => false
  | some t => t < now

/-- `check_deadline` -/
def checkDeadline (now : ℚ) : Perl M Unit :=
  unlessClosed <| onlyIf (S.expired now) <|
    abortStream S cb (some (.fin 4)) (some (ps "Deadline Exceeded"))

/-- `handle_trailers` -/
def handleTrailers (trailers : Headers) : Perl M Unit :=
  unlessClosed do
    let info := parseTrailers trailers
    note .wrote fun s => { s with status := info.status }
    note .wrote fun s => { s with statusMessage := info.message }
    onlyIf info.statusDetails.isSome <|
      note .wrote fun s => { s with statusDetails := info.statusDetails }
    callback S.onTrailers (.onTrailers info) cb.onTrailers

/-- The loop of `push_incoming_data` over the frames of a chunk. -/
def deliver : List (Perl M Unit) → List Frame → Perl M Unit
  | _, [] => pure ()
  | codes, frame :: frames => do
      note (.turn frame.payload)
      match S.parse frame.payload with
      | .error e => throw e
      | .ok message => do
          note .wrote fun s => { s with responseQueue := s.responseQueue ++ [message] }
          callback S.onMessage (.onMessage message) (codes.headD (pure ()))
          deliver codes.tail frames

/-- `push_incoming_data` -/
def pushIncomingData (chunk : Option PerlStr) (now : ℚ) : Perl M Unit := do
  checkDeadline S cb now
  unlessClosed do
    if chunk.getD [] = [] then pure ()
    else do
      let w ← get
      let (frames, rest) := unpackFrame (w.stream.readBuffer ++ chunk.getD [])
      note .wrote fun s => { s with readBuffer := rest }
      deliver S cb.onMessage frames

/-- `$self->pool->record_request(...)`, when there is a pool. -/
def recordRequest (size : ℕ) : Perl M Unit :=
  match S.ipKey with
  | none => pure ()
  | some ipKey => note (.recordRequest ipKey size)

/-- `write_message`, given the serialized message, none for undef. -/
def writeMessage (msg : Option PerlStr) (endStream : Bool) (now : ℚ) : Perl M Unit := do
  checkDeadline S cb now
  unlessClosed do
    let framed := packFrame (some (msg.getD [])) false
    recordRequest S framed.length
    note (.sendStreamData framed endStream)
    onlyIf endStream <|
      note .wrote fun s =>
        { s with state := if s.state = .halfClosedRemote then .closed else .halfClosedLocal }

/-- `close_write` -/
def closeWrite (now : ℚ) : Perl M Unit := writeMessage S cb none true now

/-- `recv_message`: the first message of the queue, undef when there is none. -/
def recvMessage (now : ℚ) : Perl M (Option M) := do
  checkDeadline S cb now
  let w ← get
  note .received fun s => { s with responseQueue := s.responseQueue.tail }
  return w.stream.responseQueue.head?

/-! ### Calls and acts -/

/-- A method call; `now` is what the clock shows to its deadline check. -/
inductive Call where
  | writeMessage (msg : Option PerlStr) (endStream : Bool) (now : ℚ)
  | closeWrite (now : ℚ)
  | pushIncomingData (chunk : Option PerlStr) (now : ℚ)
  | recvMessage (now : ℚ)
  | handleTrailers (trailers : Headers)
  | handleClose
  | checkDeadline (now : ℚ)
  | abortStream (statusCode : Option FloatVal) (statusMsg : Option PerlStr)
  deriving DecidableEq

def Call.perform : Call → Perl M Unit
  | .writeMessage msg endStream now => Grpc.writeMessage S cb msg endStream now
  | .closeWrite now => Grpc.closeWrite S cb now
  | .pushIncomingData chunk now => Grpc.pushIncomingData S cb chunk now
  | .recvMessage now => do
      let _ ← Grpc.recvMessage S cb now
  | .handleTrailers trailers => Grpc.handleTrailers S cb trailers
  | .handleClose => Grpc.handleClose S cb
  | .checkDeadline now => Grpc.checkDeadline S cb now
  | .abortStream statusCode statusMsg => Grpc.abortStream S cb statusCode statusMsg

/-- One step of code on a stream: a call, with what each callback does that runs
during it; an `eval` block; or dying. -/
inductive Act where
  | call (c : Call) (onMessage : List (List Act)) (onTrailers onClose : List Act)
  | eval (body : List Act)
  | die (why : Die)

namespace Act

mutual

def code (S : Setup M) : Act → Perl M Unit
  | .call c onMessage onTrailers onClose =>
      c.perform S ⟨bodies S onMessage, body S onTrailers, body S onClose⟩
  | .eval acts => tryCatch (body S acts) fun _ => pure ()
  | .die why => throw why

def body (S : Setup M) : List Act → Perl M Unit
  | [] => pure ()
  | a :: as => do
      code S a
      body S as

def bodies (S : Setup M) : List (List Act) → List (Perl M Unit)
  | [] => []
  | b :: bs => body S b :: bodies S bs

end

/-- A call whose callbacks only look on. -/
def plain (c : Call) : Act := .call c [] [] []

/-- What is true of all code: it is enough to prove it of a call, given that it is
true of the code its callbacks run. -/
theorem body_rule {S : Setup M} {P : Perl M Unit → Prop} (done : P (pure ()))
    (seq : ∀ x y, P x → P y → P (do x; y)) (die : ∀ why, P (throw why))
    (eval : ∀ x, P x → P (tryCatch x fun _ => pure ()))
    (call : ∀ (c : Call) (cb : Callbacks M), (∀ x ∈ cb.onMessage, P x) → P cb.onTrailers →
      P cb.onClose → P (c.perform S cb)) (acts : List Act) : P (body S acts) := by
  refine Act.rec_2 (motive_1 := fun a => P (code S a))
    (motive_2 := fun bs => ∀ x ∈ bodies S bs, P x) (motive_3 := fun as => P (body S as))
    ?_ ?_ ?_ ?_ ?_ ?_ ?_ acts
  · intro c ms ts cs hms hts hcs
    exact call c _ hms hts hcs
  · intro as has
    exact eval _ has
  · intro why
    exact die why
  · intro x hx
    cases hx
  · intro b bs hb hbs x hx
    rcases List.mem_cons.mp hx with rfl | hx
    · exact hb
    · exact hbs x hx
  · exact done
  · intro a as ha has
    exact seq _ _ ha has

end Act

/-- The world after a list of acts, whether or not one of them died. -/
def World.after (S : Setup M) (w : World M) (acts : List Act) : World M :=
  leaves (Act.body S acts) w

/-! ### Rules for the building blocks -/

theorem Triple.onlyIf {P Q E : World M → Prop} {c : Bool} {x : Perl M Unit}
    (h : Triple P x (fun _ => Q) E) (hP : ∀ w, P w → Q w) :
    Triple P (onlyIf c x) (fun _ => Q) E := by
  cases c with
  | true => exact h
  | false => exact Triple.pure hP

theorem Triple.note {P : World M → Prop} {Q : Unit → World M → Prop} {E : World M → Prop}
    {e : Event M} {f : Stream M → Stream M} (h : ∀ w, P w → Q () (w.noted e f)) :
    Triple P (note e f) Q E :=
  Triple.modify h

theorem Triple.unlessClosed {P Q E : World M → Prop} {x : Perl M Unit}
    (hclosed : ∀ w, P w → w.stream.state = .closed → Q w)
    (hopen : Triple (fun w => P w ∧ w.stream.state ≠ .closed) x (fun _ => Q) E) :
    Triple P (unlessClosed x) (fun _ => Q) E := by
  refine Triple.read ?_
  intro w hw
  split
  · rename_i hc
    exact Triple.pure fun s hs => hs ▸ hclosed w hw hc
  · rename_i hne
    exact hopen.weaken fun s hs => hs ▸ ⟨hw, hne⟩

/-! ### Histories -/

/-- The message that `on_message` is called with. -/
def Event.message : Event M → Option M
  | .onMessage message => some message
  | _ => none

/-- The calls of `on_message` so far. -/
def World.messages (w : World M) : List M := w.history.filterMap fun m => m.event.message

@[simp] theorem noted_stream (w : World M) (e : Event M) (f : Stream M → Stream M) :
    (w.noted e f).stream = f w.stream := rfl

@[simp] theorem noted_history (w : World M) (e : Event M) (f : Stream M → Stream M) :
    (w.noted e f).history = w.history ++ [⟨e, f w.stream⟩] := rfl

@[simp] theorem noted_messages (w : World M) (e : Event M) (f : Stream M → Stream M) :
    (w.noted e f).messages = w.messages ++ e.message.toList := by
  cases hm : e.message <;> simp [World.messages, hm]

/-! ### Code that returns -/

theorem after_nil (S : Setup M) (w : World M) : w.after S [] = w := by
  simp [World.after, Act.body]

/-- An act that returns, followed by others. -/
theorem after_cons {S : Setup M} {w w' : World M} {a : Act} {as : List Act}
    (h : a.code S w = .ok () w') : w.after S (a :: as) = w'.after S as := by
  simp only [World.after, leaves, Act.body, bind_of_ok h]

theorem after_plain {S : Setup M} {w w' : World M} {c : Call} {as : List Act}
    (h : c.perform S onlookers w = .ok () w') : w.after S (.plain c :: as) = w'.after S as :=
  after_cons h

theorem get_eq (w : World M) : (get : Perl M (World M)) w = .ok w w := rfl

theorem unlessClosed_of_ne {w : World M} {x : Perl M Unit} (h : w.stream.state ≠ .closed) :
    unlessClosed x w = x w := by
  rw [unlessClosed, bind_of_ok (get_eq w), if_neg h]

theorem unlessClosed_of_closed {w : World M} {x : Perl M Unit} (h : w.stream.state = .closed) :
    unlessClosed x w = .ok () w := by
  rw [unlessClosed, bind_of_ok (get_eq w), if_pos h]
  rfl

theorem note_eq (e : Event M) (f : Stream M → Stream M) (w : World M) :
    note e f w = .ok () (w.noted e f) := rfl

/-- While the deadline has not passed, checking it does nothing. -/
theorem checkDeadline_of_not_expired {S : Setup M} {now : ℚ} (h : S.expired now = false)
    (cb : Callbacks M) (w : World M) : checkDeadline S cb now w = .ok () w := by
  by_cases hw : w.stream.state = .closed
  · exact unlessClosed_of_closed hw
  · rw [checkDeadline, unlessClosed_of_ne hw, h]
    rfl

end GooglePerl.Grpc
