import GooglePerl.Grpc.Stream
import Mathlib.Data.List.Chain

/-!
The life of a stream, over every run of acts.

`Lifecycle` is what the state machine is for: nothing about a closed stream
changes but its queue, by `recv_message`; no message or trailers are reported
after the close, and the close is reported once. Two places do not look at the
state before they act: `abort_stream`, and the loop of `push_incoming_data`, which
goes on when a callback has closed the stream. `Guarded` says of a run that they
never come to a closed stream, and then the law holds (`lifecycle_of_guarded`).
-/

namespace GooglePerl.Grpc

open GooglePerl.Lib
open GooglePerl.Protobuf (PerlStr ps Die)

variable {M : Type}

/-- A call of `on_message` or `on_trailers`. -/
def Event.isReport : Event M → Bool
  | .onMessage _ | .onTrailers _ => true
  | _ => false

/-- A call of `on_close`. -/
def Event.isClose : Event M → Bool
  | .onClose _ _ => true
  | _ => false

/-- A step that the source takes without looking at the state. -/
def Event.isUnchecked : Event M → Bool
  | .aborting | .turn _ => true
  | _ => false

/-- How a moment of a closed stream binds a later one. -/
structure Frozen (m m' : Moment M) : Prop where
  state : m'.stream.state = .closed
  status : m'.stream.status = m.stream.status
  statusMessage : m'.stream.statusMessage = m.stream.statusMessage
  quiet : m'.event.isReport = false

/-- The law for a run that has come to the world `w`. -/
structure Lifecycle (S : Setup M) (w : World M) : Prop where
  frozen : w.history.Pairwise fun m m' => m.stream.state = .closed → Frozen m m'
  /-- from one moment to the next the queue changes only by `recv_message` -/
  queue : w.history.IsChain fun m m' => m.stream.state = .closed → m'.event ≠ .received →
    m'.stream.responseQueue = m.stream.responseQueue
  /-- `on_close` is given the status in force -/
  closeArgs : ∀ m ∈ w.history, ∀ status message, m.event = .onClose status message →
    m.stream.state = .closed ∧ status = m.stream.status ∧ message = m.stream.statusMessage
  closeOnce : (w.history.filter (·.event.isClose)).length =
    if S.onClose = true ∧ w.stream.state = .closed then 1 else 0

/-- No step came unchecked to a closed stream. -/
def Guarded (history : List (Moment M)) : Prop :=
  ∀ m ∈ history, m.event.isUnchecked = true → m.stream.state ≠ .closed

instance (history : List (Moment M)) : Decidable (Guarded history) :=
  inferInstanceAs (Decidable (∀ m ∈ history, m.event.isUnchecked = true →
    m.stream.state ≠ .closed))

/-! ### One event

`Law` adds to the law what carries it over the next event: the last moment shows
the stream as it is, and what was frozen is still in force. `n` counts the calls
of `on_close`. -/

structure Law (w : World M) (n : ℕ) : Prop where
  frozen : w.history.Pairwise fun m m' => m.stream.state = .closed → Frozen m m'
  queue : w.history.IsChain fun m m' => m.stream.state = .closed → m'.event ≠ .received →
    m'.stream.responseQueue = m.stream.responseQueue
  closeArgs : ∀ m ∈ w.history, ∀ status message, m.event = .onClose status message →
    m.stream.state = .closed ∧ status = m.stream.status ∧ message = m.stream.statusMessage
  closes : (w.history.filter (·.event.isClose)).length = n
  last : ∀ m ∈ w.history.getLast?, m.stream = w.stream
  past : ∀ m ∈ w.history, m.stream.state = .closed → w.stream.state = .closed ∧
    w.stream.status = m.stream.status ∧ w.stream.statusMessage = m.stream.statusMessage
  remote : w.stream.state ≠ .halfClosedRemote

/-- What an event may do to a closed stream. -/
structure Harmless (e : Event M) (s s' : Stream M) : Prop where
  state : s'.state = .closed
  status : s'.status = s.status
  statusMessage : s'.statusMessage = s.statusMessage
  quiet : e.isReport = false
  queue : e ≠ .received → s'.responseQueue = s.responseQueue

theorem Law.noted {w : World M} {n : ℕ} (h : Law w n) {e : Event M} {f : Stream M → Stream M}
    (hclosed : w.stream.state = .closed → Harmless e w.stream (f w.stream))
    (hargs : ∀ status message, e = .onClose status message → (f w.stream).state = .closed ∧
      status = (f w.stream).status ∧ message = (f w.stream).statusMessage)
    (hremote : (f w.stream).state ≠ .halfClosedRemote) :
    Law (w.noted e f) (n + if e.isClose then 1 else 0) where
  frozen := by
    rw [noted_history, List.pairwise_append]
    refine ⟨h.frozen, List.pairwise_singleton .., ?_⟩
    intro m hm m' hm' hst
    obtain rfl := List.mem_singleton.mp hm'
    obtain ⟨hw, hstatus, hmessage⟩ := h.past m hm hst
    have hf := hclosed hw
    exact ⟨hf.state, hf.status.trans hstatus, hf.statusMessage.trans hmessage, hf.quiet⟩
  queue := by
    rw [noted_history, List.isChain_append]
    refine ⟨h.queue, List.isChain_singleton _, ?_⟩
    intro m hm m' hm' hst hne
    obtain rfl : _ = m' := Option.some.inj hm'
    have hstream := h.last m hm
    rw [hstream] at hst ⊢
    exact (hclosed hst).queue hne
  closeArgs := by
    intro m hm status message he
    rcases List.mem_append.mp hm with hm | hm
    · exact h.closeArgs m hm status message he
    · obtain rfl := List.mem_singleton.mp hm
      exact hargs status message he
  closes := by
    rw [noted_history, List.filter_append, List.length_append, h.closes]
    cases hc : e.isClose <;> simp [hc]
  last := by
    intro m hm
    rw [noted_history, List.getLast?_concat] at hm
    obtain rfl := Option.some.inj hm
    rfl
  past := by
    intro m hm hst
    rcases List.mem_append.mp hm with hm | hm
    · obtain ⟨hw, hstatus, hmessage⟩ := h.past m hm hst
      have hf := hclosed hw
      exact ⟨hf.state, hf.status.trans hstatus, hf.statusMessage.trans hmessage⟩
    · obtain rfl := List.mem_singleton.mp hm
      exact ⟨hst, rfl, rfl⟩
  remote := hremote

/-! ### The two conditions that code is proved between -/

section

variable (S : Setup M)

/-- How often `on_close` has been called between two method calls. -/
def closeCount (s : Stream M) : ℕ := if S.onClose = true ∧ s.state = .closed then 1 else 0

/-- If the run was guarded so far, the law holds so far. -/
def Inv (w : World M) : Prop := Guarded w.history → Law w (closeCount S w.stream)

/-- The same of a stream that is not closed. -/
def InvOpen (w : World M) : Prop :=
  Guarded w.history → Law w (closeCount S w.stream) ∧ w.stream.state ≠ .closed

/-- Code that keeps the law, whether it returns or dies. -/
abbrev Keeps (x : Perl M Unit) : Prop := Triple (Inv S) x (fun _ => Inv S) (Inv S)

theorem closeCount_of_ne {s : Stream M} (h : s.state ≠ .closed) : closeCount S s = 0 := by
  simp [closeCount, h]

theorem InvOpen.inv {w : World M} (h : InvOpen S w) : Inv S w := fun hg => (h hg).1

theorem Guarded.before {w : World M} {e : Event M} {f : Stream M → Stream M}
    (h : Guarded (w.noted e f).history) : Guarded w.history :=
  fun m hm => h m (List.mem_append_left _ hm)

variable {S}

/-- An event of a stream that is not closed and does not get closed by it. -/
theorem Law.noted_open {w : World M} {e : Event M} {f : Stream M → Stream M}
    (h : Law w (closeCount S w.stream)) (hopen : w.stream.state ≠ .closed)
    (hclose : e.isClose = false) (hf : (f w.stream).state ≠ .closed)
    (hremote : (f w.stream).state ≠ .halfClosedRemote) :
    Law (w.noted e f) (closeCount S (w.noted e f).stream) := by
  rw [closeCount_of_ne S hopen] at h
  rw [noted_stream, closeCount_of_ne S hf]
  have hnoted := h.noted (e := e) (f := f) (fun hc => absurd hc hopen)
    (fun status message he => by simp [he, Event.isClose] at hclose) hremote
  simpa [hclose] using hnoted

theorem note_open {e : Event M} {f : Stream M → Stream M} (hclose : e.isClose = false)
    (hf : ∀ s, s.state ≠ .closed → s.state ≠ .halfClosedRemote →
      (f s).state ≠ .closed ∧ (f s).state ≠ .halfClosedRemote) :
    Triple (InvOpen S) (note e f) (fun _ => InvOpen S) (Inv S) := by
  refine Triple.modify ?_
  intro w h hg
  obtain ⟨hlaw, hopen⟩ := h hg.before
  obtain ⟨hstate, hremote⟩ := hf w.stream hopen hlaw.remote
  exact ⟨hlaw.noted_open hopen hclose hstate hremote, hstate⟩

/-- An event that leaves the state alone. -/
theorem note_same {e : Event M} {f : Stream M → Stream M} (hclose : e.isClose = false)
    (hf : ∀ s, (f s).state = s.state) :
    Triple (InvOpen S) (note e f) (fun _ => InvOpen S) (Inv S) := by
  refine note_open hclose ?_
  intro s hopen hremote
  rw [hf s]
  exact ⟨hopen, hremote⟩

/-- In a guarded run an unchecked step finds the stream open. -/
theorem note_unchecked {e : Event M} (he : e.isUnchecked = true) :
    Triple (Inv S) (note e) (fun _ => InvOpen S) (Inv S) := by
  refine Triple.modify ?_
  intro w h hg
  have hopen : w.stream.state ≠ .closed := hg ⟨e, w.stream⟩ (by simp) he
  have hclose : e.isClose = false := by
    cases e <;> first | rfl | cases he
  have hlaw := h hg.before
  exact ⟨hlaw.noted_open hopen hclose hopen hlaw.remote, hopen⟩

theorem Keeps.unlessClosed {x : Perl M Unit}
    (h : Triple (InvOpen S) x (fun _ => Inv S) (Inv S)) : Keeps S (unlessClosed x) := by
  refine Triple.unlessClosed (fun w hw _ => hw) ?_
  exact h.weaken fun w hw hg => ⟨hw.1 hg, hw.2⟩

/-- A callback that is only called when it is set. -/
theorem Keeps.callback {e : Event M} {code : Perl M Unit} (hclose : e.isClose = false)
    (hcode : Keeps S code) {set : Bool} :
    Triple (InvOpen S) (callback set e code) (fun _ => Inv S) (Inv S) := by
  refine Triple.onlyIf ?_ fun w => InvOpen.inv S
  refine Triple.bind (note_same hclose fun _ => rfl) fun _ => ?_
  exact hcode.weaken fun w => InvOpen.inv S

end

/-! ### The methods -/

section

variable {S : Setup M} {cb : Callbacks M}

theorem handleClose_keeps (hcb : Keeps S cb.onClose) : Keeps S (handleClose S cb) := by
  refine Keeps.unlessClosed ?_
  -- between the write and the report, the close is not counted yet
  have hwrite : Triple (InvOpen S) (note .wrote fun s => { s with state := .closed })
      (fun _ w => Guarded w.history → Law w 0 ∧ w.stream.state = .closed) (Inv S) := by
    refine Triple.modify ?_
    intro w h hg
    obtain ⟨hlaw, hopen⟩ := h hg.before
    rw [closeCount_of_ne S hopen] at hlaw
    exact ⟨hlaw.noted (fun hc => absurd hc hopen) (by simp) (by simp), rfl⟩
  refine Triple.bind hwrite fun _ => Triple.read fun w hw => ?_
  cases hset : S.onClose with
  | true =>
      have hreport : Triple (fun t => t = w)
          (note (.onClose w.stream.status w.stream.statusMessage)) (fun _ => Inv S) (Inv S) := by
        refine Triple.modify ?_
        rintro t rfl hg
        obtain ⟨hlaw, hclosed⟩ := hw hg.before
        have hcount : closeCount S t.stream = 1 := by simp [closeCount, hset, hclosed]
        have hnoted := hlaw.noted (e := .onClose t.stream.status t.stream.statusMessage) (f := id)
          (fun _ => ⟨hclosed, rfl, rfl, rfl, fun _ => rfl⟩)
          (fun status message he => by cases he; exact ⟨hclosed, rfl, rfl⟩) hlaw.remote
        rw [noted_stream, id, hcount]
        exact hnoted
      exact Triple.bind hreport fun _ => hcb
  | false =>
      refine Triple.pure ?_
      rintro t rfl hg
      obtain ⟨hlaw, -⟩ := hw hg
      have hcount : closeCount S t.stream = 0 := by simp [closeCount, hset]
      rw [hcount]
      exact hlaw

theorem abortStream_keeps (htrailers : Keeps S cb.onTrailers) (hclose : Keeps S cb.onClose)
    (statusCode : Option FloatVal) (statusMsg : Option PerlStr) :
    Keeps S (abortStream S cb statusCode statusMsg) := by
  refine Triple.bind (note_unchecked rfl) fun _ => ?_
  refine Triple.bind (note_same rfl fun _ => rfl) fun _ => ?_
  refine Triple.bind (note_same rfl fun _ => rfl) fun _ => ?_
  refine Triple.bind (Keeps.callback rfl htrailers) fun _ => ?_
  exact handleClose_keeps hclose

theorem checkDeadline_keeps (htrailers : Keeps S cb.onTrailers) (hclose : Keeps S cb.onClose)
    (now : ℚ) : Keeps S (checkDeadline S cb now) := by
  refine Keeps.unlessClosed (Triple.onlyIf ?_ fun w => InvOpen.inv S)
  exact (abortStream_keeps htrailers hclose _ _).weaken fun w => InvOpen.inv S

theorem handleTrailers_keeps (htrailers : Keeps S cb.onTrailers) (trailers : Headers) :
    Keeps S (handleTrailers S cb trailers) := by
  refine Keeps.unlessClosed ?_
  refine Triple.bind (note_same rfl fun _ => rfl) fun _ => ?_
  refine Triple.bind (note_same rfl fun _ => rfl) fun _ => ?_
  refine Triple.bind (Triple.onlyIf (note_same rfl fun _ => rfl) fun w hw => hw) fun _ => ?_
  exact Keeps.callback rfl htrailers

/-- The loop over the frames of a chunk: each turn is one of the unchecked steps. -/
theorem deliver_keeps {codes : List (Perl M Unit)} (hcodes : ∀ x ∈ codes, Keeps S x)
    (frames : List Frame) : Keeps S (deliver S codes frames) := by
  induction frames generalizing codes with
  | nil => exact Triple.pure fun w hw => hw
  | cons f frames ih =>
      rw [deliver]
      refine Triple.bind (note_unchecked rfl) fun _ => ?_
      split
      · exact Triple.throw fun w => InvOpen.inv S
      · refine Triple.bind (note_same rfl fun _ => rfl) fun _ => ?_
        have hhead : Keeps S (codes.headD (pure ())) := by
          cases codes with
          | nil => exact Triple.pure fun w hw => hw
          | cons x codes => exact hcodes x List.mem_cons_self
        refine Triple.bind (Keeps.callback rfl hhead) fun _ => ?_
        exact ih fun x hx => hcodes x (List.mem_of_mem_tail hx)

theorem pushIncomingData_keeps (hmessage : ∀ x ∈ cb.onMessage, Keeps S x)
    (htrailers : Keeps S cb.onTrailers) (hclose : Keeps S cb.onClose) (chunk : Option PerlStr)
    (now : ℚ) : Keeps S (pushIncomingData S cb chunk now) := by
  refine Triple.bind (checkDeadline_keeps htrailers hclose now) fun _ => ?_
  refine Keeps.unlessClosed ?_
  split
  · exact Triple.pure fun w => InvOpen.inv S
  · refine Triple.read ?_
    intro w hw
    refine Triple.bind (Q := fun _ => InvOpen S) ?_ fun _ => ?_
    · exact Triple.weaken (note_same rfl fun _ => rfl) fun t ht => by
        subst ht
        exact hw
    · exact (deliver_keeps hmessage _).weaken fun w => InvOpen.inv S

theorem recordRequest_open (size : ℕ) :
    Triple (InvOpen S) (recordRequest S size) (fun _ => InvOpen S) (Inv S) := by
  unfold recordRequest
  split
  · exact Triple.pure fun w hw => hw
  · exact note_same rfl fun _ => rfl

theorem writeMessage_keeps (htrailers : Keeps S cb.onTrailers) (hclose : Keeps S cb.onClose)
    (msg : Option PerlStr) (endStream : Bool) (now : ℚ) :
    Keeps S (writeMessage S cb msg endStream now) := by
  refine Triple.bind (checkDeadline_keeps htrailers hclose now) fun _ => ?_
  refine Keeps.unlessClosed ?_
  refine Triple.bind (recordRequest_open _) fun _ => ?_
  refine Triple.bind (note_same rfl fun _ => rfl) fun _ => ?_
  refine Triple.onlyIf ?_ fun w => InvOpen.inv S
  -- the state `half_closed_remote`, which would close the stream here, is never entered
  have hend : Triple (InvOpen S) (note .wrote fun s =>
      { s with state := if s.state = .halfClosedRemote then .closed else .halfClosedLocal })
      (fun _ => InvOpen S) (Inv S) :=
    note_open rfl fun s _ hremote => by simp [hremote]
  intro w hw
  exact InvOpen.inv S (hend w hw)

theorem recvMessage_keeps (htrailers : Keeps S cb.onTrailers) (hclose : Keeps S cb.onClose)
    (now : ℚ) : Triple (Inv S) (recvMessage S cb now) (fun _ => Inv S) (Inv S) := by
  refine Triple.bind (checkDeadline_keeps htrailers hclose now) fun _ => ?_
  refine Triple.read ?_
  intro w hw
  refine Triple.bind (Q := fun _ => Inv S) ?_ fun _ => Triple.pure fun w hw => hw
  refine Triple.modify ?_
  rintro t rfl hg
  have hlaw := hw hg.before
  have hnoted := hlaw.noted (e := .received)
    (f := fun s => { s with responseQueue := s.responseQueue.tail })
    (fun hc => ⟨hc, rfl, rfl, rfl, fun h => absurd rfl h⟩) (by simp) hlaw.remote
  exact hnoted

/-- Every call keeps the law if the code of its callbacks does. -/
theorem perform_keeps (hmessage : ∀ x ∈ cb.onMessage, Keeps S x)
    (htrailers : Keeps S cb.onTrailers) (hclose : Keeps S cb.onClose) (c : Call) :
    Keeps S (c.perform S cb) := by
  cases c with
  | writeMessage msg endStream now => exact writeMessage_keeps htrailers hclose msg endStream now
  | closeWrite now => exact writeMessage_keeps htrailers hclose none true now
  | pushIncomingData chunk now =>
      exact pushIncomingData_keeps hmessage htrailers hclose chunk now
  | recvMessage now =>
      exact Triple.bind (recvMessage_keeps htrailers hclose now) fun _ =>
        Triple.pure fun w hw => hw
  | handleTrailers trailers => exact handleTrailers_keeps htrailers trailers
  | handleClose => exact handleClose_keeps hclose
  | checkDeadline now => exact checkDeadline_keeps htrailers hclose now
  | abortStream statusCode statusMsg =>
      exact abortStream_keeps htrailers hclose statusCode statusMsg

theorem body_keeps (acts : List Act) : Keeps S (Act.body S acts) := by
  refine Act.body_rule ?_ ?_ ?_ ?_ ?_ acts
  · exact Triple.pure fun w hw => hw
  · intro x y hx hy
    exact Triple.bind hx fun _ => hy
  · intro why
    exact Triple.throw fun w hw => hw
  · intro x hx
    exact Triple.tryCatch hx fun _ => Triple.pure fun w hw => hw
  · intro c cb hmessage htrailers hclose
    exact perform_keeps hmessage htrailers hclose c

end

/-- In every run from a new stream in which no unchecked step comes to a closed
stream, the law holds. -/
theorem lifecycle_of_guarded (S : Setup M) (acts : List Act)
    (h : Guarded (({} : World M).after S acts).history) :
    Lifecycle S (({} : World M).after S acts) := by
  have hstart : Inv S ({} : World M) := by
    intro _
    refine ⟨List.Pairwise.nil, List.IsChain.nil, by simp, ?_, by simp, by simp, by simp⟩
    simp [closeCount]
  have hlaw := (body_keeps acts).leaves hstart h
  exact ⟨hlaw.frozen, hlaw.queue, hlaw.closeArgs, hlaw.closes⟩

/-- A stream with all three callbacks, that takes payloads as they are. -/
def watched : Setup PerlStr :=
  { parse := .ok, onMessage := true, onTrailers := true, onClose := true }

/-- A callback that closes the stream on the last frame of its chunk. -/
theorem lifecycle_of_close_on_message :
    Lifecycle watched (({} : World PerlStr).after watched
      [.call (.pushIncomingData (some (packFrame (some (ps "a")) false)) 0)
        [[.plain .handleClose]] [] []]) :=
  lifecycle_of_guarded watched _ (by decide)

/-- `abort_stream` after the close changes the status and reports trailers; so does a
callback that closes the stream while frames are left. -/
theorem lifecycle_fails :
    ¬ Lifecycle watched (({} : World PerlStr).after watched
        [.plain .handleClose, .plain (.abortStream (some (.fin 8)) (some (ps "late")))]) ∧
    ¬ Lifecycle watched (({} : World PerlStr).after watched
        [.call (.pushIncomingData (some (packFrame (some (ps "a")) false ++
          packFrame (some (ps "b")) false)) 0) [[.plain .handleClose]] [] []]) := by
  constructor
  · intro h
    have hstatus := h.frozen.imp fun hm hc => (hm hc).status
    exact absurd hstatus (by decide)
  · intro h
    have hquiet := h.frozen.imp fun hm hc => (hm hc).quiet
    exact absurd hquiet (by decide)

end GooglePerl.Grpc
