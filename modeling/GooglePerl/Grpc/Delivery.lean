import GooglePerl.Grpc.Dispatch
import GooglePerl.Grpc.Reassembly

/-!
What the holders of streams receive while an engine feeds the channel.

A `Mailbox` says what a stream is to its holder: octets arrive until it is shut, the whole
frames among them are its messages, and each message is taken once. Over any run, with the
reports of an engine and the calls of the holders in any order, `recv_message` returns what
the mailbox of its stream gives (`received_in_order`).
-/

namespace GooglePerl.Grpc

open GooglePerl.Lib
open GooglePerl.Protobuf (PerlStr ps Die)

variable {M : Type}

/-! ### Using a channel -/

/-- The engine reports of a stream, or whoever holds a stream calls it; with the code that
the callbacks of the stream run during that. -/
inductive Use where
  | report (e : ChannelEvent)
  | call (sid : ℕ) (c : Call) (onMessage : List (List Act)) (onTrailers onClose : List Act)

namespace Use

def sid : Use → ℕ
  | .report e => e.sid
  | .call sid _ _ _ _ => sid

/-- The callbacks only look on. -/
def Quiet : Use → Prop
  | .report e => e.onMessage = [] ∧ e.onTrailers = [] ∧ e.onClose = []
  | .call _ _ onMessage onTrailers onClose => onMessage = [] ∧ onTrailers = [] ∧ onClose = []

/-- The code that runs, and what a `recv_message` returns. -/
def code (S : Setup M) : Use → Perl M (Option (Option M))
  | .report e => do
      e.code S
      return none
  | .call _ c onMessage onTrailers onClose =>
      let cb : Callbacks M :=
        ⟨Act.bodies S onMessage, Act.body S onTrailers, Act.body S onClose⟩
      match c with
      | .recvMessage now => do
          let message ← recvMessage S cb now
          return some message
      | c => do
          c.perform S cb
          return none

end Use

/-- A use of a stream. Dying gives no reply. -/
def Live.use (l : Live M) (u : Use) : Live M × Option (Option M) :=
  match u.code l.setup l.world with
  | .ok reply w => ({ l with world := w }, reply)
  | .error _ w => ({ l with world := w }, none)

/-- A use of the stream with its id, where the channel has one. -/
def useStream (streams : Streams M) (u : Use) : Streams M × (ℕ × Option (Option M)) :=
  match Assoc.find streams u.sid with
  | none => (streams, (u.sid, none))
  | some l => (Assoc.store streams u.sid (l.use u).1, (u.sid, (l.use u).2))

/-- What the calls of `recv_message` on a stream returned. -/
def received (sid : ℕ) (replies : List (ℕ × Option (Option M))) : List (Option M) :=
  replies.filterMap fun r => if r.1 = sid then r.2 else none

theorem received_concat (sid : ℕ) (replies : List (ℕ × Option (Option M)))
    (r : ℕ × Option (Option M)) :
    received sid (replies ++ [r]) =
      received sid replies ++ if r.1 = sid then r.2.toList else [] := by
  by_cases h : r.1 = sid
  · cases hr : r.2 <;> simp [received, h, hr]
  · simp [received, h]

theorem Live.use_report (l : Live M) (e : ChannelEvent) : (l.use (.report e)).1 = l.react e := by
  unfold Live.use Use.code Live.react leaves
  simp only [bind, EStateM.bind]
  cases e.code l.setup l.world <;> rfl

/-- A report of the engine is dispatched. -/
theorem useStream_report (streams : Streams M) (e : ChannelEvent) :
    (useStream streams (.report e)).1 = dispatch streams e := by
  unfold useStream dispatch
  cases hfind : Assoc.find streams e.sid with
  | none => simp [Use.sid, hfind]
  | some l => simp [Use.sid, hfind, Live.use_report]

/-- The uses of one stream happen to it, whatever is done with the others. -/
theorem run_useStream {streams : Streams M} {replies : List (ℕ × Option (Option M))} {sid : ℕ}
    {l : Live M} {rs : List (Option (Option M))} (hfind : Assoc.find streams sid = some l)
    (hreplies : received sid replies = rs.filterMap id) (uses : List Use) :
    Assoc.find (run (logged useStream) (streams, replies) uses).1 sid =
        some (run (logged Live.use) (l, rs) (uses.filter fun u => u.sid = sid)).1 ∧
      received sid (run (logged useStream) (streams, replies) uses).2 =
        (run (logged Live.use) (l, rs) (uses.filter fun u => u.sid = sid)).2.filterMap id := by
  induction uses generalizing streams replies l rs with
  | nil => exact ⟨hfind, hreplies⟩
  | cons u uses ih =>
      by_cases hsid : u.sid = sid
      · have hstep : logged useStream (streams, replies) u =
            (Assoc.store streams sid (l.use u).1, replies ++ [(sid, (l.use u).2)]) := by
          simp [logged, useStream, hsid, hfind]
        rw [List.filter_cons_of_pos (by simpa using hsid), run_cons, run_cons, hstep]
        refine ih ?_ ?_
        · simp
        · rw [received_concat, hreplies]
          cases (l.use u).2 <;> simp
      · obtain ⟨streams', r, hstep, hkept⟩ : ∃ streams' r,
            useStream streams u = (streams', (u.sid, r)) ∧ Assoc.find streams' sid = some l := by
          unfold useStream
          cases hother : Assoc.find streams u.sid with
          | none => exact ⟨_, _, rfl, hfind⟩
          | some l' => exact ⟨_, _, rfl, by simpa [Assoc.find_store, Ne.symm hsid] using hfind⟩
        rw [List.filter_cons_of_neg (by simpa using hsid), run_cons, logged, hstep]
        refine ih hkept ?_
        rw [received_concat, if_neg hsid, List.append_nil]
        exact hreplies

/-! ### What a stream is to its holder -/

/-- Octets that arrive until the stream is shut, and how many of their messages were taken. -/
structure Mailbox where
  arrived : PerlStr := []
  taken : ℕ := 0
  shut : Bool := false

namespace Mailbox

variable (S : Setup M) (f : PerlStr → M)

/-- The messages of the whole frames. -/
def messages (mb : Mailbox) : List M := (unpackFrame mb.arrived).1.map fun frame => f frame.payload

/-- Time passes: behind the deadline the stream is shut. -/
def tick (mb : Mailbox) (now : ℚ) : Mailbox := { mb with shut := mb.shut || S.expired now }

def put (mb : Mailbox) (chunk : PerlStr) (now : ℚ) : Mailbox :=
  let mb := mb.tick S now
  if mb.shut then mb else { mb with arrived := mb.arrived ++ chunk }

/-- The next message, also of a stream that is shut. -/
def take (mb : Mailbox) (now : ℚ) : Mailbox × Option M :=
  ({ mb.tick S now with taken := min (mb.taken + 1) (mb.messages f).length },
    (mb.messages f)[mb.taken]?)

def close (mb : Mailbox) : Mailbox := { mb with shut := true }

def use (mb : Mailbox) : Use → Mailbox × Option (Option M)
  | .report e =>
      match e.report with
      | .headers _ | .trailers _ => (mb, none)
      | .data chunk now => (mb.put S (chunk.getD []) now, none)
      | .close _ => (mb.close, none)
      | .checkDeadline now => (mb.tick S now, none)
  | .call _ c _ _ _ =>
      match c with
      | .writeMessage _ _ now | .closeWrite now | .checkDeadline now => (mb.tick S now, none)
      | .pushIncomingData chunk now => (mb.put S (chunk.getD []) now, none)
      | .recvMessage now => ((mb.take S f now).1, some (mb.take S f now).2)
      | .handleTrailers _ => (mb, none)
      | .handleClose | .abortStream _ _ => (mb.close, none)

end Mailbox

/-- The stream holds what is in the mailbox and was not taken. -/
structure Holds (f : PerlStr → M) (mb : Mailbox) (s : Stream M) : Prop where
  shut : s.state = .closed ↔ mb.shut = true
  -- no method sets this state, so that a last write never closes the stream
  remote : s.state ≠ .halfClosedRemote
  buffer : s.readBuffer = (unpackFrame mb.arrived).2
  queue : s.responseQueue = (mb.messages f).drop mb.taken
  taken : mb.taken ≤ (mb.messages f).length

theorem holds_initial (f : PerlStr → M) : Holds f {} {} where
  shut := by simp
  remote := by simp
  buffer := by simp [unpackFrame, Extractor.drain, Extractor.drainTurns]
  queue := by simp [Mailbox.messages, unpackFrame, Extractor.drain, Extractor.drainTurns]
  taken := by simp

namespace Holds

variable {S : Setup M} {f : PerlStr → M} {mb : Mailbox} {s : Stream M}

theorem close (h : Holds f mb s) : Holds f mb.close { s with state := .closed } :=
  ⟨by simp [Mailbox.close], by simp, h.buffer, h.queue, h.taken⟩

/-- A stream that is shut takes no notice of the time. -/
theorem tick_of_closed (h : Holds f mb s) (hclosed : s.state = .closed) (now : ℚ) :
    mb.tick S now = mb := by
  have hshut := h.shut.mp hclosed
  obtain ⟨arrived, taken, shut⟩ := mb
  simp_all [Mailbox.tick]

theorem tick_of_not_expired {now : ℚ} (h : S.expired now = false) : mb.tick S now = mb := by
  simp [Mailbox.tick, h]

theorem tick_of_expired {now : ℚ} (h : S.expired now = true) : mb.tick S now = mb.close := by
  simp [Mailbox.tick, Mailbox.close, h]

/-- The frames that a chunk makes whole go on the queue. -/
theorem arrive (h : Holds f mb s) (chunk : PerlStr) :
    Holds f { mb with arrived := mb.arrived ++ chunk }
      { s with
        readBuffer := (unpackFrame (s.readBuffer ++ chunk)).2
        responseQueue := s.responseQueue ++
          (unpackFrame (s.readBuffer ++ chunk)).1.map fun frame => f frame.payload } := by
  have hdrain : unpackFrame (mb.arrived ++ chunk) =
      ((unpackFrame mb.arrived).1 ++ (unpackFrame (s.readBuffer ++ chunk)).1,
        (unpackFrame (s.readBuffer ++ chunk)).2) := by
    rw [h.buffer]
    exact frameExtractor.drain_append mb.arrived chunk
  have hmessages : Mailbox.messages f { mb with arrived := mb.arrived ++ chunk } =
      mb.messages f ++
        (unpackFrame (s.readBuffer ++ chunk)).1.map fun frame => f frame.payload := by
    simp [Mailbox.messages, hdrain]
  refine ⟨h.shut, h.remote, ?_, ?_, ?_⟩
  · rw [hdrain]
  · rw [hmessages, List.drop_append_of_le_length h.taken, h.queue]
  · rw [hmessages, List.length_append]
    exact Nat.le_add_right_of_le h.taken

/-- The head of the queue is taken. -/
theorem take (h : Holds f mb s) :
    Holds f { mb with taken := min (mb.taken + 1) (mb.messages f).length }
      { s with responseQueue := s.responseQueue.tail } := by
  refine ⟨h.shut, h.remote, h.buffer, ?_, Nat.min_le_right _ _⟩
  have htaken := h.taken
  show s.responseQueue.tail = (mb.messages f).drop (min (mb.taken + 1) (mb.messages f).length)
  rw [h.queue, List.tail_drop]
  rcases Nat.lt_or_ge mb.taken (mb.messages f).length with hlt | hge
  · rw [Nat.min_eq_left hlt]
  · rw [List.drop_eq_nil_of_le (by omega), List.drop_eq_nil_of_le (by omega)]

end Holds

/-! ### The methods -/

section Methods

variable {S : Setup M} {f : PerlStr → M} {mb : Mailbox}

/-- Code that returns `r` and brings the stream from one mailbox to another. -/
abbrev Brings {α : Type} (f : PerlStr → M) (mb : Mailbox) (x : Perl M α) (mb' : Mailbox) (r : α) :
    Prop :=
  Triple (fun w => Holds f mb w.stream) x (fun a w => a = r ∧ Holds f mb' w.stream)
    fun _ => False

theorem Brings.note {mb' : Mailbox} {e : Event M} {g : Stream M → Stream M}
    (h : ∀ s, Holds f mb s → Holds f mb' (g s)) : Brings f mb (note e g) mb' () :=
  Triple.note fun w hw => ⟨rfl, h w.stream hw⟩

theorem Brings.seq {α : Type} {mb' mb'' : Mailbox} {x : Perl M Unit} {y : Perl M α} {r : α}
    (hx : Brings f mb x mb' ()) (hy : Brings f mb' y mb'' r) : Brings f mb (do x; y) mb'' r :=
  Triple.bind hx fun _ => hy.weaken fun _ hw => hw.2

theorem Brings.returns {α : Type} (r : α) : Brings f mb (pure r) mb r :=
  Triple.pure fun _ hw => ⟨rfl, hw⟩

/-- A callback that only looks on. -/
theorem brings_callback (set : Bool) (e : Event M) : Brings f mb (callback set e (pure ())) mb () := by
  cases set with
  | false => exact Brings.returns ()
  | true => exact (Brings.note fun _ hs => hs).seq (Brings.returns ())

theorem brings_handleClose : Brings f mb (handleClose S onlookers) mb.close () := by
  refine Triple.read fun w hw => ?_
  split
  · rename_i hclosed
    refine Triple.pure fun t ht => ⟨rfl, ?_⟩
    have hclose := hw.close
    rwa [ht, show w.stream = { w.stream with state := .closed } by rw [← hclosed]]
  · refine Triple.weaken (P := fun w => Holds f mb w.stream) ?_ fun t ht => ht ▸ hw
    refine (Brings.note fun s hs => hs.close).seq ?_
    exact Triple.read fun w hw => (brings_callback _ _).weaken fun t ht => ht ▸ hw

/-- It writes attributes that say nothing of the mailbox. -/
def Aside (g : Stream M → Stream M) : Prop :=
  ∀ s, (g s).state = s.state ∧ (g s).readBuffer = s.readBuffer ∧
    (g s).responseQueue = s.responseQueue

theorem brings_aside {e : Event M} {g : Stream M → Stream M} (hg : Aside g) :
    Brings f mb (Grpc.note e g) mb () := by
  refine Brings.note fun s hs => ?_
  obtain ⟨hstate, hbuffer, hqueue⟩ := hg s
  exact ⟨by rw [hstate, hs.shut], by rw [hstate]; exact hs.remote, by rw [hbuffer, hs.buffer],
    by rw [hqueue, hs.queue], hs.taken⟩

theorem brings_abortStream (statusCode : Option FloatVal) (statusMsg : Option PerlStr) :
    Brings f mb (abortStream S onlookers statusCode statusMsg) mb.close () := by
  unfold abortStream
  refine Brings.seq (brings_aside (by exact fun _ => ⟨rfl, rfl, rfl⟩)) ?_
  refine Brings.seq (brings_aside (by exact fun _ => ⟨rfl, rfl, rfl⟩)) ?_
  refine Brings.seq (brings_aside (by exact fun _ => ⟨rfl, rfl, rfl⟩)) ?_
  exact (brings_callback _ _).seq brings_handleClose

theorem brings_checkDeadline (now : ℚ) :
    Brings f mb (checkDeadline S onlookers now) (mb.tick S now) () := by
  refine Triple.read fun w hw => ?_
  split
  · rename_i hclosed
    rw [hw.tick_of_closed hclosed]
    exact Triple.pure fun t ht => ⟨rfl, ht ▸ hw⟩
  · refine Triple.weaken (P := fun w => Holds f mb w.stream) ?_ fun t ht => ht ▸ hw
    cases hexpired : S.expired now with
    | false =>
        rw [Holds.tick_of_not_expired hexpired]
        exact Brings.returns ()
    | true =>
        rw [Holds.tick_of_expired hexpired]
        exact brings_abortStream _ _

theorem brings_onlyIf {c : Bool} {x : Perl M Unit} (h : Brings f mb x mb ()) :
    Brings f mb (onlyIf c x) mb () := by
  cases c with
  | false => exact Brings.returns ()
  | true => exact h

/-- Code that the closed stream skips. -/
theorem brings_unlessClosed {mb' : Mailbox} {x : Perl M Unit} (hshut : mb.shut = true → mb' = mb)
    (hx : mb.shut = false → Brings f mb x mb' ()) : Brings f mb (unlessClosed x) mb' () := by
  refine Triple.read fun w hw => ?_
  split
  · rename_i hclosed
    rw [hshut (hw.shut.mp hclosed)]
    exact Triple.pure fun t ht => ⟨rfl, ht ▸ hw⟩
  · rename_i hopen
    exact (hx (by simpa using mt hw.shut.mpr hopen)).weaken fun t ht => ht ▸ hw

theorem brings_handleTrailers (trailers : Headers) :
    Brings f mb (handleTrailers S onlookers trailers) mb () := by
  refine brings_unlessClosed (fun _ => rfl) fun _ => ?_
  refine Brings.seq (brings_aside (by exact fun _ => ⟨rfl, rfl, rfl⟩)) ?_
  refine Brings.seq (brings_aside (by exact fun _ => ⟨rfl, rfl, rfl⟩)) ?_
  refine Brings.seq (brings_onlyIf (brings_aside (by exact fun _ => ⟨rfl, rfl, rfl⟩))) ?_
  exact brings_callback _ _

/-- The loop over the frames of a chunk, where the response class takes every payload. -/
theorem deliver_total (hparse : ∀ p, S.parse p = .ok (f p)) (frames : List Frame)
    (s : Stream M) :
    Triple (fun w => w.stream = s) (deliver S [] frames)
      (fun _ w => w.stream = { s with
        responseQueue := s.responseQueue ++ frames.map fun frame => f frame.payload })
      fun _ => False := by
  induction frames generalizing s with
  | nil => exact Triple.pure fun w hw => by simpa using hw
  | cons frame frames ih =>
      let queued : Stream M := { s with responseQueue := s.responseQueue ++ [f frame.payload] }
      have htail := ih queued
      simp only [deliver, hparse]
      refine Triple.bind (Q := fun _ w => w.stream = s) (Triple.note fun w hw => hw) fun _ => ?_
      refine Triple.bind (Q := fun _ w => w.stream = queued)
        (Triple.note fun w hw => by rw [noted_stream, hw]) fun _ => ?_
      refine Triple.bind (Q := fun _ w => w.stream = queued) ?_ fun _ => ?_
      · refine Triple.onlyIf (Triple.bind (Q := fun _ w => w.stream = queued) ?_ fun _ => ?_) ?_
        · exact Triple.note fun w hw => hw
        · exact Triple.pure fun w hw => hw
        · exact fun w hw => hw
      · simpa [queued] using htail

theorem brings_pushIncomingData (hparse : ∀ p, S.parse p = .ok (f p)) (chunk : Option PerlStr)
    (now : ℚ) :
    Brings f mb (pushIncomingData S onlookers chunk now) (mb.put S (chunk.getD []) now) () := by
  refine (brings_checkDeadline now).seq ?_
  refine brings_unlessClosed (fun hshut => by simp [Mailbox.put, hshut]) fun hopen => ?_
  have hput : mb.put S (chunk.getD []) now =
      { mb.tick S now with arrived := (mb.tick S now).arrived ++ chunk.getD [] } := by
    simp [Mailbox.put, hopen]
  rw [hput]
  split
  · rename_i hnil
    rw [hnil, List.append_nil]
    exact Brings.returns ()
  · refine Triple.read fun w hw => ?_
    refine Triple.bind (Q := fun _ w' => w'.stream =
      { w.stream with readBuffer := (unpackFrame (w.stream.readBuffer ++ chunk.getD [])).2 })
      (Triple.note fun t ht => by rw [ht]; rfl) fun _ => ?_
    refine (deliver_total hparse _ _).strengthen (fun _ t ht => ⟨rfl, ?_⟩) fun _ h => h
    rw [ht]
    exact hw.arrive (chunk.getD [])

theorem brings_recvMessage (now : ℚ) :
    Brings f mb (recvMessage S onlookers now) (mb.take S f now).1 (mb.take S f now).2 := by
  refine Triple.bind (brings_checkDeadline now) fun _ => ?_
  refine Triple.read fun w hw => ?_
  refine Triple.bind (Q := fun _ t => t.stream =
    { w.stream with responseQueue := w.stream.responseQueue.tail })
    (Triple.note fun t ht => by rw [ht]; rfl) fun _ => ?_
  refine Triple.pure fun t ht => ⟨?_, ?_⟩
  · rw [hw.2.queue, List.head?_drop]
    rfl
  · rw [ht]
    exact hw.2.take

theorem brings_writeMessage (msg : Option PerlStr) (endStream : Bool) (now : ℚ) :
    Brings f mb (writeMessage S onlookers msg endStream now) (mb.tick S now) () := by
  refine (brings_checkDeadline now).seq ?_
  refine brings_unlessClosed (fun _ => rfl) fun hopen => ?_
  refine Brings.seq (?_ : Brings f (mb.tick S now) _ (mb.tick S now) ())
    (Brings.seq (brings_aside (by exact fun _ => ⟨rfl, rfl, rfl⟩)) ?_)
  · unfold recordRequest
    split
    · exact Brings.returns ()
    · exact brings_aside (by exact fun _ => ⟨rfl, rfl, rfl⟩)
  · refine brings_onlyIf (Brings.note fun s hs => ?_)
    rw [if_neg hs.remote]
    have hclosed : s.state ≠ .closed := fun h => by simpa [hopen] using hs.shut.mp h
    exact ⟨by simp [hopen], by simp, hs.buffer, hs.queue, hs.taken⟩

/-- Every use of the stream, where its callbacks only look on. -/
theorem brings_use (hparse : ∀ p, S.parse p = .ok (f p)) {u : Use} (hquiet : u.Quiet) :
    Brings f mb (u.code S) (mb.use S f u).1 (mb.use S f u).2 := by
  cases u with
  | report e =>
      obtain ⟨sid, report, onMessage, onTrailers, onClose⟩ := e
      obtain ⟨rfl, rfl, rfl⟩ := hquiet
      cases report with
      | headers hs =>
          exact (brings_aside (by exact fun _ => ⟨rfl, rfl, rfl⟩)).seq (Brings.returns _)
      | data chunk now => exact (brings_pushIncomingData hparse chunk now).seq (Brings.returns _)
      | trailers hs => exact (brings_handleTrailers hs).seq (Brings.returns _)
      | close code => exact brings_handleClose.seq (Brings.returns _)
      | checkDeadline now => exact (brings_checkDeadline now).seq (Brings.returns _)
  | call sid c onMessage onTrailers onClose =>
      obtain ⟨rfl, rfl, rfl⟩ := hquiet
      cases c with
      | writeMessage msg endStream now =>
          exact (brings_writeMessage msg endStream now).seq (Brings.returns _)
      | closeWrite now => exact (brings_writeMessage none true now).seq (Brings.returns _)
      | pushIncomingData chunk now =>
          exact (brings_pushIncomingData hparse chunk now).seq (Brings.returns _)
      | recvMessage now =>
          refine Triple.bind (brings_recvMessage now) fun m => ?_
          exact Triple.pure fun w hw => ⟨congrArg some hw.1, hw.2⟩
      | handleTrailers hs => exact (brings_handleTrailers hs).seq (Brings.returns _)
      | handleClose => exact brings_handleClose.seq (Brings.returns _)
      | checkDeadline now => exact (brings_checkDeadline now).seq (Brings.returns _)
      | abortStream statusCode statusMsg =>
          exact (brings_abortStream statusCode statusMsg).seq (Brings.returns _)

end Methods

/-! ### Runs -/

/-- A stream and its mailbox, with the replies of both. -/
structure Follows (S : Setup M) (f : PerlStr → M) (l : Live M × List (Option (Option M)))
    (mb : Mailbox × List (Option (Option M))) : Prop where
  setup : l.1.setup = S
  holds : Holds f mb.1 l.1.world.stream
  replies : l.2 = mb.2

theorem Follows.use {S : Setup M} {f : PerlStr → M} (hparse : ∀ p, S.parse p = .ok (f p))
    {l : Live M × List (Option (Option M))} {mb : Mailbox × List (Option (Option M))}
    (h : Follows S f l mb) {u : Use} (hquiet : u.Quiet) :
    Follows S f (logged Live.use l u) (logged (Mailbox.use S f) mb u) := by
  obtain ⟨l, rs⟩ := l
  obtain ⟨hsetup, hholds, hreplies⟩ := h
  obtain ⟨r, w', hrun, rfl, hw'⟩ := Triple.returns (brings_use hparse hquiet) hholds
  have huse : l.use u = ({ l with world := w' }, (mb.1.use S f u).2) := by
    rw [Live.use, show l.setup = S from hsetup, hrun]
  exact ⟨by simpa [logged, huse] using hsetup, by simpa [logged, huse] using hw',
    by simpa [logged, huse] using hreplies⟩

/-- What was taken is the first of the messages. -/
def TookFirst (f : PerlStr → M) (mb : Mailbox × List (Option (Option M))) : Prop :=
  mb.1.taken ≤ (mb.1.messages f).length ∧
    (mb.2.filterMap id).filterMap id = (mb.1.messages f).take mb.1.taken

theorem messages_put (S : Setup M) (f : PerlStr → M) (mb : Mailbox) (chunk : PerlStr) (now : ℚ) :
    mb.messages f <+: (mb.put S chunk now).messages f ∧
      (mb.put S chunk now).taken = mb.taken := by
  unfold Mailbox.put
  dsimp only
  split
  · exact ⟨List.prefix_rfl, rfl⟩
  · refine ⟨?_, rfl⟩
    have hdrain := frameExtractor.drain_append mb.arrived chunk
    simp [Mailbox.messages, Mailbox.tick, unpackFrame, hdrain]

theorem TookFirst.use {S : Setup M} {f : PerlStr → M}
    {mb : Mailbox × List (Option (Option M))} (h : TookFirst f mb) (u : Use) :
    TookFirst f (logged (Mailbox.use S f) mb u) := by
  obtain ⟨mb, rs⟩ := mb
  obtain ⟨hlen, htook⟩ := h
  dsimp only at hlen htook
  -- a use that keeps the messages, or adds to them, and gives no reply
  have hkeep : ∀ mb' : Mailbox, mb.messages f <+: mb'.messages f → mb'.taken = mb.taken →
      TookFirst f (mb', rs ++ [none]) := by
    intro mb' hmore htaken
    refine ⟨by rw [htaken]; exact hlen.trans hmore.length_le, ?_⟩
    obtain ⟨more, hmore⟩ := hmore
    simp only [← hmore, htaken, List.take_append_of_le_length hlen]
    simpa using htook
  have htake : ∀ now, TookFirst f ((mb.take S f now).1, rs ++ [some (mb.take S f now).2]) := by
    intro now
    have hmessages : (mb.take S f now).1.messages f = mb.messages f := rfl
    refine ⟨by rw [hmessages]; exact Nat.min_le_right _ _, ?_⟩
    have hreply : ((rs ++ [some (mb.messages f)[mb.taken]?]).filterMap id).filterMap id =
        (mb.messages f).take (mb.taken + 1) := by
      rw [List.take_add_one, ← htook]
      cases (mb.messages f)[mb.taken]? <;> simp
    rw [hmessages]
    show ((rs ++ [some (mb.messages f)[mb.taken]?]).filterMap id).filterMap id =
      (mb.messages f).take (min (mb.taken + 1) (mb.messages f).length)
    rw [hreply, ← List.take_eq_take_min]
  cases u with
  | report e =>
      cases hr : e.report with
      | headers hs => simpa [logged, Mailbox.use, hr] using hkeep mb List.prefix_rfl rfl
      | data chunk now =>
          obtain ⟨hmore, htaken⟩ := messages_put S f mb (chunk.getD []) now
          simpa [logged, Mailbox.use, hr] using hkeep _ hmore htaken
      | trailers hs => simpa [logged, Mailbox.use, hr] using hkeep mb List.prefix_rfl rfl
      | close code => simpa [logged, Mailbox.use, hr] using hkeep mb.close List.prefix_rfl rfl
      | checkDeadline now =>
          simpa [logged, Mailbox.use, hr] using hkeep (mb.tick S now) List.prefix_rfl rfl
  | call sid c _ _ _ =>
      cases c with
      | writeMessage msg endStream now => exact hkeep (mb.tick S now) List.prefix_rfl rfl
      | closeWrite now => exact hkeep (mb.tick S now) List.prefix_rfl rfl
      | pushIncomingData chunk now =>
          obtain ⟨hmore, htaken⟩ := messages_put S f mb (chunk.getD []) now
          exact hkeep _ hmore htaken
      | recvMessage now => exact htake now
      | handleTrailers hs => exact hkeep mb List.prefix_rfl rfl
      | handleClose => exact hkeep mb.close List.prefix_rfl rfl
      | checkDeadline now => exact hkeep (mb.tick S now) List.prefix_rfl rfl
      | abortStream statusCode statusMsg => exact hkeep mb.close List.prefix_rfl rfl

/-- Whole frames are unpacked as they were packed. -/
theorem unpackFrame_packed {payloads : List (PerlStr × Bool)}
    (hlen : ∀ p ∈ payloads, p.1.length < 2 ^ 32) :
    unpackFrame (payloads.map packed).flatten = (payloads.map fun p => framed p.1 p.2, []) := by
  have hreads : ∀ i ∈ payloads.map fun p => framed p.1 p.2,
      frameExtractor.Reads Frame.octets i := by
    intro i hi
    obtain ⟨p, hp, rfl⟩ := List.mem_map.mp hi
    exact reads_octets (hlen p hp)
  have hdrain := Extractor.drain_flatten hreads []
  have hnil : frameExtractor.drain [] = ([], []) := rfl
  rw [List.append_nil, List.map_map, hnil, List.append_nil] at hdrain
  exact hdrain

/-- The mailbox of a new stream after a list of uses, and its replies. -/
def mailbox (S : Setup M) (f : PerlStr → M) (uses : List Use) :
    Mailbox × List (Option (Option M)) :=
  run (logged (Mailbox.use S f)) ({}, []) uses

/-- A stream that was just made on a channel, whose response class takes every payload and
whose callbacks only look on, while the engine reports of any streams and their holders call
them in any order: each `recv_message` returns what the mailbox gives. So the messages that
were received, and after them those on the queue, are the messages of the whole frames that
came before the stream was shut, each once and in order. -/
theorem received_in_order (streams : Streams M) (uses : List Use) (sid : ℕ) (S : Setup M)
    (f : PerlStr → M) (hfind : Assoc.find streams sid = some { setup := S })
    (hparse : ∀ p, S.parse p = .ok (f p)) (hquiet : ∀ u ∈ uses, u.sid = sid → u.Quiet) :
    received sid (run (logged useStream) (streams, []) uses).2 =
        (mailbox S f (uses.filter fun u => u.sid = sid)).2.filterMap id ∧
      ∃ l, Assoc.find (run (logged useStream) (streams, []) uses).1 sid = some l ∧
        (received sid (run (logged useStream) (streams, []) uses).2).filterMap id ++
            l.world.stream.responseQueue =
          (mailbox S f (uses.filter fun u => u.sid = sid)).1.messages f ∧
        ∀ payloads : List (PerlStr × Bool), (∀ p ∈ payloads, p.1.length < 2 ^ 32) →
          (mailbox S f (uses.filter fun u => u.sid = sid)).1.arrived =
            (payloads.map packed).flatten →
          (received sid (run (logged useStream) (streams, []) uses).2).filterMap id ++
            l.world.stream.responseQueue = payloads.map fun p => f p.1 := by
  let own := uses.filter fun u => u.sid = sid
  have hown : ∀ u ∈ own, u.Quiet := by
    intro u hu
    obtain ⟨hu, hsid⟩ := List.mem_filter.mp hu
    exact hquiet u hu (by simpa using hsid)
  obtain ⟨hstream, hreceived⟩ :=
    run_useStream hfind (show received sid [] = ([] : List (Option (Option M))).filterMap id from rfl)
      uses
  have hfollows : Follows S f (run (logged Live.use) ({ setup := S }, []) own)
      (mailbox S f own) := by
    have hsim := @run_simulation _ _ _ _ (logged Live.use) (logged (Mailbox.use S f)) _ id
      (Follows S f) (fun l mb u h (hu : u.Quiet) => h.use hparse hu) ({ setup := S }, []) ({}, [])
      own ⟨rfl, holds_initial f, rfl⟩ (allowed_of_forall hown _)
    simpa [mailbox] using hsim
  have htook : TookFirst f (mailbox S f own) :=
    run_invariant (TookFirst f) (fun mb u h _ => h.use u) ⟨by simp, by simp [Mailbox.messages]⟩
      (allowed_of_forall hown _)
  have hreplies : received sid (run (logged useStream) (streams, []) uses).2 =
      (mailbox S f own).2.filterMap id := hreceived.trans (congrArg _ hfollows.replies)
  have hall : (received sid (run (logged useStream) (streams, []) uses).2).filterMap id ++
      (run (logged Live.use) ({ setup := S }, []) own).1.world.stream.responseQueue =
        (mailbox S f own).1.messages f := by
    rw [hreplies, htook.2, hfollows.holds.queue, List.take_append_drop]
  refine ⟨hreplies, _, hstream, hall, ?_⟩
  intro payloads hlen harrived
  rw [hall, Mailbox.messages, harrived, unpackFrame_packed hlen, List.map_map]
  rfl

/-- Two streams, their frames cut and mixed; the first one takes a message early. -/
theorem received_in_order_of_two :
    let S : Setup PerlStr := { parse := .ok }
    let uses : List Use :=
      [.report ⟨1, .data (some [0, 0, 0, 0]) 0, [], [], []⟩,
        .report ⟨3, .data (some (packFrame (some (ps "x")) false)) 0, [], [], []⟩,
        .call 1 (.recvMessage 1) [] [] [],
        .report ⟨1, .data (some ([1] ++ ps "a" ++ packFrame (some (ps "b")) true)) 2, [], [], []⟩,
        .report ⟨1, .trailers (.array []), [], [], []⟩, .report ⟨1, .close 0, [], [], []⟩,
        .call 1 (.recvMessage 3) [] [] []]
    received 1 (run (logged useStream) ([(1, { setup := S }), (3, { setup := S })], []) uses).2 =
        [none, some (ps "a")] ∧
      ∃ l, Assoc.find (run (logged useStream)
          ([(1, { setup := S }), (3, { setup := S })], []) uses).1 1 = some l ∧
        [ps "a"] ++ l.world.stream.responseQueue = [ps "a", ps "b"] := by
  intro S uses
  obtain ⟨hreceived, l, hl, hall, -⟩ := received_in_order [(1, { setup := S }), (3, { setup := S })] uses 1
    S id rfl (fun _ => rfl) (by simp [uses, Use.Quiet])
  have hmailbox : (mailbox S id (uses.filter fun u => u.sid = 1)).2.filterMap id =
      [none, some (ps "a")] := by decide
  refine ⟨hreceived.trans hmailbox, l, hl, ?_⟩
  rw [hreceived, hmailbox] at hall
  exact hall.trans (by decide)

end GooglePerl.Grpc
