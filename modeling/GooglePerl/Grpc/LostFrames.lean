import GooglePerl.Grpc.Stream

/-!
Frames that are lost behind one that fails.

`push_incoming_data` takes all whole frames out of the read buffer before it comes to the
first of them. Where the parser or `on_message` dies, the loop ends, and what the loop had
not come to is in no buffer any more (`noneLost_iff`).
-/

namespace GooglePerl.Grpc

open GooglePerl.Lib
open GooglePerl.Protobuf (PerlStr ps Die)

variable {M : Type}

/-! ### What a chunk brings -/

/-- A chunk, the clock as it comes, and how each call of `on_message` for it ends. -/
structure Chunk where
  octets : PerlStr
  now : ℚ
  ends : List (Option Die)

/-- The code of a call of `on_message` that returns or dies. -/
def ending (e : Option Die) : List Act := e.toList.map .die

/-- The chunk is pushed by code that goes on when the call dies. -/
def Chunk.feed (c : Chunk) : Act :=
  .eval [.call (.pushIncomingData (some c.octets) c.now) (c.ends.map ending) [] []]

/-- The loop goes on behind this frame. -/
def Setup.goesOn (S : Setup M) (e : Option Die) (f : Frame) : Bool :=
  (S.parse f.payload).isOk && !(S.onMessage && e.isSome)

/-- The messages of the frames that can be parsed. -/
def Setup.parsed (S : Setup M) (frames : List Frame) : List M :=
  frames.filterMap fun f => (S.parse f.payload).toOption

/-- The frames that the loop comes to. -/
def Setup.taken (S : Setup M) : List (Option Die) → List Frame → List Frame
  | _, [] => []
  | es, f :: fs => f :: if S.goesOn (es.headD none) f then S.taken es.tail fs else []

/-- The frame that the loop came to. -/
def Event.turned : Event M → Option PerlStr
  | .turn payload => some payload
  | _ => none

/-- The frames that loops came to so far. -/
def World.turns (w : World M) : List PerlStr := w.history.filterMap fun m => m.event.turned

@[simp] theorem noted_turns (w : World M) (e : Event M) (f : Stream M → Stream M) :
    (w.noted e f).turns = w.turns ++ e.turned.toList := by
  cases ht : e.turned <;> simp [World.turns, ht]

/-! ### The loop -/

theorem bodies_headD (S : Setup M) (es : List (Option Die)) :
    (Act.bodies S (es.map ending)).headD (pure ()) = Act.body S (ending (es.headD none)) := by
  cases es <;> rfl

theorem bodies_tail (S : Setup M) (es : List (Option Die)) :
    (Act.bodies S (es.map ending)).tail = Act.bodies S (es.tail.map ending) := by
  cases es <;> rfl

/-- What the world is when the loop goes on behind a frame. -/
def World.delivered (S : Setup M) (w : World M) (f : Frame) (message : M) : World M :=
  let queued := (w.noted (.turn f.payload) id).noted .wrote fun s =>
    { s with responseQueue := s.responseQueue ++ [message] }
  if S.onMessage then queued.noted (.onMessage message) id else queued

theorem delivered_stream (S : Setup M) (w : World M) (f : Frame) (message : M) :
    (w.delivered S f message).stream =
      { w.stream with responseQueue := w.stream.responseQueue ++ [message] } := by
  unfold World.delivered
  cases S.onMessage <;> rfl

theorem delivered_turns (S : Setup M) (w : World M) (f : Frame) (message : M) :
    (w.delivered S f message).turns = w.turns ++ [f.payload] := by
  unfold World.delivered
  cases S.onMessage <;> simp [Event.turned]

theorem leaves_deliver_of_error {S : Setup M} {f : Frame} {why : Die}
    (h : S.parse f.payload = .error why) (codes : List (Perl M Unit)) (frames : List Frame)
    (w : World M) :
    leaves (deliver S codes (f :: frames)) w = w.noted (.turn f.payload) id := by
  rw [deliver, h, leaves, bind_of_ok (note_eq _ _ w)]
  rfl

theorem leaves_deliver_of_ok {S : Setup M} {f : Frame} {m : M} (h : S.parse f.payload = .ok m)
    (es : List (Option Die)) (frames : List Frame) (w : World M) :
    leaves (deliver S (Act.bodies S (es.map ending)) (f :: frames)) w =
      if S.goesOn (es.headD none) f then
        leaves (deliver S (Act.bodies S (es.tail.map ending)) frames) (w.delivered S f m)
      else w.delivered S f m := by
  rw [deliver, h, leaves, bind_of_ok (note_eq _ _ w)]
  dsimp only
  rw [bind_of_ok (note_eq _ _ _), bodies_headD, bodies_tail]
  cases hset : S.onMessage with
  | false =>
      rw [show S.goesOn (es.headD none) f = true by
        simp [Setup.goesOn, h, hset, Except.isOk, Except.toBool]]
      simp only [World.delivered, hset]
      rfl
  | true =>
      have hgoes : S.goesOn (es.headD none) f = !(es.headD none).isSome := by
        simp [Setup.goesOn, h, hset, Except.isOk, Except.toBool]
      rw [hgoes]
      simp only [World.delivered, hset]
      cases es.headD none <;> rfl

/-- The loop takes frames until one of them fails; that one had its turn. -/
theorem leaves_deliver (S : Setup M) (es : List (Option Die)) (frames : List Frame) (w : World M) :
    (leaves (deliver S (Act.bodies S (es.map ending)) frames) w).stream =
        { w.stream with
          responseQueue := w.stream.responseQueue ++ S.parsed (S.taken es frames) } ∧
      (leaves (deliver S (Act.bodies S (es.map ending)) frames) w).turns =
        w.turns ++ (S.taken es frames).map Frame.payload := by
  induction frames generalizing es w with
  | nil => simp [deliver, Setup.taken, Setup.parsed]
  | cons f frames ih =>
      rw [Setup.taken]
      cases hparse : S.parse f.payload with
      | error why =>
          have hstop : S.goesOn (es.headD none) f = false := by
            simp [Setup.goesOn, hparse, Except.isOk, Except.toBool]
          rw [leaves_deliver_of_error hparse, hstop]
          simp [Setup.parsed, hparse, Except.toOption, Event.turned]
      | ok m =>
          obtain ⟨hstream, hturns⟩ := ih es.tail (w.delivered S f m)
          rw [leaves_deliver_of_ok hparse]
          split
          · rw [hstream, hturns, delivered_stream, delivered_turns]
            simp [Setup.parsed, hparse, Except.toOption]
          · rw [delivered_stream, delivered_turns]
            simp [Setup.parsed, hparse, Except.toOption]

/-! ### Chunks -/

/-- The chunks, each with the frames that it completes; `b` is what is there of the first one. -/
def completed : PerlStr → List Chunk → List (Chunk × List Frame)
  | _, [] => []
  | b, c :: cs =>
      (c, (unpackFrame (b ++ c.octets)).1) :: completed (unpackFrame (b ++ c.octets)).2 cs

/-- However they are cut, the frames are those of the whole input. -/
theorem completed_frames {b : PerlStr} (hb : nextFrame b = none) (cs : List Chunk) :
    (completed b cs).flatMap Prod.snd = (unpackFrame (b ++ (cs.map Chunk.octets).flatten)).1 := by
  induction cs generalizing b with
  | nil =>
      rw [List.map_nil, List.flatten_nil, List.append_nil, unpackFrame,
        frameExtractor.drain_of_none hb]
      rfl
  | cons c cs ih =>
      have hrest := ih (frameExtractor.next_drain (b ++ c.octets))
      rw [List.map_cons, List.flatten_cons, ← List.append_assoc, unpackFrame,
        frameExtractor.drain_append, completed, List.flatMap_cons]
      exact congrArg _ hrest

/-- The frames that had their turn. -/
def Setup.takenOf (S : Setup M) (p : Chunk × List Frame) : List Frame := S.taken p.1.ends p.2

/-- `w` is `w₀` after the frames `frames` had their turn and `b` is left unfinished. -/
structure Turned (S : Setup M) (w₀ w : World M) (b : PerlStr) (frames : List Frame) : Prop where
  stream : w.stream = { w₀.stream with
    readBuffer := b
    responseQueue := w₀.stream.responseQueue ++ S.parsed frames }
  turns : w.turns = w₀.turns ++ frames.map Frame.payload

/-- One chunk, pushed before the deadline. -/
theorem turned_feed {S : Setup M} {w₀ w : World M} {b : PerlStr} {frames : List Frame}
    (hopen : w₀.stream.state ≠ .closed) (hb : nextFrame b = none) (h : Turned S w₀ w b frames)
    {c : Chunk} (htime : S.expired c.now = false) :
    ∃ w', c.feed.code S w = .ok () w' ∧
      Turned S w₀ w' (unpackFrame (b ++ c.octets)).2
        (frames ++ S.taken c.ends (unpackFrame (b ++ c.octets)).1) := by
  have hw : w.stream.state ≠ .closed := by
    rw [h.stream]
    exact hopen
  have hbuf : w.stream.readBuffer = b := by rw [h.stream]
  have hcatch (x : Perl M Unit) :
      (tryCatch x fun _ => pure () : Perl M Unit) w = .ok () (leaves x w) := by
    simp only [MonadExcept.tryCatch, tryCatchThe, MonadExceptOf.tryCatch, EStateM.tryCatch, leaves]
    cases x w <;> rfl
  -- the call comes to its loop: the stream is open and in time
  have hpush : leaves (Act.body S [.call (.pushIncomingData (some c.octets) c.now)
      (c.ends.map ending) [] []]) w =
      leaves (if c.octets = [] then pure ()
        else do
          note .wrote fun s => { s with readBuffer := (unpackFrame (b ++ c.octets)).2 }
          deliver S (Act.bodies S (c.ends.map ending)) (unpackFrame (b ++ c.octets)).1) w := by
    rw [Act.body, leaves_bind fun _ _ => rfl]
    simp only [leaves, Act.code, Call.perform, pushIncomingData]
    rw [bind_of_ok (checkDeadline_of_not_expired htime _ w), unlessClosed_of_ne hw]
    by_cases hc : c.octets = []
    · simp [hc]
    · simp only [Option.getD_some, hc, if_false]
      rw [bind_of_ok (get_eq w), hbuf]
  refine ⟨_, hcatch _, ?_⟩
  rw [hpush]
  by_cases hc : c.octets = []
  · -- the early return: there is nothing new to take
    have hdrain : unpackFrame b = ([], b) := frameExtractor.drain_of_none hb
    simpa [hc, hdrain, Setup.taken] using h
  · rw [if_neg hc]
    simp only [leaves, bind_of_ok (note_eq _ _ w)]
    obtain ⟨hstream, hturns⟩ := leaves_deliver S c.ends (unpackFrame (b ++ c.octets)).1
      (w.noted .wrote fun s => { s with readBuffer := (unpackFrame (b ++ c.octets)).2 })
    constructor
    · refine hstream.trans ?_
      rw [noted_stream, h.stream]
      simp [Setup.parsed]
    · refine hturns.trans ?_
      rw [noted_turns, h.turns]
      simp [Event.turned]

/-- Any number of chunks. -/
theorem turned_chunks {S : Setup M} {w₀ w : World M} {b : PerlStr} {frames : List Frame}
    (hopen : w₀.stream.state ≠ .closed) (hb : nextFrame b = none) (h : Turned S w₀ w b frames)
    {cs : List Chunk} (htime : ∀ c ∈ cs, S.expired c.now = false) :
    ∃ b', Turned S w₀ (w.after S (cs.map Chunk.feed)) b'
      (frames ++ (completed b cs).flatMap S.takenOf) := by
  induction cs generalizing w b frames with
  | nil => exact ⟨b, by simpa [completed, after_nil] using h⟩
  | cons c cs ih =>
      obtain ⟨w', hrun, h'⟩ := turned_feed hopen hb h (htime c List.mem_cons_self)
      obtain ⟨b', hrest⟩ := ih (frameExtractor.next_drain _) h' fun c' hc =>
        htime c' (List.mem_cons_of_mem _ hc)
      refine ⟨b', ?_⟩
      rw [List.map_cons, after_cons hrun, completed, List.flatMap_cons]
      rw [List.append_assoc] at hrest
      exact hrest

/-! ### No frame is lost -/

/-- Every frame has had its turn once, in order, and the messages of those that can be parsed
are on the queue. -/
def NoneLost (S : Setup M) (w : World M) (cs : List Chunk) : Prop :=
  let frames := (unpackFrame (w.stream.readBuffer ++ (cs.map Chunk.octets).flatten)).1
  (w.after S (cs.map Chunk.feed)).turns = w.turns ++ frames.map Frame.payload ∧
    (w.after S (cs.map Chunk.feed)).stream.responseQueue =
      w.stream.responseQueue ++ S.parsed frames

/-- No frame but the last one that the chunk completes fails. -/
def FailsLast (S : Setup M) (p : Chunk × List Frame) : Prop :=
  ∀ i f, p.2[i]? = some f → i + 1 < p.2.length → S.goesOn (p.1.ends[i]?.getD none) f = true

theorem taken_isPrefixOf (S : Setup M) (es : List (Option Die)) (frames : List Frame) :
    S.taken es frames <+: frames := by
  induction frames generalizing es with
  | nil => exact List.prefix_rfl
  | cons f frames ih =>
      rw [Setup.taken, List.prefix_cons_inj]
      split
      · exact ih es.tail
      · exact List.nil_prefix

theorem taken_eq_iff {S : Setup M} {es : List (Option Die)} {frames : List Frame} :
    S.taken es frames = frames ↔
      ∀ i f, frames[i]? = some f → i + 1 < frames.length →
        S.goesOn (es[i]?.getD none) f = true := by
  induction frames generalizing es with
  | nil => simp [Setup.taken]
  | cons f frames ih =>
      have hhead : es.headD none = es[0]?.getD none := by cases es <;> rfl
      have htail (i : ℕ) : es.tail[i]? = es[i + 1]? := List.getElem?_tail
      rw [Setup.taken, List.cons.injEq, hhead]
      constructor
      · rintro ⟨-, h⟩ i g hi hlt
        have hgoes : S.goesOn (es[0]?.getD none) f = true := by
          by_contra hstop
          rw [if_neg hstop] at h
          rw [← h] at hlt
          simp at hlt
        rw [if_pos hgoes] at h
        cases i with
        | zero =>
            obtain rfl : f = g := Option.some.inj hi
            exact hgoes
        | succ i =>
            rw [← htail]
            exact ih.mp h i g hi (by simpa using hlt)
      · intro h
        refine ⟨rfl, ?_⟩
        cases frames with
        | nil => split <;> rfl
        | cons g frames =>
            rw [if_pos (h 0 f rfl (by simp))]
            refine ih.mpr fun i g' hi hlt => ?_
            rw [htail]
            exact h (i + 1) g' hi (by simpa using hlt)

/-- As many frames had their turn as came, only if each chunk's had. -/
theorem takenOf_eq_of_flatMap {S : Setup M} {l : List (Chunk × List Frame)}
    (h : (l.flatMap S.takenOf).length = (l.flatMap Prod.snd).length) :
    ∀ p ∈ l, S.takenOf p = p.2 := by
  have hle (p : Chunk × List Frame) : (S.takenOf p).length ≤ p.2.length :=
    (taken_isPrefixOf S p.1.ends p.2).length_le
  have hall (l : List (Chunk × List Frame)) :
      (l.flatMap S.takenOf).length ≤ (l.flatMap Prod.snd).length := by
    induction l with
    | nil => exact le_rfl
    | cons p l ih =>
        rw [List.flatMap_cons, List.flatMap_cons, List.length_append, List.length_append]
        exact Nat.add_le_add (hle p) ih
  induction l with
  | nil => exact fun _ hp => absurd hp List.not_mem_nil
  | cons p l ih =>
      have hp := hle p
      have hl := hall l
      rw [List.flatMap_cons, List.flatMap_cons, List.length_append, List.length_append] at h
      refine List.forall_mem_cons.mpr ⟨?_, ih (by omega)⟩
      exact (taken_isPrefixOf S p.1.ends p.2).eq_of_length_le (by rw [← Setup.takenOf]; omega)

theorem noneLost_of_chunks {S : Setup M} {w : World M} (hopen : w.stream.state ≠ .closed)
    (hbuf : nextFrame w.stream.readBuffer = none) {cs : List Chunk}
    (htime : ∀ c ∈ cs, S.expired c.now = false) :
    NoneLost S w cs ↔ ∀ p ∈ completed w.stream.readBuffer cs, FailsLast S p := by
  have hstart : Turned S w w w.stream.readBuffer [] := ⟨by simp [Setup.parsed], by simp⟩
  obtain ⟨b', hrun⟩ := turned_chunks hopen hbuf hstart htime
  have hframes := completed_frames hbuf cs
  rw [List.nil_append] at hrun
  constructor
  · rintro ⟨hturns, -⟩ p hp
    rw [hrun.turns, List.append_cancel_left_eq, ← hframes] at hturns
    have hlength := congrArg List.length hturns
    rw [List.length_map, List.length_map] at hlength
    exact taken_eq_iff.mp (takenOf_eq_of_flatMap hlength p hp)
  · intro h
    have hall : (completed w.stream.readBuffer cs).flatMap S.takenOf =
        (completed w.stream.readBuffer cs).flatMap Prod.snd :=
      List.flatMap_congr fun p hp => taken_eq_iff.mpr (h p hp)
    rw [hall, hframes] at hrun
    exact ⟨hrun.turns, by rw [hrun.stream]⟩

theorem completed_append (b : PerlStr) (cs later : List Chunk) :
    ∃ b', completed b (cs ++ later) = completed b cs ++ completed b' later := by
  induction cs generalizing b with
  | nil => exact ⟨b, rfl⟩
  | cons c cs ih =>
      obtain ⟨b', h⟩ := ih (unpackFrame (b ++ c.octets)).2
      exact ⟨b', by rw [List.cons_append, completed, h]; rfl⟩

/-- All frames are delivered, by the calls that brought them or by later ones, exactly if
within each chunk only the last frame that it completes fails. -/
theorem noneLost_iff (S : Setup M) (w : World M) (hopen : w.stream.state ≠ .closed)
    (hbuf : nextFrame w.stream.readBuffer = none) (cs : List Chunk)
    (htime : ∀ c ∈ cs, S.expired c.now = false) :
    (∃ later, (∀ c ∈ later, S.expired c.now = false) ∧ NoneLost S w (cs ++ later)) ↔
      ∀ p ∈ completed w.stream.readBuffer cs, FailsLast S p := by
  constructor
  · rintro ⟨later, hlater, h⟩ p hp
    have hall : ∀ c ∈ cs ++ later, S.expired c.now = false := by
      intro c hc
      rcases List.mem_append.mp hc with hc | hc
      · exact htime c hc
      · exact hlater c hc
    obtain ⟨b', happend⟩ := completed_append w.stream.readBuffer cs later
    have hfails := (noneLost_of_chunks hopen hbuf hall).mp h
    rw [happend] at hfails
    exact hfails p (List.mem_append_left _ hp)
  · intro h
    refine ⟨[], fun c hc => absurd hc List.not_mem_nil, ?_⟩
    rw [List.append_nil]
    exact (noneLost_of_chunks hopen hbuf htime).mpr h

/-- A parser that dies on one payload. -/
def refusesFF : Setup PerlStr where
  parse p := if p = [255] then .error (.croak (ps "Invalid wire type")) else .ok p

/-- A frame that cannot be parsed, at the end of its chunk, and one more chunk. -/
def failsLast : List Chunk :=
  [⟨[0, 0, 0, 0, 1, 97, 0, 0, 0, 0, 1, 255], 0, []⟩, ⟨[0, 0, 0, 0, 1, 98], 0, []⟩]

theorem noneLost_iff_failsLast :
    (∃ later, (∀ c ∈ later, refusesFF.expired c.now = false) ∧
        NoneLost refusesFF {} (failsLast ++ later)) ↔
      ∀ p ∈ completed [] failsLast, FailsLast refusesFF p :=
  noneLost_iff refusesFF {} (by decide) rfl failsLast (by decide)

/-- The same frames in one chunk: the last one is lost. -/
theorem lost_in_one_chunk :
    ¬ ∃ later, (∀ c ∈ later, refusesFF.expired c.now = false) ∧
      NoneLost refusesFF {} ([⟨[0, 0, 0, 0, 1, 255, 0, 0, 0, 0, 1, 98], 0, []⟩] ++ later) := by
  rintro ⟨later, hlater, h⟩
  have hall : ∀ c ∈ [⟨[0, 0, 0, 0, 1, 255, 0, 0, 0, 0, 1, 98], 0, []⟩] ++ later,
      refusesFF.expired c.now = false := by
    rw [List.singleton_append, List.forall_mem_cons]
    exact ⟨rfl, hlater⟩
  have hfails := (noneLost_of_chunks (by decide) rfl hall).mp h _ List.mem_cons_self
  exact absurd (hfails 0 ⟨0, [255]⟩ (by decide) (by decide)) (by decide)

end GooglePerl.Grpc
