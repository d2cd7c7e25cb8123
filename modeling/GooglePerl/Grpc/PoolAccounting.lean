import GooglePerl.Grpc.ChannelPool

/-!
The counters of a channel pool against what happened, over any run.

A request is counted when a stream is made and when a stream writes, a response when
`on_message` is called. Each of the three counts on its own; `Accounted` says of all entries at
once what they have counted since the last reset. It holds over every run in which no stream
fails to open after its request was counted, and no frame is sent under a key that is false to
Perl (`accounted_of_meets`).
-/

namespace GooglePerl.Grpc

open GooglePerl.Lib
open GooglePerl.Protobuf (PerlStr ps Die)

variable (cls : CharClasses)

/-! ### The source -/

/-- A stream of a pool, with the key that its callback and its `ip_key` were given. -/
structure PoolStream where
  ipKey : PerlStr
  setup : Setup PerlStr
  world : World PerlStr := {}
  /-- `if ($self->pool && $self->ip_key)` -/
  setup_ipKey : setup.ipKey = (some ipKey).filter truthy

/-- What happened in a pool. -/
inductive PoolEvent where
  /-- `get_channel` gave the subchannel at this index -/
  | chose (index : ℕ)
  /-- `record_request` was called -/
  | request (ipKey : PerlStr)
  /-- a frame was sent on a stream with this key -/
  | frame (ipKey : PerlStr) (bytes : PerlStr)
  | reset
  deriving DecidableEq

structure PoolWorld where
  pool : ChannelPool
  streams : List PoolStream := []
  log : List PoolEvent := []

/-- Perl code that runs on a pool. -/
abbrev PoolPerl := EStateM Die PoolWorld

namespace PoolWorld

def logged (w : PoolWorld) (events : List PoolEvent) : PoolWorld :=
  { w with log := w.log ++ events }

/-- `get_channel`; past 64 bits the index is a floating-point number that no longer grows. -/
def getChannel : PoolPerl (Option Channel) := do
  let w ← get
  let index := w.pool.rrIndex % w.pool.subchannels.length
  match w.pool.subchannels[index]? with
  | none => return none
  | some channel =>
      set ({ w with pool := { w.pool with rrIndex := min (w.pool.rrIndex + 1) (2 ^ 64) } }.logged
        [.chose index])
      return some channel

end PoolWorld

/-- `create_stream` of the channel; the service and the method come before the timeout. -/
def Channel.openStream (ch : Channel) (opts : StreamOpts PerlStr) (timeout : Option PerlStr)
    (now : ℚ) : Except Die (Http2Request × Setup PerlStr) := do
  let opened ← ch.createStream { opts with timeout := none } now
  match timeout with
  | none => return opened
  | some val =>
      let parsed ← channelTimeout cls val
      ch.createStream { opts with timeout := some parsed } now

/-- The frame of a request, if there is one. -/
def StreamOpts.requestFrame (opts : StreamOpts PerlStr) : Option PerlStr :=
  opts.request.map fun r => packFrame (some r) false

namespace PoolWorld

/-- The stream that `create_stream` puts its pool and its key into. -/
def opened (ipKey : PerlStr) (setup : Setup PerlStr) : PoolStream where
  ipKey := ipKey
  setup := { setup with ipKey := (some ipKey).filter truthy }
  setup_ipKey := rfl

/-- `create_stream`: the callback that it wraps around `on_message` is always set. -/
def createStream (opts : StreamOpts PerlStr) (timeout : Option PerlStr) (now : ℚ) :
    PoolPerl Unit := do
  match ← getChannel with
  | none => throw (.croak (ps "No available channels in pool"))
  | some ch =>
      let ipKey := extractIpKey cls ch.target
      let size := (opts.requestFrame.map List.length).getD 0
      modify fun w => { w with pool := w.pool.recordRequest ipKey size }.logged [.request ipKey]
      match ch.openStream cls { opts with onMessage := true } timeout now with
      | .error e => throw e
      | .ok (_, setup) =>
          modify fun w => { w with streams := w.streams ++ [opened ipKey setup] }.logged
            (opts.requestFrame.toList.map (.frame ipKey))

/-- `reset_metrics` -/
def resetMetrics : PoolPerl Unit :=
  modify fun w =>
    { w with
      pool := { w.pool with
        metrics := w.pool.metrics.map
          fun (e : PerlStr × Metrics) => (e.1, { target := e.2.target }) }
    }.logged [.reset]

end PoolWorld

namespace PoolStream

/-- What an event on the stream counts in its pool. -/
def count (s : PoolStream) (pool : ChannelPool) : Event PerlStr → ChannelPool
  | .recordRequest ipKey size => pool.recordRequest ipKey size
  | .onMessage message => pool.recordResponse s.ipKey (packFrame (some message) false).length
  | _ => pool

/-- What an event on the stream is to the pool. -/
def reports (s : PoolStream) : Event PerlStr → List PoolEvent
  | .recordRequest ipKey _ => [.request ipKey]
  | .sendStreamData bytes _ => [.frame s.ipKey bytes]
  | _ => []

/-- The events since the stream was as in `s`. -/
def since (s : PoolStream) (w : World PerlStr) : List (Event PerlStr) :=
  (w.history.drop s.world.history.length).map Moment.event

end PoolStream

/-- Code runs on a stream of the pool. -/
def PoolWorld.runOn (w : PoolWorld) (i : ℕ) (a : Act) : PoolWorld :=
  match w.streams[i]? with
  | none => w
  | some s =>
      let world := s.world.after s.setup [a]
      { w with
        pool := (s.since world).foldl s.count w.pool
        streams := w.streams.set i { s with world }
      }.logged ((s.since world).flatMap s.reports)

/-! ### Runs -/

inductive PoolCall where
  | getChannel
  | createStream (opts : StreamOpts PerlStr) (timeout : Option PerlStr) (now : ℚ)
  /-- code on the stream at this index, with what its callbacks do on the stream -/
  | act (i : ℕ) (a : Act)
  | resetMetrics

namespace PoolWorld

def step (w : PoolWorld) : PoolCall → PoolWorld
  | .getChannel => leaves getChannel w
  | .createStream opts timeout now => leaves (createStream cls opts timeout now) w
  | .act i a => w.runOn i a
  | .resetMetrics => leaves resetMetrics w

def run (w : PoolWorld) (calls : List PoolCall) : PoolWorld := calls.foldl (step cls) w

end PoolWorld

/-! ### What the counters are for -/

def addSent (ipKey : PerlStr) (n : ℕ) : PoolEvent → ℕ
  | .frame key bytes => if key = ipKey then n + bytes.length else n
  | .reset => 0
  | _ => n

def addRequest (ipKey : PerlStr) (n : ℕ) : PoolEvent → ℕ
  | .request key => if key = ipKey then n + 1 else n
  | .reset => 0
  | _ => n

/-- The octets of the frames that were sent with a key since the last reset. -/
def sentSince (ipKey : PerlStr) (log : List PoolEvent) : ℕ := log.foldl (addSent ipKey) 0

/-- The requests that were recorded with a key since the last reset. -/
def requestsSince (ipKey : PerlStr) (log : List PoolEvent) : ℕ := log.foldl (addRequest ipKey) 0

/-- The entry of a key, which counts nothing where there is none. -/
def entry (metrics : List (PerlStr × Metrics)) (ipKey : PerlStr) : Metrics :=
  (Assoc.find metrics ipKey).getD { target := ipKey }

/-- Every entry has counted what the log says. -/
def Accounted (metrics : List (PerlStr × Metrics)) (log : List PoolEvent) : Prop :=
  ∀ ipKey, (entry metrics ipKey).totalBytes =
      (entry metrics ipKey).bytesSent + (entry metrics ipKey).bytesReceived ∧
    (entry metrics ipKey).bytesSent = sentSince ipKey log ∧
    (entry metrics ipKey).requests = requestsSince ipKey log

/-- The subchannels that were chosen, in order. -/
def PoolEvent.index : PoolEvent → Option ℕ
  | .chose index => some index
  | _ => none

def choices (log : List PoolEvent) : List ℕ := log.filterMap PoolEvent.index

/-- Any `n` choices in a row are `n` different subchannels. -/
def Balanced (n : ℕ) (log : List PoolEvent) : Prop :=
  ∀ i, i + n ≤ (choices log).length →
    (((choices log).drop i).take n).Nodup ∧ ∀ index ∈ ((choices log).drop i).take n, index < n

/-! ### One entry -/

theorem entry_record (metrics : List (PerlStr × Metrics)) (ipKey key : PerlStr)
    (change : Metrics → Metrics) :
    entry (record metrics ipKey change) key =
      if key = ipKey then change (entry metrics ipKey) else entry metrics key := by
  rw [entry, record, Assoc.find_store]
  by_cases h : key = ipKey
  · simp [h, entry]
  · simp [h, entry]

theorem sentSince_append (ipKey : PerlStr) (log : List PoolEvent) (e : PoolEvent) :
    sentSince ipKey (log ++ [e]) = addSent ipKey (sentSince ipKey log) e := by
  rw [sentSince, List.foldl_append]
  rfl

theorem requestsSince_append (ipKey : PerlStr) (log : List PoolEvent) (e : PoolEvent) :
    requestsSince ipKey (log ++ [e]) = addRequest ipKey (requestsSince ipKey log) e := by
  rw [requestsSince, List.foldl_append]
  rfl

/-- A recorded request, and the frame that it is about if it sends one. -/
theorem Accounted.request {pool : ChannelPool} {log : List PoolEvent}
    (h : Accounted pool.metrics log) (ipKey : PerlStr) (frame : Option PerlStr) :
    Accounted (pool.recordRequest ipKey ((frame.map List.length).getD 0)).metrics
      (log ++ [.request ipKey] ++ frame.toList.map (.frame ipKey)) := by
  intro key
  obtain ⟨htotal, hsent, hrequests⟩ := h key
  rw [ChannelPool.recordRequest, entry_record]
  cases frame with
  | none =>
      simp only [Option.toList_none, List.map_nil, List.append_nil, sentSince_append,
        requestsSince_append, addSent, addRequest]
      split
      · subst key
        simp [hsent, hrequests, htotal]
      · rename_i hne
        simp [hsent, hrequests, htotal, Ne.symm hne]
  | some bytes =>
      simp only [Option.toList_some, List.map_cons, List.map_nil, sentSince_append,
        requestsSince_append, addSent, addRequest]
      split
      · subst key
        simp [hsent, hrequests, htotal]
        omega
      · rename_i hne
        simp [hsent, hrequests, htotal, Ne.symm hne]

theorem Accounted.response {pool : ChannelPool} {log : List PoolEvent}
    (h : Accounted pool.metrics log) (ipKey : PerlStr) (size : ℕ) :
    Accounted (pool.recordResponse ipKey size).metrics log := by
  intro key
  obtain ⟨htotal, hsent, hrequests⟩ := h key
  rw [ChannelPool.recordResponse, entry_record]
  split
  · subst key
    exact ⟨by simp [htotal]; omega, hsent, hrequests⟩
  · exact ⟨htotal, hsent, hrequests⟩

theorem Accounted.chose {metrics : List (PerlStr × Metrics)} {log : List PoolEvent}
    (h : Accounted metrics log) (index : ℕ) : Accounted metrics (log ++ [.chose index]) := by
  intro key
  rw [sentSince_append, requestsSince_append]
  exact h key

theorem accounted_reset (metrics : List (PerlStr × Metrics)) (log : List PoolEvent) :
    Accounted (metrics.map fun e => (e.1, { target := e.2.target })) (log ++ [.reset]) := by
  intro key
  have hzero : entry (metrics.map fun e => (e.1, ({ target := e.2.target } : Metrics))) key =
      { target := (entry metrics key).target } := by
    rw [entry, entry, Assoc.find_map fun m : Metrics => ({ target := m.target } : Metrics)]
    cases Assoc.find metrics key <;> rfl
  rw [hzero, sentSince_append, requestsSince_append]
  exact ⟨rfl, rfl, rfl⟩

/-! ### Code on a stream -/

/-- A recorded request, or a frame that is sent. -/
def Event.isTraffic {M : Type} : Event M → Bool
  | .recordRequest _ _ | .sendStreamData _ _ => true
  | _ => false

section Kept

variable {M : Type} {S : Setup M} {I : World M → Prop}

/-- Code that keeps `I`, whether it returns or dies. -/
abbrev Kept (I : World M → Prop) (x : Perl M Unit) : Prop := Triple I x (fun _ => I) I

/-- What keeps `I` in one event: what is no traffic, and the two events of a write together. -/
structure KeptByEvents (S : Setup M) (I : World M → Prop) : Prop where
  quiet : ∀ e f, Event.isTraffic e = false → ∀ w, I w → I (w.noted e f)
  write : ∀ bytes endStream, Kept I do
    recordRequest S bytes.length
    note (.sendStreamData bytes endStream)

variable {cb : Callbacks M}

theorem Kept.unlessClosed {x : Perl M Unit} (h : Kept I x) : Kept I (unlessClosed x) :=
  Triple.unlessClosed (fun _ hw _ => hw) (h.weaken fun _ hw => hw.1)

namespace KeptByEvents

theorem note (h : KeptByEvents S I) {e : Event M} (he : e.isTraffic = false)
    (f : Stream M → Stream M) : Kept I (note e f) :=
  Triple.note (h.quiet e f he)

theorem callback (h : KeptByEvents S I) {e : Event M} (he : e.isTraffic = false)
    {code : Perl M Unit} (hcode : Kept I code) (set : Bool) : Kept I (callback set e code) := by
  refine Triple.onlyIf ?_ fun _ hw => hw
  exact Triple.bind (h.note he id) fun _ => hcode

theorem handleClose (h : KeptByEvents S I) (hc : Kept I cb.onClose) :
    Kept I (handleClose S cb) := by
  refine Kept.unlessClosed ?_
  refine Triple.bind (h.note rfl _) fun _ => Triple.read fun w hw => ?_
  exact (h.callback rfl hc S.onClose).weaken fun t ht => ht ▸ hw

theorem abortStream (h : KeptByEvents S I) (ht : Kept I cb.onTrailers) (hc : Kept I cb.onClose)
    (statusCode : Option FloatVal) (statusMsg : Option PerlStr) :
    Kept I (abortStream S cb statusCode statusMsg) := by
  refine Triple.bind (h.note rfl id) fun _ => ?_
  refine Triple.bind (h.note rfl _) fun _ => ?_
  refine Triple.bind (h.note rfl _) fun _ => ?_
  refine Triple.bind (h.callback rfl ht S.onTrailers) fun _ => ?_
  exact h.handleClose hc

theorem checkDeadline (h : KeptByEvents S I) (ht : Kept I cb.onTrailers) (hc : Kept I cb.onClose)
    (now : ℚ) : Kept I (checkDeadline S cb now) := by
  refine Kept.unlessClosed ?_
  exact Triple.onlyIf (h.abortStream ht hc _ _) fun _ hw => hw

theorem handleTrailers (h : KeptByEvents S I) (ht : Kept I cb.onTrailers) (trailers : Headers) :
    Kept I (handleTrailers S cb trailers) := by
  refine Kept.unlessClosed ?_
  refine Triple.bind (h.note rfl _) fun _ => ?_
  refine Triple.bind (h.note rfl _) fun _ => ?_
  refine Triple.bind (Triple.onlyIf (h.note rfl _) fun _ hw => hw) fun _ => ?_
  exact h.callback rfl ht S.onTrailers

/-- The loop over the frames of a chunk. -/
theorem deliver (h : KeptByEvents S I) {codes : List (Perl M Unit)}
    (hcodes : ∀ x ∈ codes, Kept I x) (frames : List Frame) : Kept I (deliver S codes frames) := by
  induction frames generalizing codes with
  | nil => exact Triple.pure fun _ hw => hw
  | cons frame frames ih =>
      have hcode : Kept I (codes.headD (pure ())) := by
        cases codes with
        | nil => exact Triple.pure fun _ hw => hw
        | cons code codes => exact hcodes code List.mem_cons_self
      rw [Grpc.deliver]
      refine Triple.bind (h.note rfl id) fun _ => ?_
      split
      · exact Triple.throw fun _ hw => hw
      · refine Triple.bind (h.note rfl _) fun _ => ?_
        refine Triple.bind (h.callback rfl hcode S.onMessage) fun _ => ?_
        exact ih fun x hx => hcodes x (List.mem_of_mem_tail hx)

theorem pushIncomingData (h : KeptByEvents S I) (hm : ∀ x ∈ cb.onMessage, Kept I x)
    (ht : Kept I cb.onTrailers) (hc : Kept I cb.onClose) (chunk : Option PerlStr) (now : ℚ) :
    Kept I (pushIncomingData S cb chunk now) := by
  refine Triple.bind (h.checkDeadline ht hc now) fun _ => ?_
  refine Kept.unlessClosed ?_
  split
  · exact Triple.pure fun _ hw => hw
  · refine Triple.read fun w hw => ?_
    refine (Triple.bind (h.note rfl _) fun _ => h.deliver hm _).weaken fun t ht => ?_
    exact ht ▸ hw

theorem writeMessage (h : KeptByEvents S I) (ht : Kept I cb.onTrailers) (hc : Kept I cb.onClose)
    (msg : Option PerlStr) (endStream : Bool) (now : ℚ) :
    Kept I (writeMessage S cb msg endStream now) := by
  refine Triple.bind (h.checkDeadline ht hc now) fun _ => ?_
  refine Kept.unlessClosed ?_
  have hend : Kept I (onlyIf endStream <| Grpc.note .wrote fun s =>
      { s with state := if s.state = .halfClosedRemote then .closed else .halfClosedLocal }) :=
    Triple.onlyIf (h.note rfl _) fun _ hw => hw
  have hall := Triple.bind (h.write (packFrame (some (msg.getD [])) false) endStream) fun _ => hend
  rw [bind_assoc] at hall
  exact hall

theorem recvMessage (h : KeptByEvents S I) (ht : Kept I cb.onTrailers) (hc : Kept I cb.onClose)
    (now : ℚ) : Triple I (recvMessage S cb now) (fun _ => I) I := by
  refine Triple.bind (h.checkDeadline ht hc now) fun _ => Triple.read fun w hw => ?_
  refine Triple.bind (Q := fun _ => I) ?_ fun _ => Triple.pure fun _ hw => hw
  exact (h.note rfl _).weaken fun t ht => ht ▸ hw

/-- All code on the stream. -/
theorem body (h : KeptByEvents S I) (acts : List Act) : Kept I (Act.body S acts) := by
  refine Act.body_rule (P := Kept I) (Triple.pure fun _ hw => hw)
    (fun x y hx hy => Triple.bind hx fun _ => hy) (fun why => Triple.throw fun _ hw => hw)
    (fun x hx => Triple.tryCatch hx fun _ => Triple.pure fun _ hw => hw) ?_ acts
  intro c cb hm ht hc
  cases c with
  | writeMessage msg endStream now => exact h.writeMessage ht hc msg endStream now
  | closeWrite now => exact h.writeMessage ht hc none true now
  | pushIncomingData chunk now => exact h.pushIncomingData hm ht hc chunk now
  | recvMessage now =>
      exact Triple.bind (h.recvMessage ht hc now) fun _ => Triple.pure fun _ hw => hw
  | handleTrailers trailers => exact h.handleTrailers ht trailers
  | handleClose => exact h.handleClose hc
  | checkDeadline now => exact h.checkDeadline ht hc now
  | abortStream statusCode statusMsg => exact h.abortStream ht hc statusCode statusMsg

theorem after (h : KeptByEvents S I) (acts : List Act) {w : World M} (hw : I w) :
    I (w.after S acts) :=
  Triple.leaves (h.body acts) hw

end KeptByEvents

end Kept

/-! ### What a stream counts in its pool -/

/-- What is true of the events of a stream since it was as in `s`. -/
def PoolStream.Since (s : PoolStream) (P : List (Event PerlStr) → Prop) (w : World PerlStr) :
    Prop :=
  ∃ later, w.history = s.world.history ++ later ∧ P (later.map Moment.event)

theorem PoolStream.Since.noted {s : PoolStream} {P Q : List (Event PerlStr) → Prop}
    {w : World PerlStr} (h : s.Since P w) {e : Event PerlStr}
    (hPQ : ∀ events, P events → Q (events ++ [e])) (f : Stream PerlStr → Stream PerlStr) :
    s.Since Q (w.noted e f) := by
  obtain ⟨later, hhistory, hlater⟩ := h
  refine ⟨later ++ [⟨e, f w.stream⟩], by rw [noted_history, hhistory, List.append_assoc], ?_⟩
  rw [List.map_append]
  exact hPQ _ hlater

/-- A property of the events that holds at the start and over each event and each write, holds
of the code. -/
theorem PoolStream.since_rule (s : PoolStream) {P : List (Event PerlStr) → Prop} (start : P [])
    (quiet : ∀ e, Event.isTraffic e = false → ∀ events, P events → P (events ++ [e]))
    (recorded : ∀ bytes endStream, s.setup.ipKey = some s.ipKey → ∀ events, P events →
      P (events ++ [.recordRequest s.ipKey bytes.length] ++ [.sendStreamData bytes endStream]))
    (unrecorded : ∀ bytes endStream, s.setup.ipKey = none → ∀ events, P events →
      P (events ++ [.sendStreamData bytes endStream])) (acts : List Act) :
    P (s.since (s.world.after s.setup acts)) := by
  have hkept : KeptByEvents s.setup (s.Since P) := by
    refine ⟨fun e f he w hw => hw.noted (quiet e he) f, fun bytes endStream => ?_⟩
    cases hkey : s.setup.ipKey with
    | none =>
        have hskip : recordRequest s.setup bytes.length = pure () := by rw [recordRequest, hkey]
        rw [hskip, pure_bind]
        exact Triple.note fun w hw => hw.noted (unrecorded bytes endStream hkey) id
    | some ipKey =>
        have hsame : ipKey = s.ipKey := by
          have hfilter := s.setup_ipKey
          rw [hkey] at hfilter
          exact (Option.eq_some_of_filter_eq_some hfilter.symm |> Option.some.inj).symm
        subst hsame
        have hnote : recordRequest s.setup bytes.length =
            note (.recordRequest s.ipKey bytes.length) := by rw [recordRequest, hkey]
        rw [hnote]
        refine Triple.bind (Q := fun _ => s.Since fun events => ∃ before, P before ∧
          events = before ++ [.recordRequest s.ipKey bytes.length]) ?_ fun _ => ?_
        · exact Triple.note fun w hw => hw.noted (fun events hevents => ⟨events, hevents, rfl⟩) id
        · refine Triple.note fun w hw => hw.noted (fun events hevents => ?_) id
          obtain ⟨before, hbefore, rfl⟩ := hevents
          exact recorded bytes endStream hkey before hbefore
  obtain ⟨later, hhistory, hlater⟩ := hkept.after acts (w := s.world)
    ⟨[], (List.append_nil _).symm, start⟩
  rw [PoolStream.since, hhistory, List.drop_left]
  exact hlater

/-- The stream writes under its key, or it sends no frame. -/
def PoolStream.Records (s : PoolStream) (events : List (Event PerlStr)) : Prop :=
  truthy s.ipKey = true ∨ ∀ bytes endStream, Event.sendStreamData bytes endStream ∉ events

theorem PoolStream.Records.of_append {s : PoolStream} {events more : List (Event PerlStr)}
    (h : s.Records (events ++ more)) : s.Records events :=
  h.imp_right fun hnone bytes endStream hmem => hnone bytes endStream (List.mem_append_left _ hmem)

theorem accounted_since (s : PoolStream) {pool : ChannelPool} {log : List PoolEvent}
    (h : Accounted pool.metrics log) (acts : List Act)
    (hrecords : s.Records (s.since (s.world.after s.setup acts))) :
    Accounted ((s.since (s.world.after s.setup acts)).foldl s.count pool).metrics
      (log ++ (s.since (s.world.after s.setup acts)).flatMap s.reports) := by
  refine s.since_rule (P := fun events => s.Records events →
    Accounted (events.foldl s.count pool).metrics (log ++ events.flatMap s.reports))
    (fun _ => by simpa using h) ?_ ?_ ?_ acts hrecords
  · intro e he events hevents hrecords
    have hevents := hevents hrecords.of_append
    have hquiet : s.reports e = [] := by
      cases e <;> first | rfl | cases he
    rw [List.foldl_append, List.flatMap_append, List.flatMap_singleton, hquiet, List.append_nil]
    cases e with
    | onMessage message => exact hevents.response _ _
    | recordRequest _ _ => cases he
    | sendStreamData _ _ => cases he
    | _ => exact hevents
  · intro bytes endStream _ events hevents hrecords
    have hrequest := (hevents hrecords.of_append.of_append).request s.ipKey (some bytes)
    rw [List.foldl_append, List.foldl_append, List.flatMap_append, List.flatMap_append,
      ← List.append_assoc, ← List.append_assoc]
    exact hrequest
  · intro bytes endStream hnone events hevents hrecords
    rcases hrecords with hkey | hsilent
    · have hsome := s.setup_ipKey
      rw [hnone, Option.filter_some, if_pos hkey] at hsome
      cases hsome
    · exact absurd (by simp) (hsilent bytes endStream)

/-- A stream counts under its own key only. -/
theorem find_since (s : PoolStream) (pool : ChannelPool) (acts : List Act) {key : PerlStr}
    (hne : s.ipKey ≠ key) :
    Assoc.find ((s.since (s.world.after s.setup acts)).foldl s.count pool).metrics key =
      Assoc.find pool.metrics key := by
  have hrequest (pool : ChannelPool) (size : ℕ) :
      Assoc.find (pool.recordRequest s.ipKey size).metrics key = Assoc.find pool.metrics key :=
    Assoc.find_store_of_ne _ _ hne.symm
  have hresponse (pool : ChannelPool) (size : ℕ) :
      Assoc.find (pool.recordResponse s.ipKey size).metrics key = Assoc.find pool.metrics key :=
    Assoc.find_store_of_ne _ _ hne.symm
  refine s.since_rule (P := fun events => Assoc.find (events.foldl s.count pool).metrics key =
    Assoc.find pool.metrics key) rfl ?_ ?_ ?_ acts
  · intro e he events hevents
    rw [List.foldl_append]
    cases e with
    | onMessage message => exact (hresponse _ _).trans hevents
    | recordRequest _ _ => cases he
    | sendStreamData _ _ => cases he
    | _ => exact hevents
  · intro bytes endStream _ events hevents
    rw [List.foldl_append, List.foldl_append]
    exact (hrequest _ _).trans hevents
  · intro bytes endStream _ events hevents
    rw [List.foldl_append]
    exact hevents

/-! ### One call -/

namespace PoolWorld

variable {cls}

theorem getChannel_none {w : PoolWorld}
    (h : w.pool.subchannels[w.pool.rrIndex % w.pool.subchannels.length]? = none) :
    getChannel w = .ok none w := by
  have hget : (get : PoolPerl PoolWorld) w = .ok w w := rfl
  rw [getChannel, bind_of_ok hget]
  dsimp only
  rw [h]
  rfl

/-- The world after a choice. -/
def chosen (w : PoolWorld) : PoolWorld :=
  { w with pool := { w.pool with rrIndex := min (w.pool.rrIndex + 1) (2 ^ 64) } }.logged
    [.chose (w.pool.rrIndex % w.pool.subchannels.length)]

theorem getChannel_some {w : PoolWorld} {ch : Channel}
    (h : w.pool.subchannels[w.pool.rrIndex % w.pool.subchannels.length]? = some ch) :
    getChannel w = .ok (some ch) w.chosen := by
  have hget : (get : PoolPerl PoolWorld) w = .ok w w := rfl
  rw [getChannel, bind_of_ok hget]
  dsimp only
  rw [h]
  rfl

/-- The world after a request was recorded. -/
def requested (w : PoolWorld) (ipKey : PerlStr) (opts : StreamOpts PerlStr) : PoolWorld :=
  { w with pool := w.pool.recordRequest ipKey ((opts.requestFrame.map List.length).getD 0)
    }.logged [.request ipKey]

theorem createStream_none {w : PoolWorld} {opts : StreamOpts PerlStr} {timeout : Option PerlStr}
    {now : ℚ} (h : w.pool.subchannels[w.pool.rrIndex % w.pool.subchannels.length]? = none) :
    leaves (createStream cls opts timeout now) w = w := by
  rw [leaves, createStream, bind_of_ok (getChannel_none h)]
  rfl

theorem createStream_error {w : PoolWorld} {opts : StreamOpts PerlStr} {timeout : Option PerlStr}
    {now : ℚ} {ch : Channel} {why : Die}
    (h : w.pool.subchannels[w.pool.rrIndex % w.pool.subchannels.length]? = some ch)
    (hopen : ch.openStream cls { opts with onMessage := true } timeout now = .error why) :
    leaves (createStream cls opts timeout now) w =
      w.chosen.requested (extractIpKey cls ch.target) opts := by
  rw [leaves, createStream, bind_of_ok (getChannel_some h)]
  dsimp only
  rw [hopen]
  rfl

theorem createStream_ok {w : PoolWorld} {opts : StreamOpts PerlStr} {timeout : Option PerlStr}
    {now : ℚ} {ch : Channel} {stream : Http2Request × Setup PerlStr}
    (h : w.pool.subchannels[w.pool.rrIndex % w.pool.subchannels.length]? = some ch)
    (hopen : ch.openStream cls { opts with onMessage := true } timeout now = .ok stream) :
    leaves (createStream cls opts timeout now) w =
      { w.chosen.requested (extractIpKey cls ch.target) opts with
        streams := w.streams ++ [opened (extractIpKey cls ch.target) stream.2] }.logged
        (opts.requestFrame.toList.map (.frame (extractIpKey cls ch.target))) := by
  rw [leaves, createStream, bind_of_ok (getChannel_some h)]
  dsimp only
  rw [hopen]
  rfl

end PoolWorld

/-! ### Runs that are counted right -/

/-- The channel takes these options. -/
def Opens (opts : StreamOpts PerlStr) (timeout : Option PerlStr) : Prop :=
  (opts.service.filter truthy).isSome ∧ (opts.method.filter truthy).isSome ∧
    ∀ val ∈ timeout, ∃ parsed, channelTimeout cls val = .ok parsed

/-- The index of the next subchannel still grows, no request is recorded for a stream that then
fails to open, and no frame is sent on a stream whose key is false to Perl. -/
def PoolCall.Meets (w : PoolWorld) : PoolCall → Prop
  | .getChannel => w.pool.rrIndex < 2 ^ 64
  | .createStream opts timeout _ =>
      w.pool.rrIndex < 2 ^ 64 ∧ (opts.request = none ∨ Opens cls opts timeout)
  | .act i a => ∀ s ∈ w.streams[i]?, s.Records (s.since (s.world.after s.setup [a]))
  | .resetMetrics => True

/-- Every call of the run meets the condition where it is made. -/
def Meets : PoolWorld → List PoolCall → Prop
  | _, [] => True
  | w, call :: calls => call.Meets cls w ∧ Meets (w.step cls call) calls

theorem openStream_of_opens {opts : StreamOpts PerlStr} {timeout : Option PerlStr}
    (h : Opens cls opts timeout) (ch : Channel) (now : ℚ) :
    ∃ stream, ch.openStream cls { opts with onMessage := true } timeout now = .ok stream := by
  obtain ⟨hservice, hmethod, htimeout⟩ := h
  obtain ⟨service, hservice⟩ := Option.isSome_iff_exists.mp hservice
  obtain ⟨method, hmethod⟩ := Option.isSome_iff_exists.mp hmethod
  have hcreate (t : Option Timeout) : ∃ stream,
      ch.createStream { opts with onMessage := true, timeout := t } now = .ok stream := by
    rw [Channel.createStream, hservice, hmethod]
    exact ⟨_, rfl⟩
  obtain ⟨stream, hstream⟩ := hcreate none
  rw [Channel.openStream]
  cases timeout with
  | none => exact ⟨stream, by simp [hstream, bind, Except.bind, pure, Except.pure]⟩
  | some val =>
      obtain ⟨parsed, hparsed⟩ := htimeout val rfl
      obtain ⟨stream', hstream'⟩ := hcreate (some parsed)
      exact ⟨stream', by simp [hstream, hparsed, hstream', bind, Except.bind]⟩

/-- What a run keeps: `n` subchannels, chosen in turn, and exact counters. -/
structure Counted (n : ℕ) (w : PoolWorld) : Prop where
  subchannels : w.pool.subchannels.length = n
  chosen : choices w.log = (List.range w.pool.rrIndex).map (· % n)
  accounted : Accounted w.pool.metrics w.log

theorem choices_append (log more : List PoolEvent) :
    choices (log ++ more) = choices log ++ choices more := by
  rw [choices, List.filterMap_append]
  rfl

/-- What does not choose. -/
theorem choices_of_none {events : List PoolEvent} (h : ∀ e ∈ events, e.index = none)
    (log : List PoolEvent) : choices (log ++ events) = choices log := by
  have hnil : choices events = [] := List.filterMap_eq_nil_iff.mpr h
  rw [choices_append, hnil, List.append_nil]

theorem Counted.choose {n : ℕ} {w : PoolWorld} (h : Counted n w) (hlt : w.pool.rrIndex < 2 ^ 64) :
    Counted n w.chosen := by
  have hindex : w.chosen.pool.rrIndex = w.pool.rrIndex + 1 := Nat.min_eq_left hlt
  refine ⟨h.subchannels, ?_, h.accounted.chose _⟩
  rw [hindex, List.range_succ, List.map_append, ← h.chosen, ← h.subchannels]
  exact choices_append w.log _

/-- A recorded request, and its frame if that is sent or there is none. -/
theorem Counted.request {n : ℕ} {w : PoolWorld} (h : Counted n w) (ipKey : PerlStr)
    (opts : StreamOpts PerlStr) (streams : List PoolStream) :
    Counted n ({ w.requested ipKey opts with streams := streams }.logged
      (opts.requestFrame.toList.map (.frame ipKey))) := by
  refine ⟨h.subchannels, ?_, h.accounted.request ipKey opts.requestFrame⟩
  have hquiet : ∀ e ∈ ([PoolEvent.request ipKey] ++
      opts.requestFrame.toList.map (PoolEvent.frame ipKey) : List PoolEvent), e.index = none := by
    intro e he
    rcases List.mem_append.mp he with he | he
    · rw [List.mem_singleton.mp he]
      rfl
    · obtain ⟨bytes, -, rfl⟩ := List.mem_map.mp he
      rfl
  have hchoices := choices_of_none hquiet w.log
  rw [← List.append_assoc] at hchoices
  exact hchoices.trans h.chosen

theorem Counted.act {n : ℕ} {w : PoolWorld} (h : Counted n w) {i : ℕ} {a : Act}
    (hrecords : ∀ s ∈ w.streams[i]?, s.Records (s.since (s.world.after s.setup [a]))) :
    Counted n (w.runOn i a) := by
  rw [PoolWorld.runOn]
  cases hs : w.streams[i]? with
  | none => exact h
  | some s =>
      have hpool (events : List (Event PerlStr)) (pool : ChannelPool) :
          (events.foldl s.count pool).subchannels = pool.subchannels ∧
            (events.foldl s.count pool).rrIndex = pool.rrIndex := by
        induction events generalizing pool with
        | nil => exact ⟨rfl, rfl⟩
        | cons e events ih =>
            obtain ⟨hsub, hindex⟩ := ih (s.count pool e)
            rw [List.foldl_cons, hsub, hindex]
            cases e <;> exact ⟨rfl, rfl⟩
      obtain ⟨hsub, hindex⟩ := hpool (s.since (s.world.after s.setup [a])) w.pool
      have hquiet : ∀ e ∈ (s.since (s.world.after s.setup [a])).flatMap s.reports,
          e.index = none := by
        intro e he
        obtain ⟨event, -, he⟩ := List.mem_flatMap.mp he
        cases event <;> simp_all [PoolStream.reports, PoolEvent.index]
      refine ⟨(congrArg List.length hsub).trans h.subchannels, ?_,
        accounted_since s h.accounted [a] (hrecords s hs)⟩
      refine (choices_of_none hquiet w.log).trans ?_
      rw [h.chosen]
      exact congrArg (fun c => (List.range c).map (· % n)) hindex.symm

theorem Counted.step {n : ℕ} {w : PoolWorld} (h : Counted n w) {call : PoolCall}
    (hmeets : call.Meets cls w) : Counted n (w.step cls call) := by
  cases call with
  | getChannel =>
      rw [PoolWorld.step]
      cases hch : w.pool.subchannels[w.pool.rrIndex % w.pool.subchannels.length]? with
      | none =>
          rw [leaves, PoolWorld.getChannel_none hch]
          exact h
      | some ch =>
          rw [leaves, PoolWorld.getChannel_some hch]
          exact h.choose hmeets
  | createStream opts timeout now =>
      obtain ⟨hlt, hopens⟩ := hmeets
      rw [PoolWorld.step]
      cases hch : w.pool.subchannels[w.pool.rrIndex % w.pool.subchannels.length]? with
      | none =>
          rw [PoolWorld.createStream_none hch]
          exact h
      | some ch =>
          cases hopen : ch.openStream cls { opts with onMessage := true } timeout now with
          | ok stream =>
              rw [PoolWorld.createStream_ok hch hopen]
              exact (h.choose hlt).request _ opts _
          | error why =>
              rw [PoolWorld.createStream_error hch hopen]
              -- the request was counted before the stream died; without a message it has no frame
              rcases hopens with hnone | hopens
              · have hcounted := (h.choose hlt).request (extractIpKey cls ch.target) opts w.streams
                have hframe : opts.requestFrame = none := by
                  rw [StreamOpts.requestFrame, hnone]
                  rfl
                rw [hframe] at hcounted
                simpa [PoolWorld.logged, PoolWorld.chosen, PoolWorld.requested] using hcounted
              · obtain ⟨stream, hok⟩ := openStream_of_opens cls hopens ch now
                rw [hok] at hopen
                cases hopen
  | act i a => exact h.act hmeets
  | resetMetrics =>
      exact ⟨h.subchannels, (choices_append w.log [.reset]).trans
        ((List.append_nil _).trans h.chosen), accounted_reset w.pool.metrics w.log⟩

theorem Counted.run {n : ℕ} {w : PoolWorld} (h : Counted n w) {calls : List PoolCall}
    (hmeets : Meets cls w calls) : Counted n (w.run cls calls) := by
  induction calls generalizing w with
  | nil => exact h
  | cons call calls ih => exact ih (h.step cls hmeets.1) hmeets.2

/-- Subchannels that are chosen in turn. -/
theorem Counted.balanced {n : ℕ} {w : PoolWorld} (h : Counted n w) (hn : 0 < n) :
    Balanced n w.log := by
  intro i hi
  rw [h.chosen] at hi ⊢
  rw [List.length_map, List.length_range] at hi
  have hwindow : (((List.range w.pool.rrIndex).map (· % n)).drop i).take n =
      (List.range' i n).map (· % n) := by
    rw [← List.map_drop, ← List.map_take, List.range_eq_range', List.drop_range', Nat.zero_add,
      Nat.mul_one, List.take_range'_of_length_ge (by omega)]
  rw [hwindow]
  constructor
  · refine List.Nodup.map_on ?_ List.nodup_range'
    intro x hx y hy heq
    rw [List.mem_range'_1] at hx hy
    rcases Nat.le_total x y with hle | hle
    · have hdvd : n ∣ y - x := Nat.dvd_of_mod_eq_zero (Nat.sub_mod_eq_zero_of_mod_eq heq.symm)
      have hzero := Nat.eq_zero_of_dvd_of_lt hdvd (by omega)
      omega
    · have hdvd : n ∣ x - y := Nat.dvd_of_mod_eq_zero (Nat.sub_mod_eq_zero_of_mod_eq heq)
      have hzero := Nat.eq_zero_of_dvd_of_lt hdvd (by omega)
      omega
  · intro index hindex
    obtain ⟨x, -, rfl⟩ := List.mem_map.mp hindex
    exact Nat.mod_lt x hn

/-! ### A new pool -/

/-- An entry that has counted nothing. -/
theorem Accounted.fresh {metrics : List (PerlStr × Metrics)} (h : Accounted metrics [])
    (ipKey target : PerlStr) : Accounted (Assoc.store metrics ipKey { target }) [] := by
  intro key
  rw [entry, Assoc.find_store]
  split
  · exact ⟨rfl, rfl, rfl⟩
  · exact h key

theorem accounted_initial (fresh : List (PerlStr × PerlStr)) :
    Accounted (Assoc.assignAll [] (fresh.map fun e => (e.1, { target := e.2 }))) [] := by
  have hall (metrics : List (PerlStr × Metrics)) (h : Accounted metrics []) :
      Accounted (Assoc.assignAll metrics (fresh.map fun e => (e.1, { target := e.2 }))) [] := by
    induction fresh generalizing metrics with
    | nil => exact h
    | cons e fresh ih => exact ih _ (h.fresh e.1 e.2)
  exact hall [] fun key => ⟨rfl, rfl, rfl⟩

theorem Counted.initial {target : PerlStr} {authToken engineType : Option PerlStr}
    {xsAvailable : Bool} {resolvedIps addresses : List PerlStr} {pool : ChannelPool}
    (h : initPool cls target authToken engineType xsAvailable resolvedIps addresses = .ok pool) :
    Counted pool.subchannels.length { pool } := by
  obtain ⟨-, hmetrics, hindex⟩ := initPool_spec cls h
  refine ⟨rfl, ?_, ?_⟩
  · show [] = (List.range pool.rrIndex).map (· % pool.subchannels.length)
    rw [hindex]
    rfl
  · show Accounted pool.metrics []
    have haccounted := accounted_initial ((poolIps cls target resolvedIps addresses).map
      fun ip => (ip, subTarget cls ip (targetParts cls target).2))
    rw [List.map_map] at haccounted
    rw [hmetrics]
    exact haccounted

/-! ### Other entries -/

/-- The key that a call counts under. -/
def PoolCall.ipKey (w : PoolWorld) : PoolCall → Option PerlStr
  | .createStream _ _ _ =>
      (w.pool.subchannels[w.pool.rrIndex % w.pool.subchannels.length]?).map fun ch =>
        extractIpKey cls ch.target
  | .act i _ => w.streams[i]?.map PoolStream.ipKey
  | _ => none

/-- A call that is no reset leaves the entries of the other keys as they are. -/
def LeavesOthers (w : PoolWorld) : Prop :=
  ∀ call : PoolCall, call ≠ .resetMetrics → ∀ key, call.ipKey cls w ≠ some key →
    Assoc.find (w.step cls call).pool.metrics key = Assoc.find w.pool.metrics key

theorem leavesOthers (w : PoolWorld) : LeavesOthers cls w := by
  intro call hcall key hkey
  cases call with
  | resetMetrics => exact absurd rfl hcall
  | getChannel =>
      rw [PoolWorld.step, leaves]
      cases hch : w.pool.subchannels[w.pool.rrIndex % w.pool.subchannels.length]? with
      | none => rw [PoolWorld.getChannel_none hch]
      | some ch =>
          rw [PoolWorld.getChannel_some hch]
          rfl
  | createStream opts timeout now =>
      rw [PoolWorld.step]
      cases hch : w.pool.subchannels[w.pool.rrIndex % w.pool.subchannels.length]? with
      | none => rw [PoolWorld.createStream_none hch]
      | some ch =>
          have hne : key ≠ extractIpKey cls ch.target := by
            rintro rfl
            exact hkey (by rw [PoolCall.ipKey, hch]; rfl)
          cases hopen : ch.openStream cls { opts with onMessage := true } timeout now with
          | ok stream =>
              rw [PoolWorld.createStream_ok hch hopen]
              exact Assoc.find_store_of_ne _ _ hne
          | error why =>
              rw [PoolWorld.createStream_error hch hopen]
              exact Assoc.find_store_of_ne _ _ hne
  | act i a =>
      rw [PoolWorld.step, PoolWorld.runOn]
      cases hs : w.streams[i]? with
      | none => rfl
      | some s =>
          refine find_since s w.pool [a] fun heq => hkey ?_
          rw [PoolCall.ipKey, hs, ← heq]
          rfl

/-! ### Runs -/

/-- A pool keeps exact counters and chooses its subchannels in turn, over every run in which no
stream fails to open after its request was counted, no frame is sent on a stream whose key is
false to Perl, and the index of the next subchannel does not grow out of its 64 bits. -/
theorem accounted_of_meets {target : PerlStr} {authToken engineType : Option PerlStr}
    {xsAvailable : Bool} {resolvedIps addresses : List PerlStr} {pool : ChannelPool}
    (hpool : initPool cls target authToken engineType xsAvailable resolvedIps addresses =
      .ok pool) (hn : 0 < pool.subchannels.length) (calls : List PoolCall)
    (hmeets : Meets cls { pool } calls) :
    Balanced pool.subchannels.length (PoolWorld.run cls { pool } calls).log ∧
      Accounted (PoolWorld.run cls { pool } calls).pool.metrics
        (PoolWorld.run cls { pool } calls).log ∧
      LeavesOthers cls (PoolWorld.run cls { pool } calls) := by
  have hcounted := (Counted.initial cls hpool).run cls hmeets
  exact ⟨hcounted.balanced hn, hcounted.accounted, leavesOthers cls _⟩

def twoAddresses : ChannelPool where
  subchannels := [{ target := ps "10.0.0.1:443", engine := .pp },
    { target := ps "10.0.0.2:443", engine := .pp }]
  metrics := [(ps "10.0.0.1", { target := ps "10.0.0.1:443" }),
    (ps "10.0.0.2", { target := ps "10.0.0.2:443" })]

def greeting : StreamOpts PerlStr where
  service := some (ps "Greeter")
  method := some (ps "SayHello")
  request := some (ps "hello")
  parse := .ok

/-- A stream is made and written to, another subchannel is chosen, and the counters are reset. -/
def greetingRun : List PoolCall :=
  [.createStream greeting none 0,
    .act 0 (.call (.writeMessage (some (ps "again")) true 0) [] [] []), .getChannel,
    .resetMetrics]

theorem accounted_of_meets_greetingRun :
    Meets asciiClasses { pool := twoAddresses } greetingRun ∧
      Balanced 2 (PoolWorld.run asciiClasses { pool := twoAddresses } greetingRun).log ∧
      Accounted (PoolWorld.run asciiClasses { pool := twoAddresses } greetingRun).pool.metrics
        (PoolWorld.run asciiClasses { pool := twoAddresses } greetingRun).log ∧
      LeavesOthers asciiClasses
        (PoolWorld.run asciiClasses { pool := twoAddresses } greetingRun) := by
  have hpool : initPool asciiClasses (ps "spanner:443") none none false
      [ps "10.0.0.1", ps "10.0.0.2"] [] = .ok twoAddresses := rfl
  have hmeets : Meets asciiClasses { pool := twoAddresses } greetingRun := by
    refine ⟨⟨by decide, .inr ⟨rfl, rfl, fun val hval => by cases hval⟩⟩, fun s hs => .inl ?_,
      ?_, trivial, trivial⟩
    · have hkey : ((PoolWorld.step asciiClasses { pool := twoAddresses }
          (.createStream greeting none 0)).streams[0]?).map PoolStream.ipKey =
          some (ps "10.0.0.1") := rfl
      rw [hs] at hkey
      rw [Option.some.inj hkey]
      rfl
    · show 1 < 2 ^ 64
      decide
  exact ⟨hmeets, accounted_of_meets asciiClasses hpool (by decide) greetingRun hmeets⟩

/-- A request without a method: its octets are counted, and nothing is sent. -/
theorem not_accounted_noMethod :
    initPool asciiClasses (ps "spanner:443") none none false [ps "10.0.0.1", ps "10.0.0.2"] [] =
        .ok twoAddresses ∧
      ¬ Accounted (PoolWorld.run asciiClasses { pool := twoAddresses }
          [.createStream { greeting with method := none } none 0]).pool.metrics
        (PoolWorld.run asciiClasses { pool := twoAddresses }
          [.createStream { greeting with method := none } none 0]).log := by
  refine ⟨rfl, fun h => ?_⟩
  have hsent := (h (ps "10.0.0.1")).2.1
  revert hsent
  decide

end GooglePerl.Grpc
