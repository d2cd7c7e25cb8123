import GooglePerl.Grpc.Stream

/-!
What the writes of a stream hand to `Channel::send_stream_data`.

Up to the deadline each `write_message` and each `close_write` hands over one
frame; `close_write` is a write of nothing, which is the frame of an empty
message. The first call after the deadline closes the stream, and from then on
nothing is handed over (`sends_after`).
-/

namespace GooglePerl.Grpc

open GooglePerl.Lib
open GooglePerl.Protobuf (PerlStr ps Die)

variable {M : Type}

inductive WriteCall where
  | writeMessage (msg : Option PerlStr) (endStream : Bool) (now : ℚ)
  | closeWrite (now : ℚ)
  deriving DecidableEq

namespace WriteCall

def call : WriteCall → Call
  | .writeMessage msg endStream now => .writeMessage msg endStream now
  | .closeWrite now => .closeWrite now

def now : WriteCall → ℚ
  | .writeMessage _ _ now => now
  | .closeWrite now => now

/-- The message that the caller writes, serialized. -/
def message : WriteCall → Option PerlStr
  | .writeMessage msg _ _ => some (msg.getD [])
  | .closeWrite _ => none

/-- The payload of the frame that is sent. -/
def payload : WriteCall → PerlStr
  | .writeMessage msg _ _ => msg.getD []
  | .closeWrite _ => []

def endStream : WriteCall → Bool
  | .writeMessage _ endStream _ => endStream
  | .closeWrite _ => true

/-- The arguments of `send_stream_data`. -/
def send (c : WriteCall) : PerlStr × Bool := (packFrame (some c.payload) false, c.endStream)

end WriteCall

/-- The messages that the caller wrote, in order. -/
def written (calls : List WriteCall) : List PerlStr := calls.filterMap WriteCall.message

/-- The data that an event hands to the channel. -/
def Event.send : Event M → Option (PerlStr × Bool)
  | .sendStreamData bytes endStream => some (bytes, endStream)
  | _ => none

/-- The calls of `send_stream_data` so far. -/
def World.sends (w : World M) : List (PerlStr × Bool) := w.history.filterMap fun m => m.event.send

@[simp] theorem noted_sends (w : World M) (e : Event M) (f : Stream M → Stream M) :
    (w.noted e f).sends = w.sends ++ e.send.toList := by
  cases hs : e.send <;> simp [World.sends, hs]

/-! ### One write -/

variable {S : Setup M}

/-- The states in which a stream sends and is left open by it. -/
def CanWrite (st : StreamState) : Prop := st = .opened ∨ st = .halfClosedLocal

theorem CanWrite.ne_closed {st : StreamState} (h : CanWrite st) : st ≠ .closed := by
  rcases h with h | h <;> simp [h]

/-- What a world shows of the writes so far. -/
def Shows (state : StreamState → Prop) (sends : List (PerlStr × Bool)) (w : World M) : Prop :=
  state w.stream.state ∧ w.sends = sends

/-- An event that hands nothing over. -/
theorem note_shows {p q : StreamState → Prop} {sends : List (PerlStr × Bool)} {e : Event M}
    {f : Stream M → Stream M} (he : e.send = none) (hf : ∀ s, p s.state → q (f s).state) :
    Triple (Shows p sends) (note e f) (fun _ => Shows q sends) fun _ => False := by
  refine Triple.note ?_
  rintro w ⟨hstate, hsends⟩
  exact ⟨hf w.stream hstate, by simp [he, hsends]⟩

/-- A report to a callback that only looks on. -/
theorem callback_shows {p : StreamState → Prop} {sends : List (PerlStr × Bool)} {e : Event M}
    {set : Bool} (he : e.send = none) :
    Triple (Shows p sends) (callback set e (pure ())) (fun _ => Shows p sends) fun _ => False := by
  refine Triple.onlyIf ?_ fun w hw => hw
  refine Triple.bind (note_shows he fun s hs => hs) fun _ => ?_
  exact Triple.pure fun w hw => hw

theorem handleClose_shows (sends : List (PerlStr × Bool)) :
    Triple (Shows (fun _ => True) sends) (handleClose S onlookers)
      (fun _ => Shows (· = .closed) sends) fun _ => False := by
  refine Triple.unlessClosed (fun w hw hc => ⟨hc, hw.2⟩) ?_
  refine Triple.bind (Q := fun _ => Shows (· = .closed) sends) ?_ fun _ => Triple.read ?_
  · refine Triple.weaken (P := Shows (fun _ => True) sends) ?_ fun w hw => hw.1
    exact note_shows rfl fun s _ => rfl
  · intro w hw
    exact (callback_shows rfl).weaken fun t ht => ht ▸ hw

/-- After the deadline a check closes the stream and hands nothing over. -/
theorem checkDeadline_shows {now : ℚ} (h : S.expired now = true) (sends : List (PerlStr × Bool)) :
    Triple (Shows (fun _ => True) sends) (checkDeadline S onlookers now)
      (fun _ => Shows (· = .closed) sends) fun _ => False := by
  refine Triple.unlessClosed (fun w hw hc => ⟨hc, hw.2⟩) ?_
  rw [h]
  have habort : Triple (Shows (fun _ => True) sends)
      (abortStream S onlookers (some (.fin 4)) (some (ps "Deadline Exceeded")))
      (fun _ => Shows (· = .closed) sends) fun _ => False := by
    refine Triple.bind (note_shows (q := fun _ => True) rfl fun s _ => trivial) fun _ => ?_
    refine Triple.bind (note_shows (q := fun _ => True) rfl fun s _ => trivial) fun _ => ?_
    refine Triple.bind (note_shows (q := fun _ => True) rfl fun s _ => trivial) fun _ => ?_
    refine Triple.bind (callback_shows rfl) fun _ => ?_
    exact handleClose_shows sends
  exact habort.weaken fun w hw => hw.1

/-- A write before the deadline hands one frame over. -/
theorem writeMessage_shows {msg : Option PerlStr} {endStream : Bool} {now : ℚ}
    (h : S.expired now = false) (sends : List (PerlStr × Bool)) :
    Triple (Shows CanWrite sends) (writeMessage S onlookers msg endStream now)
      (fun _ => Shows CanWrite (sends ++ [(packFrame (some (msg.getD [])) false, endStream)]))
      fun _ => False := by
  have hcheck : Triple (Shows CanWrite sends) (checkDeadline S onlookers now)
      (fun _ => Shows CanWrite sends) fun _ => False := by
    intro w hw
    rw [checkDeadline_of_not_expired h]
    exact hw
  refine Triple.bind hcheck fun _ => ?_
  refine Triple.unlessClosed (fun w hw hc => absurd hc hw.1.ne_closed) ?_
  refine Triple.weaken (P := Shows CanWrite sends) ?_ fun w hw => hw.1
  have hrecord (size : ℕ) : Triple (Shows CanWrite sends) (recordRequest S size)
      (fun _ => Shows CanWrite sends) fun _ => False := by
    unfold recordRequest
    split
    · exact Triple.pure fun w hw => hw
    · exact note_shows rfl fun s hs => hs
  refine Triple.bind (hrecord _) fun _ => ?_
  refine Triple.bind (Q := fun _ => Shows CanWrite
    (sends ++ [(packFrame (some (msg.getD [])) false, endStream)])) ?_ fun _ => ?_
  · refine Triple.note ?_
    rintro w ⟨hstate, hsends⟩
    exact ⟨hstate, by simp [hsends, Event.send]⟩
  · refine Triple.onlyIf (note_shows rfl ?_) fun w hw => hw
    intro s hs
    rcases hs with hs | hs <;> simp [hs, CanWrite]

/-- A write after the deadline closes the stream and hands nothing over. -/
theorem writeMessage_shows_expired {msg : Option PerlStr} {endStream : Bool} {now : ℚ}
    (h : S.expired now = true) (sends : List (PerlStr × Bool)) :
    Triple (Shows (fun _ => True) sends) (writeMessage S onlookers msg endStream now)
      (fun _ => Shows (· = .closed) sends) fun _ => False := by
  refine Triple.bind (checkDeadline_shows h sends) fun _ => ?_
  refine Triple.unlessClosed (fun w hw _ => hw) ?_
  rintro w ⟨⟨hclosed, -⟩, hne⟩
  exact absurd hclosed hne

/-! ### A run of writes -/

theorem sends_after_closed (S : Setup M) (calls : List WriteCall) {w : World M}
    (hw : w.stream.state = .closed) :
    (w.after S (calls.map fun c => .plain c.call)).sends = w.sends := by
  induction calls with
  | nil => simp [after_nil]
  | cons c calls ih =>
      have hrun : c.call.perform S onlookers w = .ok () w := by
        have hcheck : checkDeadline S onlookers c.now w = .ok () w := unlessClosed_of_closed hw
        cases c with
        | writeMessage msg endStream now =>
            exact (bind_of_ok hcheck).trans (unlessClosed_of_closed hw)
        | closeWrite now => exact (bind_of_ok hcheck).trans (unlessClosed_of_closed hw)
      rw [List.map_cons, after_plain hrun, ih]

/-- What has been handed over: one frame for each call up to the deadline. -/
theorem sends_after (S : Setup M) (calls : List WriteCall) {w : World M}
    (hw : CanWrite w.stream.state) :
    (w.after S (calls.map fun c => .plain c.call)).sends =
      w.sends ++ (calls.takeWhile fun c => !S.expired c.now).map WriteCall.send := by
  induction calls generalizing w with
  | nil => simp [after_nil]
  | cons c calls ih =>
      cases hc : S.expired c.now with
      | false =>
          have hcall : Triple (Shows CanWrite w.sends) (c.call.perform S onlookers)
              (fun _ => Shows CanWrite (w.sends ++ [c.send])) fun _ => False := by
            cases c with
            | writeMessage msg endStream now => exact writeMessage_shows hc _
            | closeWrite now => exact writeMessage_shows hc _
          obtain ⟨⟨⟩, w', hrun, hstate, hsends⟩ := hcall.returns ⟨hw, rfl⟩
          rw [List.map_cons, after_plain hrun, ih hstate, hsends]
          simp [hc]
      | true =>
          have hcall : Triple (Shows (fun _ => True) w.sends) (c.call.perform S onlookers)
              (fun _ => Shows (· = .closed) w.sends) fun _ => False := by
            cases c with
            | writeMessage msg endStream now => exact writeMessage_shows_expired hc _
            | closeWrite now => exact writeMessage_shows_expired hc _
          obtain ⟨⟨⟩, w', hrun, hstate, hsends⟩ := hcall.returns ⟨trivial, rfl⟩
          rw [List.map_cons, after_plain hrun, sends_after_closed S calls hstate, hsends]
          simp [hc]

/-! ### Exactly the written messages -/

/-- What was handed over unpacks to the written messages, and nothing was handed
over after an end of stream. -/
def SendsExactly (S : Setup M) (w : World M) (calls : List WriteCall) : Prop :=
  (unpackFrame ((w.after S (calls.map fun c => .plain c.call)).sends.map Prod.fst).flatten).1.map
      Frame.payload = written calls ∧
    (w.after S (calls.map fun c => .plain c.call)).sends.Pairwise fun a _ => a.2 = false

/-- The calls up to the deadline. -/
def onTime (S : Setup M) (calls : List WriteCall) : List WriteCall :=
  calls.takeWhile fun c => !S.expired c.now

/-- The calls from the deadline on. -/
def tooLate (S : Setup M) (calls : List WriteCall) : List WriteCall :=
  calls.dropWhile fun c => !S.expired c.now

/-- Writes alone are made before the deadline and none after it. The other case is an
accident: the frame of one `close_write` stands in for an empty message that comes
too late. -/
structure WritesAlone (S : Setup M) (calls : List WriteCall) : Prop where
  short : ∀ c ∈ onTime S calls, c.payload.length < 2 ^ 32
  ended : (onTime S calls).Pairwise fun c _ => c.endStream = false
  alone : (∀ c ∈ onTime S calls, c.message.isSome) ∧ written (tooLate S calls) = [] ∨
    (∃ c ∈ (onTime S calls).getLast?, c.message = none) ∧ written (tooLate S calls) = [[]]

/-- A call that does not end the stream is a write. -/
theorem message_of_endStream {c : WriteCall} (h : c.endStream = false) :
    c.message = some c.payload := by
  cases c with
  | writeMessage msg endStream now => rfl
  | closeWrite now => cases h

theorem written_of_writes {calls : List WriteCall} (h : ∀ c ∈ calls, c.message = some c.payload) :
    written calls = calls.map WriteCall.payload := by
  induction calls with
  | nil => rfl
  | cons c calls ih =>
      have hc := h c List.mem_cons_self
      have hcalls := ih fun d hd => h d (List.mem_cons_of_mem _ hd)
      simp [written, hc] at hcalls ⊢
      exact hcalls

theorem written_append (a b : List WriteCall) : written (a ++ b) = written a ++ written b := by
  simp [written]

/-- Frames of short payloads unpack to the payloads. -/
theorem unpack_short {calls : List WriteCall} (h : ∀ c ∈ calls, c.payload.length < 2 ^ 32)
    (rest : PerlStr) :
    (unpackFrame (((calls.map WriteCall.send).map Prod.fst).flatten ++ rest)).1.map Frame.payload =
      calls.map WriteCall.payload ++ (unpackFrame rest).1.map Frame.payload := by
  have hreads : ∀ f ∈ calls.map fun c => framed c.payload false,
      frameExtractor.Reads Frame.octets f := by
    intro f hf
    obtain ⟨c, hc, rfl⟩ := List.mem_map.mp hf
    exact reads_octets (h c hc)
  have hdrain := Extractor.drain_flatten hreads rest
  simp only [List.map_map] at hdrain ⊢
  have hsame : (Prod.fst ∘ WriteCall.send) = Frame.octets ∘ fun c => framed c.payload false := rfl
  rw [unpackFrame, hsame, hdrain, List.map_append, List.map_map]
  rfl

/-- The frame of a payload that is too long gives out a shorter one. -/
theorem unpack_long {payload : PerlStr} (h : 2 ^ 32 ≤ payload.length) (rest : PerlStr) :
    ∃ f fs, (unpackFrame (packFrame (some payload) false ++ rest)).1 = f :: fs ∧
      f.payload.length < 2 ^ 32 := by
  let header := beBytes 4 payload.length
  have hheader : beValue header < 2 ^ 32 := beValue_lt (beBytes_length 4 _) (beBytes_lt 4 _)
  have hsplit : packFrame (some payload) false ++ rest =
      0 :: (header ++ ((payload ++ rest).take (beValue header) ++
        (payload ++ rest).drop (beValue header))) := by
    rw [List.take_append_drop]
    simp [packFrame, header]
  have htake : ((payload ++ rest).take (beValue header)).length = beValue header := by
    rw [List.length_take, List.length_append]
    omega
  have hnext : frameExtractor.next (0 :: (header ++ ((payload ++ rest).take (beValue header) ++
      (payload ++ rest).drop (beValue header)))) =
      some (⟨0, (payload ++ rest).take (beValue header)⟩,
        (payload ++ rest).drop (beValue header)) :=
    nextFrame_of_header 0 (beBytes_length 4 payload.length) htake _
  rw [hsplit, unpackFrame, frameExtractor.drain_of_some hnext]
  exact ⟨_, _, rfl, htake.trans_lt hheader⟩

/-- Up to an end of stream, what unpacks to the written messages has no long one. -/
theorem short_of_unpack {calls : List WriteCall} {late : List PerlStr}
    (hended : calls.Pairwise fun c _ => c.endStream = false)
    (h : (unpackFrame ((calls.map WriteCall.send).map Prod.fst).flatten).1.map Frame.payload =
      written calls ++ late) : ∀ c ∈ calls, c.payload.length < 2 ^ 32 := by
  induction calls with
  | nil => simp
  | cons c calls ih =>
      obtain ⟨hc, hcalls⟩ := List.pairwise_cons.mp hended
      by_cases hshort : c.payload.length < 2 ^ 32
      · cases calls with
        | nil => simpa using hshort
        | cons d calls =>
            have hmessage := message_of_endStream (hc d List.mem_cons_self)
            have hone : ∀ x ∈ [c], x.payload.length < 2 ^ 32 := by simpa using hshort
            have hunpack := unpack_short hone
              (((d :: calls).map WriteCall.send).map Prod.fst).flatten
            have hwritten : written (c :: d :: calls) = c.payload :: written (d :: calls) := by
              simp [written, hmessage]
            rw [hwritten, List.cons_append] at h
            simp only [List.map_cons, List.map_nil, List.flatten_cons, List.flatten_nil,
              List.append_nil, List.cons_append, List.nil_append] at hunpack h ih
            rw [hunpack] at h
            exact List.forall_mem_cons.mpr ⟨hshort, ih hcalls (List.cons.inj h).2⟩
      · -- the first frame that comes out is too short to be the message
        obtain ⟨f, fs, hf, hlen⟩ := unpack_long (Nat.le_of_not_lt hshort)
          ((calls.map WriteCall.send).map Prod.fst).flatten
        have hmessage : c.message = some c.payload := by
          cases c with
          | writeMessage msg endStream now => rfl
          | closeWrite now => simp [WriteCall.payload] at hshort
        have hwritten : written (c :: calls) = c.payload :: written calls := by
          simp [written, hmessage]
        simp only [List.map_cons, List.flatten_cons, WriteCall.send] at h
        rw [hf, hwritten, List.map_cons, List.cons_append] at h
        rw [(List.cons.inj h).1] at hlen
        exact absurd hlen hshort

/-- Which payloads are the written messages, when only the last call may end the
stream. -/
theorem payloads_eq_written {calls : List WriteCall} {late : List PerlStr}
    (hended : calls.Pairwise fun c _ => c.endStream = false) :
    calls.map WriteCall.payload = written calls ++ late ↔
      (∀ c ∈ calls, c.message.isSome) ∧ late = [] ∨
        (∃ c ∈ calls.getLast?, c.message = none) ∧ late = [[]] := by
  rcases List.eq_nil_or_concat calls with rfl | ⟨init, c, rfl⟩
  · simp [written, eq_comm (a := [])]
  -- only the last call can be a `close_write`
  · have hinit : ∀ d ∈ init, d.message = some d.payload := by
      intro d hd
      rw [List.concat_eq_append, List.pairwise_append] at hended
      exact message_of_endStream (hended.2.2 d hd c (by simp))
    rw [List.concat_eq_append, List.map_append, written_append, written_of_writes hinit,
      List.append_assoc, List.append_cancel_left_eq]
    cases c with
    | writeMessage msg endStream now =>
        have hall : ∀ d ∈ init ++ [WriteCall.writeMessage msg endStream now], d.message.isSome := by
          intro d hd
          rcases List.mem_append.mp hd with hd | hd
          · simp [hinit d hd]
          · simp [List.mem_singleton.mp hd, WriteCall.message]
        constructor
        · intro h
          exact .inl ⟨hall, by simpa [written, WriteCall.message, WriteCall.payload] using h⟩
        · rintro (⟨-, rfl⟩ | ⟨⟨d, hd, hnone⟩, -⟩)
          · simp [written, WriteCall.message, WriteCall.payload]
          · have hsome := hall d (List.mem_of_getLast? hd)
            simp [hnone] at hsome
    | closeWrite now =>
        have hwritten : written [.closeWrite now] = [] := rfl
        rw [hwritten, List.nil_append]
        constructor
        · intro h
          exact .inr ⟨⟨.closeWrite now, by simp, rfl⟩, h.symm⟩
        · rintro (⟨hall, -⟩ | ⟨-, rfl⟩)
          · have hsome := hall (.closeWrite now) (by simp)
            simp [WriteCall.message] at hsome
          · rfl

/-- The written messages, and nothing else, reach the channel exactly when writes
alone are made in time. -/
theorem sendsExactly_iff (S : Setup M) (s : Stream M) (hs : s.state = .opened)
    (calls : List WriteCall) : SendsExactly S ⟨s, []⟩ calls ↔ WritesAlone S calls := by
  have hsends : ((⟨s, []⟩ : World M).after S (calls.map fun c => .plain c.call)).sends =
      (onTime S calls).map WriteCall.send := by
    rw [sends_after S calls (.inl hs)]
    rfl
  have hwritten : written calls = written (onTime S calls) ++ written (tooLate S calls) := by
    rw [← written_append, onTime, tooLate, List.takeWhile_append_dropWhile]
  have hnone : (unpackFrame []).1.map Frame.payload = [] := rfl
  rw [SendsExactly, hsends, hwritten, List.pairwise_map]
  constructor
  · rintro ⟨hunpack, hended⟩
    have hshort := short_of_unpack hended hunpack
    have hpayloads := unpack_short hshort []
    rw [List.append_nil, hunpack, hnone, List.append_nil] at hpayloads
    exact ⟨hshort, hended, (payloads_eq_written hended).mp hpayloads.symm⟩
  · rintro ⟨hshort, hended, halone⟩
    refine ⟨?_, hended⟩
    have hpayloads := unpack_short hshort []
    rw [List.append_nil, hnone, List.append_nil] at hpayloads
    rw [hpayloads, ← (payloads_eq_written hended).mpr halone]

/-- Two writes, the second of which ends the stream. -/
theorem sendsExactly_of_two_writes :
    SendsExactly ({ parse := .ok } : Setup PerlStr) ⟨{}, []⟩
      [.writeMessage (some (ps "a")) false 0, .writeMessage (some (ps "b")) true 1] :=
  (sendsExactly_iff _ _ rfl _).mpr ⟨by decide, by decide, .inl ⟨by decide, rfl⟩⟩

/-- `close_write` sends an empty message, and a write after it is still sent. -/
theorem sendsExactly_fails :
    ¬ SendsExactly ({ parse := .ok } : Setup PerlStr) ⟨{}, []⟩
        [.writeMessage (some (ps "a")) false 0, .closeWrite 1] ∧
    ¬ SendsExactly ({ parse := .ok } : Setup PerlStr) ⟨{}, []⟩
        [.writeMessage (some (ps "a")) true 0, .writeMessage (some (ps "b")) false 1] := by
  constructor
  · rintro ⟨hunpack, -⟩
    exact absurd hunpack (by decide)
  · rintro ⟨-, hended⟩
    exact absurd hended (by decide)

end GooglePerl.Grpc
