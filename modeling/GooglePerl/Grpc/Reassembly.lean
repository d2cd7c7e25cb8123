import GooglePerl.Grpc.Stream

/-!
Messages are put together from chunks the same way however the octets were cut.

On a stream without a response class, `push_incoming_data` feeds
`frameExtractor`: the read buffer is what the extractor waits with, the queue
grows by the payloads it gives out (`Reassembled`).
-/

namespace GooglePerl.Grpc

open GooglePerl.Lib
open GooglePerl.Protobuf (PerlStr ps Die IsOctets)

variable {M : Type}

/-! ### Feeding chunks -/

/-- `w` is `w₀` after the frames `frames` were taken and `b` is left unfinished. -/
structure Reassembled (S : Setup PerlStr) (w₀ w : World PerlStr) (b : PerlStr)
    (frames : List Frame) : Prop where
  stream : w.stream = { w₀.stream with
    readBuffer := b
    responseQueue := w₀.stream.responseQueue ++ frames.map Frame.payload }
  messages : w.messages = w₀.messages ++ if S.onMessage then frames.map Frame.payload else []

/-- The loop over the frames of one chunk. -/
theorem deliver_plain {S : Setup PerlStr} (hclass : S.parse = .ok) (frames : List Frame)
    (w : World PerlStr) :
    ∃ w', deliver S [] frames w = .ok () w' ∧
      w'.stream = { w.stream with
        responseQueue := w.stream.responseQueue ++ frames.map Frame.payload } ∧
      w'.messages = w.messages ++ if S.onMessage then frames.map Frame.payload else [] := by
  induction frames generalizing w with
  | nil => exact ⟨w, rfl, by simp, by simp⟩
  | cons f frames ih =>
      let w₁ := (w.noted (.turn f.payload) id).noted .wrote fun s =>
        { s with responseQueue := s.responseQueue ++ [f.payload] }
      let w₂ := if S.onMessage then w₁.noted (.onMessage f.payload) id else w₁
      obtain ⟨w', hrun, hstream, hmessages⟩ := ih w₂
      have hturn : deliver S [] (f :: frames) w = deliver S [] frames w₂ := by
        rw [deliver, bind_of_ok (note_eq _ _ w)]
        simp only [hclass]
        rw [bind_of_ok (note_eq _ _ _)]
        cases hcb : S.onMessage with
        | false => simp only [w₂, w₁, hcb]; rfl
        | true => simp only [w₂, w₁, hcb]; rfl
      have hqueue : w₂.stream = { w.stream with
          responseQueue := w.stream.responseQueue ++ [f.payload] } := by
        cases hcb : S.onMessage <;> simp [w₂, w₁, hcb]
      have hseen : w₂.messages = w.messages ++ if S.onMessage then [f.payload] else [] := by
        cases hcb : S.onMessage <;> simp [w₂, w₁, hcb, Event.message]
      refine ⟨w', hturn.trans hrun, by simp [hstream, hqueue], ?_⟩
      rw [hmessages, hseen]
      split <;> simp

/-- A chunk is fed by a call whose callbacks only look on. -/
def feedChunk (c : PerlStr × ℚ) : Act := .plain (.pushIncomingData (some c.1) c.2)

/-- One chunk feeds the extractor. -/
theorem reassembled_chunk {S : Setup PerlStr} (hclass : S.parse = .ok) {w₀ w : World PerlStr}
    {b : PerlStr} {frames : List Frame} (hopen : w₀.stream.state ≠ .closed)
    (hb : nextFrame b = none) (h : Reassembled S w₀ w b frames) {c : PerlStr × ℚ}
    (htime : S.expired c.2 = false) :
    ∃ w', (feedChunk c).code S w = .ok () w' ∧
      Reassembled S w₀ w' (frameExtractor.feed (b, frames) c.1).1
        (frameExtractor.feed (b, frames) c.1).2 := by
  have hw : w.stream.state ≠ .closed := by
    rw [h.stream]
    exact hopen
  have hbuf : w.stream.readBuffer = b := by rw [h.stream]
  -- the call comes to its loop: the stream is open and in time
  have hrun : (feedChunk c).code S w =
      (if c.1 = [] then pure ()
       else do
        let w ← get
        note .wrote fun s =>
          { s with readBuffer := (unpackFrame (w.stream.readBuffer ++ c.1)).2 }
        deliver S [] (unpackFrame (w.stream.readBuffer ++ c.1)).1 : Perl PerlStr Unit) w := by
    simp only [feedChunk, Act.plain, Act.code, Call.perform, pushIncomingData]
    rw [bind_of_ok (checkDeadline_of_not_expired htime _ w), unlessClosed_of_ne hw]
    rfl
  rw [hrun]
  by_cases hc : c.1 = []
  · -- the early return: there is nothing new to drain
    refine ⟨w, by simp [hc, pure, EStateM.pure], ?_⟩
    have hdrain : frameExtractor.drain b = ([], b) := frameExtractor.drain_of_none hb
    simpa [Extractor.feed, hc, hdrain] using h
  · obtain ⟨w', hdeliver, hstream, hmessages⟩ := deliver_plain hclass (unpackFrame (b ++ c.1)).1
      (w.noted .wrote fun s => { s with readBuffer := (unpackFrame (b ++ c.1)).2 })
    refine ⟨w', ?_, ?_, ?_⟩
    · rw [if_neg hc, bind_of_ok (get_eq w), hbuf, bind_of_ok (note_eq _ _ w)]
      exact hdeliver
    · rw [hstream, noted_stream, h.stream]
      simp [Extractor.feed, unpackFrame]
    · rw [hmessages, noted_messages, h.messages]
      cases S.onMessage <;> simp [Extractor.feed, unpackFrame, Event.message]

/-- Any number of chunks. -/
theorem reassembled_chunks {S : Setup PerlStr} (hclass : S.parse = .ok) {w₀ w : World PerlStr}
    {b : PerlStr} {frames : List Frame} (hopen : w₀.stream.state ≠ .closed)
    (hb : nextFrame b = none) (h : Reassembled S w₀ w b frames) {chunks : List (PerlStr × ℚ)}
    (htime : ∀ c ∈ chunks, S.expired c.2 = false) :
    Reassembled S w₀ (w.after S (chunks.map feedChunk))
      ((chunks.map Prod.fst).foldl frameExtractor.feed (b, frames)).1
      ((chunks.map Prod.fst).foldl frameExtractor.feed (b, frames)).2 := by
  induction chunks generalizing w b frames with
  | nil => simpa [after_nil] using h
  | cons c chunks ih =>
      obtain ⟨w', hrun, h'⟩ := reassembled_chunk hclass hopen hb h (htime c List.mem_cons_self)
      rw [List.map_cons, after_cons hrun, List.map_cons, List.foldl_cons]
      exact ih (frameExtractor.next_drain _) h' fun c hc => htime c (List.mem_cons_of_mem _ hc)

/-! ### Writing frames back -/

/-- A frame written again by `pack_frame`, its flag taken as true or false. -/
def repack (f : Frame) : PerlStr := packFrame (some f.payload) (f.compressed ≠ 0)

theorem repack_eq_octets {f : Frame} : repack f = f.octets ↔ f.compressed ≤ 1 := by
  by_cases h : f.compressed = 0
  · simp [repack, packFrame, Frame.octets, h]
  · simp [repack, packFrame, Frame.octets, h]
    omega

theorem flatten_repack {frames : List Frame} (rest : PerlStr) :
    (frames.map repack).flatten ++ rest = (frames.map Frame.octets).flatten ++ rest ↔
      ∀ f ∈ frames, f.compressed ≤ 1 := by
  induction frames with
  | nil => simp
  | cons f frames ih =>
      have hlen : (repack f).length = f.octets.length := by simp [repack, packFrame, Frame.octets]
      rw [List.map_cons, List.map_cons, List.flatten_cons, List.flatten_cons, List.append_assoc,
        List.append_assoc, List.forall_mem_cons]
      constructor
      · intro h
        obtain ⟨hf, hframes⟩ := List.append_inj h hlen
        exact ⟨repack_eq_octets.mp hf, ih.mp hframes⟩
      · rintro ⟨hf, hframes⟩
        rw [repack_eq_octets.mpr hf, ih.mpr hframes]

/-! ### Any division of any frames -/

/-- A payload as `pack_frame` writes it, compressed or not. -/
def packed (p : PerlStr × Bool) : PerlStr := packFrame (some p.1) p.2

/-- `fed` stops after the frames of `whole`, with `tail` of the next frame: all of
`payloads` have come, or `tail` is less than that frame. -/
structure StopsIn (payloads whole : List (PerlStr × Bool)) (fed tail : PerlStr) : Prop where
  fed : fed = (whole.map packed).flatten ++ tail
  rest : ∃ later, payloads = whole ++ later ∧ (later = [] → tail = []) ∧
    ∀ p ∈ later.head?, tail <+: packed p ∧ tail.length < (packed p).length

theorem exists_stopsIn {payloads : List (PerlStr × Bool)}
    (hlen : ∀ p ∈ payloads, p.1.length < 2 ^ 32)
    {fed rest : PerlStr} (h : fed ++ rest = (payloads.map packed).flatten) :
    ∃ whole, StopsIn payloads whole fed (unpackFrame fed).2 ∧
      (unpackFrame fed).1.map Frame.payload = whole.map Prod.fst := by
  let frame (p : PerlStr × Bool) : Frame := framed p.1 p.2
  have hpacked : packed = fun p => (frame p).octets := rfl
  rw [hpacked] at h
  obtain ⟨whole, later, tail, hall, hfed, hend, hhead⟩ := Extractor.exists_cut h
  have hdrain : unpackFrame fed = (whole.map frame, tail) := by
    rw [hfed]
    have hreads : ∀ f ∈ whole.map frame ++ later.map frame,
        frameExtractor.Reads Frame.octets f := by
      intro f hf
      rw [← List.map_append, ← hall] at hf
      obtain ⟨p, hp, rfl⟩ := List.mem_map.mp hf
      exact reads_octets (hlen p hp)
    have hnext : ∀ f ∈ (later.map frame).head?,
        tail <+: f.octets ∧ tail.length < f.octets.length := by
      intro f hf
      rw [List.head?_map] at hf
      obtain ⟨p, hp, rfl⟩ := Option.map_eq_some_iff.mp hf
      exact hhead p hp
    have hcodes := Extractor.drain_codes hreads rfl (by simpa using hend) hnext
    simpa [unpackFrame, Function.comp_def] using hcodes
  refine ⟨whole, ⟨?_, later, hall, ?_, ?_⟩, ?_⟩
  · rw [hdrain]
    exact hfed
  · rw [hdrain]
    exact hend
  · rw [hdrain]
    exact hhead
  · rw [hdrain, List.map_map]
    rfl

/-- Chunks of any sizes: after any number of them the queue has grown by the
payloads whose frames are whole, in order, `on_message` was called with each, and
the read buffer holds what there is of the next frame. Any octets are the frames
that `unpack_frame` takes, flag octets as they were, and the rest; `pack_frame`
gives them back when no flag is above 1. -/
theorem pushIncomingData_chunks (S : Setup PerlStr) (hclass : S.parse = .ok)
    (w : World PerlStr) (hopen : w.stream.state ≠ .closed) (hbuf : w.stream.readBuffer = [])
    (payloads : List (PerlStr × Bool)) (hlen : ∀ p ∈ payloads, p.1.length < 2 ^ 32)
    (chunks : List (PerlStr × ℚ)) (htime : ∀ c ∈ chunks, S.expired c.2 = false)
    (hdivision : (chunks.map Prod.fst).flatten = (payloads.map packed).flatten) :
    (∀ n, ∃ whole,
      StopsIn payloads whole ((chunks.take n).map Prod.fst).flatten
        (w.after S ((chunks.take n).map feedChunk)).stream.readBuffer ∧
      (w.after S ((chunks.take n).map feedChunk)).stream.responseQueue =
        w.stream.responseQueue ++ whole.map Prod.fst ∧
      (w.after S ((chunks.take n).map feedChunk)).messages =
        w.messages ++ if S.onMessage then whole.map Prod.fst else []) ∧
    ∀ data, IsOctets data →
      ((unpackFrame data).1.map Frame.octets).flatten ++ (unpackFrame data).2 = data ∧
      (((unpackFrame data).1.map repack).flatten ++ (unpackFrame data).2 = data ↔
        ∀ f ∈ (unpackFrame data).1, f.compressed ≤ 1) := by
  constructor
  · intro n
    have hcut : ((chunks.take n).map Prod.fst).flatten ++ ((chunks.drop n).map Prod.fst).flatten =
        (payloads.map packed).flatten := by
      rw [← hdivision, ← List.flatten_append, ← List.map_append, List.take_append_drop]
    -- where the first chunks end: behind some whole payloads, inside another one
    obtain ⟨whole, hstops, hwhole⟩ := exists_stopsIn hlen hcut
    have hstart : Reassembled S w w [] [] := ⟨by simp [← hbuf], by simp⟩
    have hfed : ∀ c ∈ chunks.take n, S.expired c.2 = false :=
      fun c hc => htime c (List.mem_of_mem_take hc)
    have hrun := reassembled_chunks hclass hopen rfl hstart hfed
    rw [frameExtractor.drain_chunks _ _ _ rfl, List.nil_append] at hrun
    refine ⟨whole, ?_, ?_, ?_⟩
    · rw [hrun.stream]
      exact hstops
    · rw [hrun.stream, ← hwhole]
      rfl
    · rw [hrun.messages, ← hwhole]
      rfl
  · intro data hdata
    have hoctets := unpackFrame_octets hdata
    refine ⟨hoctets, ?_⟩
    rw [← flatten_repack (unpackFrame data).2, hoctets]

theorem pushIncomingData_chunks_of_two :
    ∃ whole, StopsIn [(ps "ab", false), ([], true)] whole
        [0, 0, 0, 0, 2, 97, 98, 1, 0]
        (({} : World PerlStr).after { parse := .ok } ([([0, 0, 0], (0 : ℚ)), ([], 1),
          ([0, 2, 97, 98, 1, 0], 2)].map feedChunk)).stream.readBuffer := by
  obtain ⟨h, -⟩ := pushIncomingData_chunks { parse := .ok } rfl {} (by decide) rfl
    [(ps "ab", false), ([], true)] (by decide)
    [([0, 0, 0], 0), ([], 1), ([0, 2, 97, 98, 1, 0], 2), ([0, 0, 0], 3)] (by decide) (by decide)
  obtain ⟨whole, hstops, -⟩ := h 3
  exact ⟨whole, hstops⟩

/-- A flag octet of 2 is not given back by `pack_frame`. -/
theorem repack_two :
    IsOctets [2, 0, 0, 0, 0] ∧
      ((unpackFrame [2, 0, 0, 0, 0]).1.map repack).flatten ++ (unpackFrame [2, 0, 0, 0, 0]).2 ≠
        [2, 0, 0, 0, 0] := by
  decide

end GooglePerl.Grpc
