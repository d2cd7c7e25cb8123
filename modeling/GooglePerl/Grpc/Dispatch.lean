import GooglePerl.Grpc.Channel
import GooglePerl.Lib.Assoc
import GooglePerl.Lib.Run

/-!
Many streams on one channel: `_on_engine_headers`, `_on_engine_data`,
`_on_engine_trailers`, `_on_engine_close` and `check_deadlines`.

The channel finds the stream of an event by its id and calls one method of it. A
callback is given the stream it belongs to and acts on that; so what becomes of a
stream is decided by the events with its id (`find_run`).
-/

namespace GooglePerl.Grpc

open GooglePerl.Lib
open GooglePerl.Protobuf (PerlStr ps Die)

variable {M : Type}

/-- What an engine reports of a stream, or a turn of the loop of
`check_deadlines`; `now` is what the clock shows to the stream. -/
inductive Report where
  | headers (headers : Headers)
  | data (chunk : Option PerlStr) (now : ℚ)
  | trailers (trailers : Headers)
  | close (code : ℕ)
  | checkDeadline (now : ℚ)

/-- The method that the channel calls on the stream. -/
def Report.perform (S : Setup M) (cb : Callbacks M) : Report → Perl M Unit
  | .headers _ => note .wrote fun s => { s with headersReceived := true }
  | .data chunk now => pushIncomingData S cb chunk now
  | .trailers t => handleTrailers S cb t
  | .close _ => handleClose S cb
  | .checkDeadline now => Grpc.checkDeadline S cb now

/-- A report to the stream with an id, and the code that the stream's callbacks run
during it. -/
structure ChannelEvent where
  sid : ℕ
  report : Report
  onMessage : List (List Act) := []
  onTrailers : List Act := []
  onClose : List Act := []

/-- A stream of the channel. -/
structure Live (M : Type) where
  setup : Setup M
  world : World M := {}

/-- `$self->streams` -/
abbrev Streams (M : Type) := List (ℕ × Live M)

def ChannelEvent.code (e : ChannelEvent) (S : Setup M) : Perl M Unit :=
  e.report.perform S ⟨Act.bodies S e.onMessage, Act.body S e.onTrailers, Act.body S e.onClose⟩

/-- What an event does to its stream. -/
def Live.react (l : Live M) (e : ChannelEvent) : Live M :=
  { l with world := leaves (e.code l.setup) l.world }

/-- Whether a callback, or the response class, dies of the event. -/
def Live.dies (l : Live M) (e : ChannelEvent) : Bool :=
  match e.code l.setup l.world with
  | .ok _ _ => false
  | .error _ _ => true

/-- One event: `return unless $stream`, or the method of the stream. -/
def dispatch (streams : Streams M) (e : ChannelEvent) : Streams M :=
  match Assoc.find streams e.sid with
  | none => streams
  | some l => Assoc.store streams e.sid (l.react e)

/-- `check_deadlines` over the keys in the order in which they come; it ends early
when a callback dies. -/
def checkDeadlines (streams : Streams M) : List ChannelEvent → Streams M
  | [] => streams
  | e :: checks =>
      if (Assoc.find streams e.sid).any fun l => l.dies e then dispatch streams e
      else checkDeadlines (dispatch streams e) checks

theorem find_dispatch (streams : Streams M) (e : ChannelEvent) (sid : ℕ) :
    Assoc.find (dispatch streams e) sid =
      (Assoc.find streams sid).map fun l => if e.sid = sid then l.react e else l := by
  unfold dispatch
  cases hfind : Assoc.find streams e.sid with
  | none =>
      by_cases hsid : e.sid = sid
      · rw [← hsid, hfind]
        rfl
      · simp [hsid]
  | some l =>
      rw [Assoc.find_store]
      by_cases hsid : e.sid = sid
      · rw [← hsid, hfind]
        simp
      · simp [hsid, Ne.symm hsid]

/-- What becomes of a stream: the events with its id happen to it, no others. -/
theorem find_run (streams : Streams M) (events : List ChannelEvent) (sid : ℕ) :
    Assoc.find (run dispatch streams events) sid =
      (Assoc.find streams sid).map fun l =>
        run Live.react l (events.filter fun e => e.sid = sid) := by
  induction events generalizing streams with
  | nil => simp
  | cons e events ih =>
      rw [run_cons, ih, find_dispatch, Option.map_map]
      by_cases hsid : e.sid = sid
      · simp [hsid, Function.comp_def]
      · simp [hsid, Function.comp_def]

/-- A sweep is the run of the checks that it comes to, which is all of them unless a
callback dies. -/
theorem checkDeadlines_eq_run (streams : Streams M) (checks : List ChannelEvent) :
    ∃ reached, reached <+: checks ∧ checkDeadlines streams checks = run dispatch streams reached ∧
      (reached ≠ checks → ∃ e ∈ reached, ∃ l : Live M, l.dies e = true) := by
  induction checks generalizing streams with
  | nil => exact ⟨[], List.nil_prefix, rfl, fun h => absurd rfl h⟩
  | cons e checks ih =>
      rw [checkDeadlines]
      split
      · rename_i hdies
        cases hfind : Assoc.find streams e.sid with
        | none => simp [hfind] at hdies
        | some l =>
            have hl : l.dies e = true := by simpa [hfind] using hdies
            exact ⟨[e], ⟨checks, rfl⟩, rfl, fun _ => ⟨e, List.mem_singleton_self e, l, hl⟩⟩
      · obtain ⟨reached, hreached, hrun, hall⟩ := ih (dispatch streams e)
        refine ⟨e :: reached, List.cons_prefix_cons.mpr ⟨rfl, hreached⟩, hrun, ?_⟩
        intro hne
        obtain ⟨e', he', hdies⟩ := hall fun h => hne (h ▸ rfl)
        exact ⟨e', List.mem_cons_of_mem _ he', hdies⟩

end GooglePerl.Grpc
