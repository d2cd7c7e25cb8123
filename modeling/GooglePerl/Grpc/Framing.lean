import GooglePerl.Grpc.Status
import GooglePerl.Lib.Drain
import GooglePerl.Lib.FixedWidth

/-!
`Google::gRPC::Framing`: length-prefixed message frames and trailers.

A frame is a flag octet, the length of the payload in four octets, and the
payload. The reader takes whole frames off the front of a buffer
(`frameExtractor`) and leaves what is unfinished.
-/

namespace GooglePerl.Grpc

open GooglePerl.Lib GooglePerl.Protobuf GooglePerl.Xs

/-! ### Frames -/

structure Frame where
  compressed : ℕ
  payload : PerlStr
  deriving DecidableEq

/-- `pack_frame`: `pack('C N', ...)` keeps the low 32 bits of the length. -/
def packFrame (payload : Option PerlStr) (compressed : Bool) : PerlStr :=
  let payload := payload.getD []
  (if compressed then 1 else 0) :: (beBytes 4 payload.length ++ payload)

/-- One turn of the loop of `unpack_frame`: the first frame, if it is whole. -/
def nextFrame : PerlStr → Option (Frame × PerlStr)
  | c :: a :: b :: d :: e :: rest =>
      let len := beValue [a, b, d, e]
      if rest.length < len then none else some (⟨c, rest.take len⟩, rest.drop len)
  | _ => none

theorem nextFrame_eq_some {b : PerlStr} {f : Frame} {r : PerlStr} (h : nextFrame b = some (f, r)) :
    ∃ len, len.length = 4 ∧ f.payload.length = beValue len ∧
      b = f.compressed :: (len ++ (f.payload ++ r)) := by
  unfold nextFrame at h
  split at h
  · rename_i c w x y z rest
    dsimp only at h
    split at h
    · cases h
    · rename_i hlen
      obtain ⟨rfl, rfl⟩ := Prod.ext_iff.mp (Option.some.inj h)
      exact ⟨[w, x, y, z], rfl, by simpa using Nat.le_of_not_lt hlen, by simp⟩
  · cases h

theorem nextFrame_of_header {len payload : PerlStr} (c : ℕ) (hlen : len.length = 4)
    (hpayload : payload.length = beValue len) (r : PerlStr) :
    nextFrame (c :: (len ++ (payload ++ r))) = some (⟨c, payload⟩, r) := by
  obtain ⟨w, x, y, z, rfl⟩ := List.length_eq_four.mp hlen
  simp [nextFrame, ← hpayload]

/-- The loop body of `unpack_frame` as an extractor. -/
def frameExtractor : Extractor ℕ Frame where
  next := nextFrame
  next_shorter := by
    intro b f r h
    obtain ⟨len, hlen, -, rfl⟩ := nextFrame_eq_some h
    simp
    omega
  next_append := by
    intro b f r c h
    obtain ⟨len, hlen, hpayload, rfl⟩ := nextFrame_eq_some h
    simpa using nextFrame_of_header f.compressed hlen hpayload (r ++ c)

/-- `unpack_frame`: the whole frames at the front of the buffer, and what it
leaves in the buffer. -/
def unpackFrame (data : PerlStr) : List Frame × PerlStr := frameExtractor.drain data

/-- The octets of a frame, its flag as it was read. -/
def Frame.octets (f : Frame) : PerlStr := f.compressed :: (beBytes 4 f.payload.length ++ f.payload)

theorem reads_octets {f : Frame} (h : f.payload.length < 2 ^ 32) :
    frameExtractor.Reads Frame.octets f := by
  have hlen : beValue (beBytes 4 f.payload.length) = f.payload.length :=
    beValue_beBytes 4 (by simpa using h)
  simpa [Extractor.Reads, frameExtractor, Frame.octets] using
    nextFrame_of_header f.compressed (beBytes_length 4 f.payload.length) hlen.symm []

/-- The frame that `pack_frame` writes. -/
def framed (payload : PerlStr) (compressed : Bool) : Frame := ⟨if compressed then 1 else 0, payload⟩

/-- On octets, the frames that were taken and the rest spell the buffer. -/
theorem unpackFrame_octets {data : PerlStr} (h : IsOctets data) :
    ((unpackFrame data).1.map Frame.octets).flatten ++ (unpackFrame data).2 = data := by
  unfold unpackFrame
  induction data using frameExtractor.drain_induct with
  | wait b hb => simp [frameExtractor.drain_of_none hb]
  | turn b f r hb ih =>
      obtain ⟨len, hlen, hpayload, rfl⟩ := nextFrame_eq_some hb
      have hr : IsOctets r := fun c hc => h c (by simp [hc])
      have hheader : beBytes 4 f.payload.length = len := by
        rw [hpayload, beBytes_beValue hlen fun c hc => h c (by simp [hc])]
      simp [frameExtractor.drain_of_some hb, Frame.octets, hheader, ih hr]

/-! ### Trailers -/

/-- `lc` of an octet string. -/
def lc (s : PerlStr) : PerlStr := s.map fun c => if 65 ≤ c ∧ c ≤ 90 then c + 32 else c

/-- `int` of a string: the number it starts with, without its fraction. -/
def perlInt (s : PerlStr) : FloatVal :=
  match integerText s with
  | some n => if -2 ^ 63 ≤ n ∧ n < 2 ^ 64 then .fin n else FloatFormat.double.round n
  | none =>
      match roundTo .double (textValue s) with
      | .fin q => .fin (truncate q)
      | v => v

/-- What `parse_trailers` is given: a hash, by name, or an array of names and
values. -/
inductive Headers where
  | hash (entries : List (PerlStr × PerlStr))
  | array (pairs : List (PerlStr × PerlStr))
  deriving DecidableEq

/-- What `parse_trailers` returns. -/
structure TrailerInfo where
  status : FloatVal
  message : PerlStr
  statusDetails : Option Status
  deriving DecidableEq

/-- The three headers that matter, as found so far. -/
structure TrailerFields where
  status : FloatVal := .fin 0
  message : PerlStr := []
  detailsBin : Option PerlStr := none

def TrailerFields.info (t : TrailerFields) : TrailerInfo :=
  ⟨t.status, t.message, t.detailsBin.bind fromTrailer⟩

/-- One turn of the loop over an array of headers. -/
def TrailerFields.add (t : TrailerFields) (header : PerlStr × PerlStr) : TrailerFields :=
  if lc header.1 = ps "grpc-status" then { t with status := perlInt header.2 }
  else if lc header.1 = ps "grpc-message" then { t with message := header.2 }
  else if lc header.1 = ps "grpc-status-details-bin" then { t with detailsBin := some header.2 }
  else t

/-- The branch for a hash looks the three names up as they are written. -/
def hashFields (entries : List (PerlStr × PerlStr)) : TrailerFields :=
  { status := ((Assoc.find entries (ps "grpc-status")).map perlInt).getD (.fin 0)
    message := (Assoc.find entries (ps "grpc-message")).getD []
    detailsBin := Assoc.find entries (ps "grpc-status-details-bin") }

/-- `parse_trailers` -/
def parseTrailers : Headers → TrailerInfo
  | .hash entries => (hashFields entries).info
  | .array pairs => (pairs.foldl TrailerFields.add {}).info

end GooglePerl.Grpc
