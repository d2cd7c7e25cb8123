import GooglePerl.Lib.Base64
import GooglePerl.Xs.Scalar

/-!
`Google::gRPC::Status`: the reader of `grpc-status-details-bin`.

The value is base64 or raw octets of a `google.rpc.Status`. Its three fields are
read by hand; anything else ends the reading, and so does the end of the octets
in the middle of a field. Each turn of the two loops takes at least one octet, so
the length of what is read bounds the turns.
-/

namespace GooglePerl.Grpc

open GooglePerl.Lib GooglePerl.Protobuf GooglePerl.Xs

/-- An entry of `details`; `substr` past the end gives undef. -/
structure AnyDetail where
  typeUrl : Option PerlStr
  value : Option PerlStr
  deriving DecidableEq

structure Status where
  code : ℕ
  message : PerlStr
  details : List AnyDetail
  deriving DecidableEq

/-- The inner loop over the octets of a varint; `<<` drops what leaves 64 bits. -/
def readVarint (val shift : ℕ) : PerlStr → ℕ × PerlStr
  | [] => (val, [])
  | b :: rest =>
      let val := val ||| (((b &&& 0x7f) <<< shift) % 2 ^ 64)
      if b &&& 0x80 = 0 then (val, rest) else readVarint val (shift + 7) rest

/-- A string of an `Any`, whose length is taken from one octet. -/
def readShort : PerlStr → Option PerlStr × PerlStr
  | [] => (none, [])
  | l :: rest => (some (rest.take l), rest.drop l)

def anyLoop : ℕ → AnyDetail → PerlStr → AnyDetail
  | 0, any, _ | _, any, [] => any
  | n + 1, any, tag :: rest =>
      if tag >>> 3 = 1 ∧ tag &&& 7 = 2 then
        anyLoop n { any with typeUrl := (readShort rest).1 } (readShort rest).2
      else if tag >>> 3 = 2 ∧ tag &&& 7 = 2 then
        anyLoop n { any with value := (readShort rest).1 } (readShort rest).2
      else any

def statusLoop : ℕ → Status → PerlStr → Status
  | 0, st, _ | _, st, [] => st
  | n + 1, st, tag :: rest =>
      let (v, rest') := readVarint 0 0 rest
      if tag >>> 3 = 1 ∧ tag &&& 7 = 0 then statusLoop n { st with code := v } rest'
      else if tag >>> 3 = 2 ∧ tag &&& 7 = 2 then
        statusLoop n { st with message := rest'.take v } (rest'.drop v)
      else if tag >>> 3 = 3 ∧ tag &&& 7 = 2 then
        let bytes := rest'.take v
        let any := anyLoop bytes.length ⟨some [], some []⟩ bytes
        statusLoop n { st with details := st.details ++ [any] } (rest'.drop v)
      else st

/-- `/^[A-Za-z0-9+\/=\s_-]+$/` -/
def inBase64Class (c : ℕ) : Bool :=
  (base64Symbol c).isSome || isSpace c || c == 45 || c == 95

/-- The test whether the value is base64 text. -/
def looksBase64 (raw : PerlStr) : Bool :=
  raw.all inBase64Class && !(raw.head?.any fun c => c ≤ 8 || (11 ≤ c && c ≤ 31))

/-- `parse_status_details` -/
def parseStatusDetails (raw : PerlStr) : Option Status :=
  if raw = [] then none
  else
    let bytes := if looksBase64 raw ∧ decodeBase64 raw ≠ [] then decodeBase64 raw else raw
    some (statusLoop bytes.length ⟨0, [], []⟩ bytes)

/-- `from_trailer` -/
def fromTrailer (raw : PerlStr) : Option Status := parseStatusDetails raw

theorem fromTrailer_eq_none {raw : PerlStr} : fromTrailer raw = none ↔ raw = [] := by
  simp [fromTrailer, parseStatusDetails]

-- code 3, message "Invalid SQL syntax", one detail
example : fromTrailer ([8, 3, 18, 18] ++ ps "Invalid SQL syntax" ++ [26, 7, 10, 2] ++ ps "ty" ++
      [18, 1] ++ ps "v") =
    some ⟨3, ps "Invalid SQL syntax", [⟨some (ps "ty"), some (ps "v")⟩]⟩ := by
  decide

end GooglePerl.Grpc
