import GooglePerl.Grpc.Framing
import GooglePerl.Lib.Retry
import Mathlib.Data.NNRat.Lemmas

/-!
`Google::gRPC::Client::call` over curl: one unary call, tried again after transient
failures.

An attempt leaves the header lines and the body that curl handed to the two
callbacks, and what `perform` died of. The loop of `call` is an instance of `retry`
(`callLoop_eq`). Times are exact rationals.
-/

namespace GooglePerl.Grpc

open GooglePerl.Lib GooglePerl.Xs
open GooglePerl.Protobuf (PerlStr ps Die)

/-! ### The header callback -/

/-- `$http_code` and `%response_headers`. -/
structure Response where
  httpCode : ℕ := 0
  headers : List (PerlStr × PerlStr) := []
  deriving DecidableEq

/-- `/^HTTP\/[\d\.]+\s+(\d+)/` and `int($1)` -/
def statusLine (line : PerlStr) : Option ℕ :=
  let version (c : ℕ) : Bool := isDigit c || c == 46
  let rest := line.drop 5
  let blanks := rest.dropWhile version
  let digits := (blanks.dropWhile isSpace).takeWhile isDigit
  if (ps "HTTP/").isPrefixOf line ∧ rest.takeWhile version ≠ [] ∧ blanks.takeWhile isSpace ≠ [] ∧
      digits ≠ [] then
    some (digitsValue digits)
  else none

/-- The end of a header line, `/(.*)\r\n$/`; `$` also stands before a last newline. -/
def lineValue (s : PerlStr) : Option PerlStr :=
  let val := s.takeWhile (· != 10)
  let rest := s.dropWhile (· != 10)
  if (rest = [10] ∨ rest = [10, 10]) ∧ val.getLast? = some 13 then some val.dropLast else none

/-- `/^([^:]+):\s*(.*)\r\n$/`, with as many blanks before the value as leave a match. -/
def headerLine (line : PerlStr) : Option (PerlStr × PerlStr) :=
  let key := line.takeWhile (· != 58)
  match line.dropWhile (· != 58) with
  | [] => none
  | _ :: rest =>
      if key = [] then none
      else
        let blanks := List.range ((rest.takeWhile isSpace).length + 1)
        (blanks.reverse.findSome? fun k => lineValue (rest.drop k)).map fun val => (key, val)

/-- The `CURLOPT_HEADERFUNCTION` callback. -/
def headerFunction (r : Response) (line : PerlStr) : Response :=
  match statusLine line with
  | some code => { r with httpCode := code }
  | none =>
      match headerLine line with
      | some (key, val) => { r with headers := Assoc.store r.headers (lc key) val }
      | none => r

/-! ### One attempt -/

/-- What curl reports of an attempt. -/
structure Outcome where
  /-- what `perform` died of -/
  curlErr : Option PerlStr := none
  headerLines : List PerlStr := []
  bodyChunks : List PerlStr := []
  deriving DecidableEq

namespace Outcome

def response (o : Outcome) : Response := o.headerLines.foldl headerFunction {}

def trailers (o : Outcome) : TrailerInfo := parseTrailers (.hash o.response.headers)

/-- `$is_transient` -/
def isTransient (o : Outcome) : Bool :=
  o.curlErr.isSome || o.response.httpCode == 503 || o.response.httpCode == 504 ||
    o.trailers.status = .fin 14

end Outcome

/-- `%.15g` of a number with more than fifteen digits. -/
def scientificText (n : ℕ) : PerlStr :=
  let shift := (natText n).length - 15
  let digits := natText (FloatFormat.halfEven (n / 10 ^ shift)).toNat
  let fraction := (digits.tail.reverse.dropWhile (· == 48)).reverse
  digits.take 1 ++ (if fraction = [] then [] else 46 :: fraction) ++ ps "e+" ++
    natText (digits.length - 1 + shift)

/-- What `int` returned, as a string. -/
def intText : FloatVal → PerlStr
  | .nan => ps "NaN"
  | .inf negative => ps (if negative then "-Inf" else "Inf")
  | .fin q =>
      let n := truncate q
      if -2 ^ 63 ≤ n ∧ n < 2 ^ 64 then decimalText n
      else (if n < 0 then [45] else []) ++ scientificText n.natAbs

/-- `$a || $b` for strings. -/
def perlOr (a b : PerlStr) : PerlStr := if a = [] ∨ a = ps "0" then b else a

def errorText (t : TrailerInfo) (otherwise : PerlStr) : PerlStr :=
  ps "gRPC error: status=" ++ intText t.status ++ ps ", message=" ++ perlOr t.message otherwise

namespace Outcome

/-- `$last_exception` -/
def lastException (o : Outcome) : PerlStr :=
  match o.curlErr with
  | some err => ps "gRPC perform failed: " ++ err
  | none => errorText o.trailers (ps "UNAVAILABLE")

/-- What `call` does with an outcome that it does not try again. -/
def finish {M : Type} (parse : PerlStr → Except Die M) (o : Outcome) : Except Die M :=
  match o.curlErr with
  | some err => .error (.croak (ps "gRPC perform failed: " ++ err))
  | none =>
      if o.trailers.status ≠ .fin 0 then
        .error (.croak (errorText o.trailers (ps "unknown error") ++
          match o.trailers.statusDetails with
          | some details => ps ", details_code=" ++ natText details.code
          | none => []))
      else
        match (unpackFrame o.bodyChunks.flatten).1 with
        | [] => .error (.croak (ps "Invalid gRPC response: no frames unpacked"))
        | frame :: _ => parse frame.payload

end Outcome

/-! ### The loop -/

/-- The attributes of the client, with their defaults. -/
structure RetrySettings where
  maxRetries : ℕ := 3
  initialBackoffSec : ℚ≥0 := 1 / 10
  maxBackoffSec : ℚ≥0 := 1
  backoffFactor : ℚ≥0 := 2

/-- The arguments of a call: those that stand in for an attribute, and
`response_class->parse`. -/
structure CallArgs (M : Type) where
  maxRetries : Option ℕ := none
  initialBackoffSec : Option ℚ≥0 := none
  maxBackoffSec : Option ℚ≥0 := none
  backoffFactor : Option ℚ≥0 := none
  parse : PerlStr → Except Die M

def CallArgs.settings {M : Type} (args : CallArgs M) (self : RetrySettings) : RetrySettings where
  maxRetries := args.maxRetries.getD self.maxRetries
  initialBackoffSec := args.initialBackoffSec.getD self.initialBackoffSec
  maxBackoffSec := args.maxBackoffSec.getD self.maxBackoffSec
  backoffFactor := args.backoffFactor.getD self.backoffFactor

def RetrySettings.nextBackoff (s : RetrySettings) (backoff : ℚ≥0) : ℚ≥0 :=
  let backoff := backoff * s.backoffFactor
  if backoff > s.maxBackoffSec then s.maxBackoffSec else backoff

variable {M : Type}

/-- `while ($attempt <= $max_retries)`. The last croak is out of reach: the body leaves
the loop when no attempt remains. -/
def callLoop (s : RetrySettings) (parse : PerlStr → Except Die M) (outcomes : ℕ → Outcome)
    (attempt : ℕ) (backoff : ℚ≥0) (lastException : Option PerlStr) :
    Attempts ℚ≥0 (Except Die M) :=
  if attempt ≤ s.maxRetries then
    let o := outcomes attempt
    if o.isTransient ∧ attempt + 1 ≤ s.maxRetries then
      (callLoop s parse outcomes (attempt + 1) (s.nextBackoff backoff)
        (some o.lastException)).after backoff
    else ⟨1, [], o.finish parse⟩
  else ⟨0, [], .error (.croak (lastException.getD (ps "gRPC call failed after retries")))⟩
termination_by s.maxRetries + 1 - attempt

/-- `call`, its arguments complete, where curl is there: the attempts it makes, how long
it sleeps between them, and what it returns or dies of. -/
def call (self : RetrySettings) (args : CallArgs M) (outcomes : ℕ → Outcome) :
    Attempts ℚ≥0 (Except Die M) :=
  let s := args.settings self
  callLoop s args.parse outcomes 0 s.initialBackoffSec none

theorem callLoop_eq (s : RetrySettings) (parse : PerlStr → Except Die M) (outcomes : ℕ → Outcome)
    {n attempt : ℕ} (h : attempt + n = s.maxRetries) (backoff : ℚ≥0) (last : Option PerlStr) :
    callLoop s parse outcomes attempt backoff last =
      retry Outcome.isTransient s.nextBackoff (Outcome.finish parse)
        (fun i => outcomes (attempt + i)) n backoff := by
  induction n generalizing attempt backoff last with
  | zero =>
      rw [callLoop, if_pos (by omega), if_neg (by omega)]
      rfl
  | succ n ih =>
      have hlater : later (fun i => outcomes (attempt + i)) =
          fun i => outcomes (attempt + 1 + i) := by
        funext i
        exact congrArg outcomes (by omega)
      have hnext : attempt + 1 + n = s.maxRetries := by omega
      rw [callLoop, if_pos (by omega), retry, hlater, ← ih hnext]
      refine if_congr ?_ rfl rfl
      exact and_iff_left (by omega)

/-- The last attempt of a call: the first whose outcome is not transient, or the last
one allowed. -/
def RetrySettings.last (s : RetrySettings) (outcomes : ℕ → Outcome) : ℕ :=
  lastAttempt Outcome.isTransient outcomes s.maxRetries

theorem call_eq (self : RetrySettings) (args : CallArgs M) (outcomes : ℕ → Outcome) :
    let s := args.settings self
    call self args outcomes =
      ⟨s.last outcomes + 1,
        (List.range (s.last outcomes)).map (s.nextBackoff^[·] s.initialBackoffSec),
        (outcomes (s.last outcomes)).finish args.parse⟩ := by
  intro s
  rw [call, callLoop_eq s args.parse outcomes (Nat.zero_add s.maxRetries), retry_eq]
  simp only [Nat.zero_add]
  rfl

/-! ### The policy -/

namespace Outcome

/-- The status that the server reported: a `grpc-status` that is an integer. -/
def reported (o : Outcome) : Option ℤ :=
  (Assoc.find o.response.headers (ps "grpc-status")).bind integerText

def Unavailable (o : Outcome) : Prop := o.response.httpCode = 503 ∨ o.response.httpCode = 504

/-- A transport error, HTTP 503 or 504, or status 14. -/
def Transient (o : Outcome) : Prop := o.curlErr ≠ none ∨ o.Unavailable ∨ o.reported = some 14

end Outcome

/-- At most `n + 1` attempts, one more exactly after a transient outcome while attempts
remain; sleeps that grow by the factor up to the maximum; and a response only from a
server that reported status 0. -/
structure FollowsPolicy (s : RetrySettings) (outcomes : ℕ → Outcome)
    (run : Attempts ℚ≥0 (Except Die M)) : Prop where
  attempts_pos : 0 < run.attempts
  attempts_le : run.attempts ≤ s.maxRetries + 1
  retries : ∀ k, k + 1 < run.attempts ↔
    k < run.attempts ∧ k < s.maxRetries ∧ (outcomes k).Transient
  sleeps : run.pauses = (List.range (run.attempts - 1)).map fun k =>
    min s.maxBackoffSec (s.initialBackoffSec * s.backoffFactor ^ k)
  returns : ∀ m, run.result = .ok m →
    (outcomes (run.attempts - 1)).reported = some 0 ∧ ¬ (outcomes (run.attempts - 1)).Unavailable

namespace Outcome

/-- A `grpc-status` such as `14x`, in which `int` reads a 14 that is not there. -/
def Misread (o : Outcome) : Prop :=
  o.curlErr = none ∧ ¬ o.Unavailable ∧ o.reported ≠ some 14 ∧ o.trailers.status = .fin 14

/-- A message that can be parsed, and a `grpc-status` that `int` reads as 0 or that is
missing, although the server reported no status 0 or HTTP says 503 or 504. -/
def Deceives (parse : PerlStr → Except Die M) (o : Outcome) : Prop :=
  o.curlErr = none ∧ o.trailers.status = .fin 0 ∧
    (∃ frame ∈ (unpackFrame o.bodyChunks.flatten).1.head?, ∃ m, parse frame.payload = .ok m) ∧
    (o.reported ≠ some 0 ∨ o.Unavailable)

end Outcome

/-- What keeps `call` to the policy: no sleep, or a first one that is not above the
maximum; no status that is misread as 14 on the way; and no deceptive end. -/
def Spares (s : RetrySettings) (parse : PerlStr → Except Die M) (outcomes : ℕ → Outcome) : Prop :=
  (s.last outcomes = 0 ∨ s.initialBackoffSec ≤ s.maxBackoffSec) ∧
    (∀ i < s.last outcomes, ¬ (outcomes i).Misread) ∧
    ¬ (outcomes (s.last outcomes)).Deceives parse

/-- For an integer that is not too large, `int` reads what is written. -/
theorem perlInt_eq_iff {v : PerlStr} {n k : ℤ} (h : integerText v = some n) (hk : |k| < 2 ^ 63) :
    perlInt v = .fin k ↔ n = k := by
  simp only [perlInt, h]
  split
  · simp
  · rename_i hrange
    have hn : (2 : ℤ) ^ 63 ≤ |n| := by
      rw [le_abs]
      omega
    have hexact : FloatFormat.double.Exact (2 ^ 63) :=
      ⟨2 ^ 52, 11, by decide, by decide, by norm_num⟩
    have hnq : (2 : ℚ) ^ 63 ≤ |(n : ℚ)| := by exact_mod_cast hn
    have hnear := FloatFormat.le_abs_nearest hexact hnq
    constructor
    · intro hround
      rw [FloatFormat.round] at hround
      split at hround
      · have hkn := FloatVal.fin.inj hround
        rw [hkn] at hnear
        have : (2 : ℤ) ^ 63 ≤ |k| := by exact_mod_cast hnear
        omega
      · cases hround
    · rintro rfl
      omega

namespace Outcome

theorem status_eq_iff {o : Outcome} {n k : ℤ} (h : o.reported = some n) (hk : |k| < 2 ^ 63) :
    o.trailers.status = .fin k ↔ n = k := by
  obtain ⟨v, hv, hn⟩ := Option.bind_eq_some_iff.mp h
  have hstatus : o.trailers.status = perlInt v := by
    simp [trailers, parseTrailers, TrailerFields.info, hashFields, hv]
  rw [hstatus, perlInt_eq_iff hn hk]

theorem isTransient_iff {o : Outcome} : o.isTransient = true ↔ o.Transient ∨ o.Misread := by
  have h14 : o.reported = some 14 → o.trailers.status = .fin 14 := fun h =>
    (status_eq_iff h (by decide)).mpr rfl
  simp only [isTransient, Transient, Misread, Unavailable, Bool.or_eq_true,
    Option.isSome_iff_ne_none, beq_iff_eq, decide_eq_true_eq]
  tauto

theorem Misread.not_transient {o : Outcome} (h : o.Misread) : ¬ o.Transient := by
  obtain ⟨hcurl, hcode, hreported, -⟩ := h
  rintro (hc | hc | hc)
  · exact hc hcurl
  · exact hcode hc
  · exact hreported hc

theorem finish_eq_ok {parse : PerlStr → Except Die M} {o : Outcome} {m : M} :
    o.finish parse = .ok m ↔ o.curlErr = none ∧ o.trailers.status = .fin 0 ∧
      ∃ frame ∈ (unpackFrame o.bodyChunks.flatten).1.head?, parse frame.payload = .ok m := by
  unfold finish
  cases o.curlErr with
  | some err => simp
  | none =>
      by_cases hstatus : o.trailers.status = .fin 0
      · cases (unpackFrame o.bodyChunks.flatten).1 with
        | nil => simp [hstatus]
        | cons frame frames => simp [hstatus]
      · simp [hstatus]

end Outcome

theorem RetrySettings.nextBackoff_eq (s : RetrySettings) :
    s.nextBackoff = fun backoff => min s.maxBackoffSec (backoff * s.backoffFactor) := by
  funext backoff
  rw [nextBackoff]
  split
  · rename_i h
    exact (min_eq_left h.le).symm
  · rename_i h
    exact (min_eq_right (not_lt.mp h)).symm

/-- The sleeps are those of the policy exactly when the first one is. -/
theorem sleeps_iff (s : RetrySettings) (n : ℕ) :
    (List.range n).map (s.nextBackoff^[·] s.initialBackoffSec) =
        (List.range n).map (fun k =>
          min s.maxBackoffSec (s.initialBackoffSec * s.backoffFactor ^ k)) ↔
      n = 0 ∨ s.initialBackoffSec ≤ s.maxBackoffSec := by
  rw [List.map_inj_left]
  constructor
  · intro h
    rcases Nat.eq_zero_or_pos n with rfl | hn
    · exact .inl rfl
    · have hfirst := h 0 (List.mem_range.mpr hn)
      rw [Function.iterate_zero_apply, pow_zero, mul_one] at hfirst
      exact .inr (right_eq_inf.mp hfirst)
  · rintro (rfl | h) k hk
    · simp at hk
    · rw [s.nextBackoff_eq]
      exact iterate_min_mul zero_le zero_le h k

/-- `call` follows the policy exactly on the outcomes and settings that spare it. -/
theorem followsPolicy_iff (self : RetrySettings) (args : CallArgs M) (outcomes : ℕ → Outcome) :
    FollowsPolicy (args.settings self) outcomes (call self args outcomes) ↔
      Spares (args.settings self) args.parse outcomes := by
  rw [call_eq]
  set s := args.settings self
  have hlast : s.last outcomes ≤ s.maxRetries := lastAttempt_le
  constructor
  · intro h
    refine ⟨(sleeps_iff s _).mp h.sleeps, ?_, ?_⟩
    · intro i hi hmisread
      exact hmisread.not_transient ((h.retries i).mp (Nat.succ_lt_succ hi)).2.2
    · rintro ⟨hcurl, hstatus, ⟨frame, hframe, m, hm⟩, hbad⟩
      have hresult := Outcome.finish_eq_ok.mpr ⟨hcurl, hstatus, frame, hframe, hm⟩
      obtain ⟨hreported, hcode⟩ := h.returns m hresult
      exact hbad.elim (· hreported) hcode
  · rintro ⟨hsleeps, hmisread, hdeceives⟩
    refine ⟨Nat.succ_pos _, Nat.succ_le_succ hlast, ?_, (sleeps_iff s _).mpr hsleeps, ?_⟩
    · intro k
      constructor
      · intro hk
        have hk' : k < s.last outcomes := Nat.lt_of_succ_lt_succ hk
        have htransient := Outcome.isTransient_iff.mp (again_of_lt_lastAttempt hk')
        exact ⟨by omega, by omega, htransient.resolve_right (hmisread k hk')⟩
      · rintro ⟨hk, hmax, htransient⟩
        refine Nat.succ_lt_succ (lt_of_le_of_ne (Nat.le_of_lt_succ hk) ?_)
        rintro rfl
        have hstop : (outcomes (s.last outcomes)).isTransient = false := not_again_lastAttempt hmax
        rw [Outcome.isTransient_iff.mpr (.inl htransient)] at hstop
        cases hstop
    · intro m hm
      obtain ⟨hcurl, hstatus, frame, hframe, hparse⟩ := Outcome.finish_eq_ok.mp hm
      by_contra hbad
      refine hdeceives ⟨hcurl, hstatus, ⟨frame, hframe, m, hparse⟩, ?_⟩
      exact (not_and_or.mp hbad).imp_right not_not.mp

/-- A 503 without `grpc-status`, after the last attempt, is a response; and a first
backoff above the maximum is slept as it is. -/
theorem followsPolicy_fails :
    ¬ FollowsPolicy { maxRetries := 0 }
        (fun _ => { headerLines := [ps "HTTP/2 503 \r\n"], bodyChunks := [[0, 0, 0, 0, 0]] })
        (call { maxRetries := 0 } ({ parse := .ok } : CallArgs PerlStr) fun _ =>
          { headerLines := [ps "HTTP/2 503 \r\n"], bodyChunks := [[0, 0, 0, 0, 0]] }) ∧
    ¬ FollowsPolicy { maxRetries := 1, initialBackoffSec := 5 }
        (fun _ => { curlErr := some (ps "Timeout was reached") })
        (call { maxRetries := 1, initialBackoffSec := 5 } ({ parse := .ok } : CallArgs PerlStr)
          fun _ => { curlErr := some (ps "Timeout was reached") }) := by
  constructor
  · intro h
    rw [call_eq] at h
    exact (h.returns [] (by decide +kernel)).2 (.inl (by decide +kernel))
  · intro h
    rw [call_eq] at h
    exact absurd h.sleeps (by decide +kernel)

end GooglePerl.Grpc
