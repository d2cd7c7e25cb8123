import GooglePerl.Auth.JsonValue
import GooglePerl.Lib.Run
import GooglePerl.Xs.Scalar
import Mathlib.Data.Rat.Defs
import Mathlib.Logic.Function.Basic
import Mathlib.Tactic.NormNum

/-!
`Google::Auth::Credentials`: `get_token`, called by any number of coroutines.

A caller gives up control inside `fetch_access_token` and in the loop where it waits for
another one's fetch; between these places nothing else runs. So a step is what one caller
does up to the next such place. At most one fetch is in progress in any run
(`AtMostOneFetch`), but a caller that has waited gets whatever token is there then. It is a
good one if the fetch it waited for ended well and left one (`getToken_safe`).
-/

namespace GooglePerl.Auth

open GooglePerl.Lib
open GooglePerl.Protobuf (PerlStr ps)

/-! ### Expiry -/

/-- What reads the text of a date: `\d`, and `Time::Piece->strptime` with its format, none if it
dies. -/
structure DateReader where
  digit : ℕ → Bool
  strptime : PerlStr → PerlStr → Option ℚ

structure Credential where
  accessToken : Option PerlStr := none
  expiresAt : Option PerlStr := none
  clockSkew : ℚ := 300
  isRefreshing : Bool := false

/-- `/^\d+$/` -/
def DateReader.isNumber (dates : DateReader) (text : PerlStr) : Bool :=
  let body := if text.getLast? = some 10 then text.dropLast else text
  !body.isEmpty && body.all dates.digit

/-- `$expiry_epoch` -/
def DateReader.expiryEpoch (dates : DateReader) (expires : PerlStr) (time : ℚ) : ℚ :=
  if dates.isNumber expires then Xs.digitsValue (expires.takeWhile isDigit)
  else
    match dates.strptime expires (ps "%Y-%m-%dT%H:%M:%SZ") with
    | some epoch => epoch
    | none => (dates.strptime expires (ps "%Y-%m-%dT%H:%M:%S.%fZ")).getD time

/-- `is_expired`; `skew` is the option `clock_skew`. -/
def Credential.isExpired (cred : Credential) (dates : DateReader) (skew : Option ℚ) (time : ℚ) :
    Bool :=
  match cred.expiresAt with
  | none => true
  | some expires => dates.expiryEpoch expires time ≤ time + skew.getD cred.clockSkew

/-! ### Callers -/

/-- Where a caller is: in no call, in the loop with `$limit` turns left, or inside
`fetch_access_token`. -/
inductive Phase where
  | idle
  | waiting (skew : Option ℚ) (limit : ℕ)
  | fetching (skew : Option ℚ)
  deriving DecidableEq

/-- The option of the call a caller is in. -/
def Phase.skew? : Phase → Option (Option ℚ)
  | .idle => none
  | .waiting skew _ => some skew
  | .fetching skew => some skew

/-- The credential, the clock and the callers. `lastFetch` says whether the fetch that ended last
succeeded; no caller looks at it. -/
structure World where
  cred : Credential
  time : ℚ
  callers : ℕ → Phase := fun _ => .idle
  lastFetch : Option Bool := none

inductive Event where
  /-- the clock shows another time -/
  | clock (time : ℚ)
  /-- a caller calls `get_token` -/
  | call (caller : ℕ) (skew : Option ℚ)
  /-- a caller is resumed in its loop -/
  | resume (caller : ℕ)
  /-- its fetch stores a token -/
  | storeToken (caller : ℕ) (token : Option PerlStr)
  /-- its fetch stores an expiry time -/
  | storeExpiry (caller : ℕ) (expires : Option PerlStr)
  /-- its fetch returns or dies -/
  | finish (caller : ℕ) (died : Bool)

/-- How a call of `get_token` ends. -/
inductive Ending where
  | returned (skew : Option ℚ) (token : Option PerlStr)
  | died
  deriving DecidableEq

namespace World

def setCaller (w : World) (c : ℕ) (phase : Phase) : World :=
  { w with callers := Function.update w.callers c phase }

/-- `get_token`, from its start -/
def getToken (dates : DateReader) (w : World) (c : ℕ) (skew : Option ℚ) : World × Option Ending :=
  -- the first test of `$limit-- > 0` leaves 29
  if w.cred.isRefreshing then (w.setCaller c (.waiting skew 29), none)
  else if w.cred.isExpired dates skew w.time || w.cred.accessToken.isNone then
    ({ w with cred := { w.cred with isRefreshing := true } }.setCaller c (.fetching skew), none)
  else (w, some (.returned skew w.cred.accessToken))

/-- The loop of `get_token`, from where it gave up control -/
def wait (w : World) (c : ℕ) (skew : Option ℚ) (limit : ℕ) : World × Option Ending :=
  if w.cred.isRefreshing && 0 < limit then (w.setCaller c (.waiting skew (limit - 1)), none)
  else (w.setCaller c .idle, some (.returned skew w.cred.accessToken))

/-- `get_token`, from the end of `fetch_access_token` -/
def fetched (w : World) (c : ℕ) (skew : Option ℚ) (died : Bool) : World × Option Ending :=
  ({ w with cred := { w.cred with isRefreshing := false }, lastFetch := some !died }.setCaller c
      .idle,
    some (if died then .died else .returned skew w.cred.accessToken))

/-- One step; what is asked of a caller that is elsewhere does not happen. -/
def act (dates : DateReader) (w : World) : Event → World × Option Ending
  | .clock time => ({ w with time := time }, none)
  | .call c skew =>
      match w.callers c with
      | .idle => w.getToken dates c skew
      | _ => (w, none)
  -- the caller wakes from its nap
  | .resume c =>
      match w.callers c with
      | .waiting skew limit => w.wait c skew limit
      | _ => (w, none)
  -- the two assignments of `fetch_access_token`, in either order
  | .storeToken c token =>
      match w.callers c with
      | .fetching _ => ({ w with cred := { w.cred with accessToken := token } }, none)
      | _ => (w, none)
  | .storeExpiry c expires =>
      match w.callers c with
      | .fetching _ => ({ w with cred := { w.cred with expiresAt := expires } }, none)
      | _ => (w, none)
  -- `fetch_access_token` returns, or the `eval` around it catches what it dies of
  | .finish c died =>
      match w.callers c with
      | .fetching skew => w.fetched c skew died
      | _ => (w, none)

def step (dates : DateReader) (w : World) (e : Event) : World := (w.act dates e).1

end World

/-- The caller whose step an event is. -/
def Event.caller? : Event → Option ℕ
  | .clock _ => none
  | .call c _ => some c
  | .resume c => some c
  | .storeToken c _ => some c
  | .storeExpiry c _ => some c
  | .finish c _ => some c

/-! ### What a run is to keep -/

/-- The world after some events of a run. -/
def World.after (dates : DateReader) (w : World) (es : List Event) (n : ℕ) : World :=
  run (World.step dates) w (es.take n)

/-- At the start nobody is in a call. -/
structure World.Starts (w : World) : Prop where
  idle : ∀ c, w.callers c = .idle
  flag : w.cred.isRefreshing = false

/-- A token was there, and not expired, at the moment `m` of a call that goes on to the event
`n`. -/
structure FreshDuring (dates : DateReader) (w : World) (es : List Event) (c : ℕ)
    (skew : Option ℚ) (token : PerlStr) (m n : ℕ) : Prop where
  going : ∀ j, m < j → j ≤ n → (w.after dates es j).callers c ≠ .idle
  token : (w.after dates es m).cred.accessToken = some token
  fresh : (w.after dates es m).cred.isExpired dates skew (w.after dates es m).time = false

/-- Callers exclude each other from fetching, the flag is down when none does, and what a call
returns is a token that was there, and not expired, at a moment of that call. -/
structure TokenSafe (dates : DateReader) (w : World) (es : List Event) : Prop where
  single : ∀ n c c' skew skew', (w.after dates es n).callers c = .fetching skew →
    (w.after dates es n).callers c' = .fetching skew' → c = c'
  flag : ∀ n, (∀ c skew, (w.after dates es n).callers c ≠ .fetching skew) →
    (w.after dates es n).cred.isRefreshing = false
  served : ∀ n e c skew token, es[n]? = some e → e.caller? = some c →
    ((w.after dates es n).act dates e).2 = some (.returned skew token) →
      ∃ text, token = some text ∧ ∃ m ≤ n + 1, FreshDuring dates w es c skew text m n

/-- A fetch that ends well leaves a token that no call in progress takes for expired, and a
caller leaves its loop after such a fetch. -/
def Orderly (dates : DateReader) (w : World) : Event → Prop
  | .finish c false => (∃ skew, w.callers c = .fetching skew) →
      w.cred.accessToken.isSome ∧
        ∀ c' skew, (w.callers c').skew? = some skew → w.cred.isExpired dates skew w.time = false
  | .resume c => ∀ skew limit, w.callers c = .waiting skew limit →
      (w.cred.isRefreshing = true ∧ 0 < limit) ∨
        (w.cred.isRefreshing = false ∧ w.lastFetch = some true)
  | _ => True

/-! ### One step -/

/-- What a step can do. -/
inductive Acts (dates : DateReader) (w : World) : Event → World → Option Ending → Prop
  | quiet (e : Event) (time : ℚ) : Acts dates w e { w with time := time } none
  | queue (c : ℕ) (skew : Option ℚ) (hidle : w.callers c = .idle)
      (hflag : w.cred.isRefreshing = true) :
      Acts dates w (.call c skew) (w.setCaller c (.waiting skew 29)) none
  | fetch (c : ℕ) (skew : Option ℚ) (hidle : w.callers c = .idle)
      (hflag : w.cred.isRefreshing = false) :
      Acts dates w (.call c skew)
        ({ w with cred := { w.cred with isRefreshing := true } }.setCaller c (.fetching skew)) none
  | serve (c : ℕ) (skew : Option ℚ) (token : PerlStr) (htoken : w.cred.accessToken = some token)
      (hfresh : w.cred.isExpired dates skew w.time = false) :
      Acts dates w (.call c skew) w (some (.returned skew (some token)))
  | poll (c : ℕ) (skew : Option ℚ) (limit : ℕ) (hwait : w.callers c = .waiting skew limit)
      (hflag : w.cred.isRefreshing = true) :
      Acts dates w (.resume c) (w.setCaller c (.waiting skew (limit - 1))) none
  | leave (c : ℕ) (skew : Option ℚ) (limit : ℕ) (hwait : w.callers c = .waiting skew limit)
      (hleave : w.cred.isRefreshing = true → limit = 0) :
      Acts dates w (.resume c) (w.setCaller c .idle)
        (some (.returned skew w.cred.accessToken))
  | store (e : Event) (c : ℕ) (skew : Option ℚ) (token expires : Option PerlStr)
      (hfetch : w.callers c = .fetching skew) :
      Acts dates w e
        { w with cred := { w.cred with accessToken := token, expiresAt := expires } } none
  | finish (c : ℕ) (skew : Option ℚ) (died : Bool) (hfetch : w.callers c = .fetching skew) :
      Acts dates w (.finish c died)
        ({ w with
          cred := { w.cred with isRefreshing := false },
          lastFetch := some !died }.setCaller c .idle)
        (some (if died then .died else .returned skew w.cred.accessToken))

theorem acts_getToken (dates : DateReader) (w : World) {c : ℕ} (skew : Option ℚ)
    (hidle : w.callers c = .idle) :
    Acts dates w (.call c skew) (w.getToken dates c skew).1 (w.getToken dates c skew).2 := by
  unfold World.getToken
  split
  · rename_i hflag
    exact .queue c skew hidle hflag
  · rename_i hflag
    split
    · exact .fetch c skew hidle (by simpa using hflag)
    · rename_i hfresh
      simp only [Bool.or_eq_true, not_or, Bool.not_eq_true, Option.isNone_eq_false_iff] at hfresh
      obtain ⟨token, htoken⟩ := Option.isSome_iff_exists.mp hfresh.2
      rw [htoken]
      exact .serve c skew token htoken hfresh.1

theorem acts_wait (dates : DateReader) (w : World) {c : ℕ} {skew : Option ℚ} {limit : ℕ}
    (hwait : w.callers c = .waiting skew limit) :
    Acts dates w (.resume c) (w.wait c skew limit).1 (w.wait c skew limit).2 := by
  unfold World.wait
  split
  · rename_i hflag
    simp only [Bool.and_eq_true] at hflag
    exact .poll c skew limit hwait hflag.1
  · rename_i hleave
    refine .leave c skew limit hwait fun hflag => ?_
    simpa [hflag] using hleave

theorem acts_act (dates : DateReader) (w : World) (e : Event) :
    Acts dates w e (w.act dates e).1 (w.act dates e).2 := by
  cases e with
  | clock time => exact .quiet _ time
  | call c skew =>
      simp only [World.act]
      split
      · rename_i hidle
        exact acts_getToken dates w skew hidle
      · exact .quiet _ w.time
  | resume c =>
      simp only [World.act]
      split
      · rename_i hwait
        exact acts_wait dates w hwait
      · exact .quiet _ w.time
  | storeToken c token =>
      simp only [World.act]
      split
      · rename_i skew hfetch
        exact .store _ c skew token w.cred.expiresAt hfetch
      · exact .quiet _ w.time
  | storeExpiry c expires =>
      simp only [World.act]
      split
      · rename_i skew hfetch
        exact .store _ c skew w.cred.accessToken expires hfetch
      · exact .quiet _ w.time
  | finish c died =>
      simp only [World.act]
      split
      · rename_i skew hfetch
        exact .finish c skew died hfetch
      · exact .quiet _ w.time

/-! ### One fetch at a time -/

/-- The flag is up when some caller fetches, and only one does. -/
structure AtMostOneFetch (w : World) : Prop where
  raised : ∀ c skew, w.callers c = .fetching skew → w.cred.isRefreshing = true
  lowered : (∀ c skew, w.callers c ≠ .fetching skew) → w.cred.isRefreshing = false
  single : ∀ c c' skew skew', w.callers c = .fetching skew → w.callers c' = .fetching skew' → c = c'

theorem setCaller_callers (w : World) (c d : ℕ) (phase : Phase) :
    (w.setCaller c phase).callers d = if d = c then phase else w.callers d := by
  simp [World.setCaller, Function.update_apply]

/-- A caller goes from a place that is no fetch to another one. -/
theorem AtMostOneFetch.setCaller {w : World} {c : ℕ} {phase : Phase} (h : AtMostOneFetch w)
    (hfrom : ∀ skew, w.callers c ≠ .fetching skew) (hto : ∀ skew, phase ≠ .fetching skew) :
    AtMostOneFetch (w.setCaller c phase) := by
  have hiff : ∀ d skew, (w.setCaller c phase).callers d = .fetching skew ↔
      w.callers d = .fetching skew := by
    intro d skew
    rw [setCaller_callers]
    split
    · rename_i hd
      subst hd
      exact iff_of_false (hto skew) (hfrom skew)
    · rfl
  refine ⟨fun d skew hd => h.raised d skew ((hiff d skew).mp hd), fun hnone => h.lowered ?_,
    fun d d' skew skew' hd hd' => h.single d d' skew skew' ((hiff d skew).mp hd)
      ((hiff d' skew').mp hd')⟩
  exact fun d skew hd => hnone d skew ((hiff d skew).mpr hd)

theorem atMostOneFetch_acts {dates : DateReader} {w w' : World} {e : Event}
    {ending : Option Ending} (hacts : Acts dates w e w' ending) (h : AtMostOneFetch w) :
    AtMostOneFetch w' := by
  cases hacts with
  | quiet e time => exact ⟨h.raised, h.lowered, h.single⟩
  | queue c skew hidle hflag => exact h.setCaller (by simp [hidle]) (by simp)
  | serve c skew token htoken hfresh => exact h
  | poll c skew limit hwait hflag => exact h.setCaller (by simp [hwait]) (by simp)
  | leave c skew limit hwait hleave => exact h.setCaller (by simp [hwait]) (by simp)
  | store e c skew token expires hfetch => exact ⟨h.raised, h.lowered, h.single⟩
  | fetch c skew hidle hflag =>
      -- the flag was down, so nobody else is fetching
      have hnone : ∀ d skew, w.callers d ≠ .fetching skew := by
        intro d skew hd
        rw [h.raised d skew hd] at hflag
        cases hflag
      have honly : ∀ d skew', (({ w with cred := { w.cred with isRefreshing := true } } :
          World).setCaller c (.fetching skew)).callers d = .fetching skew' → d = c := by
        intro d skew' hd
        by_contra hne
        rw [setCaller_callers, if_neg hne] at hd
        exact hnone d skew' hd
      refine ⟨fun _ _ _ => rfl, fun hno => ?_, fun d d' skew skew' hd hd' => ?_⟩
      · exact absurd (by simp [setCaller_callers]) (hno c skew)
      · rw [honly d skew hd, honly d' skew' hd']
  | finish c skew died hfetch =>
      have hnone : ∀ d skew', (({ w with
          cred := { w.cred with isRefreshing := false }, lastFetch := some !died } :
          World).setCaller c .idle).callers d ≠ .fetching skew' := by
        intro d skew' hd
        rw [setCaller_callers] at hd
        split at hd
        · cases hd
        · rename_i hne
          exact hne (h.single d c skew' skew hd hfetch)
      exact ⟨fun d skew hd => absurd hd (hnone d skew), fun _ => rfl,
        fun d d' skew skew' hd => absurd hd (hnone d skew)⟩

theorem atMostOneFetch_after {dates : DateReader} {w : World} (hstart : w.Starts)
    (es : List Event) (n : ℕ) : AtMostOneFetch (w.after dates es n) := by
  have hfirst : AtMostOneFetch w := by
    refine ⟨fun c skew h => ?_, fun _ => hstart.flag, fun c c' skew skew' h => ?_⟩
    · simp [hstart.idle c] at h
    · simp [hstart.idle c] at h
  have hall : Allowed (World.step dates) (fun _ _ => True) w (es.take n) :=
    allowed_of_forall (fun _ _ => trivial) w
  exact run_invariant AtMostOneFetch (fun w e h _ => atMostOneFetch_acts (acts_act dates w e) h)
    hfirst hall

/-! ### The token a caller has waited for -/

/-- How a caller comes to wait with the flag down: it did before, or a fetch ends. -/
theorem waiting_of_acts {dates : DateReader} {w w' : World} {e : Event} {ending : Option Ending}
    {c limit : ℕ} {skew : Option ℚ} (hacts : Acts dates w e w' ending) (hone : AtMostOneFetch w)
    (hwait : w'.callers c = .waiting skew limit) (hflag : w'.cred.isRefreshing = false) :
    w'.cred.accessToken = w.cred.accessToken ∧ (∃ limit', w.callers c = .waiting skew limit') ∧
      ((w.cred.isRefreshing = false ∧ w'.lastFetch = w.lastFetch) ∨
        ∃ d died, e = .finish d died ∧ (∃ skew', w.callers d = .fetching skew') ∧
          w'.lastFetch = some !died) := by
  cases hacts with
  | quiet e time => exact ⟨rfl, ⟨limit, hwait⟩, .inl ⟨hflag, rfl⟩⟩
  | queue d skew' hidle hraised => exact absurd (hraised.symm.trans hflag) (by decide)
  | fetch d skew' hidle _ => exact absurd hflag (by simp [World.setCaller])
  | serve d skew' token htoken hfresh => exact ⟨rfl, ⟨limit, hwait⟩, .inl ⟨hflag, rfl⟩⟩
  | poll d skew' limit' _ hraised => exact absurd (hraised.symm.trans hflag) (by decide)
  | leave d skew' limit' _ hleave =>
      rw [setCaller_callers] at hwait
      split at hwait
      · cases hwait
      · exact ⟨rfl, ⟨limit, hwait⟩, .inl ⟨hflag, rfl⟩⟩
  | store e d skew' token expires hfetch =>
      exact absurd ((hone.raised d skew' hfetch).symm.trans hflag) (by decide)
  | finish d skew' died hfetch =>
      rw [setCaller_callers] at hwait
      split at hwait
      · cases hwait
      · exact ⟨rfl, ⟨limit, hwait⟩, .inr ⟨d, died, rfl, ⟨skew', hfetch⟩, rfl⟩⟩

/-- A caller that finds the flag down after a fetch that ended well has a token to take. -/
def Promised (dates : DateReader) (w : World) (es : List Event) (n : ℕ) : Prop :=
  ∀ c skew limit, (w.after dates es n).callers c = .waiting skew limit →
    (w.after dates es n).cred.isRefreshing = false →
    (w.after dates es n).lastFetch = some true →
      ∃ text, (w.after dates es n).cred.accessToken = some text ∧
        ∃ m ≤ n, FreshDuring dates w es c skew text m n

theorem acts_after {dates : DateReader} {w : World} {es : List Event} {n : ℕ} {e : Event}
    (he : es[n]? = some e) :
    Acts dates (w.after dates es n) e (w.after dates es (n + 1))
      ((w.after dates es n).act dates e).2 := by
  have hnext : w.after dates es (n + 1) = ((w.after dates es n).act dates e).1 :=
    run_take_succ he
  rw [hnext]
  exact acts_act dates _ e

/-- A call that still waits is still going. -/
theorem FreshDuring.extend {dates : DateReader} {w : World} {es : List Event} {c m n limit : ℕ}
    {skew : Option ℚ} {text : PerlStr} (h : FreshDuring dates w es c skew text m n)
    (hwait : (w.after dates es (n + 1)).callers c = .waiting skew limit) :
    FreshDuring dates w es c skew text m (n + 1) := by
  refine ⟨fun j hm hj => ?_, h.token, h.fresh⟩
  rcases Nat.lt_or_eq_of_le hj with hj | rfl
  · exact h.going j hm (Nat.le_of_lt_succ hj)
  · simp [hwait]

theorem promised_succ {dates : DateReader} {w : World} {es : List Event} {n : ℕ} {e : Event}
    (hstart : w.Starts) (he : es[n]? = some e) (hok : Orderly dates (w.after dates es n) e)
    (h : Promised dates w es n) : Promised dates w es (n + 1) := by
  intro c skew limit hwait hflag hlast
  obtain ⟨htoken, ⟨limit', hwait'⟩, ⟨hflag', hlast'⟩ | ⟨d, died, rfl, hfetch, hlast'⟩⟩ :=
    waiting_of_acts (acts_after he) (atMostOneFetch_after hstart es n) hwait hflag
  · obtain ⟨text, htext, m, hm, hfresh⟩ := h c skew limit' hwait' hflag' (hlast'.symm.trans hlast)
    exact ⟨text, htoken.trans htext, m, Nat.le_succ_of_le hm, hfresh.extend hwait⟩
  · -- the fetch that ends is the one that counts
    obtain rfl : died = false := by
      rw [hlast'] at hlast
      simpa using hlast
    obtain ⟨hsome, hfresh⟩ := hok hfetch
    obtain ⟨text, htext⟩ := Option.isSome_iff_exists.mp hsome
    refine ⟨text, htoken.trans htext, n, Nat.le_succ n, FreshDuring.extend ⟨?_, htext, ?_⟩ hwait⟩
    · exact fun j hlt hle => absurd hle (Nat.not_le_of_lt hlt)
    · exact hfresh c skew (by rw [hwait']; rfl)

theorem promised_of_allowed {dates : DateReader} {w : World} {es : List Event}
    (hstart : w.Starts) (hok : Allowed (World.step dates) (Orderly dates) w es) {n : ℕ}
    (hn : n ≤ es.length) : Promised dates w es n := by
  induction n with
  | zero =>
      intro c skew limit hwait
      have hidle : (w.after dates es 0).callers c = .idle := hstart.idle c
      simp [hidle] at hwait
  | succ n ih =>
      have he : es[n]? = some es[n] := List.getElem?_eq_getElem hn
      exact promised_succ hstart he (hok.getElem? he) (ih (Nat.le_of_succ_le hn))

/-- How a call comes to return. -/
theorem returned_of_acts {dates : DateReader} {w w' : World} {e : Event} {ending : Option Ending}
    {skew : Option ℚ} {token : Option PerlStr} (hacts : Acts dates w e w' ending)
    (hends : ending = some (.returned skew token)) :
    token = w.cred.accessToken ∧
      ((token.isSome ∧ w.cred.isExpired dates skew w.time = false) ∨
        (∃ c limit, e = .resume c ∧ w.callers c = .waiting skew limit ∧
          (w.cred.isRefreshing = true → limit = 0)) ∨
        ∃ c, e = .finish c false ∧ w.callers c = .fetching skew) := by
  cases hacts with
  | quiet | queue | fetch | poll | store => cases hends
  | serve c skew' text htoken hfresh =>
      cases hends
      exact ⟨htoken.symm, .inl ⟨rfl, hfresh⟩⟩
  | leave c skew' limit hwait hleave =>
      cases hends
      exact ⟨rfl, .inr (.inl ⟨c, limit, rfl, hwait, hleave⟩)⟩
  | finish c skew' died hfetch =>
      cases died with
      | true => cases hends
      | false =>
          cases hends
          exact ⟨rfl, .inr (.inr ⟨c, rfl, hfetch⟩)⟩

/-- Every run of any number of callers whose steps are orderly is safe. -/
theorem getToken_safe {dates : DateReader} {w : World} {es : List Event} (hstart : w.Starts)
    (hok : Allowed (World.step dates) (Orderly dates) w es) : TokenSafe dates w es := by
  refine ⟨fun n => (atMostOneFetch_after hstart es n).single,
    fun n => (atMostOneFetch_after hstart es n).lowered, fun n e c skew token he hc hends => ?_⟩
  have hn : n ≤ es.length := (List.getElem?_eq_some_iff.mp he).1.le
  have hpromised := promised_of_allowed hstart hok hn
  have horderly : Orderly dates (w.after dates es n) e := hok.getElem? he
  have hnow : ∀ j, n < j → j ≤ n → (w.after dates es j).callers c ≠ .idle :=
    fun j hlt hle => absurd hle (Nat.not_le_of_lt hlt)
  obtain ⟨htoken, ⟨hsome, hfresh⟩ | ⟨d, limit, rfl, hwait, hleave⟩ | ⟨d, rfl, hfetch⟩⟩ :=
    returned_of_acts (acts_after he) hends
  · obtain ⟨text, rfl⟩ := Option.isSome_iff_exists.mp hsome
    exact ⟨text, rfl, n, Nat.le_succ n, hnow, htoken.symm, hfresh⟩
  · obtain rfl : d = c := Option.some.inj hc
    rcases horderly skew limit hwait with ⟨hflag, hlimit⟩ | ⟨hflag, hlast⟩
    · exact absurd (hleave hflag) hlimit.ne'
    · obtain ⟨text, htext, m, hm, hfresh⟩ := hpromised d skew limit hwait hflag hlast
      exact ⟨text, htoken.trans htext, m, Nat.le_succ_of_le hm, hfresh⟩
  · obtain ⟨hsome, hfresh⟩ := horderly ⟨skew, hfetch⟩
    obtain ⟨text, htext⟩ := Option.isSome_iff_exists.mp hsome
    refine ⟨text, htoken.trans htext, n, Nat.le_succ n, hnow, htext, hfresh d skew ?_⟩
    rw [hfetch]
    rfl

/-! ### Two callers -/

/-- Dates are seconds only. -/
def epochOnly : DateReader := ⟨isDigit, fun _ _ => none⟩

/-- A credential without a token. -/
def coldStart : World := { cred := {}, time := 1000 }

/-- The second caller waits for the fetch of the first. -/
theorem getToken_safe_pair :
    TokenSafe epochOnly coldStart
      [.call 0 none, .call 1 none, .resume 1, .storeToken 0 (some (ps "t")),
        .storeExpiry 0 (some (ps "4600")), .finish 0 false, .clock 1001, .resume 1] := by
  refine getToken_safe ⟨fun _ => rfl, rfl⟩ ⟨trivial, trivial, ?_, trivial, trivial, ?_, trivial,
    ?_, trivial⟩
  · rintro skew limit hwait
    obtain ⟨-, rfl⟩ : skew = none ∧ limit = 29 := by
      have hat : Phase.waiting none 29 = Phase.waiting skew limit := hwait
      simpa [eq_comm] using hat
    exact .inl ⟨rfl, by decide⟩
  · rintro -
    refine ⟨rfl, fun c skew hc => ?_⟩
    obtain rfl : skew = none := by
      match c with
      | 0 => exact (Option.some.inj hc).symm
      | 1 => exact (Option.some.inj hc).symm
      | c + 2 => cases hc
    have hvalue : epochOnly.expiryEpoch (ps "4600") 1000 = 4600 := by
      have hdigits : Xs.digitsValue ((ps "4600").takeWhile isDigit) = 4600 := by decide
      have hnumber : epochOnly.isNumber (ps "4600") = true := by decide
      rw [DateReader.expiryEpoch, if_pos hnumber, hdigits]
      rfl
    have hlate : ¬ epochOnly.expiryEpoch (ps "4600") 1000 ≤ 1000 + 300 := by
      rw [hvalue]
      norm_num
    exact decide_eq_false hlate
  · exact fun _ _ _ => .inr ⟨rfl, rfl⟩

/-- The fetch of the first caller dies, and the second returns undef. -/
theorem getToken_failed_fetch_not_safe :
    ¬ TokenSafe epochOnly coldStart
      [.call 0 none, .call 1 none, .finish 0 true, .resume 1] := by
  intro h
  obtain ⟨text, htext, -⟩ := h.served 3 (.resume 1) 1 none none rfl rfl rfl
  cases htext

end GooglePerl.Auth
