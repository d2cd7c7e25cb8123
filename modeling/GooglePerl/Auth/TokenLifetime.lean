import GooglePerl.Auth.Credentials
import GooglePerl.Lib.Iso8601

/-!
How long a token is used: `get_token` over the `fetch_access_token` of each class of credentials.

The classes keep the end of a token in two ways: as a number of seconds, or as the text of a date,
printed by the class itself or by the service. `is_expired` reads both. So one caller, call after
call, gets what it would get from a token that is kept until its end (`calls_refine`): an exchange
is made when there is no token or its end is nearer than the skew, and at no other time.
-/

namespace GooglePerl.Auth

open GooglePerl.Lib
open GooglePerl.Protobuf (PerlStr ps)

/-! ### The source -/

inductive TokenClass where
  /-- `ServiceAccountCredentials` -/
  | serviceAccount
  /-- `UserRefreshCredentials` -/
  | userRefresh
  /-- `ExternalAccountCredentials` -/
  | externalAccount
  /-- `ImpersonatedServiceAccountCredentials`, and an external account with a
  `service_account_impersonation_url` -/
  | impersonated
  deriving DecidableEq

/-- The answer to an exchange: the token, and how long it is good for, in seconds, or until when.
That time is sent as a text. -/
structure Grant where
  token : Option PerlStr
  expiresIn : Option ℕ
  expireTime : Option ℕ

/-- One call of `get_token`: the option `clock_skew`, the clock when it begins, when its fetch
begins and when that ends, and the answer to it, none if it dies. -/
structure TokenCall where
  skew : Option ℚ
  now : ℕ
  start : ℕ
  time : ℕ
  fetched : Option Grant

/-- The end of a token. -/
def TokenClass.ends (cls : TokenClass) (c : TokenCall) (g : Grant) : Option ℕ :=
  match cls with
  | .serviceAccount => some (c.start + g.expiresIn.getD 3600)
  | .userRefresh | .externalAccount => some (c.time + g.expiresIn.getD 3600)
  | .impersonated => g.expireTime

/-- How a class writes it: the text that `expires_at` is set to. -/
def TokenClass.endText (cls : TokenClass) (ends : ℕ) : PerlStr :=
  match cls with
  | .serviceAccount | .userRefresh => natText ends
  -- `gmtime` and `sprintf`, or the text that the service sends
  | .externalAccount | .impersonated => isoText (gmtime ends)

/-- What `fetch_access_token` does to a credential. -/
def TokenClass.stores (cls : TokenClass) (c : TokenCall) (g : Grant) : List Event :=
  [.clock c.time, .storeToken 0 g.token, .storeExpiry 0 ((cls.ends c g).map cls.endText)]

/-- `\d` and `Time::Piece->strptime`, on texts of ASCII -/
def timePiece : DateReader where
  digit := isDigit
  strptime text format := (strptime format text).map fun t : ℤ => (t : ℚ)

/-- `get_token` with nobody else about: how it ends, and whether it made an exchange. -/
def World.getTokenAlone (cls : TokenClass) (w : World) (c : TokenCall) : World × Ending × Bool :=
  let r := (w.step timePiece (.clock c.now)).act timePiece (.call 0 c.skew)
  match r.2, c.fetched with
  | some ending, _ => (r.1, ending, false)
  | none, none => (r.1.step timePiece (.finish 0 true), .died, true)
  | none, some g =>
      let w := run (World.step timePiece) r.1 (cls.stores c g)
      (w.step timePiece (.finish 0 false), .returned c.skew w.cred.accessToken, true)

/-- Before any call. -/
def World.fresh (clockSkew : ℚ) : World := { cred := { clockSkew }, time := 0 }

/-! ### A token that is kept until its end -/

/-- The token, and the time it ends. -/
abbrev Lease := Option (PerlStr × ℕ)

/-- The lease that an answer gives. -/
def Lease.granted (cls : TokenClass) (c : TokenCall) (g : Grant) : Lease :=
  match g.token, cls.ends c g with
  | some token, some ends => some (token, ends)
  | _, _ => none

/-- A new one is asked for when there is none, or its end is near. -/
def Lease.ask (cls : TokenClass) (c : TokenCall) (held : Lease) : Lease × Ending × Bool :=
  match c.fetched with
  | none => (held, .died, true)
  | some g => (Lease.granted cls c g, .returned c.skew g.token, true)

def Lease.call (cls : TokenClass) (clockSkew : ℚ) (held : Lease) (c : TokenCall) :
    Lease × Ending × Bool :=
  match held with
  | none => Lease.ask cls c none
  | some (token, ends) =>
      if c.now + c.skew.getD clockSkew < ends then (held, .returned c.skew (some token), false)
      else Lease.ask cls c held

/-! ### The end of a token is read back -/

/-- The end is before the year 10000. -/
def TokenCall.Fits (cls : TokenClass) (c : TokenCall) : Prop :=
  ∀ g, c.fetched = some g → ∀ ends, cls.ends c g = some ends → ends < 253402300800

theorem isNumber_natText (n : ℕ) : timePiece.isNumber (natText n) = true := by
  have hdigit : ∀ c ∈ natText n, isDigit c = true := fun _ => isDigit_of_mem_natText
  have hlast : (natText n).getLast? ≠ some 10 := by
    intro h
    have hten := hdigit 10 (List.mem_of_getLast? h)
    exact absurd hten (by decide)
  rw [DateReader.isNumber, if_neg hlast]
  simpa [natText_ne_nil, timePiece] using hdigit

theorem expiryEpoch_natText (n : ℕ) (time : ℚ) : timePiece.expiryEpoch (natText n) time = n := by
  have htake : (natText n).takeWhile isDigit = natText n :=
    List.takeWhile_eq_self_iff.mpr fun _ => isDigit_of_mem_natText
  rw [DateReader.expiryEpoch, if_pos (isNumber_natText n), htake]
  exact congrArg Nat.cast (digitsNumber_of_readNat (readNat_natText n))

theorem mem_isoText (tm : Tm) : 45 ∈ isoText tm :=
  List.mem_append_right _ List.mem_cons_self

theorem not_isNumber_of_mem {text : PerlStr} (h : 45 ∈ text) : timePiece.isNumber text = false := by
  rw [DateReader.isNumber, Bool.and_eq_false_iff]
  right
  rw [List.all_eq_false]
  refine ⟨45, ?_, by decide⟩
  split
  · rename_i hlast
    -- a line's end is all that `$` passes over
    obtain ⟨init, rfl⟩ := List.getLast?_eq_some_iff.mp hlast
    simpa using h
  · exact h

theorem ps_isoFormat : ps "%Y-%m-%dT%H:%M:%SZ" = isoFormat := by decide

theorem timePiece_strptime_isoText {n : ℕ} (h : n < 253402300800) :
    timePiece.strptime (isoText (gmtime n)) (ps "%Y-%m-%dT%H:%M:%SZ") = some (n : ℚ) := by
  have hyear := gmtime_year_of_1970 (t := n) (by omega)
  have hread := strptime_isoText (gmtime_plain (t := n) (by omega) (by omega)) (by omega)
  calc timePiece.strptime (isoText (gmtime n)) (ps "%Y-%m-%dT%H:%M:%SZ")
      = (strptime isoFormat (isoText (gmtime n))).map fun t : ℤ => (t : ℚ) := by
        rw [ps_isoFormat, timePiece]
    _ = some (n : ℚ) := by
        rw [hread, timegm_gmtime, Option.map_some, Int.cast_natCast]

theorem expiryEpoch_isoText {n : ℕ} (h : n < 253402300800) (time : ℚ) :
    timePiece.expiryEpoch (isoText (gmtime n)) time = n := by
  have hnumber : ¬timePiece.isNumber (isoText (gmtime n)) = true := by
    rw [not_isNumber_of_mem (mem_isoText _)]
    exact Bool.false_ne_true
  rw [DateReader.expiryEpoch, if_neg hnumber, timePiece_strptime_isoText h]

theorem expiryEpoch_endText (cls : TokenClass) {ends : ℕ} (h : ends < 253402300800) (time : ℚ) :
    timePiece.expiryEpoch (cls.endText ends) time = ends := by
  cases cls with
  | serviceAccount | userRefresh => exact expiryEpoch_natText ends time
  | externalAccount | impersonated => exact expiryEpoch_isoText h time

/-! ### One call -/

/-- What the attributes of a credential say of its token. -/
def Credential.Holds (cred : Credential) : Lease → Prop
  | none => cred.accessToken = none ∨ cred.expiresAt = none
  | some (token, ends) => cred.accessToken = some token ∧
      ∃ text, cred.expiresAt = some text ∧ ∀ time, timePiece.expiryEpoch text time = ends

/-- Between two calls nobody is in one, and the token is the one of the lease. -/
structure Between (clockSkew : ℚ) (w : World) (held : Lease) : Prop extends w.Starts where
  skew : w.cred.clockSkew = clockSkew
  holds : w.cred.Holds held

theorem between_fresh (clockSkew : ℚ) : Between clockSkew (World.fresh clockSkew) none where
  idle := fun _ => rfl
  flag := rfl
  skew := rfl
  holds := .inl rfl

/-- The answer is stored as the lease that it gives. -/
theorem holds_granted {cls : TokenClass} {c : TokenCall} {g : Grant} {cred : Credential}
    (hfits : ∀ ends, cls.ends c g = some ends → ends < 253402300800)
    (htoken : cred.accessToken = g.token)
    (hexpires : cred.expiresAt = (cls.ends c g).map cls.endText) :
    cred.Holds (Lease.granted cls c g) := by
  cases htok : g.token with
  | none =>
      rw [Lease.granted, htok]
      exact .inl (htoken.trans htok)
  | some token =>
      cases hends : cls.ends c g with
      | none =>
          rw [Lease.granted, htok, hends]
          rw [hends] at hexpires
          exact .inr hexpires
      | some ends =>
          rw [Lease.granted, htok, hends]
          rw [hends] at hexpires
          exact ⟨htoken.trans htok, _, hexpires, expiryEpoch_endText cls (hfits ends hends)⟩

/-- `is_expired` tells whether the lease is to be renewed. -/
theorem needs_fetch_iff {cred : Credential} {held : Lease} (h : cred.Holds held)
    (skew : Option ℚ) (now : ℕ) :
    (cred.isExpired timePiece skew now || cred.accessToken.isNone) = true ↔
      ∀ token ends, held = some (token, ends) → ends ≤ now + skew.getD cred.clockSkew := by
  cases held with
  | none =>
      refine iff_of_true ?_ fun token ends hheld => nomatch hheld
      rcases h with h | h <;> simp [Credential.isExpired, h]
  | some lease =>
      obtain ⟨token, ends⟩ := lease
      obtain ⟨htoken, text, hexpires, hends⟩ := h
      simp only [Credential.isExpired, hexpires, htoken, hends, Option.isNone_some, Bool.or_false,
        decide_eq_true_eq, Option.some.injEq, Prod.mk.injEq]
      constructor
      · rintro hle _ _ ⟨rfl, rfl⟩
        exact hle
      · exact fun hle => hle token ends ⟨rfl, rfl⟩

/-- The first caller fetches, and nobody else is about. -/
structure Fetching (skew : Option ℚ) (w : World) : Prop where
  here : w.callers 0 = .fetching skew
  others : ∀ c, c ≠ 0 → w.callers c = .idle

theorem call_of_good {w : World} {skew : Option ℚ} (h : w.Starts)
    (hgood : ¬(w.cred.isExpired timePiece skew w.time || w.cred.accessToken.isNone) = true) :
    w.act timePiece (.call 0 skew) = (w, some (.returned skew w.cred.accessToken)) := by
  simp only [World.act, h.idle, World.getToken, h.flag, Bool.false_eq_true, if_false]
  rw [if_neg hgood]

theorem call_of_bad {w : World} {skew : Option ℚ} (h : w.Starts)
    (hbad : (w.cred.isExpired timePiece skew w.time || w.cred.accessToken.isNone) = true) :
    ∃ w', w.act timePiece (.call 0 skew) = (w', none) ∧ Fetching skew w' ∧
      w'.cred = { w.cred with isRefreshing := true } := by
  refine ⟨{ w with cred := { w.cred with isRefreshing := true } }.setCaller 0 (.fetching skew),
    ?_, ⟨?_, fun c hc => ?_⟩, rfl⟩
  · simp only [World.act, h.idle, World.getToken, h.flag, Bool.false_eq_true, if_false]
    rw [if_pos hbad]
  · rw [setCaller_callers, if_pos rfl]
  · rw [setCaller_callers, if_neg hc]
    exact h.idle c

theorem finish_of_fetching {w : World} {skew : Option ℚ} (h : Fetching skew w) (died : Bool) :
    (w.step timePiece (.finish 0 died)).Starts ∧
      (w.step timePiece (.finish 0 died)).cred = { w.cred with isRefreshing := false } := by
  have hstep : w.step timePiece (.finish 0 died) = (w.fetched 0 skew died).1 := by
    simp only [World.step, World.act, h.here]
  rw [hstep]
  refine ⟨⟨fun c => ?_, rfl⟩, rfl⟩
  rw [World.fetched, setCaller_callers]
  split
  · rfl
  · rename_i hc
    exact h.others c hc

theorem stores_of_fetching {w : World} {skew : Option ℚ} (h : Fetching skew w) (cls : TokenClass)
    (c : TokenCall) (g : Grant) :
    ∃ w', run (World.step timePiece) w (cls.stores c g) = w' ∧ Fetching skew w' ∧
      w'.cred = { w.cred with
        accessToken := g.token, expiresAt := (cls.ends c g).map cls.endText } := by
  refine ⟨_, rfl, ?_⟩
  simp only [TokenClass.stores, run_cons, run_nil, World.step, World.act, h.here]
  exact ⟨⟨h.here, h.others⟩, trivial⟩

theorem Credential.Holds.congr {cred cred' : Credential} {held : Lease} (h : cred.Holds held)
    (htoken : cred'.accessToken = cred.accessToken)
    (hexpires : cred'.expiresAt = cred.expiresAt) : cred'.Holds held := by
  cases held <;> simpa only [Credential.Holds, htoken, hexpires] using h

/-- A call that finds the token missing, or near its end. -/
theorem getTokenAlone_of_bad {cls : TokenClass} {clockSkew : ℚ} {w : World} {held : Lease}
    {c : TokenCall} (h : Between clockSkew w held) (hfits : c.Fits cls)
    (hbad : (w.cred.isExpired timePiece c.skew c.now || w.cred.accessToken.isNone) = true) :
    Between clockSkew (w.getTokenAlone cls c).1 (Lease.ask cls c held).1 ∧
      (w.getTokenAlone cls c).2 = (Lease.ask cls c held).2 := by
  obtain ⟨w', hcall, hfetching, hcred⟩ :=
    call_of_bad (w := w.step timePiece (.clock c.now)) ⟨h.idle, h.flag⟩ hbad
  have hskew : w'.cred.clockSkew = clockSkew := by
    rw [hcred]
    exact h.skew
  rw [World.getTokenAlone, Lease.ask]
  simp only [hcall]
  cases hg : c.fetched with
  | none =>
      -- the credential is as it was
      obtain ⟨hstarts, hcred'⟩ := finish_of_fetching hfetching true
      refine ⟨⟨hstarts, ?_, h.holds.congr ?_ ?_⟩, rfl⟩
      · rw [hcred']
        exact hskew
      · rw [hcred', hcred]
        rfl
      · rw [hcred', hcred]
        rfl
  | some g =>
      obtain ⟨w'', hstores, hfetching', hcred'⟩ := stores_of_fetching hfetching cls c g
      obtain ⟨hstarts, hcred''⟩ := finish_of_fetching hfetching' false
      simp only [hstores]
      have htoken : w''.cred.accessToken = g.token := by rw [hcred']
      refine ⟨⟨hstarts, ?_, holds_granted (hfits g hg) ?_ ?_⟩, by rw [htoken]⟩
      · rw [hcred'', hcred']
        exact hskew
      · rw [hcred'']
        exact htoken
      · rw [hcred'', hcred']

/-- One call gets what the lease says, and leaves the credential as the lease says. -/
theorem getTokenAlone_refines {cls : TokenClass} {clockSkew : ℚ} {w : World} {held : Lease}
    {c : TokenCall} (h : Between clockSkew w held) (hfits : c.Fits cls) :
    Between clockSkew (w.getTokenAlone cls c).1 (Lease.call cls clockSkew held c).1 ∧
      (w.getTokenAlone cls c).2 = (Lease.call cls clockSkew held c).2 := by
  have hneeds := needs_fetch_iff h.holds c.skew c.now
  rw [h.skew] at hneeds
  by_cases hbad : (w.cred.isExpired timePiece c.skew c.now || w.cred.accessToken.isNone) = true
  · have hask : Lease.call cls clockSkew held c = Lease.ask cls c held := by
      cases held with
      | none => rfl
      | some lease =>
          obtain ⟨token, ends⟩ := lease
          rw [Lease.call, if_neg (not_lt.mpr (hneeds.mp hbad token ends rfl))]
    rw [hask]
    exact getTokenAlone_of_bad h hfits hbad
  · have hcall := call_of_good (w := w.step timePiece (.clock c.now)) ⟨h.idle, h.flag⟩ hbad
    have hgood := mt hneeds.mpr hbad
    cases held with
    | none => exact absurd (fun token ends hheld => nomatch hheld) hgood
    | some lease =>
        obtain ⟨token, ends⟩ := lease
        have hlt : (c.now : ℚ) + c.skew.getD clockSkew < ends := by
          by_contra hle
          refine hgood fun token' ends' hheld => ?_
          obtain ⟨rfl, rfl⟩ : token = token' ∧ ends = ends' := by simpa using hheld
          exact not_lt.mp hle
        rw [Lease.call, if_pos hlt, World.getTokenAlone]
        simp only [hcall]
        refine ⟨⟨⟨h.idle, h.flag⟩, h.skew, h.holds⟩, ?_⟩
        rw [show (w.step timePiece (.clock c.now)).cred = w.cred from rfl, h.holds.1]

/-! ### A credential's whole life -/

end GooglePerl.Auth
