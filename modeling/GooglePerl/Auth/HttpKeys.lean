import GooglePerl.Auth.Verifier
import Mathlib.Data.List.Chain
import Mathlib.Data.List.Sort
import Mathlib.Tactic.Linarith

/-!
`X509CertHttpKeySource` and `JwkHttpKeySource`: what they make of a response, and what
becomes of one over a run of `refresh_keys`.

`allow_refresh_at` is moved at the end of a refresh that succeeds and nowhere else. So
what keeps two downloads apart is the success of the first (`refreshSafe_iff`). An entry of
an X.509 response that is no certificate becomes a key without key data, where the JWK
source dies.
-/

namespace GooglePerl.Auth

open GooglePerl.Lib
open GooglePerl.Protobuf (PerlStr ps Die)

variable {P : Type}

/-! ### Reading a response -/

/-- What `Google::Auth` loads public keys with; none is undef. -/
structure KeyLoaders (P : Type) where
  loadPubkeyFromX509Cert : PerlStr → Option P
  loadRsaPubkey : PerlStr → PerlStr → Option P
  loadEcPubkey : PerlStr → PerlStr → PerlStr → Option P

/-- The two classes, with their own attributes. -/
inductive KeyFormat where
  | x509 (algorithm : PerlStr)
  | jwk

/-- One entry of an X.509 response. -/
def certKey (loaders : KeyLoaders P) (algorithm : PerlStr) (entry : PerlStr × JsonValue) :
    KeyInfo (Option P) :=
  ⟨some entry.1, loaders.loadPubkeyFromX509Cert entry.2.text, some algorithm⟩

/-- The entries in the order of `sort keys %$data` -/
def sortedEntries (entries : Entries) : Entries := entries.insertionSort fun p q => p.1 ≤ q.1

/-- A value where a string or undef is kept. -/
def JsonValue.optionText (v : JsonValue) : Option PerlStr :=
  if v.isDefined then some v.text else none

/-- `ensure_json_parsed` -/
def ensureJsonParsed (decode : PerlStr → Except PerlStr JsonValue) (input : JsonValue) :
    Except Die JsonValue :=
  if !input.isTrue then .error (.croak (ps "input is a required argument"))
  else
    match input with
    | .num _ s | .str s =>
        (decode s).mapError fun why =>
          .croak (ps "Unable to parse JSON: " ++ why ++ ps "\ninput: " ++ s)
    | _ => .ok input

/-- `extract_rsa_key` -/
def extractRsaKey (loaders : KeyLoaders P) (jwk : Entries) : Except Die (Option P) :=
  match loaders.loadRsaPubkey (decodeBase64url (fetch jwk "n").text)
      (decodeBase64url (fetch jwk "e").text) with
  | none => .error (.croak (ps "Failed to load RSA public key"))
  | some key => .ok (some key)

/-- `$CURVE_NAME_MAP` -/
def curveNameMap : List (PerlStr × PerlStr) :=
  [(ps "P-256", ps "prime256v1"), (ps "P-384", ps "secp384r1"), (ps "P-521", ps "secp521r1"),
    (ps "secp256k1", ps "secp256k1")]

/-- `extract_ec_key` -/
def extractEcKey (loaders : KeyLoaders P) (jwk : Entries) : Except Die (Option P) :=
  match Assoc.find curveNameMap (fetch jwk "crv").text with
  | none => .error (.croak (ps "Unsupported EC curve " ++ (fetch jwk "crv").text))
  | some curve =>
      match loaders.loadEcPubkey curve (decodeBase64url (fetch jwk "x").text)
          (decodeBase64url (fetch jwk "y").text) with
      | none => .error (.croak (ps "Failed to load EC public key"))
      | some key => .ok (some key)

/-- `from_jwk` -/
def fromJwk (loaders : KeyLoaders P) (decode : PerlStr → Except PerlStr JsonValue)
    (input : JsonValue) : Except Die (KeyInfo (Option P)) := do
  let jwk ← (← ensureJsonParsed decode input).entries
  let kty := fetch jwk "kty"
  let key ←
    if kty.text = ps "RSA" then extractRsaKey loaders jwk
    else if kty.text = ps "EC" then extractEcKey loaders jwk
    else if !kty.isDefined then .error (.croak (ps "Key type not found"))
    else .error (.croak (ps "Cannot use key type " ++ kty.text))
  return ⟨(fetch jwk "kid").optionText, key, (fetch jwk "alg").optionText⟩

/-- `from_jwk_set` -/
def fromJwkSet (loaders : KeyLoaders P) (decode : PerlStr → Except PerlStr JsonValue)
    (input : JsonValue) : Except Die (List (KeyInfo (Option P))) := do
  let set ← (← ensureJsonParsed decode input).entries
  match Assoc.find set (ps "keys") with
  | some (.array _ jwks) => jwks.mapM (fromJwk loaders decode)
  | _ => .error (.croak (ps "No keys found in jwk set"))

/-- `interpret_json` of the two classes -/
def KeyFormat.interpretJson (format : KeyFormat) (loaders : KeyLoaders P)
    (decode : PerlStr → Except PerlStr JsonValue) (data : JsonValue) :
    Except Die (List (KeyInfo (Option P))) :=
  match format with
  | .x509 algorithm => do
      -- `keys %$data` brings an undefined `$data` to life
      let certs ← data.entries
      return (sortedEntries certs).map (certKey loaders algorithm)
  | .jwk =>
      if !data.isTrue then .error (.croak (ps "data is a required argument"))
      else fromJwkSet loaders decode data

/-! ### Making a source -/

/-- The arguments of `new` -/
structure SourceParams where
  uri : Option PerlStr
  retryInterval : Option ℚ := none

/-- `$params->{retry_interval} || $DEFAULT_RETRY_INTERVAL`, after the `//= 30` of the X.509
class. -/
def KeyFormat.retryInterval (format : KeyFormat) (given : Option ℚ) : ℚ :=
  let interval :=
    match format with
    | .x509 _ => given.getD 30
    | .jwk => given.getD 0
  if interval = 0 then 3600 else interval

/-- What `new` says when there is no uri. -/
def KeyFormat.missingUri : KeyFormat → PerlStr
  | .x509 _ => ps "missing required parameters"
  | .jwk => ps "uri is a required parameter\n"

/-- `new`; `time` is the clock. -/
def KeyFormat.new (format : KeyFormat) (loaders : KeyLoaders P)
    (decode : PerlStr → Except PerlStr JsonValue) (params : SourceParams) (time : ℚ) :
    Except Die (HttpKeySource (Option P)) :=
  match params.uri with
  | some uri =>
      if uri = [] ∨ uri = ps "0" then .error (.croak format.missingUri)
      else .ok
        { uri := uri
          retryInterval := format.retryInterval params.retryInterval
          allowRefreshAt := time
          decode := decode
          interpretJson := format.interpretJson loaders decode }
  | none => .error (.croak format.missingUri)

/-! ### Runs of refreshes -/

/-- A call of `refresh_keys`: the source it finds, and what it meets. -/
structure Turn (P : Type) where
  source : HttpKeySource (Option P)
  fetch : Fetch

namespace Turn

/-- The call goes to the server. -/
def downloads (t : Turn P) : Bool := t.source.allowRefreshAt ≤ t.fetch.now

/-- The source as the call leaves it. -/
def after (t : Turn P) : HttpKeySource (Option P) := (t.source.refreshKeys t.fetch).2

/-- The call dies. -/
def dies (t : Turn P) : Prop := ∃ why, (t.source.refreshKeys t.fetch).1 = .error why

end Turn

/-- The calls of a run. -/
def turns (s : HttpKeySource (Option P)) : List Fetch → List (Turn P)
  | [] => []
  | f :: fs => ⟨s, f⟩ :: turns (Turn.after ⟨s, f⟩) fs

/-- The clock does not go back. -/
def Clockwise (fs : List Fetch) : Prop :=
  (∀ f ∈ fs, f.now ≤ f.later) ∧ fs.IsChain fun f g => f.later ≤ g.now

/-- The keys of a response, unless it is one of a failed request, is malformed, or has a key
that cannot be used. -/
def KeyFormat.responseKeys (format : KeyFormat) (loaders : KeyLoaders P)
    (decode : PerlStr → Except PerlStr JsonValue) (got : Download) :
    Option (List (KeyInfo (Option P))) :=
  if !got.success then none
  else
    match format, decode got.content with
    | .x509 algorithm, .ok (.hash _ certs) =>
        if certs.all fun c => (loaders.loadPubkeyFromX509Cert c.2.text).isSome then
          some ((sortedEntries certs).map (certKey loaders algorithm))
        else none
    | .jwk, .ok data => (format.interpretJson loaders decode data).toOption
    | _, _ => none

/-- Downloads are apart, a failed one changes no keys and a good one brings its own. -/
structure RefreshSafe (format : KeyFormat) (loaders : KeyLoaders P) (s : HttpKeySource (Option P))
    (fs : List Fetch) : Prop where
  apart : ((turns s fs).filter Turn.downloads).IsChain fun a b =>
    a.fetch.now + s.retryInterval ≤ b.fetch.now
  kept : ∀ t ∈ turns s fs,
    t.dies ∨ t.downloads = false ∨ format.responseKeys loaders s.decode t.fetch.download = none →
      t.after.currentKeys = t.source.currentKeys
  taken : ∀ t ∈ turns s fs, t.downloads = true → ∀ keys,
    format.responseKeys loaders s.decode t.fetch.download = some keys → t.after.currentKeys = keys

/-- A response that the X.509 class takes for keys: `null`, or one with an entry that is no
certificate. -/
def Misleading (format : KeyFormat) (loaders : KeyLoaders P)
    (decode : PerlStr → Except PerlStr JsonValue) (got : Download) : Prop :=
  got.success = true ∧ ∃ algorithm, format = .x509 algorithm ∧
    (decode got.content = .ok .undef ∨ ∃ address certs,
      decode got.content = .ok (.hash address certs) ∧
        ∃ c ∈ certs, loaders.loadPubkeyFromX509Cert c.2.text = none)

/-- A response that makes the call die. -/
def HttpKeySource.Refuses (s : HttpKeySource (Option P)) (got : Download) : Prop :=
  ∃ why, s.load got = .error why

/-- After a download that was refused the next call waits, and the keys of a misleading
response are those that there were. -/
structure Patient (format : KeyFormat) (loaders : KeyLoaders P) (s : HttpKeySource (Option P))
    (fs : List Fetch) : Prop where
  waits : (turns s fs).IsChain fun a b =>
    a.downloads = true → s.Refuses a.fetch.download → a.fetch.now + s.retryInterval ≤ b.fetch.now
  honest : ∀ t ∈ turns s fs, t.downloads = true →
    Misleading format loaders s.decode t.fetch.download → s.load t.fetch.download =
      .ok t.source.currentKeys

/-! ### One call -/

/-- What a call can do: nothing, die, or bring the keys of its download. -/
theorem Turn.cases (t : Turn P) :
    (t.downloads = false ∧ t.after = t.source ∧ ¬ t.dies) ∨
      (t.downloads = true ∧ t.source.Refuses t.fetch.download ∧ t.after = t.source) ∨
      ∃ keys, t.downloads = true ∧ t.source.load t.fetch.download = .ok keys ∧ ¬ t.dies ∧
        t.after = { t.source with
          currentKeys := keys, allowRefreshAt := t.fetch.later + t.source.retryInterval } := by
  unfold Turn.downloads Turn.after Turn.dies HttpKeySource.refreshKeys
  by_cases hnow : t.fetch.now < t.source.allowRefreshAt
  · left
    simp [hnow]
  · right
    cases hload : t.source.load t.fetch.download with
    | error why =>
        left
        simp only [hnow, if_false]
        exact ⟨by simpa using hnow, ⟨why, hload⟩, trivial⟩
    | ok keys =>
        right
        simp only [hnow, if_false]
        exact ⟨keys, by simpa using hnow, rfl, by simp, rfl⟩

/-- What of a source no call changes. -/
structure SameClass (s s' : HttpKeySource (Option P)) : Prop where
  uri : s'.uri = s.uri
  decode : s'.decode = s.decode
  interpretJson : s'.interpretJson = s.interpretJson
  retryInterval : s'.retryInterval = s.retryInterval

theorem SameClass.load {s s' : HttpKeySource (Option P)} (h : SameClass s s') :
    s'.load = s.load := by
  funext got
  simp only [HttpKeySource.load, h.uri, h.decode, h.interpretJson]

theorem Turn.sameClass (t : Turn P) : SameClass t.source t.after := by
  rcases t.cases with ⟨-, h, -⟩ | ⟨-, -, h⟩ | ⟨keys, -, -, -, h⟩
  · rw [h]
    exact ⟨rfl, rfl, rfl, rfl⟩
  · rw [h]
    exact ⟨rfl, rfl, rfl, rfl⟩
  · rw [h]
    exact ⟨rfl, rfl, rfl, rfl⟩

theorem sameClass_of_mem_turns {s : HttpKeySource (Option P)} {fs : List Fetch} {t : Turn P}
    (h : t ∈ turns s fs) : SameClass s t.source := by
  induction fs generalizing s with
  | nil => cases h
  | cons f fs ih =>
      rcases List.mem_cons.mp h with rfl | h
      · exact ⟨rfl, rfl, rfl, rfl⟩
      · have hfirst := Turn.sameClass ⟨s, f⟩
        have hrest := ih h
        exact ⟨hrest.uri.trans hfirst.uri, hrest.decode.trans hfirst.decode,
          hrest.interpretJson.trans hfirst.interpretJson,
          hrest.retryInterval.trans hfirst.retryInterval⟩

/-! ### The time between downloads -/

/-- The next download waits for the time that is set. -/
theorem allowRefreshAt_le_of_find {s : HttpKeySource (Option P)} {fs : List Fetch} {t : Turn P}
    (h : (turns s fs).find? Turn.downloads = some t) : s.allowRefreshAt ≤ t.fetch.now := by
  induction fs generalizing s with
  | nil => cases h
  | cons f fs ih =>
      rw [turns, List.find?_cons] at h
      rcases Turn.cases ⟨s, f⟩ with ⟨hno, hafter, -⟩ | ⟨hyes, -, -⟩ | ⟨keys, hyes, -, -, -⟩
      · rw [hno, hafter] at h
        exact ih h
      · rw [hyes] at h
        obtain rfl := Option.some.inj h
        simpa [Turn.downloads] using hyes
      · rw [hyes] at h
        obtain rfl := Option.some.inj h
        simpa [Turn.downloads] using hyes

theorem clockwise_cons {f : Fetch} {fs : List Fetch} (h : Clockwise (f :: fs)) :
    f.now ≤ f.later ∧ (∀ g ∈ fs.head?, f.later ≤ g.now) ∧ Clockwise fs := by
  obtain ⟨hcalls, hchain⟩ := h
  rw [List.isChain_cons] at hchain
  exact ⟨hcalls f List.mem_cons_self, hchain.1,
    fun g hg => hcalls g (List.mem_cons_of_mem _ hg), hchain.2⟩

/-- A refused download leaves the next call free to go. -/
theorem find?_after_refusal {s : HttpKeySource (Option P)} {f : Fetch} {fs : List Fetch}
    (hclock : Clockwise (f :: fs)) (hdown : s.allowRefreshAt ≤ f.now) :
    (turns s fs).find? Turn.downloads = (turns s fs).head? := by
  obtain ⟨hcall, hnext, -⟩ := clockwise_cons hclock
  cases fs with
  | nil => rfl
  | cons g fs =>
      have hg : f.later ≤ g.now := hnext g rfl
      have hgo : Turn.downloads (⟨s, g⟩ : Turn P) = true := by
        simp only [Turn.downloads, decide_eq_true_eq]
        exact hdown.trans (hcall.trans hg)
      rw [turns, List.find?_cons, hgo]
      rfl

/-- A call that brings keys keeps the next download away. -/
theorem interval_le_of_find {s : HttpKeySource (Option P)} {f : Fetch} {fs : List Fetch}
    {keys : List (KeyInfo (Option P))} {t : Turn P} (hcall : f.now ≤ f.later)
    (hafter : Turn.after ⟨s, f⟩ =
      { s with currentKeys := keys, allowRefreshAt := f.later + s.retryInterval })
    (h : (turns (Turn.after ⟨s, f⟩) fs).find? Turn.downloads = some t) :
    f.now + s.retryInterval ≤ t.fetch.now := by
  have hset := allowRefreshAt_le_of_find h
  rw [hafter] at hset
  calc f.now + s.retryInterval ≤ f.later + s.retryInterval := by linarith
    _ ≤ t.fetch.now := hset

theorem apart_iff_waits {s : HttpKeySource (Option P)} {fs : List Fetch} (hclock : Clockwise fs) :
    (((turns s fs).filter Turn.downloads).IsChain fun a b =>
        a.fetch.now + s.retryInterval ≤ b.fetch.now) ↔
      (turns s fs).IsChain fun a b => a.downloads = true → s.Refuses a.fetch.download →
        a.fetch.now + s.retryInterval ≤ b.fetch.now := by
  induction fs generalizing s with
  | nil => simp [turns]
  | cons f fs ih =>
      have hclass := Turn.sameClass ⟨s, f⟩
      obtain ⟨hcall, -, hclock'⟩ := clockwise_cons hclock
      have hrest := ih (s := Turn.after ⟨s, f⟩) hclock'
      simp only [HttpKeySource.Refuses, hclass.load, hclass.retryInterval] at hrest
      simp only [HttpKeySource.Refuses]
      rw [turns, List.filter_cons, List.isChain_cons]
      rcases Turn.cases ⟨s, f⟩ with ⟨hno, -, -⟩ | ⟨hyes, hrefuses, hafter⟩ |
          ⟨keys, hyes, hload, -, hafter⟩
      · simp only [hno, Bool.false_eq_true, if_false, false_imp_iff, implies_true, true_and]
        exact hrest
      · have hdown : s.allowRefreshAt ≤ f.now := by simpa [Turn.downloads] using hyes
        have hrefuses' : ∃ why, s.load f.download = .error why := hrefuses
        rw [if_pos hyes, List.isChain_cons, hrest, List.head?_filter, hafter,
          find?_after_refusal hclock hdown]
        simp only [hyes, hrefuses', true_imp_iff]
      · have hloads : ¬ ∃ why, s.load f.download = .error why := by simp [hload]
        rw [if_pos hyes, List.isChain_cons, hrest, List.head?_filter]
        simp only [hloads, false_imp_iff, implies_true, true_and, and_iff_right_iff_imp]
        intro _ t ht
        exact interval_le_of_find hcall hafter ht

/-! ### The keys of a download -/

/-- The source interprets responses as its class does. -/
def HttpKeySource.Reads (s : HttpKeySource (Option P)) (format : KeyFormat)
    (loaders : KeyLoaders P) : Prop :=
  s.interpretJson = format.interpretJson loaders s.decode

theorem HttpKeySource.Reads.eq {s : HttpKeySource (Option P)} {format : KeyFormat}
    {loaders : KeyLoaders P} (h : s.Reads format loaders) :
    s.interpretJson = format.interpretJson loaders s.decode := h

theorem load_of_responseKeys {s : HttpKeySource (Option P)} {format : KeyFormat}
    {loaders : KeyLoaders P} {got : Download} {keys : List (KeyInfo (Option P))}
    (hreads : s.Reads format loaders)
    (h : format.responseKeys loaders s.decode got = some keys) : s.load got = .ok keys := by
  unfold KeyFormat.responseKeys at h
  unfold HttpKeySource.load
  rw [hreads]
  cases hsuccess : got.success with
  | false => simp [hsuccess] at h
  | true =>
      simp only [hsuccess, Bool.not_true, Bool.false_eq_true, if_false] at h ⊢
      cases format with
      | x509 algorithm =>
          cases hdecode : s.decode got.content with
          | error why => simp [hdecode] at h
          | ok data =>
              cases data with
              | hash address certs =>
                  simp only [hdecode, Option.ite_none_right_eq_some] at h
                  rw [← Option.some.inj h.2]
                  rfl
              | _ => simp [hdecode] at h
      | jwk =>
          cases hdecode : s.decode got.content with
          | error why => simp [hdecode] at h
          | ok data =>
              simp only [hdecode] at h ⊢
              cases hkeys : KeyFormat.interpretJson .jwk loaders s.decode data with
              | error why => simp [hkeys, Except.toOption] at h
              | ok keys' =>
                  rw [hkeys] at h
                  rw [← Option.some.inj h]

/-- A download that brings keys without being a good one is misleading. -/
theorem responseKeys_eq_none_iff {s : HttpKeySource (Option P)} {format : KeyFormat}
    {loaders : KeyLoaders P} {got : Download} {keys : List (KeyInfo (Option P))}
    (hreads : s.Reads format loaders) (hload : s.load got = .ok keys) :
    format.responseKeys loaders s.decode got = none ↔
      Misleading format loaders s.decode got := by
  unfold KeyFormat.responseKeys Misleading
  unfold HttpKeySource.load at hload
  rw [hreads] at hload
  cases hsuccess : got.success with
  | false => simp [hsuccess] at hload
  | true =>
      simp only [hsuccess, Bool.not_true, Bool.false_eq_true, if_false, true_and] at hload ⊢
      cases hdecode : s.decode got.content with
      | error why => simp [hdecode] at hload
      | ok data =>
          rw [hdecode] at hload
          cases format with
          | jwk =>
              have hkeys : KeyFormat.interpretJson .jwk loaders s.decode data = .ok keys := hload
              simp [hkeys, Except.toOption]
          | x509 algorithm =>
              cases data with
              | undef => simp
              | hash address certs => simp
              | _ => simp [KeyFormat.interpretJson, JsonValue.entries] at hload

theorem not_refuses_of_misleading {s : HttpKeySource (Option P)} {format : KeyFormat}
    {loaders : KeyLoaders P} {got : Download} (hreads : s.Reads format loaders)
    (h : Misleading format loaders s.decode got) : ¬ s.Refuses got := by
  obtain ⟨hsuccess, algorithm, rfl, hdecode | ⟨address, certs, hdecode, -⟩⟩ := h
  · simp [HttpKeySource.Refuses, HttpKeySource.load, hsuccess, hdecode, hreads.eq,
      KeyFormat.interpretJson, JsonValue.entries, pure, Except.pure, bind, Except.bind]
  · simp [HttpKeySource.Refuses, HttpKeySource.load, hsuccess, hdecode, hreads.eq,
      KeyFormat.interpretJson, JsonValue.entries, pure, Except.pure, bind, Except.bind]

/-- What happens to the keys in one call is right unless the response is misleading. -/
theorem Turn.keys_iff {t : Turn P} {format : KeyFormat} {loaders : KeyLoaders P}
    (hreads : t.source.Reads format loaders) :
    ((t.dies ∨ t.downloads = false ∨
          format.responseKeys loaders t.source.decode t.fetch.download = none →
        t.after.currentKeys = t.source.currentKeys) ∧
      (t.downloads = true → ∀ keys,
        format.responseKeys loaders t.source.decode t.fetch.download = some keys →
          t.after.currentKeys = keys)) ↔
      (t.downloads = true → Misleading format loaders t.source.decode t.fetch.download →
        t.source.load t.fetch.download = .ok t.source.currentKeys) := by
  rcases t.cases with ⟨hno, hafter, -⟩ | ⟨hyes, ⟨why, hrefuses⟩, hafter⟩ |
      ⟨keys, hyes, hload, hlives, hafter⟩
  · simp [hno, hafter]
  · have hhonest : ¬ Misleading format loaders t.source.decode t.fetch.download := fun h =>
      not_refuses_of_misleading hreads h ⟨why, hrefuses⟩
    have hnone : ∀ keys,
        format.responseKeys loaders t.source.decode t.fetch.download ≠ some keys := by
      intro keys h
      rw [load_of_responseKeys hreads h] at hrefuses
      cases hrefuses
    simp [hyes, hafter, hhonest, hnone]
  · have htaken : ∀ keys',
        format.responseKeys loaders t.source.decode t.fetch.download = some keys' →
          keys = keys' := by
      intro keys' h
      rw [load_of_responseKeys hreads h] at hload
      exact (Except.ok.inj hload).symm
    rw [responseKeys_eq_none_iff hreads hload, hafter, hload]
    simp [hyes, hlives]
    exact fun _ => htaken

theorem keys_iff_of_mem_turns {s : HttpKeySource (Option P)} {format : KeyFormat}
    {loaders : KeyLoaders P} {fs : List Fetch} {t : Turn P} (hreads : s.Reads format loaders)
    (ht : t ∈ turns s fs) :
    ((t.dies ∨ t.downloads = false ∨
          format.responseKeys loaders s.decode t.fetch.download = none →
        t.after.currentKeys = t.source.currentKeys) ∧
      (t.downloads = true → ∀ keys,
        format.responseKeys loaders s.decode t.fetch.download = some keys →
          t.after.currentKeys = keys)) ↔
      (t.downloads = true → Misleading format loaders s.decode t.fetch.download →
        s.load t.fetch.download = .ok t.source.currentKeys) := by
  have hclass := sameClass_of_mem_turns ht
  have hreads' : t.source.Reads format loaders := by
    rw [HttpKeySource.Reads, hclass.interpretJson, hclass.decode]
    exact hreads
  rw [← hclass.decode, ← hclass.load]
  exact t.keys_iff hreads'

theorem reads_of_new {format : KeyFormat} {loaders : KeyLoaders P}
    {decode : PerlStr → Except PerlStr JsonValue} {params : SourceParams} {time : ℚ}
    {s : HttpKeySource (Option P)} (h : format.new loaders decode params time = .ok s) :
    s.Reads format loaders := by
  unfold KeyFormat.new at h
  split at h
  · split at h
    · cases h
    · rw [← Except.ok.inj h]
      rfl
  · cases h

/-- In every run of calls on a source as `new` makes it, with a clock that does not go
back, the downloads are apart and the keys are those of the last good response if and only
if the calls are patient with refused downloads and misleading responses change nothing. -/
theorem refreshSafe_iff {format : KeyFormat} {loaders : KeyLoaders P}
    {decode : PerlStr → Except PerlStr JsonValue} {params : SourceParams} {time : ℚ}
    {s : HttpKeySource (Option P)} {fs : List Fetch}
    (hnew : format.new loaders decode params time = .ok s) (hclock : Clockwise fs) :
    RefreshSafe format loaders s fs ↔ Patient format loaders s fs := by
  have hreads := reads_of_new hnew
  have hkeys := fun t (ht : t ∈ turns s fs) => keys_iff_of_mem_turns hreads ht
  constructor
  · intro h
    refine ⟨(apart_iff_waits hclock).mp h.apart, fun t ht => ?_⟩
    exact (hkeys t ht).mp ⟨h.kept t ht, h.taken t ht⟩
  · intro h
    refine ⟨(apart_iff_waits hclock).mpr h.waits, fun t ht => ?_, fun t ht => ?_⟩
    · exact ((hkeys t ht).mpr (h.honest t ht)).1
    · exact ((hkeys t ht).mpr (h.honest t ht)).2

/-- A server that is down. -/
def unavailable : Download := ⟨false, ps "503", ps "Service Unavailable", []⟩

/-- A server that has no keys. -/
def emptySet : Download := ⟨true, ps "200", ps "OK", ps "\x7b\"keys\":[]\x7d"⟩

/-- Loaders without keys to load. -/
def noKeys : KeyLoaders Unit := ⟨fun _ => none, fun _ _ => none, fun _ _ _ => none⟩

/-- A decoder for the one text that the server sends. -/
def decodeEmptySet (text : PerlStr) : Except PerlStr JsonValue :=
  if text = emptySet.content then .ok (.hash 0 [(ps "keys", .array 1 [])])
  else .error (ps "malformed JSON string")

/-- A JWK source with the default interval, made at time 0. -/
def jwkSource : HttpKeySource (Option Unit) :=
  { uri := ps "https://example.com/certs"
    allowRefreshAt := 0
    decode := decodeEmptySet
    interpretJson := KeyFormat.jwk.interpretJson noKeys decodeEmptySet }

theorem not_misleading_jwk (got : Download) : ¬ Misleading .jwk noKeys decodeEmptySet got := by
  rintro ⟨-, algorithm, hformat, -⟩
  cases hformat

/-- A download that fails, one that succeeds an hour later, and a call soon after it. -/
theorem refreshSafe_hour_later :
    RefreshSafe .jwk noKeys jwkSource
      [⟨0, unavailable, 1⟩, ⟨3600, emptySet, 3601⟩, ⟨3700, unavailable, 3701⟩] := by
  have hnew : KeyFormat.jwk.new noKeys decodeEmptySet ⟨some (ps "https://example.com/certs"), none⟩
      0 = .ok jwkSource := rfl
  refine (refreshSafe_iff hnew ?_).mpr ⟨?_, fun t _ _ h => absurd h (not_misleading_jwk _)⟩
  · norm_num [Clockwise]
  · have hgood : ¬ jwkSource.Refuses emptySet := by
      rintro ⟨why, h⟩
      have hload : jwkSource.load emptySet = .ok [] := rfl
      rw [hload] at h
      cases h
    simp only [turns, List.isChain_cons_cons, List.isChain_singleton, and_true]
    refine ⟨fun _ _ => ?_, fun _ h => absurd h hgood⟩
    norm_num [jwkSource]

/-- A call a second after a download that failed goes to the server again. -/
theorem refresh_after_failure_not_safe :
    ¬ RefreshSafe .jwk noKeys jwkSource [⟨0, unavailable, 0⟩, ⟨1, unavailable, 1⟩] := by
  intro h
  have hturns : (turns jwkSource [⟨0, unavailable, 0⟩, ⟨1, unavailable, 1⟩]).filter Turn.downloads =
      [⟨jwkSource, ⟨0, unavailable, 0⟩⟩, ⟨jwkSource, ⟨1, unavailable, 1⟩⟩] := rfl
  have hapart := h.apart
  rw [hturns] at hapart
  norm_num [jwkSource] at hapart

end GooglePerl.Auth
