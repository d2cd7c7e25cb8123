import GooglePerl.Auth.TokenSyntax
import Mathlib.Tactic.Linarith

/-!
`Google::Auth::ServiceAccountCredentials`: the assertion that `fetch_access_token` signs.

`encode_json` and `rsa_sign_sha256` are parameters (`Issuer`), as their counterparts are
for the verifier. What the one method writes the other reads: base64url without padding,
three segments, the first two signed (`verify_assertion`).
-/

namespace GooglePerl.Auth

open GooglePerl.Lib
open GooglePerl.Protobuf (PerlStr ps Die IsOctets)

variable {K : Type}

/-! ### Base64url -/

/-- `s/=+$//` on a text without newlines -/
def stripPadding (s : PerlStr) : PerlStr := (s.reverse.dropWhile (· == 61)).reverse

/-- `tr[+/][-_]` -/
def trStd (c : ℕ) : ℕ := if c = 43 then 45 else if c = 47 then 95 else c

/-- `_encode_base64url`. The function of `MIME::Base64` that it calls dies of a wide character,
and strips the padding itself. -/
def encodeBase64url (data : PerlStr) : Except Die PerlStr :=
  if IsOctets data then .ok (stripPadding ((stripPadding (encodeBase64 data)).map trStd))
  else .error (.croak (ps "Wide character in subroutine entry"))

theorem stripPadding_append_replicate (s : PerlStr) (n : ℕ) :
    stripPadding (s ++ List.replicate n 61) = stripPadding s := by
  induction n with
  | zero => simp
  | succ n ih =>
      rw [List.replicate_succ', ← List.append_assoc]
      unfold stripPadding at ih ⊢
      rw [List.reverse_append]
      exact ih

theorem stripPadding_eq_self {s : PerlStr} (h : 61 ∉ s) : stripPadding s = s := by
  unfold stripPadding
  rw [List.dropWhile_eq_self_iff.mpr, List.reverse_reverse]
  intro hne heq
  have hmem : s.reverse[0] ∈ s := List.mem_reverse.mp (List.getElem_mem _)
  rw [beq_iff_eq.mp heq] at hmem
  exact h hmem

theorem isBase64url_trStd {d : ℕ} (h : d < 64) : isBase64url (trStd (base64Char d)) = true := by
  have hall : ∀ d < 64, isBase64url (trStd (base64Char d)) = true := by decide
  exact hall d h

theorem trUrl_trStd {d : ℕ} (h : d < 64) : trUrl (trStd (base64Char d)) = base64Char d := by
  have hall : ∀ d < 64, trUrl (trStd (base64Char d)) = base64Char d := by decide
  exact hall d h

/-- Octets are written over the alphabet of base64url, and read back. -/
theorem encodeBase64url_spec {data : PerlStr} (h : IsOctets data) :
    ∃ s, encodeBase64url data = .ok s ∧ (∀ c ∈ s, isBase64url c = true) ∧
      decodeBase64url s = data := by
  obtain ⟨n, heq⟩ := encodeBase64_eq data
  have hdigits : ∀ d ∈ sextets data, d < 64 := sextets_lt h
  generalize sextets data = digits at heq hdigits
  have hplain : ∀ d ∈ digits, base64Char d ≠ 61 := by
    have hall : ∀ d < 64, base64Char d ≠ 61 := by decide
    exact fun d hd => hall d (hdigits d hd)
  have hchars : ∀ c ∈ (digits.map base64Char).map trStd, isBase64url c = true := by
    intro c hc
    obtain ⟨x, hx, rfl⟩ := List.mem_map.mp hc
    obtain ⟨d, hd, rfl⟩ := List.mem_map.mp hx
    exact isBase64url_trStd (hdigits d hd)
  -- neither substitution finds padding but what the encoder has added
  have hinner : stripPadding (digits.map base64Char) = digits.map base64Char := by
    refine stripPadding_eq_self fun hmem => ?_
    obtain ⟨d, hd, hpad⟩ := List.mem_map.mp hmem
    exact hplain d hd hpad
  have houter : stripPadding ((digits.map base64Char).map trStd) =
      (digits.map base64Char).map trStd :=
    stripPadding_eq_self fun hmem => absurd (hchars 61 hmem) (by decide)
  refine ⟨(digits.map base64Char).map trStd, ?_, hchars, ?_⟩
  · rw [encodeBase64url, if_pos h, heq, stripPadding_append_replicate, hinner, houter]
  · have hback : ((digits.map base64Char).map trStd).map trUrl = digits.map base64Char := by
      rw [List.map_map, List.map_map]
      exact List.map_congr_left fun d hd => trUrl_trStd (hdigits d hd)
    have hpads : ∀ c ∈ List.replicate n 61,
        base64Symbol c = none ∨ base64Symbol c = some .pad := by
      intro c hc
      rw [List.eq_of_mem_replicate hc]
      exact .inr rfl
    calc decodeBase64url ((digits.map base64Char).map trStd)
        = decodeBase64 (digits.map base64Char) := by rw [decodeBase64url_eq, hback]
      _ = decodeBase64 (encodeBase64 data) := by rw [heq, decodeBase64_append hpads]
      _ = data := decodeBase64_encodeBase64 h

/-! ### The assertion -/

/-- What the method uses of `JSON::PP` and of `Google::Auth`; no signature is undef. -/
structure Issuer where
  encodeJson : Entries → PerlStr
  rsaSignSha256 : PerlStr → PerlStr → Option PerlStr

/-- The attribute `scope`. -/
inductive Scope where
  | text (s : PerlStr)
  | list (items : List PerlStr)

def Scope.joined : Scope → PerlStr
  | .text s => s
  | .list items => (ps " ").intercalate items

/-- The attributes that `fetch_access_token` signs with. -/
structure ServiceAccount where
  privateKey : Option PerlStr
  privateKeyId : Option PerlStr := none
  clientEmail : Option PerlStr
  tokenUri : Option PerlStr := none
  scope : Option Scope := none

namespace ServiceAccount

/-- `$token_uri` -/
def tokenUriOrDefault (account : ServiceAccount) : PerlStr :=
  account.tokenUri.getD (ps "https://oauth2.googleapis.com/token")

/-- `$header` -/
def header (account : ServiceAccount) : Entries :=
  [(ps "alg", .str (ps "RS256")), (ps "typ", .str (ps "JWT"))] ++
    (account.privateKeyId.map fun id => (ps "kid", .str id)).toList

/-- A whole number of seconds. -/
def seconds (n : ℕ) : JsonValue := .num (.fin n) (natText n)

/-- `$payload` -/
def payload (account : ServiceAccount) (clientEmail : PerlStr) (now : ℕ) : Entries :=
  [(ps "iss", .str clientEmail), (ps "sub", .str clientEmail),
    (ps "aud", .str account.tokenUriOrDefault), (ps "exp", seconds (now + 3600)),
    (ps "iat", seconds now)] ++
    (account.scope.map fun scope => (ps "scope", .str scope.joined)).toList

/-- `$assertion`, as `fetch_access_token` builds it at the time `now`. -/
def assertion (issuer : Issuer) (account : ServiceAccount) (now : ℕ) : Except Die PerlStr :=
  match account.privateKey, account.clientEmail with
  | some privateKey, some clientEmail => do
      let headerB64 ← encodeBase64url (issuer.encodeJson account.header)
      let payloadB64 ← encodeBase64url (issuer.encodeJson (account.payload clientEmail now))
      let message := headerB64 ++ 46 :: payloadB64
      match issuer.rsaSignSha256 privateKey message with
      | none => throw (.croak (ps "Failed to sign JWT assertion using private key"))
      | some signatureRaw =>
          let signatureB64 ← encodeBase64url signatureRaw
          return message ++ 46 :: signatureB64
  | _, _ => throw (.croak (ps "Missing private_key or client_email to sign and fetch token"))

end ServiceAccount

/-! ### Its verification -/

/-- `encode_json` writes octets, and the verifier decodes them to the same hash, at whatever
address and in whatever order. -/
def Inverts (lib : Library K) (issuer : Issuer) (es : Entries) : Prop :=
  IsOctets (issuer.encodeJson es) ∧
    ∃ address es', lib.decode (issuer.encodeJson es) = .ok (.hash address es') ∧
      ∀ key, Assoc.find es' key = Assoc.find es key

/-- What `rsa_sign_sha256` makes with the private key is a text of octets that `verify_signature`
accepts with the public one. -/
def Matches (lib : Library K) (issuer : Issuer) (privateKey : PerlStr) (publicKey : K) : Prop :=
  ∀ message signature, issuer.rsaSignSha256 privateKey message = some signature →
    signature ≠ [] ∧ IsOctets signature ∧ lib.verifySignature publicKey message signature = true

theorem fetch_congr {es es' : Entries} (h : ∀ key, Assoc.find es' key = Assoc.find es key)
    (name : String) : fetch es' name = fetch es name := by
  rw [fetch, fetch, h]

theorem fillAzp_of_no_cid {es : Entries} (h : Assoc.find es (ps "cid") = none) :
    fillAzp es = es := by
  rw [fillAzp, h]

namespace ServiceAccount

variable {account : ServiceAccount} {clientEmail : PerlStr} {now : ℕ}

theorem fetch_header_kid {id : PerlStr} (hid : account.privateKeyId = some id) :
    fetch account.header "kid" = .str id := by
  unfold header
  rw [hid]
  rfl

theorem fetch_payload_aud :
    fetch (account.payload clientEmail now) "aud" = .str account.tokenUriOrDefault := rfl

theorem fetch_payload_iss : fetch (account.payload clientEmail now) "iss" = .str clientEmail := rfl

theorem find_payload_exp :
    Assoc.find (account.payload clientEmail now) (ps "exp") = some (seconds (now + 3600)) := rfl

theorem find_payload_iat :
    Assoc.find (account.payload clientEmail now) (ps "iat") = some (seconds now) := rfl

theorem find_payload_nbf : Assoc.find (account.payload clientEmail now) (ps "nbf") = none := by
  unfold payload
  cases account.scope <;> rfl

theorem find_payload_cid : Assoc.find (account.payload clientEmail now) (ps "cid") = none := by
  unfold payload
  cases account.scope <;> rfl

/-- The times of an assertion pass from five minutes before it is issued until five minutes
after it expires. -/
theorem checkTimes_payload {es : Entries} {t : ℚ}
    (hsame : ∀ key, Assoc.find es key = Assoc.find (account.payload clientEmail now) key)
    (hfrom : (now : ℚ) - 300 ≤ t) (huntil : t ≤ now + 3900) : checkTimes t 300 es = .ok () := by
  refine checkTimes_eq_ok.mpr ⟨claimIs_eq_false.mpr ?_, claimIs_eq_false.mpr ?_,
    claimIs_eq_false.mpr ?_⟩
  · rw [hsame, find_payload_exp]
    intro v hv
    obtain rfl := Option.some.inj hv
    simp only [seconds, JsonValue.number, FloatVal.lt, decide_eq_false_iff_not, not_lt]
    push_cast
    linarith
  · rw [hsame, find_payload_nbf]
    exact fun v hv => nomatch hv
  · rw [hsame, find_payload_iat]
    intro v hv
    obtain rfl := Option.some.inj hv
    simp only [seconds, JsonValue.number, FloatVal.lt, decide_eq_false_iff_not, not_lt]
    linarith

/-- The segments of an assertion, and what the verifier reads in them. -/
structure Signed (issuer : Issuer) (account : ServiceAccount) (privateKey clientEmail : PerlStr)
    (now : ℕ) (a b c signature : PerlStr) : Prop where
  plain : ∀ s ∈ [a, b, c], ∀ ch ∈ s, isBase64url ch = true
  header : decodeBase64url a = issuer.encodeJson account.header
  payload : decodeBase64url b = issuer.encodeJson (account.payload clientEmail now)
  signed : issuer.rsaSignSha256 privateKey (a ++ 46 :: b) = some signature
  signature : decodeBase64url c = signature

/-- An assertion is built where the message can be signed. -/
theorem assertion_spec {lib : Library K} {issuer : Issuer} {privateKey : PerlStr} {publicKey : K}
    (hkey : account.privateKey = some privateKey) (hemail : account.clientEmail = some clientEmail)
    (hheader : IsOctets (issuer.encodeJson account.header))
    (hpayload : IsOctets (issuer.encodeJson (account.payload clientEmail now)))
    (hmatch : Matches lib issuer privateKey publicKey) :
    (assertion issuer account now =
        .error (.croak (ps "Failed to sign JWT assertion using private key")) ∧
      ∃ message, issuer.rsaSignSha256 privateKey message = none) ∨
    ∃ a b c signature, assertion issuer account now = .ok ([46].intercalate [a, b, c]) ∧
      Signed issuer account privateKey clientEmail now a b c signature := by
  obtain ⟨a, ha, hacs, hadec⟩ := encodeBase64url_spec hheader
  obtain ⟨b, hb, hbcs, hbdec⟩ := encodeBase64url_spec hpayload
  cases hsign : issuer.rsaSignSha256 privateKey (a ++ 46 :: b) with
  | none =>
      left
      refine ⟨?_, _, hsign⟩
      simp only [assertion, hkey, hemail, ha, hb, ok_bind, hsign]
      rfl
  | some signature =>
      right
      obtain ⟨-, hoctets, -⟩ := hmatch _ _ hsign
      obtain ⟨c, hc, hccs, hcdec⟩ := encodeBase64url_spec hoctets
      refine ⟨a, b, c, signature, ?_, ⟨?_, hadec, hbdec, hsign, hcdec⟩⟩
      · simp only [assertion, hkey, hemail, ha, hb, hc, ok_bind, hsign]
        simp [List.intercalate_cons_cons, pure, Except.pure]
      · simpa using ⟨hacs, hbcs, hccs⟩

/-- The checks of the verifier on the segments of an assertion. -/
theorem Signed.passes {lib : Library K} {issuer : Issuer} {privateKey id : PerlStr}
    {publicKey : K} {a b c signature : PerlStr} {keys : List (KeyInfo K)} {s : Settings}
    {algorithm : Option PerlStr}
    (h : Signed issuer account privateKey clientEmail now a b c signature)
    (hid : account.privateKeyId = some id) (hheader : Inverts lib issuer account.header)
    (hpayload : Inverts lib issuer (account.payload clientEmail now))
    (hmatch : Matches lib issuer privateKey publicKey)
    (hkeys : ⟨some id, publicKey, algorithm⟩ ∈ keys)
    (haud : s.aud = some (.one account.tokenUriOrDefault)) (hazp : s.azp = none)
    (hiss : s.iss = some (.one clientEmail)) (hskew : s.clockSkew = 300)
    (hfrom : (now : ℚ) - 300 ≤ s.now) (huntil : s.now ≤ now + 3900) :
    ∃ header payload hs es, Passes lib (arrays keys keys) s a b c header payload hs es ∧
      ∀ key, Assoc.find es key = Assoc.find (account.payload clientEmail now) key := by
  obtain ⟨-, headerAt, hs, hhs, hheaderSame⟩ := hheader
  obtain ⟨-, payloadAt, es, hes, hsame⟩ := hpayload
  -- the key id of the header is that of the account, whose key is among the source's
  have hkid : fetch hs "kid" = .str id := by
    rw [fetch_congr hheaderSame, fetch_header_kid hid]
  have hnocid : fillAzp es = es := fillAzp_of_no_cid (by rw [hsame, find_payload_cid])
  refine ⟨.hash headerAt hs, .hash payloadAt es, hs, es,
    ⟨?_, rfl, ?_, rfl, ?_, ?_, ?_, ?_, ?_, ?_⟩, hsame⟩
  · rw [h.header, hhs]
  · rw [h.payload, hes]
  · rw [hkid]
    rfl
  · refine checkSignature_arrays.mpr ⟨_, .inl hkeys, ?_⟩
    rw [hkid, h.signature]
    simp only [signs, Option.getD_some, JsonValue.text, beq_self_eq_true, Bool.true_and]
    exact (hmatch _ _ h.signed).2.2
  · rw [hskew]
    exact checkTimes_payload hsame hfrom huntil
  · rw [haud, hnocid, checkAud]
    refine checkClaim_eq_ok.mpr fun e he => ?_
    obtain rfl := Option.some.inj he
    rw [fetch_congr hsame, fetch_payload_aud]
    exact ⟨_, List.mem_singleton_self _, List.mem_singleton_self _⟩
  · rw [hazp]
    exact checkClaim_eq_ok.mpr fun e he => nomatch he
  · rw [hiss, hnocid, checkIss]
    refine checkClaim_eq_ok.mpr fun e he => ?_
    obtain rfl := Option.some.inj he
    rw [fetch_congr hsame, fetch_payload_iss]
    exact ⟨_, List.mem_singleton_self _, List.mem_singleton_self _⟩

theorem Signed.splitDots {lib : Library K} {issuer : Issuer} {privateKey : PerlStr}
    {publicKey : K} {a b c signature : PerlStr}
    (h : Signed issuer account privateKey clientEmail now a b c signature)
    (hmatch : Matches lib issuer privateKey publicKey) :
    splitDots ([46].intercalate [a, b, c]) = [a, b, c] := by
  refine splitDots_intercalate (fun s hs hdot => ?_) ?_
  · exact absurd (h.plain s hs 46 hdot) (by decide)
  · rintro rfl
    exact (hmatch _ _ h.signed).1 h.signature.symm

end ServiceAccount

/-- The verifier for an account: its public key under its id, its address for tokens and its
e-mail address expected, and all else as it is by default. -/
structure ExpectsAssertions (account : ServiceAccount) (id clientEmail : PerlStr) (publicKey : K)
    (keys : List (KeyInfo K)) (verifier : Verifier K) (options : Options K) : Prop where
  holds : ∃ algorithm, ⟨some id, publicKey, algorithm⟩ ∈ keys
  source : (options.keySource <|> verifier.keySource) = some (KeySource.static keys).replies
  aud : (options.aud <|> verifier.aud) = some (.one account.tokenUriOrDefault)
  azp : (options.azp <|> verifier.azp) = none
  iss : (options.iss <|> verifier.iss) = some (.one clientEmail)
  clockSkew : options.clockSkew = none

/-- For every account with a usable key and every time of issue the assertion is built, and it
is accepted from five minutes before that time until five minutes after its expiry, with the
claims that were signed. Without a usable key none is built. -/
theorem verify_assertion {lib : Library K} {issuer : Issuer} {account : ServiceAccount}
    {privateKey clientEmail id : PerlStr} {publicKey : K} {now : ℕ} {time : ℚ}
    {keys : List (KeyInfo K)} {self : Verifier K} {options : Options K}
    (hkey : account.privateKey = some privateKey) (hemail : account.clientEmail = some clientEmail)
    (hid : account.privateKeyId = some id) (hheader : Inverts lib issuer account.header)
    (hpayload : Inverts lib issuer (account.payload clientEmail now))
    (hmatch : Matches lib issuer privateKey publicKey)
    (hexpects : ExpectsAssertions account id clientEmail publicKey keys self options)
    (hfrom : (now : ℚ) - 300 ≤ options.timeNow.getD time)
    (huntil : options.timeNow.getD time ≤ now + 3900) :
    (∀ token, account.assertion issuer now = .ok token →
      ∃ p, verify lib time self token options = .ok p ∧
        ∀ key, Assoc.find p key = Assoc.find (account.payload clientEmail now) key) ∧
    ((∀ message, (issuer.rsaSignSha256 privateKey message).isSome) →
      ∃ token, account.assertion issuer now = .ok token) := by
  rcases ServiceAccount.assertion_spec hkey hemail hheader.1 hpayload.1 hmatch with
      ⟨hfails, message, hnone⟩ | ⟨a, b, c, signature, hbuilt, hsigned⟩
  · refine ⟨fun token htoken => ?_, fun hsome => ?_⟩
    · rw [hfails] at htoken
      cases htoken
    · have hmessage := hsome message
      rw [hnone] at hmessage
      cases hmessage
  · refine ⟨fun token htoken => ?_, fun _ => ⟨_, hbuilt⟩⟩
    obtain rfl := Except.ok.inj (hbuilt.symm.trans htoken)
    obtain ⟨algorithm, hmem⟩ := hexpects.holds
    obtain ⟨header, payload, hs, es, hpasses, hsame⟩ :=
      hsigned.passes (s := options.settings self time) hid hheader hpayload hmatch hmem
        hexpects.aud hexpects.azp hexpects.iss (by rw [Options.settings, hexpects.clockSkew]; rfl)
        hfrom huntil
    have hnocid : fillAzp es = es :=
      fillAzp_of_no_cid (by rw [hsame, ServiceAccount.find_payload_cid])
    refine ⟨es, verify_eq_ok.mpr ⟨_, hexpects.source, verifyWith_eq_ok.mpr ?_⟩, hsame⟩
    exact ⟨a, b, c, hsigned.splitDots hmatch, header, payload, hs, es, hpasses, hnocid.symm⟩

/-! ### An account to try it on -/

def sampleAccount : ServiceAccount :=
  { privateKey := some (ps "pem"), privateKeyId := some (ps "k"), clientEmail := some (ps "e"),
    tokenUri := some (ps "u") }

def sampleHeader : PerlStr :=
  ps "\x7b\"alg\":\"RS256\",\"typ\":\"JWT\",\"kid\":\"k\"\x7d"

def samplePayload : PerlStr :=
  ps "\x7b\"iss\":\"e\",\"sub\":\"e\",\"aud\":\"u\",\"exp\":4600,\"iat\":1000\x7d"

/-- The two JSON texts, and the signature `sig`. -/
def sampleIssuer : Issuer where
  encodeJson es := if (fetch es "kid").isDefined then sampleHeader else samplePayload
  rsaSignSha256 _ _ := some (ps "sig")

/-- A reader of the two texts. -/
def sampleReader : Library Unit where
  decode s :=
    if s = sampleHeader then .ok (.hash 1 sampleAccount.header)
    else if s = samplePayload then .ok (.hash 2 (sampleAccount.payload (ps "e") 1000))
    else .error (ps "malformed JSON string")
  verifySignature _ _ signature := signature = ps "sig"

def sampleOptions : Options Unit :=
  { keySource := some (KeySource.static sampleKeys).replies
    aud := some (.one (ps "u"))
    iss := some (.one (ps "e")) }

/-- An assertion issued at 1000 and verified at 4900. -/
theorem verify_sample_assertion :
    ∃ token p, sampleAccount.assertion sampleIssuer 1000 = .ok token ∧
      verify sampleReader 4900 {} token sampleOptions = .ok p ∧
      ∀ key, Assoc.find p key = Assoc.find (sampleAccount.payload (ps "e") 1000) key := by
  have hheader : Inverts sampleReader sampleIssuer sampleAccount.header :=
    ⟨by decide, 1, sampleAccount.header, rfl, fun _ => rfl⟩
  have hpayload : Inverts sampleReader sampleIssuer (sampleAccount.payload (ps "e") 1000) :=
    ⟨by decide, 2, _, rfl, fun _ => rfl⟩
  have hmatch : Matches sampleReader sampleIssuer (ps "pem") () := by
    rintro message signature hsign
    obtain rfl := Option.some.inj hsign
    exact ⟨by decide, by decide, rfl⟩
  have hexpects : ExpectsAssertions sampleAccount (ps "k") (ps "e") () sampleKeys {}
      sampleOptions :=
    ⟨⟨none, List.mem_singleton_self _⟩, rfl, rfl, rfl, rfl, rfl⟩
  have hfrom : ((1000 : ℕ) : ℚ) - 300 ≤ sampleOptions.timeNow.getD 4900 := by
    norm_num [sampleOptions]
  have huntil : sampleOptions.timeNow.getD 4900 ≤ ((1000 : ℕ) : ℚ) + 3900 := by
    norm_num [sampleOptions]
  obtain ⟨haccepted, hbuilt⟩ :=
    verify_assertion rfl rfl rfl hheader hpayload hmatch hexpects hfrom huntil
  obtain ⟨token, htoken⟩ := hbuilt fun _ => rfl
  obtain ⟨p, hp, hsame⟩ := haccepted token htoken
  exact ⟨token, p, htoken, hp, hsame⟩

end GooglePerl.Auth
