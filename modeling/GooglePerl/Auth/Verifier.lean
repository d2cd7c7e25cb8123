import GooglePerl.Auth.KeySources
import GooglePerl.Lib.Base64
import GooglePerl.Lib.Split

/-!
`Google::Auth::IDTokens::Verifier::verify`.

The JSON decoder and the signature check are parameters (`Library`). Each check is a
function of its own, and `verify_eq_ok` takes the whole method apart: it returns exactly
on what `Passes`.
-/

namespace GooglePerl.Auth

open GooglePerl.Lib
open GooglePerl.Protobuf (PerlStr ps Die)

variable {K : Type}

/-! ### The token -/

/-- `tr{-_}{+/}` -/
def trUrl (c : ℕ) : ℕ := if c = 45 then 43 else if c = 95 then 47 else c

/-- `_decode_base64url` -/
def decodeBase64url (s : PerlStr) : PerlStr :=
  let s := s.map trUrl
  let padding := s.length % 4
  decodeBase64 (if padding = 0 then s else s ++ List.replicate (4 - padding) 61)

/-- `split /\./, $token` -/
def splitDots (token : PerlStr) : List PerlStr := splitFields 46 token

theorem splitDots_intercalate {a b c : PerlStr} (hdots : ∀ l ∈ [a, b, c], 46 ∉ l) (hc : c ≠ []) :
    splitDots ([46].intercalate [a, b, c]) = [a, b, c] :=
  splitFields_intercalate (show ∀ l ∈ [a, b] ++ [c], 46 ∉ l from hdots) hc

theorem eq_intercalate_of_splitDots {t a b c : PerlStr} (h : splitDots t = [a, b, c])
    (hend : t.getLast? ≠ some 46) :
    t = [46].intercalate [a, b, c] ∧ (∀ l ∈ [a, b, c], 46 ∉ l) ∧ c ≠ [] :=
  eq_intercalate_of_splitFields (show splitFields 46 t = [a, b] ++ [c] from h) hend

/-- `@parts` -/
def parts (token : PerlStr) : Except Die (PerlStr × PerlStr × PerlStr) :=
  match splitDots token with
  | [headerB64, payloadB64, signatureB64] => .ok (headerB64, payloadB64, signatureB64)
  | _ => .error (.croak (ps "VerificationError: Invalid JWT format"))

/-- What the method uses of `JSON::MaybeXS` and of `Google::Auth`. -/
structure Library (K : Type) where
  decode : PerlStr → Except PerlStr JsonValue
  verifySignature : K → PerlStr → PerlStr → Bool

def decodePart (lib : Library K) (name : String) (b64 : PerlStr) : Except Die JsonValue :=
  (lib.decode (decodeBase64url b64)).mapError fun why =>
    .croak (ps "VerificationError: Failed to parse JWT " ++ ps name ++ ps ": " ++ why)

/-! ### The signature -/

def keyId (header : Entries) : Except Die PerlStr :=
  if (fetch header "kid").isDefined then .ok (fetch header "kid").text
  else .error (.croak (ps "VerificationError: Missing kid claim in JWT header"))

/-- A key that `$verify_with_keys` takes. -/
def signs (lib : Library K) (kid message signature : PerlStr) (key : KeyInfo K) : Bool :=
  key.id.getD [] == kid && lib.verifySignature key.key message signature

/-- `$verify_with_keys` -/
def verifyWithKeys (lib : Library K) (kid message signature : PerlStr) (keys : Reply K) :
    Except Die Bool :=
  keys.deref.map fun keys => keys.any (signs lib kid message signature)

/-- The current keys, and the refreshed ones when those do not do. -/
def checkSignature (lib : Library K) (source : Replies K) (kid message signature : PerlStr) :
    Except Die Unit := do
  let current ← source.currentKeys
  if ← verifyWithKeys lib kid message signature current then return
  let refreshed ← source.refreshKeys
  if ← verifyWithKeys lib kid message signature refreshed then return
  throw (.croak (ps "SignatureError: Token signature verification failed"))

/-! ### The claims -/

/-- `exists $payload->{name} && ...` -/
def claimIs (payload : Entries) (name : String) (test : FloatVal → Bool) : Bool :=
  (Assoc.find payload (ps name)).any fun v => test v.number

def checkTimes (now clockSkew : ℚ) (payload : Entries) : Except Die Unit :=
  if claimIs payload "exp" fun t => t.lt (.fin (now - clockSkew)) then
    .error (.croak (ps "ExpiredTokenError: Token signature is expired"))
  else if claimIs payload "nbf" fun t => FloatVal.lt (.fin (now + clockSkew)) t then
    .error (.croak (ps "VerificationError: Token not yet valid"))
  else if claimIs payload "iat" fun t => FloatVal.lt (.fin (now + clockSkew)) t then
    .error (.croak (ps "VerificationError: Token issued in the future"))
  else .ok ()

/-- `$payload->{azp} ||= $payload->{cid} if exists $payload->{cid}` -/
def fillAzp (payload : Entries) : Entries :=
  match Assoc.find payload (ps "cid") with
  | some cid => if (fetch payload "azp").isTrue then payload
      else Assoc.store payload (ps "azp") cid
  | none => payload

/-- What a caller expects of a claim: a string or an array of them. -/
inductive Expected where
  | one (s : PerlStr)
  | list (items : List PerlStr)

/-- The keys of `%expected_map` -/
def Expected.values : Expected → List PerlStr
  | .one s => [s]
  | .list items => items

/-- The three checks of a claim against `%expected_map`. -/
def checkClaim (expected : Option Expected) (values : List JsonValue) (mismatch : PerlStr) :
    Except Die Unit :=
  match expected with
  | none => .ok ()
  | some e =>
      if values.any fun v => e.values.contains v.text then .ok () else .error (.croak mismatch)

def checkAud (aud : Option Expected) (payload : Entries) : Except Die Unit :=
  let tokenAuds := (fetch payload "aud").elements
  checkClaim aud tokenAuds (ps "AudienceMismatchError: Token aud mismatch: " ++
    (ps ", ").intercalate (tokenAuds.map JsonValue.text))

def checkAzp (azp : Option Expected) (payload : Entries) : Except Die Unit :=
  checkClaim azp (fetch payload "azp").elements
    (ps "AuthorizedPartyMismatchError: Token azp mismatch: " ++ (fetch payload "azp").text)

/-- The issuer is one value: an array is not looked into. -/
def checkIss (iss : Option Expected) (payload : Entries) : Except Die Unit :=
  checkClaim iss [fetch payload "iss"]
    (ps "IssuerMismatchError: Token iss mismatch: " ++ (fetch payload "iss").text)

/-! ### The method -/

/-- The attributes of a verifier. -/
structure Verifier (K : Type) where
  keySource : Option (Replies K) := none
  aud : Option Expected := none
  azp : Option Expected := none
  iss : Option Expected := none

/-- `%options` -/
structure Options (K : Type) where
  keySource : Option (Replies K) := none
  aud : Option Expected := none
  azp : Option Expected := none
  iss : Option Expected := none
  clockSkew : Option ℚ := none
  timeNow : Option ℚ := none

/-- What `verify` works with once the options are read. -/
structure Settings where
  aud : Option Expected
  azp : Option Expected
  iss : Option Expected
  clockSkew : ℚ
  now : ℚ

/-- `$options{aud} // $self->aud` and the like; `time` is the clock. -/
def Options.settings (options : Options K) (self : Verifier K) (time : ℚ) : Settings where
  aud := options.aud <|> self.aud
  azp := options.azp <|> self.azp
  iss := options.iss <|> self.iss
  clockSkew := options.clockSkew.getD 300
  now := options.timeNow.getD time

/-- `verify` with its options read. -/
def verifyWith (lib : Library K) (source : Replies K) (s : Settings) (token : PerlStr) :
    Except Die Entries := do
  let (headerB64, payloadB64, signatureB64) ← parts token
  let header ← decodePart lib "header" headerB64
  let payload ← decodePart lib "payload" payloadB64
  let kid ← keyId (← header.entries)
  checkSignature lib source kid (headerB64 ++ 46 :: payloadB64) (decodeBase64url signatureB64)
  let payload ← payload.entries
  checkTimes s.now s.clockSkew payload
  let payload := fillAzp payload
  checkAud s.aud payload
  checkAzp s.azp payload
  checkIss s.iss payload
  return payload

/-- `verify` -/
def verify (lib : Library K) (time : ℚ) (self : Verifier K) (token : PerlStr)
    (options : Options K) : Except Die Entries :=
  match options.keySource <|> self.keySource with
  | none => .error (.croak (ps "KeySourceError: No key source provided"))
  | some source => verifyWith lib source (options.settings self time) token

/-! ### What the checks let through -/

/-- Three segments that pass all checks, with what they decode to. -/
structure Passes (lib : Library K) (source : Replies K) (s : Settings)
    (headerB64 payloadB64 signatureB64 : PerlStr) (header payload : JsonValue) (hs es : Entries) :
    Prop where
  headerDecoded : lib.decode (decodeBase64url headerB64) = .ok header
  headerEntries : header.entries = .ok hs
  payloadDecoded : lib.decode (decodeBase64url payloadB64) = .ok payload
  payloadEntries : payload.entries = .ok es
  kid : (fetch hs "kid").isDefined = true
  signature : checkSignature lib source (fetch hs "kid").text (headerB64 ++ 46 :: payloadB64)
    (decodeBase64url signatureB64) = .ok ()
  times : checkTimes s.now s.clockSkew es = .ok ()
  aud : checkAud s.aud (fillAzp es) = .ok ()
  azp : checkAzp s.azp (fillAzp es) = .ok ()
  iss : checkIss s.iss (fillAzp es) = .ok ()

theorem parts_eq_ok {token a b c : PerlStr} :
    parts token = .ok (a, b, c) ↔ splitDots token = [a, b, c] := by
  unfold parts
  split
  · rename_i h
    simp [h]
  · rename_i h
    simp only [reduceCtorEq, false_iff]
    exact h a b c

theorem keyId_eq_ok {hs : Entries} {kid : PerlStr} :
    keyId hs = .ok kid ↔ (fetch hs "kid").isDefined = true ∧ (fetch hs "kid").text = kid := by
  unfold keyId
  split
  · rename_i h
    simp [h]
  · rename_i h
    simp [h]

theorem verifyWith_eq_ok {lib : Library K} {source : Replies K} {s : Settings} {token : PerlStr}
    {p : Entries} :
    verifyWith lib source s token = .ok p ↔
      ∃ a b c, splitDots token = [a, b, c] ∧
        ∃ header payload hs es,
          Passes lib source s a b c header payload hs es ∧ p = fillAzp es := by
  simp only [verifyWith, bind_eq_ok, decodePart, mapError_eq_ok, keyId_eq_ok, pure_eq_ok,
    Except.ok.injEq]
  constructor
  · rintro ⟨⟨a, b, c⟩, hparts, header, hheader, payload, hpayload, hs, hhs, kid, ⟨hkid, rfl⟩, ⟨⟩,
      hsignature, es, hes, ⟨⟩, htimes, ⟨⟩, haud, ⟨⟩, hazp, ⟨⟩, hiss, rfl⟩
    exact ⟨a, b, c, parts_eq_ok.mp hparts, header, payload, hs, es,
      ⟨hheader, hhs, hpayload, hes, hkid, hsignature, htimes, haud, hazp, hiss⟩, rfl⟩
  · rintro ⟨a, b, c, hparts, header, payload, hs, es, h, rfl⟩
    exact ⟨(a, b, c), parts_eq_ok.mpr hparts, header, h.headerDecoded, payload, h.payloadDecoded,
      hs, h.headerEntries, _, ⟨h.kid, rfl⟩, (), h.signature, es, h.payloadEntries, (), h.times, (),
      h.aud, (), h.azp, (), h.iss, rfl⟩

theorem verify_eq_ok {lib : Library K} {time : ℚ} {self : Verifier K} {options : Options K}
    {token : PerlStr} {p : Entries} :
    verify lib time self token options = .ok p ↔
      ∃ source, (options.keySource <|> self.keySource) = some source ∧
        verifyWith lib source (options.settings self time) token = .ok p := by
  unfold verify
  split
  · rename_i h
    simp [h]
  · rename_i source h
    simp [h]

/-- A source that answers with array references. -/
def arrays (current refreshed : List (KeyInfo K)) : Replies K :=
  ⟨.ok (.arrayRef current), .ok (.arrayRef refreshed)⟩

theorem checkSignature_arrays {lib : Library K} {current refreshed : List (KeyInfo K)}
    {kid message signature : PerlStr} :
    checkSignature lib (arrays current refreshed) kid message signature = .ok () ↔
      ∃ key, (key ∈ current ∨ key ∈ refreshed) ∧ signs lib kid message signature key = true := by
  have hany : ∀ ks : List (KeyInfo K),
      verifyWithKeys lib kid message signature (.arrayRef ks) =
        .ok (ks.any (signs lib kid message signature)) := fun ks => rfl
  simp only [checkSignature, arrays, ok_bind, hany]
  cases hcurrent : current.any (signs lib kid message signature) with
  | true =>
      obtain ⟨key, hkey, hsigns⟩ := List.any_eq_true.mp hcurrent
      exact iff_of_true rfl ⟨key, .inl hkey, hsigns⟩
  | false =>
      cases hrefreshed : refreshed.any (signs lib kid message signature) with
      | true =>
          obtain ⟨key, hkey, hsigns⟩ := List.any_eq_true.mp hrefreshed
          exact iff_of_true rfl ⟨key, .inr hkey, hsigns⟩
      | false =>
          rw [List.any_eq_false] at hcurrent hrefreshed
          refine iff_of_false nofun ?_
          rintro ⟨key, hkey | hkey, hsigns⟩
          · exact hcurrent key hkey hsigns
          · exact hrefreshed key hkey hsigns

theorem claimIs_eq_false {payload : Entries} {name : String} {test : FloatVal → Bool} :
    claimIs payload name test = false ↔
      ∀ v ∈ Assoc.find payload (ps name), test v.number = false := by
  unfold claimIs
  cases Assoc.find payload (ps name) with
  | none => simp
  | some v => simp

theorem checkTimes_eq_ok {now clockSkew : ℚ} {payload : Entries} :
    checkTimes now clockSkew payload = .ok () ↔
      (claimIs payload "exp" fun t => t.lt (.fin (now - clockSkew))) = false ∧
      (claimIs payload "nbf" fun t => FloatVal.lt (.fin (now + clockSkew)) t) = false ∧
      (claimIs payload "iat" fun t => FloatVal.lt (.fin (now + clockSkew)) t) = false := by
  unfold checkTimes
  split
  · rename_i h
    simp [h]
  · split
    · rename_i h
      simp [h]
    · split
      · rename_i h
        simp [h]
      · rename_i hexp hnbf hiat
        simp [hexp, hnbf, hiat]

theorem checkClaim_eq_ok {expected : Option Expected} {values : List JsonValue}
    {mismatch : PerlStr} :
    checkClaim expected values mismatch = .ok () ↔
      ∀ e ∈ expected, ∃ v ∈ values, v.text ∈ e.values := by
  cases expected with
  | none => simp [checkClaim]
  | some e =>
      simp only [checkClaim, Option.mem_some_iff, forall_eq']
      split
      · rename_i h
        simpa using h
      · rename_i h
        simpa using h

/-! ### A library to try things on -/

/-- Three JSON texts, and a key whose signature is always `sig`. -/
def sampleLibrary : Library Unit where
  decode s :=
    if s = ps "null" then .ok .undef
    else if s = ps "\x7b\x7d" then .ok (.hash 1 [])
    else if s = ps "\x7b\"kid\":\"k\"\x7d" then .ok (.hash 2 [(ps "kid", .str (ps "k"))])
    else .error (ps "malformed JSON string")
  verifySignature _ _ signature := signature = ps "sig"

/-- The key, under the id `k`. -/
def sampleKeys : List (KeyInfo Unit) := [⟨some (ps "k"), (), none⟩]

end GooglePerl.Auth
