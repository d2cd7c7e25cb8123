import GooglePerl.Auth.Verifier

/-!
Which tokens the verifier accepts.

`ValidToken` says what a valid token is, with no word about the code. The method reads
more than that into a token: an absent claim is the empty string, a `null` payload is an
empty object, a text such as `nan` is a time that no bound excludes (`Slips`).
`accepts_iff` says that this is the whole difference.
-/

namespace GooglePerl.Auth

open GooglePerl.Lib
open GooglePerl.Protobuf (PerlStr ps Die)

variable {K : Type}

/-- Three non-empty segments. -/
structure Segments where
  header : PerlStr
  payload : PerlStr
  signature : PerlStr
  nonempty : ∀ segment ∈ [header, payload, signature], segment ≠ []
  noDot : ∀ segment ∈ [header, payload, signature], 46 ∉ segment

namespace Segments

def token (seg : Segments) : PerlStr := [46].intercalate [seg.header, seg.payload, seg.signature]

/-- What is signed. -/
def message (seg : Segments) : PerlStr := seg.header ++ 46 :: seg.payload

theorem splitDots_token (seg : Segments) :
    splitDots seg.token = [seg.header, seg.payload, seg.signature] := by
  exact splitDots_intercalate seg.noDot (seg.nonempty _ (by simp))

end Segments

/-! ### Valid tokens -/

/-- At least the bound; NaN is not. -/
def NotBelow (t : FloatVal) (bound : ℚ) : Prop := t ≠ .nan ∧ t.lt (.fin bound) = false

/-- At most the bound; NaN is not. -/
def NotAbove (t : FloatVal) (bound : ℚ) : Prop := t ≠ .nan ∧ FloatVal.lt (.fin bound) t = false

/-- A claim that is there and one of what is expected. -/
def JsonValue.Meets (v : JsonValue) (e : Expected) : Prop := v.isDefined = true ∧ v.text ∈ e.values

/-- A token that is valid: its header and its payload are objects, a key with the id that
the header names signed the first two segments, and the claims are as they should be. -/
structure ValidToken (lib : Library K) (s : Settings) (current refreshed : List (KeyInfo K))
    (seg : Segments) (hs es : Entries) : Prop where
  header : ∃ address, lib.decode (decodeBase64url seg.header) = .ok (.hash address hs)
  payload : ∃ address, lib.decode (decodeBase64url seg.payload) = .ok (.hash address es)
  kid : (fetch hs "kid").isDefined = true
  signature : ∃ key, (key ∈ current ∨ key ∈ refreshed) ∧ key.id = some (fetch hs "kid").text ∧
    lib.verifySignature key.key seg.message (decodeBase64url seg.signature) = true
  exp : ∀ v ∈ Assoc.find es (ps "exp"), NotBelow v.number (s.now - s.clockSkew)
  nbf : ∀ v ∈ Assoc.find es (ps "nbf"), NotAbove v.number (s.now + s.clockSkew)
  iat : ∀ v ∈ Assoc.find es (ps "iat"), NotAbove v.number (s.now + s.clockSkew)
  aud : ∀ e ∈ s.aud, ∃ v ∈ (fetch es "aud").elements, v.Meets e
  azp : ∀ e ∈ s.azp, ∃ v ∈ (fetch (fillAzp es) "azp").elements, v.Meets e
  iss : ∀ e ∈ s.iss, (fetch es "iss").Meets e

/-- `verify` returns the payload, its `azp` filled in, of a valid token, and dies on all
others. -/
def AcceptsExactlyValid (lib : Library K) (time : ℚ) (self : Verifier K) (options : Options K)
    (current refreshed : List (KeyInfo K)) (seg : Segments) : Prop :=
  ∀ p, verify lib time self seg.token options = .ok p ↔
    ∃ hs es, ValidToken lib (options.settings self time) current refreshed seg hs es ∧
      p = fillAzp es

/-! ### What the method reads into a token -/

/-- An expected claim that only what is not there meets, as an empty string. -/
def MetByNothing (expected : Option Expected) (values : List JsonValue) : Prop :=
  ∃ e ∈ expected, ∀ v ∈ values, v.text ∈ e.values → v.isDefined = false

/-- A `null` payload, a time that is not a number, a signature by a key that has no id
where the token's is empty, or an expected claim that is not there. -/
def Slips (lib : Library K) (s : Settings) (current refreshed : List (KeyInfo K))
    (seg : Segments) (payload : JsonValue) (hs es : Entries) : Prop :=
  payload = .undef ∨
  (∃ name ∈ ["exp", "nbf", "iat"], ∃ v ∈ Assoc.find es (ps name), v.number = .nan) ∨
  (∀ key, key ∈ current ∨ key ∈ refreshed →
    signs lib (fetch hs "kid").text seg.message (decodeBase64url seg.signature) key = true →
      key.id = none) ∨
  MetByNothing s.aud (fetch es "aud").elements ∨
  MetByNothing s.azp (fetch (fillAzp es) "azp").elements ∨
  MetByNothing s.iss [fetch es "iss"]

theorem fetch_fillAzp {es : Entries} {name : String} (h : ps name ≠ ps "azp") :
    fetch (fillAzp es) name = fetch es name := by
  unfold fillAzp
  split
  · split
    · rfl
    · rw [fetch, fetch, Assoc.find_store_of_ne _ _ h]
  · rfl

section Claims

variable {expected : Option Expected} {values : List JsonValue}

theorem exists_meets (hmet : ¬ MetByNothing expected values) :
    ∀ e ∈ expected, ∃ v ∈ values, v.Meets e := by
  intro e he
  by_contra hnone
  refine hmet ⟨e, he, fun v hv htext => ?_⟩
  by_contra hdefined
  exact hnone ⟨v, hv, Bool.eq_true_of_not_eq_false hdefined, htext⟩

theorem not_metByNothing (h : ∀ e ∈ expected, ∃ v ∈ values, v.Meets e) :
    ¬ MetByNothing expected values := by
  rintro ⟨e, he, hnothing⟩
  obtain ⟨v, hv, hdefined, htext⟩ := h e he
  rw [hnothing v hv htext] at hdefined
  cases hdefined

end Claims

/-- What decodes to entries is the object with them, or `null`. -/
theorem eq_hash_of_entries {v : JsonValue} {es : Entries} (h : v.entries = .ok es)
    (hv : v ≠ .undef) : ∃ address, v = .hash address es := by
  cases v with
  | undef => exact absurd rfl hv
  | hash address entries =>
      obtain rfl := Except.ok.inj h
      exact ⟨address, rfl⟩
  | bool b => cases h
  | num value text => cases h
  | str s => cases h
  | array address items => cases h

section Tokens

variable {lib : Library K} {s : Settings} {current refreshed : List (KeyInfo K)} {seg : Segments}
  {header payload : JsonValue} {hs es : Entries}

/-- A header without an object has no `kid`. -/
theorem header_ne_undef (h : header.entries = .ok hs) (hkid : (fetch hs "kid").isDefined = true) :
    header ≠ .undef := by
  rintro rfl
  obtain rfl := Except.ok.inj h
  cases hkid

theorem validToken_of_passes
    (h : Passes lib (arrays current refreshed) s seg.header seg.payload seg.signature header payload
      hs es) (hslips : ¬ Slips lib s current refreshed seg payload hs es) :
    ValidToken lib s current refreshed seg hs es := by
  simp only [Slips, not_or] at hslips
  obtain ⟨hnull, hnan, hkey, haud, hazp, hiss⟩ := hslips
  obtain ⟨hexp, hnbf, hiat⟩ := checkTimes_eq_ok.mp h.times
  have hheader := header_ne_undef h.headerEntries h.kid
  obtain ⟨headerAt, rfl⟩ := eq_hash_of_entries h.headerEntries hheader
  obtain ⟨payloadAt, rfl⟩ := eq_hash_of_entries h.payloadEntries hnull
  have hnumber : ∀ name ∈ ["exp", "nbf", "iat"], ∀ v ∈ Assoc.find es (ps name), v.number ≠ .nan :=
    fun name hname v hv hv' => hnan ⟨name, hname, v, hv, hv'⟩
  refine ⟨⟨headerAt, h.headerDecoded⟩, ⟨payloadAt, h.payloadDecoded⟩, h.kid, ?_, ?_, ?_, ?_, ?_, ?_,
    ?_⟩
  · -- of the keys that sign, one has an id
    push Not at hkey
    obtain ⟨key, hmem, hsigns, hid⟩ := hkey
    simp only [signs, Bool.and_eq_true, beq_iff_eq] at hsigns
    obtain ⟨id, hid⟩ := Option.ne_none_iff_exists'.mp hid
    rw [hid, Option.getD_some] at hsigns
    exact ⟨key, hmem, by rw [hid, hsigns.1], hsigns.2⟩
  · intro v hv
    exact ⟨hnumber "exp" (by simp) v hv, claimIs_eq_false.mp hexp v hv⟩
  · intro v hv
    exact ⟨hnumber "nbf" (by simp) v hv, claimIs_eq_false.mp hnbf v hv⟩
  · intro v hv
    exact ⟨hnumber "iat" (by simp) v hv, claimIs_eq_false.mp hiat v hv⟩
  · exact exists_meets haud
  · exact exists_meets hazp
  · intro e he
    obtain ⟨v, hv, hmeets⟩ := exists_meets hiss e he
    obtain rfl := List.mem_singleton.mp hv
    exact hmeets

theorem ValidToken.passes (h : ValidToken lib s current refreshed seg hs es) :
    ∃ header payload, Passes lib (arrays current refreshed) s seg.header seg.payload seg.signature
      header payload hs es := by
  obtain ⟨headerAt, hheader⟩ := h.header
  obtain ⟨payloadAt, hpayload⟩ := h.payload
  obtain ⟨key, hmem, hid, hverify⟩ := h.signature
  refine ⟨_, _, hheader, rfl, hpayload, rfl, h.kid, ?_, ?_, ?_, ?_, ?_⟩
  · refine checkSignature_arrays.mpr ⟨key, hmem, ?_⟩
    simp only [signs, hid, Option.getD_some, beq_self_eq_true, Bool.true_and]
    exact hverify
  · exact checkTimes_eq_ok.mpr ⟨claimIs_eq_false.mpr fun v hv => (h.exp v hv).2,
      claimIs_eq_false.mpr fun v hv => (h.nbf v hv).2,
      claimIs_eq_false.mpr fun v hv => (h.iat v hv).2⟩
  · refine checkClaim_eq_ok.mpr fun e he => ?_
    obtain ⟨v, hv, hmeets⟩ := h.aud e he
    rw [fetch_fillAzp (by decide)]
    exact ⟨v, hv, hmeets.2⟩
  · refine checkClaim_eq_ok.mpr fun e he => ?_
    obtain ⟨v, hv, hmeets⟩ := h.azp e he
    exact ⟨v, hv, hmeets.2⟩
  · refine checkClaim_eq_ok.mpr fun e he => ?_
    rw [fetch_fillAzp (by decide)]
    exact ⟨_, List.mem_singleton_self _, (h.iss e he).2⟩

theorem ValidToken.not_slips (h : ValidToken lib s current refreshed seg hs es)
    (hpayload : lib.decode (decodeBase64url seg.payload) = .ok payload) :
    ¬ Slips lib s current refreshed seg payload hs es := by
  rintro (rfl | ⟨name, hname, v, hv, hnan⟩ | hkey | hmet | hmet | hmet)
  · obtain ⟨payloadAt, hhash⟩ := h.payload
    rw [hpayload] at hhash
    cases hhash
  · simp only [List.mem_cons, List.not_mem_nil, or_false] at hname
    rcases hname with rfl | rfl | rfl
    · exact (h.exp v hv).1 hnan
    · exact (h.nbf v hv).1 hnan
    · exact (h.iat v hv).1 hnan
  · obtain ⟨key, hmem, hid, hverify⟩ := h.signature
    have hnone := hkey key hmem (by simp [signs, hid, hverify])
    rw [hid] at hnone
    cases hnone
  · exact not_metByNothing h.aud hmet
  · exact not_metByNothing h.azp hmet
  · exact not_metByNothing (fun e he => ⟨_, List.mem_singleton_self _, h.iss e he⟩) hmet

end Tokens

/-- The method accepts exactly the valid tokens where no token that passes its checks
slips through them. -/
theorem accepts_iff (lib : Library K) (time : ℚ) (self : Verifier K) (options : Options K)
    (current refreshed : List (KeyInfo K))
    (hsource : (options.keySource <|> self.keySource) = some (arrays current refreshed))
    (seg : Segments) :
    AcceptsExactlyValid lib time self options current refreshed seg ↔
      ∀ header payload hs es,
        Passes lib (arrays current refreshed) (options.settings self time) seg.header seg.payload
          seg.signature header payload hs es →
        ¬ Slips lib (options.settings self time) current refreshed seg payload hs es := by
  have hverify : ∀ p, verify lib time self seg.token options = .ok p ↔
      ∃ header payload hs es,
        Passes lib (arrays current refreshed) (options.settings self time) seg.header seg.payload
          seg.signature header payload hs es ∧ p = fillAzp es := by
    intro p
    simp only [verify, hsource, verifyWith_eq_ok, seg.splitDots_token, List.cons.injEq, and_true]
    constructor
    · rintro ⟨_, _, _, ⟨rfl, rfl, rfl⟩, h⟩
      exact h
    · intro h
      exact ⟨_, _, _, ⟨rfl, rfl, rfl⟩, h⟩
  constructor
  · intro h header payload hs es hpasses
    obtain ⟨hs', es', hvalid, -⟩ := (h _).mp ((hverify _).mpr ⟨_, _, _, _, hpasses, rfl⟩)
    -- what was decoded is the same in both
    obtain ⟨headerAt, hheader⟩ := hvalid.header
    obtain ⟨payloadAt, hpayload⟩ := hvalid.payload
    obtain rfl := Except.ok.inj (hheader.symm.trans hpasses.headerDecoded)
    obtain rfl := Except.ok.inj (hpayload.symm.trans hpasses.payloadDecoded)
    obtain rfl := Except.ok.inj hpasses.headerEntries
    obtain rfl := Except.ok.inj hpasses.payloadEntries
    exact hvalid.not_slips hpayload
  · intro h p
    rw [hverify]
    constructor
    · rintro ⟨header, payload, hs, es, hpasses, rfl⟩
      exact ⟨hs, es, validToken_of_passes hpasses (h _ _ _ _ hpasses), rfl⟩
    · rintro ⟨hs, es, hvalid, rfl⟩
      obtain ⟨header, payload, hpasses⟩ := hvalid.passes
      exact ⟨header, payload, hs, es, hpasses, rfl⟩

/-- A token with an empty object as its payload, signed with the key `k`. -/
theorem accepts_of_empty_payload :
    AcceptsExactlyValid sampleLibrary 0 {} { keySource := some (arrays sampleKeys []) }
      sampleKeys []
      ⟨ps "eyJraWQiOiJrIn0", ps "e30", ps "c2ln", by decide, by decide⟩ := by
  refine (accepts_iff _ _ _ _ _ _ rfl _).mpr ?_
  intro header payload hs es h
  have hpayload : payload = .hash 1 [] := Except.ok.inj (h.payloadDecoded.symm.trans rfl)
  subst hpayload
  obtain rfl : [] = es := Except.ok.inj h.payloadEntries
  rintro (hnull | ⟨name, -, v, hv, -⟩ | hkey | ⟨e, he, -⟩ | ⟨e, he, -⟩ | ⟨e, he, -⟩)
  · cases hnull
  · cases hv
  · obtain ⟨key, hmem, hsigns⟩ := checkSignature_arrays.mp h.signature
    have hid := hkey key hmem hsigns
    rcases hmem with hmem | hmem
    · obtain rfl := List.mem_singleton.mp hmem
      cases hid
    · cases hmem
  · cases he
  · cases he
  · cases he

/-- The payload `null` is returned as an empty hash. -/
theorem accepts_null_payload :
    ¬ AcceptsExactlyValid sampleLibrary 0 {} { keySource := some (arrays sampleKeys []) }
      sampleKeys []
      ⟨ps "eyJraWQiOiJrIn0", ps "bnVsbA", ps "c2ln", by decide, by decide⟩ := by
  intro h
  obtain ⟨hs, es, hvalid, -⟩ := (h []).mp rfl
  obtain ⟨address, hpayload⟩ := hvalid.payload
  cases hpayload

end GooglePerl.Auth
