import GooglePerl.Auth.HttpKeys
import Mathlib.Data.List.Nodup

/-!
`KeyInfo::from_jwk`, `from_jwk_set` and the constructors of `StaticKeySource`, on a heap of
`KeyInfo` objects.

On the class, `from_jwk` fills a new object; on an object it fills that object. A set read
through one object is that object over and over (`fromJwks_object`), and `StaticKeySource`
reads every set so.
-/

namespace GooglePerl.Auth.JwkSets

open GooglePerl.Lib
open GooglePerl.Protobuf (PerlStr ps Die)

variable {P : Type}

/-! ### The constructors -/

/-- The `KeyInfo` objects, by their references. -/
abbrev Heap (P : Type) := List (KeyInfo (Option P))

/-- What a method is called on. -/
inductive Receiver where
  | package
  | object (r : ℕ)

/-- `$class->new()` -/
def newKeyInfo (heap : Heap P) : ℕ × Heap P := (heap.length, heap ++ [⟨none, none, none⟩])

/-- `ref $self ? $self : $self->new()` -/
def Receiver.instance : Receiver → Heap P → ℕ × Heap P
  | .package, heap => newKeyInfo heap
  | .object r, heap => (r, heap)

section

variable (loaders : KeyLoaders P) (decode : PerlStr → Except PerlStr JsonValue)

/-- `from_jwk`: nothing is written before the key is there. -/
def fromJwk (self : Receiver) (jwk : JsonValue) (heap : Heap P) : Except Die (ℕ × Heap P) := do
  let info ← Auth.fromJwk loaders decode jwk
  return ((self.instance heap).1, (self.instance heap).2.set (self.instance heap).1 info)

/-- `map { $self->from_jwk($_) }` -/
def fromJwks (self : Receiver) : List JsonValue → Heap P → Except Die (List ℕ × Heap P)
  | [], heap => .ok ([], heap)
  | jwk :: jwks, heap => do
      let made ← fromJwk loaders decode self jwk heap
      let rest ← fromJwks self jwks made.2
      return (made.1 :: rest.1, rest.2)

/-- `from_jwk_set` -/
def fromJwkSet (self : Receiver) (jwkSet : JsonValue) (heap : Heap P) :
    Except Die (List ℕ × Heap P) := do
  if !jwkSet.isTrue then .error (.croak (ps "jwk_set is a required argument"))
  else
    let set ← (← ensureJsonParsed decode jwkSet).entries
    match Assoc.find set (ps "keys") with
    | some (.array _ jwks) => fromJwks loaders decode self jwks heap
    | _ => .error (.croak (ps "No keys found in jwk set"))

end

/-- What a caller gets hold of. -/
inductive Returned where
  | keyInfo (r : ℕ)
  | arrayRef (rs : List ℕ)
  | keySource (rs : List ℕ)

/-- `$returned->current_keys` -/
def Returned.currentKeys : Returned → Except Die (List ℕ)
  | .keySource rs => .ok rs
  | .keyInfo _ | .arrayRef _ => .error (.fault (.noMethod "current_keys"))

namespace StaticKeySource

variable (loaders : KeyLoaders P) (decode : PerlStr → Except PerlStr JsonValue)

/-- `StaticKeySource::from_jwk` -/
def fromJwk (jwk : JsonValue) (heap : Heap P) : Except Die (Returned × Heap P) := do
  let made ← JwkSets.fromJwk loaders decode (.object (newKeyInfo heap).1) jwk (newKeyInfo heap).2
  return (.keyInfo made.1, made.2)

/-- `StaticKeySource::from_jwk_set` -/
def fromJwkSet (jwkSet : JsonValue) (heap : Heap P) : Except Die (Returned × Heap P) := do
  let made ← JwkSets.fromJwkSet loaders decode (.object (newKeyInfo heap).1) jwkSet
    (newKeyInfo heap).2
  return (.arrayRef made.1, made.2)

end StaticKeySource

/-! ### What a JWK says -/

section

variable (loaders : KeyLoaders P) (decode : PerlStr → Except PerlStr JsonValue)

/-- The hash that an argument is, or that its text spells. -/
def Spells (input : JsonValue) (entries : Entries) : Prop :=
  (ensureJsonParsed decode input >>= JsonValue.entries) = .ok entries

/-- The public key of a JWK. -/
def PublicKey (jwk : Entries) (key : P) : Prop :=
  ((fetch jwk "kty").text = ps "RSA" ∧
      loaders.loadRsaPubkey (decodeBase64url (fetch jwk "n").text)
        (decodeBase64url (fetch jwk "e").text) = some key) ∨
    (fetch jwk "kty").text = ps "EC" ∧
      ∃ curve, Assoc.find curveNameMap (fetch jwk "crv").text = some curve ∧
        loaders.loadEcPubkey curve (decodeBase64url (fetch jwk "x").text)
          (decodeBase64url (fetch jwk "y").text) = some key

/-- An entry with the kid, the algorithm and the public key of a JWK. -/
def OwnEntry (input : JsonValue) (info : KeyInfo (Option P)) : Prop :=
  ∃ jwk key, Spells decode input jwk ∧ PublicKey loaders jwk key ∧
    info = ⟨(fetch jwk "kid").optionText, some key, (fetch jwk "alg").optionText⟩

/-- A JWK set of RSA and EC keys that OpenSSL loads. -/
structure IsJwkSet (input : JsonValue) (jwks : List JsonValue) : Prop where
  spells : ∃ set address, Spells decode input set ∧
    Assoc.find set (ps "keys") = some (.array address jwks)
  keys : ∀ jwk ∈ jwks, ∃ info, OwnEntry loaders decode jwk info

/-- A different object for each JWK, with what that JWK says. -/
def Yields (jwks : List JsonValue) (rs : List ℕ) (heap : Heap P) : Prop :=
  rs.Nodup ∧ List.Forall₂ (fun jwk r => ∃ info, heap[r]? = some info ∧
    OwnEntry loaders decode jwk info) jwks rs

/-- `from_jwk_set` gives each JWK its own entry. -/
def EachOwn (self : Receiver) (input : JsonValue) (jwks : List JsonValue) (heap : Heap P) : Prop :=
  ∃ rs heap', fromJwkSet loaders decode self input heap = .ok (rs, heap') ∧
    Yields loaders decode jwks rs heap'

/-- What a constructor of `StaticKeySource` returns is a source of these entries. -/
def IsSourceOf (made : Except Die (Returned × Heap P)) (jwks : List JsonValue) : Prop :=
  ∃ returned heap rs, made = .ok (returned, heap) ∧ returned.currentKeys = .ok rs ∧
    Yields loaders decode jwks rs heap

end

variable {loaders : KeyLoaders P} {decode : PerlStr → Except PerlStr JsonValue}
  {input jwk : JsonValue} {jwks : List JsonValue} {heap : Heap P}

/-! ### One JWK -/

theorem fromJwk_of_ownEntry {info : KeyInfo (Option P)} (h : OwnEntry loaders decode jwk info) :
    Auth.fromJwk loaders decode jwk = .ok info := by
  obtain ⟨entries, key, hspells, hkey, rfl⟩ := h
  obtain ⟨v, hparsed, hentries⟩ := bind_eq_ok.mp hspells
  have hne : ps "EC" ≠ ps "RSA" := by decide
  rw [Auth.fromJwk, hparsed, ok_bind, hentries, ok_bind]
  rcases hkey with ⟨hkty, hload⟩ | ⟨hkty, curve, hcurve, hload⟩
  · simp [hkty, extractRsaKey, hload]
  · simp [hkty, hne, extractEcKey, hcurve, hload]

theorem mapM_fromJwk (h : ∀ jwk ∈ jwks, ∃ info, OwnEntry loaders decode jwk info) :
    ∃ infos, jwks.mapM (Auth.fromJwk loaders decode) = .ok infos ∧
      List.Forall₂ (OwnEntry loaders decode) jwks infos := by
  induction jwks with
  | nil => exact ⟨[], rfl, .nil⟩
  | cons jwk jwks ih =>
      obtain ⟨info, hinfo⟩ := h jwk List.mem_cons_self
      obtain ⟨infos, hinfos, hall⟩ := ih fun j hj => h j (List.mem_cons_of_mem _ hj)
      exact ⟨info :: infos, mapM_ok_cons (fromJwk_of_ownEntry hinfo) hinfos, .cons hinfo hall⟩

/-- The class: a new object. -/
theorem fromJwk_package {info : KeyInfo (Option P)} (h : OwnEntry loaders decode jwk info)
    (heap : Heap P) :
    fromJwk loaders decode .package jwk heap = .ok (heap.length, heap ++ [info]) := by
  rw [fromJwk, fromJwk_of_ownEntry h, ok_bind]
  simp [Receiver.instance, newKeyInfo]

/-- An object: itself. -/
theorem fromJwk_object {info : KeyInfo (Option P)} (h : OwnEntry loaders decode jwk info) (r : ℕ)
    (heap : Heap P) :
    fromJwk loaders decode (.object r) jwk heap = .ok (r, heap.set r info) := by
  rw [fromJwk, fromJwk_of_ownEntry h, ok_bind]
  rfl

/-! ### A set of JWKs -/

theorem fromJwks_package {infos : List (KeyInfo (Option P))}
    (h : List.Forall₂ (OwnEntry loaders decode) jwks infos) (heap : Heap P) :
    fromJwks loaders decode .package jwks heap =
      .ok (List.range' heap.length jwks.length, heap ++ infos) := by
  induction h generalizing heap with
  | nil => simp [fromJwks]
  | @cons jwk info jwks infos hjwk _ ih =>
      rw [fromJwks, fromJwk_package hjwk, ok_bind, ih]
      simp [List.range'_succ]

/-- Through one object, every entry is that object. -/
theorem fromJwks_object {infos : List (KeyInfo (Option P))}
    (h : List.Forall₂ (OwnEntry loaders decode) jwks infos) (r : ℕ) (heap : Heap P) :
    fromJwks loaders decode (.object r) jwks heap =
      .ok (List.replicate jwks.length r, infos.foldl (fun heap info => heap.set r info) heap) := by
  induction h generalizing heap with
  | nil => rfl
  | @cons jwk info jwks infos hjwk _ ih =>
      rw [fromJwks, fromJwk_object hjwk, ok_bind, ih]
      rfl

theorem fromJwkSet_eq (h : IsJwkSet loaders decode input jwks) (self : Receiver) (heap : Heap P) :
    fromJwkSet loaders decode self input heap = fromJwks loaders decode self jwks heap := by
  obtain ⟨set, address, hspells, hkeys⟩ := h.spells
  obtain ⟨v, hparsed, hentries⟩ := bind_eq_ok.mp hspells
  have htrue : input.isTrue = true := by
    by_contra hne
    have hfalse : input.isTrue = false := by simpa using hne
    simp only [ensureJsonParsed, hfalse, Bool.not_false, if_true] at hparsed
    cases hparsed
  rw [fromJwkSet, hparsed, ok_bind, hentries, ok_bind, hkeys]
  simp [htrue]

theorem yields_package (h : ∀ jwk ∈ jwks, ∃ info, OwnEntry loaders decode jwk info)
    (heap : Heap P) :
    ∃ rs heap', fromJwks loaders decode .package jwks heap = .ok (rs, heap') ∧
      Yields loaders decode jwks rs heap' := by
  obtain ⟨infos, -, hall⟩ := mapM_fromJwk h
  refine ⟨_, _, fromJwks_package hall heap, List.nodup_range', ?_⟩
  have hplace : ∀ before : Heap P, List.Forall₂ (fun jwk r => ∃ info,
      (before ++ infos)[r]? = some info ∧ OwnEntry loaders decode jwk info) jwks
      (List.range' before.length jwks.length) := by
    clear h
    induction hall with
    | nil => exact fun _ => .nil
    | @cons jwk info jwks infos hjwk _ ih =>
        intro before
        have htail := ih (before ++ [info])
        rw [List.length_append, List.append_assoc] at htail
        exact .cons ⟨info, by simp, hjwk⟩ htail
  exact hplace heap

theorem yields_object_iff (h : ∀ jwk ∈ jwks, ∃ info, OwnEntry loaders decode jwk info)
    {r : ℕ} (hr : r < heap.length) :
    (∃ rs heap', fromJwks loaders decode (.object r) jwks heap = .ok (rs, heap') ∧
      Yields loaders decode jwks rs heap') ↔ jwks.length ≤ 1 := by
  obtain ⟨infos, -, hall⟩ := mapM_fromJwk h
  rw [fromJwks_object hall]
  constructor
  · rintro ⟨rs, heap', hmade, hnodup, -⟩
    obtain ⟨rfl, rfl⟩ := Prod.ext_iff.mp (Except.ok.inj hmade)
    exact List.nodup_replicate.mp hnodup
  · intro hlen
    refine ⟨_, _, rfl, List.nodup_replicate.mpr hlen, ?_⟩
    cases hall with
    | nil => exact .nil
    | @cons jwk info jwks infos hjwk hrest =>
        obtain rfl : jwks = [] := by simpa using hlen
        cases hrest
        exact .cons ⟨info, by simp [hr], hjwk⟩ .nil

/-! ### The three ways -/

/-- All that a set should give: on the class, on any object, and from `StaticKeySource`, which
should moreover return key sources. -/
structure EveryWay (loaders : KeyLoaders P) (decode : PerlStr → Except PerlStr JsonValue)
    (input : JsonValue) (jwks : List JsonValue) (heap : Heap P) : Prop where
  package : EachOwn loaders decode .package input jwks heap
  object : ∀ r < heap.length, EachOwn loaders decode (.object r) input jwks heap
  staticSet : IsSourceOf loaders decode (StaticKeySource.fromJwkSet loaders decode input heap) jwks
  staticOne : ∀ jwk ∈ jwks,
    IsSourceOf loaders decode (StaticKeySource.fromJwk loaders decode jwk heap) [jwk]

theorem not_isSourceOf_fromJwkSet (input : JsonValue) (jwks : List JsonValue) (heap : Heap P) :
    ¬ IsSourceOf loaders decode (StaticKeySource.fromJwkSet loaders decode input heap) jwks := by
  rintro ⟨returned, heap', rs, hmade, hkeys, -⟩
  obtain ⟨made, -, hreturned⟩ := bind_eq_ok.mp hmade
  obtain ⟨rfl, -⟩ := Prod.ext_iff.mp (Except.ok.inj hreturned)
  cases hkeys

theorem not_isSourceOf_fromJwk (jwk : JsonValue) (jwks : List JsonValue) (heap : Heap P) :
    ¬ IsSourceOf loaders decode (StaticKeySource.fromJwk loaders decode jwk heap) jwks := by
  rintro ⟨returned, heap', rs, hmade, hkeys, -⟩
  obtain ⟨made, -, hreturned⟩ := bind_eq_ok.mp hmade
  obtain ⟨rfl, -⟩ := Prod.ext_iff.mp (Except.ok.inj hreturned)
  cases hkeys

/-- The set that `StaticKeySource` reads through its own object. -/
def StaticEntries (loaders : KeyLoaders P) (decode : PerlStr → Except PerlStr JsonValue)
    (input : JsonValue) (jwks : List JsonValue) (heap : Heap P) : Prop :=
  ∃ rs heap', StaticKeySource.fromJwkSet loaders decode input heap = .ok (.arrayRef rs, heap') ∧
    Yields loaders decode jwks rs heap'

theorem staticEntries_iff (h : IsJwkSet loaders decode input jwks) (heap : Heap P) :
    StaticEntries loaders decode input jwks heap ↔ jwks.length ≤ 1 := by
  have hroom : heap.length < (newKeyInfo heap).2.length := by simp [newKeyInfo]
  rw [← yields_object_iff h.keys hroom]
  constructor
  · rintro ⟨rs, heap', hmade, hyields⟩
    obtain ⟨made, hset, hreturned⟩ := bind_eq_ok.mp hmade
    obtain ⟨harray, rfl⟩ := Prod.ext_iff.mp (Except.ok.inj hreturned)
    obtain rfl := Returned.arrayRef.inj harray
    rw [fromJwkSet_eq h] at hset
    exact ⟨made.1, made.2, hset, hyields⟩
  · rintro ⟨rs, heap', hmade, hyields⟩
    refine ⟨rs, heap', ?_, hyields⟩
    rw [StaticKeySource.fromJwkSet, fromJwkSet_eq h]
    show (fromJwks loaders decode (.object heap.length) jwks (newKeyInfo heap).2 >>= _) = _
    rw [hmade]
    rfl

/-- A set is never read in every way as it should be. On the class each JWK gets its own
entry; on an object, and in `StaticKeySource`, only a set of at most one key does, and what
`StaticKeySource` returns is no key source. -/
theorem everyWay_iff (h : IsJwkSet loaders decode input jwks) (heap : Heap P) :
    ¬ EveryWay loaders decode input jwks heap ∧
    EachOwn loaders decode .package input jwks heap ∧
    (∀ r < heap.length, EachOwn loaders decode (.object r) input jwks heap ↔ jwks.length ≤ 1) ∧
    (StaticEntries loaders decode input jwks heap ↔ jwks.length ≤ 1) := by
  refine ⟨fun hall => not_isSourceOf_fromJwkSet input jwks heap hall.staticSet, ?_,
    fun r hr => ?_, staticEntries_iff h heap⟩
  · rw [EachOwn, fromJwkSet_eq h]
    exact yields_package h.keys heap
  · rw [EachOwn, fromJwkSet_eq h]
    exact yields_object_iff h.keys hr

/-! ### Two keys -/

/-- Loaders for which an RSA key is its modulus and an EC key its first coordinate. -/
def plainLoaders : KeyLoaders PerlStr where
  loadPubkeyFromX509Cert _ := none
  loadRsaPubkey n _ := some n
  loadEcPubkey _ x _ := some x

def noDecoder (_ : PerlStr) : Except PerlStr JsonValue := .error []

/-- A JWK with kid `k1` and one with kid `k2`. -/
def twoJwks : List JsonValue :=
  [.hash 1 [(ps "kty", .str (ps "RSA")), (ps "kid", .str (ps "k1")), (ps "n", .str (ps "AQ")),
      (ps "e", .str (ps "Aw"))],
    .hash 2 [(ps "kty", .str (ps "EC")), (ps "kid", .str (ps "k2")), (ps "crv", .str (ps "P-256")),
      (ps "x", .str (ps "Ag")), (ps "y", .str (ps "BA"))]]

def twoJwkSet : JsonValue := .hash 3 [(ps "keys", .array 4 twoJwks)]

theorem twoJwkSet_isJwkSet : IsJwkSet plainLoaders noDecoder twoJwkSet twoJwks where
  spells := ⟨_, 4, rfl, rfl⟩
  keys := by
    intro jwk hjwk
    simp only [twoJwks, List.mem_cons, List.not_mem_nil, or_false] at hjwk
    rcases hjwk with rfl | rfl
    · exact ⟨_, _, [1], rfl, .inl ⟨rfl, by decide⟩, rfl⟩
    · exact ⟨_, _, [2], rfl, .inr ⟨rfl, _, rfl, by decide⟩, rfl⟩

theorem everyWay_twoJwkSet :
    ¬ EveryWay plainLoaders noDecoder twoJwkSet twoJwks [] ∧
    EachOwn plainLoaders noDecoder .package twoJwkSet twoJwks [] ∧
    (∀ r < ([] : Heap PerlStr).length,
      EachOwn plainLoaders noDecoder (.object r) twoJwkSet twoJwks [] ↔ twoJwks.length ≤ 1) ∧
    (StaticEntries plainLoaders noDecoder twoJwkSet twoJwks [] ↔ twoJwks.length ≤ 1) :=
  everyWay_iff twoJwkSet_isJwkSet []

/-- Both entries are the object that the second JWK was read into. -/
theorem not_everyWay_twoJwkSet :
    IsJwkSet plainLoaders noDecoder twoJwkSet twoJwks ∧
    StaticKeySource.fromJwkSet plainLoaders noDecoder twoJwkSet [] =
      .ok (.arrayRef [0, 0], [⟨some (ps "k2"), some [2], none⟩]) ∧
    ¬ EveryWay plainLoaders noDecoder twoJwkSet twoJwks [] :=
  ⟨twoJwkSet_isJwkSet, rfl, fun hall => not_isSourceOf_fromJwkSet _ _ _ hall.staticSet⟩

end GooglePerl.Auth.JwkSets
