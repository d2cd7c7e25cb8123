import GooglePerl.Auth.Verifier

/-!
The verifier with an `AggregateKeySource`.

The verifier asks for the keys where one value is wanted, and an aggregate returns an
array there, so that what arrives is a number: how many sources, down to the last nested
one, the aggregate is made of. Following it as a reference dies, whatever the token.
-/

namespace GooglePerl.Auth

open GooglePerl.Lib
open GooglePerl.Protobuf (PerlStr ps Die)

variable {K : Type}

namespace KeySource

mutual

/-- The static and HTTP sources that a source is made of. -/
def constituents : KeySource K → List (KeySource K)
  | .static keys => [.static keys]
  | .http source next => [.http source next]
  | .aggregate sources => constituentsOf sources

def constituentsOf : List (KeySource K) → List (KeySource K)
  | [] => []
  | s :: sources => s.constituents ++ constituentsOf sources

end

mutual

theorem length_currentList :
    ∀ s : KeySource K, s.currentList.length = s.constituents.length
  | .static _ | .http _ _ => rfl
  | .aggregate sources => length_currentLists sources

/-- Each constituent adds one array reference. -/
theorem length_currentLists :
    ∀ sources : List (KeySource K), (currentLists sources).length = (constituentsOf sources).length
  | [] => rfl
  | s :: sources => by
      rw [currentLists, constituentsOf, List.length_append, List.length_append,
        length_currentList s, length_currentLists sources]

end

mutual

theorem length_constituents_refresh :
    ∀ s : KeySource K, s.refresh.2.constituents.length = s.constituents.length
  | .static _ | .http _ _ => rfl
  | .aggregate sources => length_constituentsOf_refreshAll sources

/-- A refresh renews the constituents and keeps their number, also when it dies. -/
theorem length_constituentsOf_refreshAll :
    ∀ sources : List (KeySource K),
      (constituentsOf (refreshAll sources).2).length = (constituentsOf sources).length
  | [] => rfl
  | s :: sources => by
      have hs := length_constituents_refresh s
      have hsources := length_constituentsOf_refreshAll sources
      rw [refreshAll]
      split
      · rename_i why s' hrefresh
        rw [hrefresh] at hs
        simp only [constituentsOf, List.length_append, hs]
      · rename_i s' hrefresh
        rw [hrefresh] at hs
        simp only [constituentsOf, List.length_append, hs, hsources]

end

theorem currentKeys_aggregate (sources : List (KeySource K)) :
    (aggregate sources).currentKeys = .number (constituentsOf sources).length := by
  rw [currentKeys, length_currentLists]

theorem refreshKeys_aggregate {sources : List (KeySource K)} {r : Reply K}
    (h : (aggregate sources).refreshKeys = .ok r) :
    r = .number (constituentsOf sources).length := by
  obtain ⟨-, -, rfl⟩ := map_eq_ok.mp h
  rw [refresh, currentKeys_aggregate, length_constituentsOf_refreshAll]

end KeySource

/-- A source that answers with a number is of no use. -/
theorem checkSignature_number {lib : Library K} {source : Replies K} {n : ℕ}
    (h : source.currentKeys = .ok (.number n)) (kid message signature : PerlStr) :
    checkSignature lib source kid message signature = .error (.fault .notReference) := by
  rw [checkSignature, h]
  rfl

/-- An aggregate delivers the keys of its constituents in order, and the verifier accepts
with it what it accepts with one of them. -/
structure ActsAsUnion (lib : Library K) (time : ℚ) (verifier : Verifier K)
    (options : Options K) (sources : List (KeySource K)) (token : PerlStr) : Prop where
  currentKeys : (KeySource.aggregate sources).currentKeys =
    .arrayRef (KeySource.currentLists sources).flatten
  refreshKeys : ∀ after, KeySource.refreshAll sources = (.ok (), after) →
    (KeySource.aggregate sources).refreshKeys =
      .ok (.arrayRef (KeySource.currentLists after).flatten)
  accepts :
    (∃ p, verify lib time verifier token
        { options with keySource := some (KeySource.aggregate sources).replies } = .ok p) ↔
      ∃ s ∈ KeySource.constituentsOf sources, ∃ p, verify lib time verifier token
        { options with keySource := some s.replies } = .ok p

/-- Whatever the sources and the token: the verifier is given numbers for keys, it never
returns, and nothing of the union is there. -/
theorem not_actsAsUnion (lib : Library K) (time : ℚ) (verifier : Verifier K) (options : Options K)
    (sources : List (KeySource K)) (token : PerlStr) :
    (KeySource.aggregate sources).currentKeys = .number (KeySource.constituentsOf sources).length ∧
    (∀ r, (KeySource.aggregate sources).refreshKeys = .ok r →
      r = .number (KeySource.constituentsOf sources).length) ∧
    (∀ p, verify lib time verifier token
      { options with keySource := some (KeySource.aggregate sources).replies } ≠ .ok p) ∧
    ¬ ActsAsUnion lib time verifier options sources token := by
  have hcurrent := KeySource.currentKeys_aggregate sources
  refine ⟨hcurrent, fun r => KeySource.refreshKeys_aggregate, ?_, ?_⟩
  · intro p hp
    obtain ⟨source, hsource, hp⟩ := verify_eq_ok.mp hp
    obtain rfl := Option.some.inj hsource
    obtain ⟨a, b, c, -, header, payload, hs, es, hpasses, -⟩ := verifyWith_eq_ok.mp hp
    have hsignature := hpasses.signature
    rw [checkSignature_number (congrArg Except.ok hcurrent)] at hsignature
    cases hsignature
  · intro h
    cases hcurrent.symm.trans h.currentKeys

/-- A token that is accepted with a static source dies with the aggregate of it. -/
theorem actsAsUnion_fails :
    verify sampleLibrary 0 {} (ps "eyJraWQiOiJrIn0.e30.c2ln")
        { keySource := some (KeySource.static sampleKeys).replies } = .ok [] ∧
    verify sampleLibrary 0 {} (ps "eyJraWQiOiJrIn0.e30.c2ln")
        { keySource := some (KeySource.aggregate [.static sampleKeys]).replies } =
      .error (.fault .notReference) ∧
    ¬ ActsAsUnion sampleLibrary 0 {} {} [.static sampleKeys] (ps "eyJraWQiOiJrIn0.e30.c2ln") := by
  refine ⟨rfl, rfl, ?_⟩
  intro h
  obtain ⟨p, hp⟩ := h.accepts.mpr ⟨.static sampleKeys, List.mem_singleton_self _, [], rfl⟩
  cases hp

end GooglePerl.Auth
