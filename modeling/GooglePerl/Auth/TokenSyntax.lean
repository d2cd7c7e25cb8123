import GooglePerl.Auth.Verifier

/-!
How an accepted token may be spelled.

A compact token has three segments over the base64url alphabet. The method splits with
`split`, which drops dots at the end, and decodes with `decode_base64`, which skips what
it does not know; so beside each token there are others that mean the same
(`verify_append_dots`, `verify_append_skipped`).
-/

namespace GooglePerl.Auth

open GooglePerl.Lib
open GooglePerl.Protobuf (PerlStr ps Die)

variable {K : Type}

/-! ### Compact tokens -/

/-- The alphabet of base64url. -/
def isBase64url (c : ℕ) : Bool :=
  (65 ≤ c && c ≤ 90) || (97 ≤ c && c ≤ 122) || (48 ≤ c && c ≤ 57) || c == 45 || c == 95

/-- A segment of a compact token. -/
def IsSegment (s : PerlStr) : Prop := s ≠ [] ∧ ∀ c ∈ s, isBase64url c = true

/-- Three segments, two dots. -/
def Compact (token : PerlStr) : Prop :=
  ∃ a b c, token = [46].intercalate [a, b, c] ∧ ∀ s ∈ [a, b, c], IsSegment s

theorem IsSegment.noDot {s : PerlStr} (h : IsSegment s) : 46 ∉ s := fun hdot =>
  absurd (h.2 46 hdot) (by decide)

/-- Whether a token is compact can be seen from its end and from its fields. -/
theorem compact_iff_of_splitDots {t a b c : PerlStr} (h : splitDots t = [a, b, c]) :
    Compact t ↔ t.getLast? ≠ some 46 ∧ ∀ s ∈ [a, b, c], IsSegment s := by
  constructor
  · rintro ⟨a', b', c', rfl, hsegments⟩
    have hc : IsSegment c' := hsegments c' (by simp)
    rw [splitDots_intercalate (fun s hs => (hsegments s hs).noDot) hc.1] at h
    rw [← h]
    refine ⟨?_, hsegments⟩
    intro hlast
    obtain ⟨init, x, hinit⟩ := (List.eq_nil_or_concat c').resolve_left hc.1
    have htoken : [46].intercalate [a', b', c'] = a' ++ 46 :: (b' ++ 46 :: init) ++ [x] := by
      simp [hinit, List.intercalate_cons_cons]
    rw [htoken, List.getLast?_concat, Option.some.injEq] at hlast
    exact hc.noDot (by simp [hinit, hlast])
  · rintro ⟨hlast, hsegments⟩
    exact ⟨a, b, c, (eq_intercalate_of_splitDots h hlast).1, hsegments⟩

/-- A token that passes the checks and is not compact: dots at its end, or an empty field
or one with characters outside the alphabet. -/
def Respelled (lib : Library K) (time : ℚ) (self : Verifier K) (options : Options K)
    (token : PerlStr) : Prop :=
  ∃ source, (options.keySource <|> self.keySource) = some source ∧
    ∃ a b c, splitDots token = [a, b, c] ∧
      (token.getLast? = some 46 ∨
        ∃ s ∈ [a, b, c], s = [] ∨ ∃ ch ∈ s, isBase64url ch = false) ∧
      ∃ header payload hs es,
        Passes lib source (options.settings self time) a b c header payload hs es

theorem isSegment_iff {s : PerlStr} :
    IsSegment s ↔ ¬ (s = [] ∨ ∃ ch ∈ s, isBase64url ch = false) := by
  simp [IsSegment]

/-! ### Other spellings -/

/-- A character that `_decode_base64url` skips, padding included. -/
def Skipped (c : ℕ) : Prop :=
  c ≠ 46 ∧ (base64Symbol (trUrl c) = none ∨ base64Symbol (trUrl c) = some .pad)

theorem decodeBase64url_eq (s : PerlStr) : decodeBase64url s = decodeBase64 (s.map trUrl) := by
  unfold decodeBase64url
  dsimp only
  split
  · rfl
  · refine decodeBase64_append (fun c hc => .inr ?_) _
    rw [List.eq_of_mem_replicate hc]
    rfl

theorem decodeBase64url_append_skipped {tail : PerlStr} (h : ∀ c ∈ tail, Skipped c) (s : PerlStr) :
    decodeBase64url (s ++ tail) = decodeBase64url s := by
  rw [decodeBase64url_eq, decodeBase64url_eq, List.map_append]
  refine decodeBase64_append (fun c hc => ?_) _
  obtain ⟨ch, hch, rfl⟩ := List.mem_map.mp hc
  exact (h ch hch).2

section Spellings

variable {lib : Library K} {time : ℚ} {self : Verifier K} {options : Options K} {t : PerlStr}
  {p : Entries}

theorem verify_append_dots (h : verify lib time self t options = .ok p) (n : ℕ) :
    verify lib time self (t ++ List.replicate n 46) options = .ok p := by
  obtain ⟨source, hsource, h⟩ := verify_eq_ok.mp h
  refine verify_eq_ok.mpr ⟨source, hsource, ?_⟩
  rw [verifyWith_eq_ok] at h ⊢
  rwa [splitDots, splitFields_append_replicate]

/-- The signature does not change by what is skipped at its end, and the rest is the
same. -/
theorem verify_append_skipped (h : verify lib time self t options = .ok p)
    (hlast : t.getLast? ≠ some 46) {tail : PerlStr} (htail : ∀ c ∈ tail, Skipped c) :
    verify lib time self (t ++ tail) options = .ok p := by
  obtain ⟨source, hsource, h⟩ := verify_eq_ok.mp h
  obtain ⟨a, b, c, hsplit, header, payload, hs, es, hpasses, rfl⟩ := verifyWith_eq_ok.mp h
  obtain ⟨rfl, hdots, hc⟩ := eq_intercalate_of_splitDots hsplit hlast
  refine verify_eq_ok.mpr ⟨source, hsource, verifyWith_eq_ok.mpr ?_⟩
  refine ⟨a, b, c ++ tail, ?_, header, payload, hs, es, ?_, rfl⟩
  · have htoken : [46].intercalate [a, b, c] ++ tail = [46].intercalate [a, b, c ++ tail] := by
      simp [List.intercalate_cons_cons]
    rw [htoken]
    refine splitDots_intercalate ?_ (by simp [hc])
    intro l hl
    simp only [List.mem_cons, List.not_mem_nil, or_false] at hl hdots
    rcases hl with rfl | rfl | rfl
    · exact hdots _ (.inl rfl)
    · exact hdots _ (.inr (.inl rfl))
    · rw [List.mem_append, not_or]
      exact ⟨hdots _ (.inr (.inr rfl)), fun hdot => (htail 46 hdot).1 rfl⟩
  · exact { hpasses with
      signature := by
        rw [decodeBase64url_append_skipped htail]
        exact hpasses.signature }

end Spellings

/-- An accepted token is compact exactly when it is not another spelling; and each accepted
token has other spellings that are accepted too. -/
theorem compact_iff (lib : Library K) (time : ℚ) (self : Verifier K) (options : Options K)
    (t : PerlStr) :
    (((∃ p, verify lib time self t options = .ok p) → Compact t) ↔
      ¬ Respelled lib time self options t) ∧
    ∀ p, verify lib time self t options = .ok p →
      (∀ n, verify lib time self (t ++ List.replicate n 46) options = .ok p) ∧
      (t.getLast? ≠ some 46 → ∀ tail, (∀ c ∈ tail, Skipped c) →
        verify lib time self (t ++ tail) options = .ok p) := by
  refine ⟨?_, fun p h => ⟨verify_append_dots h, fun hlast tail => verify_append_skipped h hlast⟩⟩
  constructor
  · rintro hcompact ⟨source, hsource, a, b, c, hsplit, hbad, header, payload, hs, es, hpasses⟩
    have haccepted : verifyWith lib source (options.settings self time) t = .ok (fillAzp es) :=
      verifyWith_eq_ok.mpr ⟨a, b, c, hsplit, header, payload, hs, es, hpasses, rfl⟩
    obtain ⟨hlast, hsegments⟩ := (compact_iff_of_splitDots hsplit).mp
      (hcompact ⟨_, verify_eq_ok.mpr ⟨source, hsource, haccepted⟩⟩)
    rcases hbad with hdot | ⟨s, hs, hbad⟩
    · exact hlast hdot
    · exact isSegment_iff.mp (hsegments s hs) hbad
  · rintro hspelled ⟨p, haccepted⟩
    obtain ⟨source, hsource, haccepted⟩ := verify_eq_ok.mp haccepted
    obtain ⟨a, b, c, hsplit, hpasses⟩ := verifyWith_eq_ok.mp haccepted
    obtain ⟨header, payload, hs, es, hpasses, -⟩ := hpasses
    refine (compact_iff_of_splitDots hsplit).mpr ⟨fun hdot => hspelled ?_, fun s hs => ?_⟩
    · exact ⟨source, hsource, a, b, c, hsplit, .inl hdot, _, _, _, _, hpasses⟩
    · refine isSegment_iff.mpr fun hbad => hspelled ?_
      exact ⟨source, hsource, a, b, c, hsplit, .inr ⟨s, hs, hbad⟩, _, _, _, _, hpasses⟩

/-- A dot at the end of a token, or a newline, is not noticed. -/
theorem compact_fails :
    ¬ ((∃ p, verify sampleLibrary 0 {} (ps "eyJraWQiOiJrIn0.e30.c2ln.")
        { keySource := some (arrays sampleKeys []) } = .ok p) →
      Compact (ps "eyJraWQiOiJrIn0.e30.c2ln.")) ∧
    ¬ ((∃ p, verify sampleLibrary 0 {} (ps "eyJraWQiOiJrIn0.e30.c2ln\n")
        { keySource := some (arrays sampleKeys []) } = .ok p) →
      Compact (ps "eyJraWQiOiJrIn0.e30.c2ln\n")) := by
  constructor
  · intro h
    have hsplit : splitDots (ps "eyJraWQiOiJrIn0.e30.c2ln.") =
        [ps "eyJraWQiOiJrIn0", ps "e30", ps "c2ln"] := by decide +kernel
    exact ((compact_iff_of_splitDots hsplit).mp (h ⟨[], rfl⟩)).1 (by decide)
  · intro h
    have hsplit : splitDots (ps "eyJraWQiOiJrIn0.e30.c2ln\n") =
        [ps "eyJraWQiOiJrIn0", ps "e30", ps "c2ln\n"] := by decide +kernel
    have hsegments := ((compact_iff_of_splitDots hsplit).mp (h ⟨[], rfl⟩)).2
    exact absurd ((hsegments (ps "c2ln\n") (by simp)).2 10 (by decide)) (by decide)

end GooglePerl.Auth
