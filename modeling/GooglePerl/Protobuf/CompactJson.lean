import GooglePerl.Lib.JsonText
import GooglePerl.Protobuf.Value

/-!
`to_json_compact`: the JSON text of a message with `s/\s+//g` run over all of it.

The text of the engine is not looked into, so blanks in strings and in keys are deleted with the
ones between tokens, and the compact text means the same exactly if there are none
(`keepsMeaning_iff`).
-/

namespace GooglePerl.Protobuf.CompactJson

open GooglePerl.Lib.JsonText

/-- `\s` in a string of characters. -/
def isSpace (c : ℕ) : Bool :=
  (9 ≤ c ∧ c ≤ 13) ∨ c = 0x20 ∨ c = 0x85 ∨ c = 0xA0 ∨ c = 0x1680 ∨ (0x2000 ≤ c ∧ c ≤ 0x200A) ∨
    c = 0x2028 ∨ c = 0x2029 ∨ c = 0x202F ∨ c = 0x205F ∨ c = 0x3000

/-- `s/\s+//g` -/
def deleteSpaces (s : PerlStr) : PerlStr := s.filter fun c => !isSpace c

section

variable {Msg : Type} (toJson : Msg → Option PerlStr)

/-- `to_json_compact`, with the encoder of the engine, which may croak. -/
def toJsonCompact (m : Msg) : Option PerlStr := (toJson m).map deleteSpaces

/-- The compact text of a message denotes what its text denotes, and differs from it only in
blanks between tokens. -/
def KeepsMeaning (m : Msg) : Prop :=
  ∀ text v, toJson m = some text → IsText text v →
    ∃ compact, toJsonCompact toJson m = some compact ∧ IsText compact v ∧
      significant compact = significant text

/-- There is nothing in quotes that `\s` matches. -/
def NoSpaceInStrings (m : Msg) : Prop :=
  ∀ text v, toJson m = some text → IsText text v →
    ∀ r ∈ literals (scan .outside text), ∀ c ∈ r, isSpace c = false

end

theorem isSpaces_isSpace : IsSpaces isSpace where
  blank c h := by
    simp only [isBlank, Bool.or_eq_true, beq_iff_eq] at h
    rcases h with ((rfl | rfl) | rfl) | rfl <;> decide
  ascii c hge hlt := by
    simp only [isSpace, decide_eq_false_iff_not]
    omega
  low c h := by
    simp only [isSpace, decide_eq_true_eq] at h
    omega

section

variable {Msg : Type} (toJson : Msg → Option PerlStr)

/-- The compact text of a message means the same exactly if there are no blanks in the strings of
its text. -/
theorem keepsMeaning_iff (m : Msg) : KeepsMeaning toJson m ↔ NoSpaceInStrings toJson m := by
  constructor
  · intro h text v htext hv
    obtain ⟨compact, hcompact, hden, -⟩ := h text v htext hv
    rw [toJsonCompact, htext, Option.map_some, Option.some.injEq] at hcompact
    subst hcompact
    exact (isText_deleted_iff isSpaces_isSpace hv).mp hden
  · intro h text v htext hv
    have hclean := h text v htext hv
    refine ⟨deleteSpaces text, by rw [toJsonCompact, htext, Option.map_some], ?_, ?_⟩
    · exact (isText_deleted_iff isSpaces_isSpace hv).mpr hclean
    · exact significant_deleted isSpaces_isSpace hv hclean

end

/-- The text of a message whose one field is a name, where the name needs no escapes. -/
def nameJson (name : PerlStr) : Option PerlStr :=
  some (ps "\x7b\"name\":\"" ++ name ++ ps "\"\x7d")

theorem isText_nameJson {name : PerlStr} (h : Chars name) :
    IsText (ps "\x7b\"name\":\"" ++ name ++ ps "\"\x7d")
      (.obj [(ps "name", .str (stringValue name))]) := by
  have hblanks : Blanks [] := fun c hc => absurd hc List.not_mem_nil
  have hname : Chars (ps "name") := by
    refine .plain ?_ (.plain ?_ (.plain ?_ (.plain ?_ .nil))) <;> decide
  have hvalue : Element (quoted name) (.str (stringValue name)) := by
    simpa using Element.mk hblanks (.str h) hblanks
  have hmember := Member.mk hblanks hname hblanks hvalue
  have hobj := Element.mk hblanks (.obj (.one hmember)) hblanks
  have hkey : stringValue (ps "name") = ps "name" := by decide
  rw [hkey] at hobj
  have htext : ps "\x7b\"name\":\"" ++ name ++ ps "\"\x7d" =
      [123] ++ (quoted (ps "name") ++ ([58] ++ quoted name) ++ [125]) := by
    have hopen : ps "\x7b\"name\":\"" = [123] ++ quoted (ps "name") ++ [58, 34] := by decide
    have hclose : ps "\"\x7d" = [34, 125] := by decide
    rw [hopen, hclose]
    simp [quoted]
  rw [htext]
  simpa using hobj

/-- A name of two words. -/
theorem not_keepsMeaning_name : ¬ KeepsMeaning nameJson (ps "a b") := by
  intro h
  have hchars : Chars (ps "a b") := by
    refine .plain ?_ (.plain ?_ (.plain ?_ .nil)) <;> decide
  have hv := isText_nameJson hchars
  obtain ⟨compact, hcompact, hden, -⟩ := h _ _ rfl hv
  rw [toJsonCompact, nameJson, Option.map_some, Option.some.injEq] at hcompact
  subst hcompact
  have hclean := (isText_deleted_iff isSpaces_isSpace hv).mp hden
  have hspace := hclean (ps "a b") (by decide) 32 (by decide)
  exact absurd hspace (by decide)

end GooglePerl.Protobuf.CompactJson
