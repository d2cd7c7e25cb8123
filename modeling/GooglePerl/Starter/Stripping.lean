import GooglePerl.Lib.Split
import GooglePerl.Starter.ProtoSource

/-!
When stripping comments leaves a file without its comments and otherwise as it was.

Line comments go first, so a block comment must not have its end behind a `//`, and a literal
must not hold what opens a comment.
-/

namespace GooglePerl.Starter

open Lib Lib.Scan

/-! ### Files without their comments -/

def Trivia.bare : Trivia → List Char
  | .blank c _ => [c]
  | .line _ _ => ['\n']
  | .block _ _ => []

def Lexeme.bare : Lexeme → List Char
  | .trivia t => t.bare
  | l => l.text

def bare (ls : List Lexeme) : List Char := ls.flatMap Lexeme.bare

@[simp] theorem bare_nil : bare [] = [] := rfl

@[simp] theorem bare_cons (l : Lexeme) (ls : List Lexeme) : bare (l :: ls) = l.bare ++ bare ls :=
  rfl

@[simp] theorem bare_append (k ls : List Lexeme) : bare (k ++ ls) = bare k ++ bare ls :=
  List.flatMap_append

def lastLine (s : List Char) : List Char := s.rtakeWhile (· ≠ '\n')

/-- A literal without the opening of a comment, a block comment without `//` on its last line. -/
def Lexeme.Plain : Lexeme → Prop
  | .trivia (.block s _) => ¬ ['/', '/'] <:+: lastLine s
  | .literal _ s _ _ => ¬ ['/', '/'] <:+: s ∧ ¬ ['/', '*'] <:+: s
  | _ => True

def Lexeme.isBlock : Lexeme → Bool
  | .trivia (.block _ _) => true
  | _ => false

/-- Plain lexemes with no slash right behind a block comment. -/
def Strippable (last : List Char) : List Lexeme → Prop
  | [] => True
  | l :: ls => l.Plain ∧ (l.isBlock = true → (text ls ++ last).head? ≠ some '/') ∧
      Strippable last ls

instance : DecidablePred Lexeme.Plain
  | .trivia (.block s _) => inferInstanceAs (Decidable (¬ ['/', '/'] <:+: lastLine s))
  | .trivia (.blank _ _) | .trivia (.line _ _) | .code _ _ | .slash _ _ => isTrue trivial
  | .literal _ s _ _ =>
      inferInstanceAs (Decidable (¬ ['/', '/'] <:+: s ∧ ¬ ['/', '*'] <:+: s))

instance Strippable.decidable (last : List Char) : DecidablePred (Strippable last)
  | [] => isTrue trivial
  | l :: ls =>
      have := Strippable.decidable last ls
      inferInstanceAs (Decidable (l.Plain ∧
        (l.isBlock = true → (text ls ++ last).head? ≠ some '/') ∧ Strippable last ls))

/-! ### Line comments -/

theorem consumes_lineComment : Consumes lineComment :=
  (consumes_literal (by simp)).andThen fun _ => reads_many _

theorem within_lineComment : Within '\n' lineComment :=
  ((before_literal (by decide)).andThen fun _ => before_many (by decide)).within

theorem stripLineComments_cons {c : Char} {s : List Char} (h : ¬ (c = '/' ∧ s.head? = some '/')) :
    stripLineComments (c :: s) = c :: stripLineComments s :=
  replaceAll_cons_of_none (andThen_literal_pair_eq_none h)

theorem lineComment_append {s rest : List Char} (h : '\n' ∉ s)
    (hrest : Stops (fun c => decide (c ≠ '\n')) rest) :
    lineComment ('/' :: '/' :: (s ++ rest)) = some (s, rest) := by
  have hopen : Scan.literal ['/', '/'] ('/' :: '/' :: (s ++ rest)) = some ((), s ++ rest) :=
    literal_append ['/', '/'] (s ++ rest)
  rw [lineComment, andThen_of_some hopen, many_append (decide_ne_of_not_mem h) hrest]

theorem stripLineComments_line {s rest : List Char} (h : '\n' ∉ s) :
    stripLineComments ('/' :: '/' :: (s ++ '\n' :: rest)) = '\n' :: stripLineComments rest := by
  have hstop : Stops (fun c => decide (c ≠ '\n')) ('\n' :: rest) := stops_cons (by decide)
  have hmatch := lineComment_append h hstop
  rw [stripLineComments, replaceAll_of_some consumes_lineComment hmatch, List.nil_append]
  exact stripLineComments_cons (by simp)

theorem stripLineComments_last {s : List Char} (h : '\n' ∉ s) :
    stripLineComments ('/' :: '/' :: s) = [] := by
  have hstop : Stops (fun c => decide (c ≠ '\n')) [] := fun c hc => nomatch hc
  have hmatch := lineComment_append h hstop
  rw [List.append_nil] at hmatch
  rw [stripLineComments, replaceAll_of_some consumes_lineComment hmatch]
  rfl

theorem stripLineComments_of_absent {w rest : List Char} {z : Char}
    (h : ¬ ['/', '/'] <:+: w ++ [z]) :
    stripLineComments (w ++ z :: rest) = w ++ stripLineComments (z :: rest) :=
  replaceAll_of_absent h

/-- Up to a newline, stripping does not depend on what follows. -/
theorem stripLineComments_append_cons (u rest : List Char) :
    stripLineComments (u ++ '\n' :: rest) =
      stripLineComments (u ++ ['\n']) ++ stripLineComments rest :=
  replaceAll_append_cons consumes_lineComment within_lineComment u rest

theorem stripLineComments_eq_self {w : List Char} (h : ¬ ['/', '/'] <:+: w) :
    stripLineComments w = w := by
  cases hw : w.reverse with
  | nil =>
      rw [List.reverse_eq_nil_iff.mp hw]
      rfl
  | cons z t =>
      have hsplit : w = t.reverse ++ [z] := by
        rw [← List.reverse_reverse w, hw, List.reverse_cons]
      rw [hsplit] at h ⊢
      rw [stripLineComments_of_absent h, stripLineComments_cons (by simp)]
      rfl

/-- A block comment stays closed when its last line has no `//`. -/
theorem stripLineComments_block {s rest : List Char} (hs : ¬ ['/', '/'] <:+: lastLine s)
    (hrest : rest.head? ≠ some '/') :
    stripLineComments (s ++ '*' :: '/' :: rest) =
      stripLineComments s ++ '*' :: '/' :: stripLineComments rest := by
  have hend {t : List Char} (ht : ¬ ['/', '/'] <:+: t) :
      stripLineComments (t ++ '*' :: '/' :: rest) = t ++ '*' :: '/' :: stripLineComments rest := by
    have hopen : ¬ ['/', '/'] <:+: t ++ ['*'] :=
      fun h => ht (pair_infix_of_concat h (by decide))
    rw [stripLineComments_of_absent hopen, stripLineComments_cons (by simp),
      stripLineComments_cons (by simp [hrest])]
  by_cases hmem : '\n' ∈ s
  · obtain ⟨u, t, rfl, ht⟩ := exists_append_cons_of_mem hmem
    rw [lastLine, rtakeWhile_append_cons ht] at hs
    rw [List.append_assoc, List.cons_append, stripLineComments_append_cons u (t ++ _),
      stripLineComments_append_cons u t, hend hs, stripLineComments_eq_self hs, List.append_assoc]
  · rw [lastLine, List.rtakeWhile_eq_self_iff.mpr (decide_ne_of_not_mem hmem)] at hs
    rw [hend hs, stripLineComments_eq_self hs]

/-! ### Block comments -/

theorem exists_stripLineComments_of_opening (s : List Char) :
    ∃ t, t <:+ s ∧ (∀ c, t.head? = some c → c = '\n') ∧
      stripLineComments ('/' :: '/' :: s) = stripLineComments t := by
  by_cases hmem : '\n' ∈ s
  · obtain ⟨u, t, rfl, hu⟩ := List.eq_append_cons_of_mem hmem
    refine ⟨'\n' :: t, List.suffix_append u _, by simp, ?_⟩
    rw [stripLineComments_line hu, stripLineComments_cons (by simp)]
  · exact ⟨[], List.nil_suffix, by simp, by rw [stripLineComments_last hmem]; rfl⟩

/-- Stripping line comments closes no block comment: what is cut reaches to the end of its
line. -/
theorem not_infix_stripLineComments {s : List Char} (h : ¬ ['*', '/'] <:+: s) :
    ¬ ['*', '/'] <:+: stripLineComments s ∧
      ((stripLineComments s).head? = some '/' → s.head? = some '/') := by
  induction hlen : s.length using Nat.strong_induction_on generalizing s with
  | _ k ih =>
      cases s with
      | nil => exact ⟨by simp [stripLineComments], by simp [stripLineComments]⟩
      | cons c s =>
          by_cases hopen : c = '/' ∧ s.head? = some '/'
          · obtain ⟨rfl, hs⟩ := hopen
            obtain ⟨s, rfl⟩ := List.head?_eq_some_iff.mp hs
            obtain ⟨t, hsuffix, hstart, heq⟩ := exists_stripLineComments_of_opening s
            have ht : ¬ ['*', '/'] <:+: t :=
              fun hin => h (hin.trans (hsuffix.isInfix.trans ⟨['/', '/'], [], by simp⟩))
            have hshort := hsuffix.length_le
            simp only [List.length_cons] at hlen
            rw [heq]
            exact ⟨(ih t.length (by omega) ht rfl).1, fun _ => rfl⟩
          · have hs : ¬ ['*', '/'] <:+: s := fun hin => h (hin.trans ⟨[c], [], by simp⟩)
            simp only [List.length_cons] at hlen
            obtain ⟨hrest, hhead⟩ := ih s.length (by omega) hs rfl
            rw [stripLineComments_cons hopen]
            refine ⟨?_, fun hc => hc⟩
            intro hin
            rcases List.infix_cons_iff.mp hin with hstart | hin
            · obtain ⟨hc, hslash⟩ := List.cons_prefix_cons.mp hstart
              have hslash := hhead (List.singleton_prefix_iff_head?_eq_some.mp hslash)
              apply h
              refine List.IsPrefix.isInfix (List.cons_prefix_cons.mpr ⟨hc, ?_⟩)
              exact List.singleton_prefix_iff_head?_eq_some.mpr hslash
            · exact hrest hin

theorem consumes_blockComment : Consumes blockComment :=
  (consumes_literal (by simp)).andThen fun _ => reads_upTo (by simp)

theorem stripBlockComments_cons {c : Char} {s : List Char}
    (h : ¬ (c = '/' ∧ s.head? = some '*')) :
    stripBlockComments (c :: s) = c :: stripBlockComments s :=
  replaceAll_cons_of_none (andThen_literal_pair_eq_none h)

theorem stripBlockComments_block {s rest : List Char} (h : ¬ ['*', '/'] <:+: s) :
    stripBlockComments ('/' :: '*' :: (s ++ '*' :: '/' :: rest)) = stripBlockComments rest := by
  have hopen : Scan.literal ['/', '*'] ('/' :: '*' :: (s ++ '*' :: '/' :: rest)) =
      some ((), s ++ '*' :: '/' :: rest) := literal_append ['/', '*'] _
  have hmatch : blockComment ('/' :: '*' :: (s ++ '*' :: '/' :: rest)) = some ((), rest) := by
    rw [blockComment, andThen_of_some hopen, upTo_pair_append h (by decide)]
  rw [stripBlockComments, replaceAll_of_some consumes_blockComment hmatch, List.nil_append]

/-! ### Lexeme by lexeme -/

/-- What stripping line comments makes of a lexeme. -/
def Lexeme.cut : Lexeme → List Char
  | .trivia (.line _ _) => ['\n']
  | .trivia (.block s _) => '/' :: '*' :: (stripLineComments s ++ ['*', '/'])
  | l => l.text

theorem stripLineComments_append_of_forall {s rest : List Char} (h : ∀ c ∈ s, c ≠ '/') :
    stripLineComments (s ++ rest) = s ++ stripLineComments rest := by
  induction s with
  | nil => rfl
  | cons c s ih =>
      obtain ⟨hc, hs⟩ := List.forall_mem_cons.mp h
      rw [List.cons_append, List.cons_append, stripLineComments_cons fun hopen => hc hopen.1, ih hs]

theorem stripBlockComments_append_of_forall {s rest : List Char} (h : ∀ c ∈ s, c ≠ '/') :
    stripBlockComments (s ++ rest) = s ++ stripBlockComments rest := by
  induction s with
  | nil => rfl
  | cons c s ih =>
      obtain ⟨hc, hs⟩ := List.forall_mem_cons.mp h
      rw [List.cons_append, List.cons_append, stripBlockComments_cons fun hopen => hc hopen.1,
        ih hs]

theorem not_infix_quoted {q x y : Char} {s : List Char} (hs : ¬ [x, y] <:+: s) (hx : q ≠ x)
    (hy : q ≠ y) : ¬ [x, y] <:+: q :: s ++ [q] :=
  fun h => hs (pair_infix_of_cons (pair_infix_of_concat h hy) hx)

theorem ne_of_mem_quotes {q : Char} (h : q ∈ ['"', '\'']) : q ≠ '/' ∧ q ≠ '*' := by
  rcases List.mem_cons.mp h with rfl | h
  · exact ⟨by decide, by decide⟩
  · rw [List.mem_singleton.mp h]
    exact ⟨by decide, by decide⟩

theorem stripLineComments_lexeme {l : Lexeme} {rest : List Char} (hl : l.Plain)
    (hrest : l.isBlock = true → rest.head? ≠ some '/') :
    stripLineComments (l.text ++ rest) = l.cut ++ stripLineComments rest := by
  cases l with
  | trivia t =>
      cases t with
      | blank c h =>
          have hc : c ≠ '/' := fun hc => absurd h (by rw [hc]; decide)
          exact stripLineComments_cons fun hopen => hc hopen.1
      | line s h =>
          simp only [Lexeme.text, Trivia.text, Lexeme.cut, List.cons_append, List.append_assoc,
            List.nil_append]
          exact stripLineComments_line h
      | block s h =>
          simp only [Lexeme.text, Trivia.text, Lexeme.cut, List.cons_append, List.append_assoc,
            List.nil_append]
          rw [stripLineComments_cons (by simp), stripLineComments_cons (by simp),
            stripLineComments_block hl (hrest rfl)]
  | code s h =>
      refine stripLineComments_append_of_forall ?_
      rintro c hc rfl
      exact absurd (List.all_eq_true.mp h _ hc) (by decide)
  | slash c h =>
      have hc : c ≠ '/' := fun hc => h (by rw [hc]; decide)
      exact (stripLineComments_cons (by simpa using hc)).trans
        (congrArg _ (stripLineComments_cons fun hopen => hc hopen.1))
  | literal q s hq hs =>
      obtain ⟨hslash, -⟩ := ne_of_mem_quotes hq
      simp only [Lexeme.text, Lexeme.cut, List.cons_append, List.append_assoc, List.nil_append]
      rw [← List.cons_append, stripLineComments_of_absent (not_infix_quoted hl.1 hslash hslash),
        stripLineComments_cons fun hopen => hslash hopen.1]
      rfl

theorem stripBlockComments_lexeme {l : Lexeme} {rest : List Char} (hl : l.Plain) :
    stripBlockComments (l.cut ++ rest) = l.bare ++ stripBlockComments rest := by
  cases l with
  | trivia t =>
      cases t with
      | blank c h =>
          have hc : c ≠ '/' := fun hc => absurd h (by rw [hc]; decide)
          exact stripBlockComments_cons fun hopen => hc hopen.1
      | line s h => exact stripBlockComments_cons (by simp)
      | block s h =>
          simp only [Lexeme.cut, List.cons_append, List.append_assoc, List.nil_append]
          exact stripBlockComments_block (not_infix_stripLineComments h).1
  | code s h =>
      refine stripBlockComments_append_of_forall ?_
      rintro c hc rfl
      exact absurd (List.all_eq_true.mp h _ hc) (by decide)
  | slash c h =>
      have hslash : c ≠ '/' := fun hc => h (by rw [hc]; decide)
      have hstar : c ≠ '*' := fun hc => h (by rw [hc]; decide)
      exact (stripBlockComments_cons (by simpa using hstar)).trans
        (congrArg _ (stripBlockComments_cons fun hopen => hslash hopen.1))
  | literal q s hq hs =>
      obtain ⟨hslash, hstar⟩ := ne_of_mem_quotes hq
      have hopen : ¬ ['/', '*'] <:+: q :: s ++ [q] := not_infix_quoted hl.2 hslash hstar
      simp only [Lexeme.text, Lexeme.cut, Lexeme.bare, List.cons_append, List.append_assoc,
        List.nil_append]
      rw [← List.cons_append]
      refine (replaceAll_of_absent hopen).trans (congrArg _ ?_)
      exact stripBlockComments_cons fun hopen => hslash hopen.1

/-- Stripping leaves a strippable file without its comments. -/
theorem stripComments_text {last : List Char} {ls : List Lexeme} (h : Strippable last ls)
    (hlast : stripLineComments last = []) : stripComments (text ls ++ last) = bare ls := by
  have hline : stripLineComments (text ls ++ last) = ls.flatMap Lexeme.cut := by
    induction ls with
    | nil => exact hlast
    | cons l ls ih =>
        obtain ⟨hl, hblock, hls⟩ := h
        have hcons : text (l :: ls) = l.text ++ text ls := rfl
        rw [hcons, List.append_assoc, stripLineComments_lexeme hl hblock, ih hls, List.flatMap_cons]
  rw [stripComments, hline]
  clear hline
  induction ls with
  | nil => rfl
  | cons l ls ih =>
      obtain ⟨hl, -, hls⟩ := h
      rw [List.flatMap_cons, stripBlockComments_lexeme hl, ih hls, bare_cons]

end GooglePerl.Starter
