import GooglePerl.Lib.FixedWidth
import GooglePerl.Lib.Scan

/-!
JSON texts and what they denote.

The grammar is a relation between texts and values, with the blanks that it allows between tokens.
What stands in quotes is found without it (`scan`), so any two derivations for one text have the
same strings, and the blanks outside of strings are the ones that mean nothing.

Deleting all blanks from a text deletes those in its strings too (`Scans.deleted`): it denotes the
same value exactly if there are none there (`isText_deleted_iff`).
-/

namespace GooglePerl.Lib.JsonText

abbrev Text := List ℕ

/-- A value; a number stands for its text. -/
inductive Value where
  | null
  | bool (b : Bool)
  | num (text : Text)
  | str (s : Text)
  | arr (vs : List Value)
  | obj (ms : List (Text × Value))

/-! ### Strings -/

/-- What follows a backslash, and what it stands for. -/
def escapes : List (ℕ × ℕ) :=
  [(34, 34), (92, 92), (47, 47), (98, 8), (102, 12), (110, 10), (114, 13), (116, 9)]

/-- The unit that four digits stand for. -/
def hexUnit (a b c d : ℕ) : ℕ :=
  ((hexNibble a * 16 + hexNibble b) * 16 + hexNibble c) * 16 + hexNibble d

/-- What stands for itself in a string. -/
def isPlain (c : ℕ) : Bool := 32 ≤ c && c ≤ 0x10FFFF && c != 34 && c != 92

/-- What may stand between quotes. -/
inductive Chars : Text → Prop
  | nil : Chars []
  | plain {c : ℕ} {r : Text} (h : isPlain c = true) (hr : Chars r) : Chars (c :: r)
  | escape {e c : ℕ} {r : Text} (h : (e, c) ∈ escapes) (hr : Chars r) : Chars (92 :: e :: r)
  | hex {a b c d : ℕ} {r : Text} (h : ∀ x ∈ [a, b, c, d], isHexDigit x = true) (hr : Chars r) :
      Chars (92 :: 117 :: a :: b :: c :: d :: r)

/-- The units of a string. -/
def units : Text → Text
  | [] => []
  | 92 :: 117 :: a :: b :: c :: d :: r => hexUnit a b c d :: units r
  | 92 :: e :: r => ((escapes.lookup e).getD e) :: units r
  | c :: r => c :: units r

/-- Two units of a pair are one character. -/
def joinPairs : Text → Text
  | [] => []
  | [x] => [x]
  | x :: y :: s =>
      if (0xD800 ≤ x ∧ x ≤ 0xDBFF) ∧ (0xDC00 ≤ y ∧ y ≤ 0xDFFF) then
        (0x10000 + (x - 0xD800) * 0x400 + (y - 0xDC00)) :: joinPairs s
      else x :: joinPairs (y :: s)

/-- The string that stands between quotes. -/
def stringValue (r : Text) : Text := joinPairs (units r)

def quoted (r : Text) : Text := 34 :: (r ++ [34])

/-! ### Numbers -/

def isDigit (c : ℕ) : Bool := 48 ≤ c && c ≤ 57

def Digits (d : Text) : Prop := d ≠ [] ∧ ∀ c ∈ d, isDigit c = true

/-- A whole part without a zero in front, a fraction and an exponent. -/
structure IsNumber (t : Text) : Prop where
  parts : ∃ sign whole fraction exponent : Text, t = sign ++ (whole ++ (fraction ++ exponent)) ∧
    (sign = [] ∨ sign = [45]) ∧
    (Digits whole ∧ (whole.head? = some 48 → whole = [48])) ∧
    (fraction = [] ∨ ∃ d, Digits d ∧ fraction = 46 :: d) ∧
    (exponent = [] ∨ ∃ e s d, Digits d ∧ (e = 101 ∨ e = 69) ∧ (s = [] ∨ s = [43] ∨ s = [45]) ∧
      exponent = e :: (s ++ d))

/-! ### The grammar -/

def isBlank (c : ℕ) : Bool := c == 9 || c == 10 || c == 13 || c == 32

def Blanks (w : Text) : Prop := ∀ c ∈ w, isBlank c = true

mutual

inductive IsValue : Text → Value → Prop
  | null : IsValue [110, 117, 108, 108] .null
  | true : IsValue [116, 114, 117, 101] (.bool true)
  | false : IsValue [102, 97, 108, 115, 101] (.bool false)
  | num {t : Text} (h : IsNumber t) : IsValue t (.num t)
  | str {r : Text} (h : Chars r) : IsValue (quoted r) (.str (stringValue r))
  | emptyArr {w : Text} (h : Blanks w) : IsValue ([91] ++ (w ++ [93])) (.arr [])
  | arr {t : Text} {vs : List Value} (h : Elements t vs) : IsValue ([91] ++ (t ++ [93])) (.arr vs)
  | emptyObj {w : Text} (h : Blanks w) : IsValue ([123] ++ (w ++ [125])) (.obj [])
  | obj {t : Text} {ms : List (Text × Value)} (h : Members t ms) :
      IsValue ([123] ++ (t ++ [125])) (.obj ms)

/-- A value with blanks around it. -/
inductive Element : Text → Value → Prop
  | mk {w t u : Text} {v : Value} (hw : Blanks w) (h : IsValue t v) (hu : Blanks u) :
      Element (w ++ (t ++ u)) v

inductive Elements : Text → List Value → Prop
  | one {t : Text} {v : Value} (h : Element t v) : Elements t [v]
  | more {t u : Text} {v : Value} {vs : List Value} (h : Element t v) (hs : Elements u vs) :
      Elements (t ++ ([44] ++ u)) (v :: vs)

inductive Member : Text → Text × Value → Prop
  | mk {w r u t : Text} {v : Value} (hw : Blanks w) (hr : Chars r) (hu : Blanks u)
      (h : Element t v) : Member (w ++ (quoted r ++ (u ++ ([58] ++ t)))) (stringValue r, v)

inductive Members : Text → List (Text × Value) → Prop
  | one {t : Text} {m : Text × Value} (h : Member t m) : Members t [m]
  | more {t u : Text} {m : Text × Value} {ms : List (Text × Value)} (h : Member t m)
      (hs : Members u ms) : Members (t ++ ([44] ++ u)) (m :: ms)

end

/-- A text denotes a value. -/
abbrev IsText (t : Text) (v : Value) : Prop := Element t v

/-! ### The strings of a text -/

/-- Where a text is read: between tokens, in quotes, or behind a backslash there. -/
inductive State where
  | outside
  | inside (read : Text)
  | escaped (read : Text)

/-- What stands in quotes, and the symbols outside of them. -/
def scan : State → Text → List (Text ⊕ ℕ)
  | _, [] => []
  | .outside, c :: s => if c = 34 then scan (.inside []) s else .inr c :: scan .outside s
  | .inside read, c :: s =>
      if c = 34 then .inl read :: scan .outside s
      else if c = 92 then scan (.escaped (read ++ [92])) s
      else scan (.inside (read ++ [c])) s
  | .escaped read, c :: s => scan (.inside (read ++ [c])) s

/-- What stands in quotes. -/
def literals (ps : List (Text ⊕ ℕ)) : List Text := ps.filterMap Sum.getLeft?

/-- A text without the blanks between its tokens. -/
def significant (t : Text) : List (Text ⊕ ℕ) :=
  (scan .outside t).filter (Sum.elim (fun _ => true) fun c => !isBlank c)

mutual

/-- The strings of a value, keys among them, in order. -/
def Value.strings : Value → List Text
  | .null => []
  | .bool _ => []
  | .num _ => []
  | .str s => [s]
  | .arr vs => arrStrings vs
  | .obj ms => objStrings ms

def arrStrings : List Value → List Text
  | [] => []
  | v :: vs => v.strings ++ arrStrings vs

def objStrings : List (Text × Value) → List Text
  | [] => []
  | (k, v) :: ms => k :: (v.strings ++ objStrings ms)

end

/-! ### Deleting blanks everywhere -/

/-- Symbols that are taken for blanks: those of the grammar, others that no token has, and none
that is a part of a pair or made of one. -/
structure IsSpaces (space : ℕ → Bool) : Prop where
  blank : ∀ c, isBlank c = true → space c = true
  ascii : ∀ c, 33 ≤ c → c < 128 → space c = false
  low : ∀ c, space c = true → c < 0xD800

section

variable (space : ℕ → Bool)

/-- A text without its blanks, wherever they are. -/
def deleted (t : Text) : Text := t.filter fun c => !space c

/-- What becomes of a piece of a text. -/
def deletedPiece : Text ⊕ ℕ → Option (Text ⊕ ℕ)
  | .inl r => some (.inl (deleted space r))
  | .inr c => if space c then none else some (.inr c)

theorem deleted_append (t u : Text) : deleted space (t ++ u) = deleted space t ++ deleted space u :=
  List.filter_append t u

theorem mem_of_mem_deleted {t : Text} {c : ℕ} (h : c ∈ deleted space t) : c ∈ t :=
  List.mem_of_mem_filter h

theorem deleted_cons_of_neg {c : ℕ} (h : space c = false) (t : Text) :
    deleted space (c :: t) = c :: deleted space t := by
  rw [deleted, List.filter_cons_of_pos (by rw [h]; rfl), deleted]

theorem deleted_eq_self_iff {t : Text} : deleted space t = t ↔ ∀ c ∈ t, space c = false := by
  rw [deleted, List.filter_eq_self]
  simp

end

variable {space : ℕ → Bool} (hspace : IsSpaces space)

include hspace

theorem IsSpaces.ne {c : ℕ} (h : 33 ≤ c ∧ c < 128) : space c = false := hspace.ascii c h.1 h.2

theorem IsSpaces.hexDigit {c : ℕ} (h : isHexDigit c = true) : space c = false := by
  simp only [isHexDigit, Bool.or_eq_true, Bool.and_eq_true, decide_eq_true_eq] at h
  exact hspace.ascii c (by omega) (by omega)

theorem IsSpaces.escape {e c : ℕ} (h : (e, c) ∈ escapes) : space e = false := by
  have hascii : ∀ p ∈ escapes, 33 ≤ p.1 ∧ p.1 < 128 := by decide
  exact hspace.ne (hascii (e, c) h)

/-- What is left between quotes may stand there. -/
theorem Chars.deleted {r : Text} (h : Chars r) : Chars (deleted space r) := by
  have hslash := hspace.ascii 92 (by decide) (by decide)
  have hu := hspace.ascii 117 (by decide) (by decide)
  induction h with
  | nil => exact .nil
  | plain hc hr ih =>
      rename_i c r
      cases hblank : space c with
      | false => exact deleted_cons_of_neg space hblank r ▸ .plain hc ih
      | true => simpa [JsonText.deleted, hblank] using ih
  | escape he hr ih =>
      rw [deleted_cons_of_neg space hslash, deleted_cons_of_neg space (hspace.escape he)]
      exact .escape he ih
  | hex hd hr ih =>
      rename_i a b c d r
      rw [deleted_cons_of_neg space hslash, deleted_cons_of_neg space hu,
        deleted_cons_of_neg space (hspace.hexDigit (hd a (by simp))),
        deleted_cons_of_neg space (hspace.hexDigit (hd b (by simp))),
        deleted_cons_of_neg space (hspace.hexDigit (hd c (by simp))),
        deleted_cons_of_neg space (hspace.hexDigit (hd d (by simp)))]
      exact .hex hd ih

omit hspace

/-- What stands in quotes is read up to the quote. -/
theorem scan_inside {r : Text} (h : Chars r) (read u : Text) :
    scan (.inside read) (r ++ 34 :: u) = .inl (read ++ r) :: scan .outside u := by
  induction h generalizing read with
  | nil => simp [scan]
  | plain hc hr ih =>
      rename_i c r
      simp only [isPlain, Bool.and_eq_true, bne_iff_ne] at hc
      rw [List.cons_append, scan, if_neg hc.1.2, if_neg hc.2, ih, List.append_assoc]
      rfl
  | escape he hr ih =>
      rw [List.cons_append, List.cons_append, scan, if_neg (by decide), if_pos rfl, scan, ih]
      simp
  | hex hd hr ih =>
      rename_i a b c d r
      have hne : ∀ x ∈ [a, b, c, d], x ≠ 34 ∧ x ≠ 92 := by
        intro x hx
        have hdigit := hd x hx
        constructor <;> rintro rfl <;> exact absurd hdigit (by decide)
      simp only [List.forall_mem_cons] at hne
      obtain ⟨ha, hb, hc, hd, -⟩ := hne
      simp [scan, ih, ha, hb, hc, hd]

/-- Outside of quotes every symbol stands for itself. -/
theorem scan_outside {t : Text} (h : 34 ∉ t) (u : Text) :
    scan .outside (t ++ u) = t.map .inr ++ scan .outside u := by
  induction t with
  | nil => rfl
  | cons c t ih =>
      rw [List.mem_cons, not_or] at h
      rw [List.cons_append, scan, if_neg (Ne.symm h.1), ih h.2]
      rfl

/-- A stretch of a text that is read by itself, also when blanks are deleted from it. -/
structure Scans (space : ℕ → Bool) (t : Text) (ps : List (Text ⊕ ℕ)) : Prop where
  scan : ∀ u, scan .outside (t ++ u) = ps ++ scan .outside u
  deleted : ∀ u, JsonText.scan .outside (deleted space t ++ u) =
    ps.filterMap (deletedPiece space) ++ JsonText.scan .outside u
  chars : ∀ r ∈ literals ps, Chars r
  blank : ∀ c, Sum.inr c ∈ ps → space c = true → isBlank c = true

theorem literals_append (ps qs : List (Text ⊕ ℕ)) :
    literals (ps ++ qs) = literals ps ++ literals qs :=
  List.filterMap_append

theorem Scans.append {t u : Text} {ps qs : List (Text ⊕ ℕ)} (ht : Scans space t ps)
    (hu : Scans space u qs) : Scans space (t ++ u) (ps ++ qs) where
  scan v := by rw [List.append_assoc, ht.scan, hu.scan, List.append_assoc]
  deleted v := by
    rw [deleted_append, List.append_assoc, ht.deleted, hu.deleted, List.filterMap_append,
      List.append_assoc]
  chars r hr := by
    rw [literals_append, List.mem_append] at hr
    exact hr.elim (ht.chars r) (hu.chars r)
  blank c hc := (List.mem_append.mp hc).elim (ht.blank c) (hu.blank c)

theorem literals_map_inr (t : Text) : literals (t.map .inr) = [] := by
  simp [literals, List.filterMap_map]

theorem filterMap_map_inr (t : Text) :
    (t.map Sum.inr).filterMap (deletedPiece space) = (deleted space t).map .inr := by
  induction t with
  | nil => rfl
  | cons c t ih => cases hc : space c <;> simp [deletedPiece, deleted, hc] at ih ⊢ <;> exact ih

theorem scans_outside {t : Text} (hquote : 34 ∉ t)
    (hblank : ∀ c ∈ t, space c = true → isBlank c = true) : Scans space t (t.map .inr) where
  scan u := scan_outside hquote u
  deleted u := by
    rw [filterMap_map_inr, scan_outside fun hmem => hquote (mem_of_mem_deleted space hmem)]
  chars r hr := by
    rw [literals_map_inr] at hr
    exact absurd hr List.not_mem_nil
  blank c hc := by
    obtain ⟨d, hd, heq⟩ := List.mem_map.mp hc
    exact hblank c (Sum.inr.inj heq ▸ hd)

include hspace

theorem scans_quoted {r : Text} (h : Chars r) : Scans space (quoted r) [.inl r] where
  scan u := by
    rw [quoted, List.cons_append, scan, if_pos rfl, List.append_assoc]
    exact scan_inside h [] u
  deleted u := by
    have hquote := hspace.ascii 34 (by decide) (by decide)
    rw [quoted, deleted_cons_of_neg space hquote, deleted_append,
      deleted_cons_of_neg space hquote, List.cons_append, scan, if_pos rfl, List.append_assoc]
    exact scan_inside (h.deleted hspace) [] u
  chars q hq := by
    have heq : q = r := by simpa [literals] using hq
    rwa [heq]
  blank c hc := by simp at hc

/-! ### Derivations -/

omit hspace

/-- A stretch with strings in it, and what it still is when these have no blanks. -/
def Reads (space : ℕ → Bool) (t : Text) (strs : List Text) (Q : Text → Prop) : Prop :=
  ∃ ps, Scans space t ps ∧ (literals ps).map stringValue = strs ∧
    ((∀ r ∈ literals ps, deleted space r = r) → Q (deleted space t))

section

variable {t u : Text} {strs strs' strs'' : List Text} {Q Q' Q'' : Text → Prop}

theorem Reads.mono (h : Reads space t strs Q) (hQ : ∀ a, Q a → Q' a) : Reads space t strs Q' := by
  obtain ⟨ps, hps, hstrs, hkeep⟩ := h
  exact ⟨ps, hps, hstrs, fun hclean => hQ _ (hkeep hclean)⟩

theorem Reads.append (ht : Reads space t strs Q) (hu : Reads space u strs' Q') :
    Reads space (t ++ u) (strs ++ strs') fun a => ∃ b c, Q b ∧ Q' c ∧ a = b ++ c := by
  obtain ⟨ps, hps, hpstrs, hpkeep⟩ := ht
  obtain ⟨qs, hqs, hqstrs, hqkeep⟩ := hu
  refine ⟨ps ++ qs, hps.append hqs, ?_, fun hclean => ?_⟩
  · rw [literals_append, List.map_append, hpstrs, hqstrs]
  · rw [literals_append, List.forall_mem_append] at hclean
    exact ⟨_, _, hpkeep hclean.1, hqkeep hclean.2, deleted_append space t u⟩

theorem reads_blanks (h : Blanks t) : Reads space t [] Blanks := by
  refine ⟨_, scans_outside (fun hmem => ?_) fun c hc _ => h c hc,
    by rw [literals_map_inr]; rfl, fun _ c hc => h c (mem_of_mem_deleted space hc)⟩
  exact absurd (h 34 hmem) (by decide)

end

include hspace

theorem reads_token {t : Text} (h : ∀ c ∈ t, (33 ≤ c ∧ c < 128) ∧ c ≠ 34) :
    Reads space t [] (· = t) := by
  refine ⟨_, scans_outside (fun hmem => (h 34 hmem).2 rfl) fun c hc hblank => ?_,
    by rw [literals_map_inr]; rfl, fun _ => ?_⟩
  · rw [hspace.ne (h c hc).1] at hblank
    cases hblank
  · exact (deleted_eq_self_iff space).mpr fun c hc => hspace.ne (h c hc).1

theorem reads_quoted {r : Text} (h : Chars r) :
    Reads space (quoted r) [stringValue r] (· = quoted r) := by
  refine ⟨_, scans_quoted hspace h, rfl, fun hclean => ?_⟩
  have hr : deleted space r = r := hclean r (by simp [literals])
  have hquote := hspace.ascii 34 (by decide) (by decide)
  rw [quoted, deleted_cons_of_neg space hquote, deleted_append, hr,
    deleted_cons_of_neg space hquote]
  rfl

omit hspace in
/-- The symbols of a number. -/
theorem IsNumber.token {t : Text} (h : IsNumber t) : ∀ c ∈ t, (33 ≤ c ∧ c < 128) ∧ c ≠ 34 := by
  obtain ⟨sign, whole, fraction, exponent, rfl, hsign, hwhole, hfraction, hexponent⟩ := h.parts
  have hdigits : ∀ d, Digits d → ∀ c ∈ d, (33 ≤ c ∧ c < 128) ∧ c ≠ 34 := by
    intro d hd c hc
    have hdigit := hd.2 c hc
    simp only [isDigit, Bool.and_eq_true, decide_eq_true_eq] at hdigit
    omega
  intro c hc
  simp only [List.mem_append] at hc
  rcases hc with hc | hc | hc | hc
  · rcases hsign with rfl | rfl
    · exact absurd hc List.not_mem_nil
    · rw [List.mem_singleton.mp hc]
      decide
  · exact hdigits whole hwhole.1 c hc
  · rcases hfraction with rfl | ⟨d, hd, rfl⟩
    · exact absurd hc List.not_mem_nil
    · rcases List.mem_cons.mp hc with rfl | hc
      · decide
      · exact hdigits d hd c hc
  · rcases hexponent with rfl | ⟨e, s, d, hd, he, hs, rfl⟩
    · exact absurd hc List.not_mem_nil
    · rcases List.mem_cons.mp hc with rfl | hc
      · rcases he with rfl | rfl <;> decide
      · rcases List.mem_append.mp hc with hc | hc
        · rcases hs with rfl | rfl | rfl <;> simp at hc <;> subst hc <;> decide
        · exact hdigits d hd c hc

/-- A stretch with one symbol in front of it and one behind it. -/
theorem Reads.bracket {t : Text} {strs : List Text} {Q : Text → Prop} (h : Reads space t strs Q)
    {x y : ℕ} (hx : (33 ≤ x ∧ x < 128) ∧ x ≠ 34) (hy : (33 ≤ y ∧ y < 128) ∧ y ≠ 34) :
    Reads space ([x] ++ (t ++ [y])) strs fun a => ∃ b, Q b ∧ a = [x] ++ (b ++ [y]) := by
  have hx' := reads_token hspace (t := [x]) (by simpa using hx)
  have hy' := reads_token hspace (t := [y]) (by simpa using hy)
  have hall := hx'.append (h.append hy')
  rw [List.nil_append, List.append_nil] at hall
  refine hall.mono ?_
  rintro _ ⟨_, _, rfl, ⟨b, _, hb, rfl, rfl⟩, rfl⟩
  exact ⟨b, hb, rfl⟩

/-- Two stretches with one symbol between them. -/
theorem Reads.separate {t u : Text} {strs strs' : List Text} {Q Q' : Text → Prop}
    (ht : Reads space t strs Q) (hu : Reads space u strs' Q') {x : ℕ}
    (hx : (33 ≤ x ∧ x < 128) ∧ x ≠ 34) :
    Reads space (t ++ ([x] ++ u)) (strs ++ strs')
      fun a => ∃ b c, Q b ∧ Q' c ∧ a = b ++ ([x] ++ c) := by
  have hx' := reads_token hspace (t := [x]) (by simpa using hx)
  refine (ht.append (hx'.append hu)).mono ?_
  rintro _ ⟨b, _, hb, ⟨_, c, rfl, hc, rfl⟩, rfl⟩
  exact ⟨b, c, hb, hc, rfl⟩

omit hspace

mutual

/-- What is read in a value, by the derivation of it. -/
theorem IsValue.reads (hspace : IsSpaces space) {t : Text} {v : Value} :
    IsValue t v → Reads space t v.strings (IsValue · v)
  | .null => (reads_token hspace (by decide)).mono fun _ ha => ha ▸ .null
  | .true => (reads_token hspace (by decide)).mono fun _ ha => ha ▸ .true
  | .false => (reads_token hspace (by decide)).mono fun _ ha => ha ▸ .false
  | .num h => (reads_token hspace h.token).mono fun _ ha => by rw [ha]; exact .num h
  | .str h => (reads_quoted hspace h).mono fun _ ha => by rw [ha]; exact .str h
  | .emptyArr h => ((reads_blanks h).bracket hspace (by decide) (by decide)).mono
      fun _ ⟨_, hb, ha⟩ => by rw [ha]; exact .emptyArr hb
  | .arr h => ((Elements.reads hspace h).bracket hspace (by decide) (by decide)).mono
      fun _ ⟨_, hb, ha⟩ => by rw [ha]; exact .arr hb
  | .emptyObj h => ((reads_blanks h).bracket hspace (by decide) (by decide)).mono
      fun _ ⟨_, hb, ha⟩ => by rw [ha]; exact .emptyObj hb
  | .obj h => ((Members.reads hspace h).bracket hspace (by decide) (by decide)).mono
      fun _ ⟨_, hb, ha⟩ => by rw [ha]; exact .obj hb

theorem Element.reads (hspace : IsSpaces space) {t : Text} {v : Value} :
    Element t v → Reads space t v.strings (Element · v)
  | .mk hw h hu => by
      have hall := (reads_blanks hw).append ((IsValue.reads hspace h).append (reads_blanks hu))
      rw [List.nil_append, List.append_nil] at hall
      refine hall.mono ?_
      rintro _ ⟨w, _, hw, ⟨b, u, hb, hu, rfl⟩, rfl⟩
      exact .mk hw hb hu

theorem Elements.reads (hspace : IsSpaces space) {t : Text} {vs : List Value} :
    Elements t vs → Reads space t (arrStrings vs) (Elements · vs)
  | .one h => by
      have hall := Element.reads hspace h
      rw [← List.append_nil (Value.strings _)] at hall
      exact hall.mono fun _ ha => .one ha
  | .more h hs =>
      ((Element.reads hspace h).separate hspace (Elements.reads hspace hs) (by decide)).mono
        fun _ ⟨_, _, hb, hc, ha⟩ => by rw [ha]; exact .more hb hc

theorem Member.reads (hspace : IsSpaces space) {t : Text} {m : Text × Value} :
    Member t m → Reads space t (m.1 :: m.2.strings) (Member · m)
  | .mk hw hr hu h => by
      have hcolon :=
        (reads_blanks hu).separate hspace (Element.reads hspace h) (x := 58) (by decide)
      have hall := (reads_blanks hw).append ((reads_quoted hspace hr).append hcolon)
      refine hall.mono ?_
      rintro _ ⟨w, _, hw, ⟨_, _, rfl, ⟨u, b, hu, hb, rfl⟩, rfl⟩, rfl⟩
      exact .mk hw hr hu hb

theorem Members.reads (hspace : IsSpaces space) {t : Text} {ms : List (Text × Value)} :
    Members t ms → Reads space t (objStrings ms) (Members · ms)
  | .one (m := m) h => by
      have hall := Member.reads hspace h
      rw [← List.append_nil (Value.strings _)] at hall
      exact hall.mono fun _ ha => .one ha
  | .more h hs =>
      ((Member.reads hspace h).separate hspace (Members.reads hspace hs) (by decide)).mono
        fun _ ⟨_, _, hb, hc, ha⟩ => by rw [ha]; exact .more hb hc

end

/-! ### What a text denotes without its blanks -/

theorem units_of_ne {c : ℕ} (h : c ≠ 92) (r : Text) : units (c :: r) = c :: units r := by
  rw [units]
  · exact fun _ _ _ _ _ heq => absurd heq h
  · exact fun _ _ heq => absurd heq h

theorem units_escape {e c : ℕ} (h : (e, c) ∈ escapes) (r : Text) :
    units (92 :: e :: r) = c :: units r := by
  have hlookup : ∀ p ∈ escapes, p.1 ≠ 117 ∧ (escapes.lookup p.1).getD p.1 = p.2 := by decide
  obtain ⟨hne, hvalue⟩ := hlookup (e, c) h
  rw [units]
  · rw [hvalue]
  · exact fun _ _ _ _ _ heq => absurd heq hne

include hspace

/-- A deleted symbol of a string is one that its value lacks. -/
theorem countP_units {r : Text} (h : Chars r) :
    (units (deleted space r)).countP space + r.countP space = (units r).countP space := by
  -- only plain characters are deleted: an escape has no blank in it
  have hslash := hspace.ascii 92 (by decide) (by decide)
  have hu := hspace.ascii 117 (by decide) (by decide)
  induction h with
  | nil => rfl
  | plain hc hr ih =>
      rename_i c r
      have hne : c ≠ 92 := by
        rintro rfl
        exact absurd hc (by decide)
      rw [units_of_ne hne]
      cases hblank : space c with
      | false =>
          rw [deleted_cons_of_neg space hblank, units_of_ne hne]
          simp only [List.countP_cons, hblank]
          exact ih
      | true =>
          have hdeleted : deleted space (c :: r) = deleted space r := by
            simp [deleted, hblank]
          rw [hdeleted]
          simp only [List.countP_cons, hblank, if_true, ← Nat.add_assoc]
          exact congrArg (· + 1) ih
  | escape he hr ih =>
      have hne := hspace.escape he
      rw [deleted_cons_of_neg space hslash, deleted_cons_of_neg space hne, units_escape he,
        units_escape he]
      simp only [List.countP_cons, hslash, hne]
      simp only [Bool.false_eq_true, if_false]
      omega
  | hex hd hr ih =>
      rename_i a b c d r
      simp only [List.forall_mem_cons] at hd
      obtain ⟨ha, hb, hc, hd, -⟩ := hd
      have hda := hspace.hexDigit ha
      have hdb := hspace.hexDigit hb
      have hdc := hspace.hexDigit hc
      have hdd := hspace.hexDigit hd
      rw [deleted_cons_of_neg space hslash, deleted_cons_of_neg space hu,
        deleted_cons_of_neg space hda, deleted_cons_of_neg space hdb,
        deleted_cons_of_neg space hdc, deleted_cons_of_neg space hdd, units, units]
      simp only [List.countP_cons, hslash, hu, hda, hdb, hdc, hdd]
      simp only [Bool.false_eq_true, if_false]
      omega

theorem countP_joinPairs (s : Text) : (joinPairs s).countP space = s.countP space := by
  have hhigh : ∀ x, 0xD800 ≤ x → space x = false := by
    intro x hx
    cases hblank : space x with
    | false => rfl
    | true => exact absurd (hspace.low x hblank) (by omega)
  fun_induction joinPairs s with
  | case1 => rfl
  | case2 x => rfl
  | case3 x y s hpair ih =>
      obtain ⟨⟨hx, -⟩, hy, -⟩ := hpair
      have hlow : space y = false := hhigh y (by omega)
      have hjoined := hhigh (0x10000 + (x - 0xD800) * 0x400 + (y - 0xDC00)) (by omega)
      simp [ih, hhigh x hx, hlow, hjoined]
  | case4 x y s hpair ih =>
      rw [List.countP_cons, ih]
      exact List.countP_cons.symm

/-- A string keeps its value exactly if it has no blanks. -/
theorem stringValue_deleted_iff {r : Text} (h : Chars r) :
    stringValue (deleted space r) = stringValue r ↔ ∀ c ∈ r, space c = false := by
  constructor
  · intro heq
    have hcount := countP_units hspace h
    rw [← countP_joinPairs hspace (units r), ← countP_joinPairs hspace (units (deleted space r))]
      at hcount
    have hvalue := congrArg (List.countP space) heq
    rw [stringValue, stringValue] at hvalue
    have hzero : r.countP space = 0 := by omega
    intro c hc
    have hnot := List.countP_eq_zero.mp hzero c hc
    simpa using hnot
  · intro hclean
    rw [(deleted_eq_self_iff space).mpr hclean]

/-- Without its blanks a text denotes what it denoted exactly if there are none in its strings. -/
theorem isText_deleted_iff {t : Text} {v : Value} (h : IsText t v) :
    IsText (deleted space t) v ↔
      ∀ r ∈ literals (scan .outside t), ∀ c ∈ r, space c = false := by
  obtain ⟨ps, hps, hstrs, hkeep⟩ := h.reads hspace
  have hscan := hps.scan []
  have hdeleted := hps.deleted []
  rw [List.append_nil, scan, List.append_nil] at hscan hdeleted
  rw [hscan]
  constructor
  · intro hden
    obtain ⟨qs, hqs, hqstrs, -⟩ := hden.reads hspace
    have hqscan := hqs.scan []
    rw [List.append_nil, scan, List.append_nil, hdeleted] at hqscan
    have hliterals : literals qs = (literals ps).map (deleted space) := by
      rw [← hqscan, literals, literals, List.filterMap_filterMap, List.map_filterMap]
      refine List.filterMap_congr fun p _ => ?_
      cases p with
      | inl r => rfl
      | inr c => cases hc : space c <;> simp [deletedPiece, hc]
    rw [hliterals, ← hstrs, List.map_map] at hqstrs
    intro r hr
    exact (stringValue_deleted_iff hspace (hps.chars r hr)).mp
      (List.map_inj_left.mp hqstrs r hr)
  · exact fun hclean => hkeep fun r hr => (deleted_eq_self_iff space).mpr (hclean r hr)

/-- And then they are the same but for blanks that mean nothing. -/
theorem significant_deleted {t : Text} {v : Value} (h : IsText t v)
    (hclean : ∀ r ∈ literals (scan .outside t), ∀ c ∈ r, space c = false) :
    significant (deleted space t) = significant t := by
  obtain ⟨ps, hps, -, -⟩ := h.reads hspace
  have hscan := hps.scan []
  have hdeleted := hps.deleted []
  rw [List.append_nil, scan, List.append_nil] at hscan hdeleted
  rw [hscan] at hclean
  rw [significant, significant, hscan, hdeleted, List.filter_filterMap, ← List.filterMap_eq_filter]
  refine List.filterMap_congr fun p hp => ?_
  cases p with
  | inl r =>
      have hr := hclean r (List.mem_filterMap.mpr ⟨_, hp, rfl⟩)
      simp [deletedPiece, (deleted_eq_self_iff space).mpr hr, Option.guard]
  | inr c =>
      cases hc : space c with
      | false =>
          have hblank : isBlank c = false := by
            cases hblank : isBlank c with
            | false => rfl
            | true => rw [hspace.blank c hblank] at hc; cases hc
          simp [deletedPiece, hc, hblank, Option.guard]
      | true => simp [deletedPiece, hc, hps.blank c hp hc, Option.guard]

end GooglePerl.Lib.JsonText
