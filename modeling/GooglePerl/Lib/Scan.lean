import Mathlib.Data.List.Basic
import Mathlib.Data.List.Infix

/-!
Patterns tried at every place of a text, from the left, as a regular expression with `/g` is.

A matcher reads from the front of a text and leaves the rest. `pieces` cuts a text into what a
matcher finds and the symbols between; the first match, all matches and a replacement are read
off from that. A matcher that stops at a delimiter lets a text be scanned one stretch after
another (`pieces_append_cons`).
-/

namespace GooglePerl.Lib.Scan

variable {γ α β : Type}

/-- A pattern at the front of a text: what it captured and what is left. -/
abbrev Matcher (γ α : Type) := List γ → Option (α × List γ)

/-- A fixed text. -/
def literal [DecidableEq γ] : List γ → Matcher γ Unit
  | [], s => some ((), s)
  | _ :: _, [] => none
  | c :: w, x :: s => if x = c then literal w s else none

/-- `[…]*` -/
def many (p : γ → Bool) : Matcher γ (List γ) :=
  fun s => some (s.takeWhile p, s.dropWhile p)

/-- `[…]+` -/
def many1 (p : γ → Bool) : Matcher γ (List γ) :=
  fun s => if s.takeWhile p = [] then none else many p s

/-- The shortest stretch that ends in a fixed text: `.*?w` with `.` matching everything. -/
def upTo [DecidableEq γ] (w : List γ) : Matcher γ Unit
  | [] => literal w []
  | c :: s => (literal w (c :: s)).or (upTo w s)

def andThen (m : Matcher γ α) (f : α → Matcher γ β) : Matcher γ β :=
  fun s => (m s).bind fun r => f r.1 r.2

def orElse (m n : Matcher γ α) : Matcher γ α := fun s => (m s).or (n s)

def yields (a : α) : Matcher γ α := fun s => some (a, s)

/-- What a matcher finds, with the symbols between; the bound is on the places tried. -/
def piecesFrom (m : Matcher γ α) : ℕ → List γ → List (α ⊕ γ)
  | 0, _ => []
  | n + 1, s =>
      match m s with
      | some (a, r) => .inl a :: piecesFrom m n r
      | none =>
          match s with
          | [] => []
          | c :: s => .inr c :: piecesFrom m n s

def pieces (m : Matcher γ α) (s : List γ) : List (α ⊕ γ) := piecesFrom m s.length s

/-- The captures of `while (/m/g)`. -/
def findAll (m : Matcher γ α) (s : List γ) : List α := (pieces m s).filterMap Sum.getLeft?

/-- The captures of `/m/`. -/
def findFirst (m : Matcher γ α) (s : List γ) : Option α := (findAll m s).head?

/-- `s/m/f/g` -/
def replaceAll (m : Matcher γ α) (f : α → List γ) (s : List γ) : List γ :=
  (pieces m s).flatMap (Sum.elim f fun c => [c])

/-! ### Matching what is there -/

section

variable {m : Matcher γ α} {f : α → Matcher γ β} {p : γ → Bool} {s t w rest : List γ} {a : α}

theorem andThen_of_some (h : m s = some (a, t)) : andThen m f s = f a t := by
  rw [andThen, h, Option.bind_some]

theorem andThen_of_none (h : m s = none) : andThen m f s = none := by
  rw [andThen, h, Option.bind_none]

/-- A run of `p` ends where the text does. -/
def Stops (p : γ → Bool) (s : List γ) : Prop := ∀ c, s.head? = some c → p c = false

theorem stops_cons {c : γ} (h : p c = false) : Stops p (c :: s) := by
  intro d hd
  rw [List.head?_cons, Option.some.injEq] at hd
  rw [← hd, h]

theorem many_append (hw : ∀ c ∈ w, p c = true) (hrest : Stops p rest) :
    many p (w ++ rest) = some (w, rest) := by
  rw [many, List.takeWhile_append_of_pos hw, List.dropWhile_append_of_pos hw]
  cases rest with
  | nil => simp
  | cons c rest => simp [hrest c rfl]

theorem many1_append (hne : w ≠ []) (hw : ∀ c ∈ w, p c = true) (hrest : Stops p rest) :
    many1 p (w ++ rest) = some (w, rest) := by
  have htake : (w ++ rest).takeWhile p ≠ [] := by
    rw [List.takeWhile_append_of_pos hw]
    exact List.append_ne_nil_of_left_ne_nil hne _
  rw [many1, if_neg htake, many_append hw hrest]

end

/-! ### One place after another -/

/-- A match leaves an end of the text. -/
def Reads (m : Matcher γ α) : Prop :=
  ∀ s a r, m s = some (a, r) → r <:+ s

/-- A match leaves an end of the text and is not empty. -/
def Consumes (m : Matcher γ α) : Prop :=
  ∀ s a r, m s = some (a, r) → r <:+ s ∧ r.length < s.length

variable {m n : Matcher γ α} {s r u rest w : List γ} {a : α} {c d x y z : γ}

theorem Consumes.reads (hm : Consumes m) : Reads m :=
  fun s a r h => (hm s a r h).1

theorem Consumes.length_lt (hm : Consumes m) (h : m s = some (a, r)) : r.length < s.length :=
  (hm s a r h).2

theorem andThen_eq_some {f : α → Matcher γ β} {b : β} :
    andThen m f s = some (b, r) ↔ ∃ a t, m s = some (a, t) ∧ f a t = some (b, r) := by
  simp [andThen, Option.bind_eq_some_iff]

theorem Reads.andThen {f : α → Matcher γ β} (hm : Reads m) (hf : ∀ a, Reads (f a)) :
    Reads (andThen m f) := by
  intro s b r h
  obtain ⟨a, t, ht, hr⟩ := andThen_eq_some.mp h
  exact (hf a t b r hr).trans (hm s a t ht)

theorem Consumes.andThen {f : α → Matcher γ β} (hm : Consumes m) (hf : ∀ a, Reads (f a)) :
    Consumes (andThen m f) := by
  intro s b r h
  obtain ⟨a, t, ht, hr⟩ := andThen_eq_some.mp h
  have hsuffix := hf a t b r hr
  exact ⟨hsuffix.trans (hm s a t ht).1, hsuffix.length_le.trans_lt (hm.length_lt ht)⟩

theorem Consumes.orElse (hm : Consumes m) (hn : Consumes n) : Consumes (orElse m n) := by
  intro s a r h
  rcases Option.or_eq_some_iff.mp h with h | ⟨-, h⟩
  · exact hm s a r h
  · exact hn s a r h

theorem reads_yields (a : α) : Reads (γ := γ) (yields a) := by
  intro s b r h
  simp only [yields, Option.some.injEq, Prod.mk.injEq] at h
  rw [h.2]

theorem reads_many (p : γ → Bool) : Reads (many p) := by
  intro s b r h
  simp only [many, Option.some.injEq, Prod.mk.injEq] at h
  rw [← h.2]
  exact List.dropWhile_suffix p

theorem reads_many1 (p : γ → Bool) : Reads (many1 p) := by
  intro s b r h
  rw [many1] at h
  split at h
  · cases h
  · exact reads_many p s b r h

section
variable [DecidableEq γ]

theorem literal_eq_some {t : List γ} : literal w s = some ((), t) ↔ s = w ++ t := by
  induction w generalizing s with
  | nil => simp [literal]
  | cons c w ih =>
      cases s with
      | nil => simp [literal]
      | cons x s => by_cases hx : x = c <;> simp [literal, hx, ih]

theorem literal_append (w t : List γ) : literal w (w ++ t) = some ((), t) :=
  literal_eq_some.mpr rfl

theorem consumes_literal (h : w ≠ []) : Consumes (literal w) := by
  intro s a r hs
  rw [literal_eq_some.mp hs, List.length_append]
  have hlen := List.length_pos_iff.mpr h
  exact ⟨List.suffix_append w r, by omega⟩

theorem reads_upTo (h : w ≠ []) : Reads (upTo w) := by
  intro s a r hs
  induction s with
  | nil => exact (consumes_literal h).reads _ _ _ hs
  | cons c s ih =>
      rcases Option.or_eq_some_iff.mp hs with hs | ⟨-, hs⟩
      · exact (consumes_literal h).reads _ _ _ hs
      · exact (ih hs).trans (List.suffix_cons c s)

end

theorem Consumes.nil_eq_none (hm : Consumes m) : m [] = none := by
  cases h : m [] with
  | none => rfl
  | some p => exact absurd (hm.length_lt h) (by simp)

theorem piecesFrom_succ_of_some {k : ℕ} (h : m s = some (a, r)) :
    piecesFrom m (k + 1) s = .inl a :: piecesFrom m k r := by
  simp only [piecesFrom, h]

theorem piecesFrom_succ_of_none {k : ℕ} (h : m (c :: s) = none) :
    piecesFrom m (k + 1) (c :: s) = .inr c :: piecesFrom m k s := by
  simp only [piecesFrom, h]

theorem piecesFrom_nil (hm : Consumes m) (k : ℕ) : piecesFrom m k [] = [] := by
  cases k with
  | zero => rfl
  | succ k => simp only [piecesFrom, hm.nil_eq_none]

/-- A bound of the length is enough. -/
theorem piecesFrom_eq (hm : Consumes m) {k l : ℕ} (hk : s.length ≤ k) (hl : s.length ≤ l) :
    piecesFrom m k s = piecesFrom m l s := by
  induction k generalizing s l with
  | zero =>
      have hs : s = [] := List.length_eq_zero_iff.mp (by omega)
      rw [hs, piecesFrom_nil hm, piecesFrom_nil hm]
  | succ k ih =>
      cases s with
      | nil => rw [piecesFrom_nil hm, piecesFrom_nil hm]
      | cons c s =>
          rw [List.length_cons] at hk hl
          obtain ⟨l, rfl⟩ : ∃ j, l = j + 1 := ⟨l - 1, by omega⟩
          cases hc : m (c :: s) with
          | none =>
              rw [piecesFrom_succ_of_none hc, piecesFrom_succ_of_none hc,
                ih (by omega) (by omega : s.length ≤ l)]
          | some p =>
              have hr := hm.length_lt hc
              rw [List.length_cons] at hr
              rw [piecesFrom_succ_of_some hc, piecesFrom_succ_of_some hc,
                ih (by omega) (by omega : p.2.length ≤ l)]

theorem pieces_nil : pieces m [] = [] := rfl

theorem pieces_of_some (hm : Consumes m) (h : m s = some (a, r)) :
    pieces m s = .inl a :: pieces m r := by
  have hr := hm.length_lt h
  obtain ⟨k, hk⟩ : ∃ k, s.length = k + 1 := ⟨s.length - 1, by omega⟩
  rw [pieces, hk, piecesFrom_succ_of_some h, pieces,
    piecesFrom_eq hm (by omega : r.length ≤ k) le_rfl]

theorem pieces_cons_of_none (h : m (c :: s) = none) :
    pieces m (c :: s) = .inr c :: pieces m s := by
  rw [pieces, List.length_cons, piecesFrom_succ_of_none h, pieces]

@[simp] theorem findAll_nil : findAll m [] = [] := rfl

theorem findAll_of_some (hm : Consumes m) (h : m s = some (a, r)) :
    findAll m s = a :: findAll m r := by
  rw [findAll, pieces_of_some hm h, findAll]
  simp

theorem findAll_cons_of_none (h : m (c :: s) = none) : findAll m (c :: s) = findAll m s := by
  rw [findAll, pieces_cons_of_none h, List.filterMap_cons_none rfl, findAll]

theorem findFirst_of_some (h : m (c :: s) = some (a, r)) : findFirst m (c :: s) = some a := by
  rw [findFirst, findAll, pieces, List.length_cons, piecesFrom_succ_of_some h]
  rfl

/-- Nothing is found before the place where the rest begins. -/
theorem findFirst_skip (h : ∀ v, v ≠ [] → v <:+ u → m (v ++ rest) = none) :
    findFirst m (u ++ rest) = findFirst m rest := by
  induction u with
  | nil => rfl
  | cons c u ih =>
      have hhead : m (c :: (u ++ rest)) = none := h (c :: u) (List.cons_ne_nil c u) List.suffix_rfl
      rw [List.cons_append, findFirst, findAll_cons_of_none hhead]
      exact ih fun v hne hv => h v hne (hv.trans (List.suffix_cons c u))

@[simp] theorem replaceAll_nil {f : α → List γ} : replaceAll m f [] = [] := rfl

theorem replaceAll_of_some {f : α → List γ} (hm : Consumes m) (h : m s = some (a, r)) :
    replaceAll m f s = f a ++ replaceAll m f r := by
  rw [replaceAll, pieces_of_some hm h, replaceAll]
  simp

theorem replaceAll_cons_of_none {f : α → List γ} (h : m (c :: s) = none) :
    replaceAll m f (c :: s) = c :: replaceAll m f s := by
  rw [replaceAll, pieces_cons_of_none h, replaceAll]
  simp

/-- Every match is found at some place of the text. -/
theorem exists_of_mem_findAll (hm : Consumes m) (h : a ∈ findAll m s) :
    ∃ t r, t <:+ s ∧ m t = some (a, r) := by
  induction hlen : s.length using Nat.strong_induction_on generalizing s with
  | _ k ih =>
      cases hs : m s with
      | none =>
          cases s with
          | nil => simp at h
          | cons c s =>
              rw [findAll_cons_of_none hs] at h
              obtain ⟨t, r, ht, hmatch⟩ := ih s.length (by simp [← hlen]) h rfl
              exact ⟨t, r, ht.trans (List.suffix_cons c s), hmatch⟩
      | some p =>
          rw [findAll_of_some hm hs, List.mem_cons] at h
          rcases h with rfl | h
          · exact ⟨s, p.2, List.suffix_rfl, hs⟩
          · obtain ⟨hsuffix, hlt⟩ := hm _ _ _ hs
            obtain ⟨t, r, ht, hmatch⟩ := ih p.2.length (by omega) h rfl
            exact ⟨t, r, ht.trans hsuffix, hmatch⟩

/-! ### Stopping at a delimiter -/

/-- A match that begins before a delimiter ends before it. -/
def Before (d : γ) (m : Matcher γ α) : Prop :=
  ∀ u, (∃ a v, ∀ rest, m (u ++ d :: rest) = some (a, v ++ d :: rest)) ∨
    ∀ rest, m (u ++ d :: rest) = none

/-- A match that begins before a delimiter ends before it or right behind it. -/
def Within (d : γ) (m : Matcher γ α) : Prop :=
  ∀ u, (∃ a v, (v = [] ∨ ∃ t, v = t ++ [d]) ∧ ∀ rest, m (u ++ d :: rest) = some (a, v ++ rest)) ∨
    ∀ rest, m (u ++ d :: rest) = none

theorem Before.within (h : Before d m) : Within d m := by
  intro u
  rcases h u with ⟨a, v, hv⟩ | hnone
  · refine .inl ⟨a, v ++ [d], .inr ⟨v, rfl⟩, ?_⟩
    intro rest
    rw [hv rest, List.append_assoc, List.singleton_append]
  · exact .inr hnone

theorem Before.andThen {f : α → Matcher γ β} (hm : Before d m) (hf : ∀ a, Before d (f a)) :
    Before d (andThen m f) := by
  intro u
  rcases hm u with ⟨a, v, hv⟩ | hnone
  · rcases hf a v with ⟨b, t, ht⟩ | hnone
    · exact .inl ⟨b, t, fun rest => by simp [Scan.andThen, hv, ht]⟩
    · exact .inr fun rest => by simp [Scan.andThen, hv, hnone]
  · exact .inr fun rest => by simp [Scan.andThen, hnone]

theorem Before.andThen_within {f : α → Matcher γ β} (hm : Before d m)
    (hf : ∀ a, Within d (f a)) : Within d (Scan.andThen m f) := by
  intro u
  rcases hm u with ⟨a, v, hv⟩ | hnone
  · rcases hf a v with ⟨b, t, hend, ht⟩ | hnone
    · exact .inl ⟨b, t, hend, fun rest => by simp [Scan.andThen, hv, ht]⟩
    · exact .inr fun rest => by simp [Scan.andThen, hv, hnone]
  · exact .inr fun rest => by simp [Scan.andThen, hnone]

theorem Within.andThen_yields (hm : Within d m) (b : β) :
    Within d (Scan.andThen m fun _ => yields b) := by
  intro u
  rcases hm u with ⟨a, v, hend, hv⟩ | hnone
  · exact .inl ⟨b, v, hend, fun rest => by simp [Scan.andThen, hv, yields]⟩
  · exact .inr fun rest => by simp [Scan.andThen, hnone]

theorem Before.orElse (hm : Before d m) (hn : Before d n) : Before d (Scan.orElse m n) := by
  intro u
  rcases hm u with ⟨a, v, hv⟩ | hnone
  · exact .inl ⟨a, v, fun rest => by simp [Scan.orElse, hv]⟩
  · rcases hn u with ⟨a, v, hv⟩ | hnone'
    · exact .inl ⟨a, v, fun rest => by simp [Scan.orElse, hnone, hv]⟩
    · exact .inr fun rest => by simp [Scan.orElse, hnone, hnone']

theorem before_yields (a : α) : Before d (yields a) :=
  fun u => .inl ⟨a, u, fun _ => rfl⟩

theorem before_many {p : γ → Bool} (hd : p d = false) : Before d (many p) := by
  intro u
  refine .inl ⟨u.takeWhile p, u.dropWhile p, ?_⟩
  intro rest
  induction u with
  | nil => simp [many, hd]
  | cons c u ih =>
      simp only [many, Option.some.injEq, Prod.mk.injEq] at ih ⊢
      cases hc : p c <;> simp [hc, ih]

theorem takeWhile_append_cons {p : γ → Bool} (hd : p d = false) (u rest : List γ) :
    (u ++ d :: rest).takeWhile p = u.takeWhile p := by
  induction u with
  | nil => simp [hd]
  | cons c u ih => cases hc : p c <;> simp [hc, ih]

theorem before_many1 {p : γ → Bool} (hd : p d = false) : Before d (many1 p) := by
  intro u
  by_cases hu : u.takeWhile p = []
  · right
    intro rest
    rw [many1, takeWhile_append_cons hd, if_pos hu]
  · left
    obtain ⟨a, v, hv⟩ | hnone := before_many hd u
    · refine ⟨a, v, ?_⟩
      intro rest
      rw [many1, takeWhile_append_cons hd, if_neg hu, hv rest]
    · exact absurd (hnone []) (by simp [many])

variable [DecidableEq γ]

theorem before_literal (hd : d ∉ w) : Before d (literal w) := by
  induction w with
  | nil => exact fun u => .inl ⟨(), u, fun _ => rfl⟩
  | cons c w ih =>
      obtain ⟨hc, hw⟩ : d ≠ c ∧ d ∉ w := by simpa using hd
      intro u
      cases u with
      | nil => exact .inr fun rest => by simp [literal, hc]
      | cons x u =>
          by_cases hx : x = c
          · simpa [literal, hx] using ih hw u
          · exact .inr fun rest => by simp [literal, hx]

theorem within_literal_singleton (c : γ) : Within d (literal [c]) := by
  intro u
  cases u with
  | nil =>
      by_cases hc : d = c
      · exact .inl ⟨(), [], .inl rfl, fun rest => by simp [literal, hc]⟩
      · exact .inr fun rest => by simp [literal, hc]
  | cons x u =>
      by_cases hx : x = c
      · exact .inl ⟨(), u ++ [d], .inr ⟨u, rfl⟩, fun rest => by simp [literal, hx]⟩
      · exact .inr fun rest => by simp [literal, hx]

/-! ### Scanning stretch by stretch -/

omit [DecidableEq γ] in
/-- What is found up to a delimiter does not depend on what follows it. -/
theorem pieces_append_cons (hm : Consumes m) (hd : Within d m) (u rest : List γ) :
    pieces m (u ++ d :: rest) = pieces m (u ++ [d]) ++ pieces m rest := by
  -- on the length of the stretch: a match leaves a shorter one, a failure drops one symbol
  induction hlen : u.length using Nat.strong_induction_on generalizing u with
  | _ k ih =>
      rcases hd u with ⟨a, v, hend, hv⟩ | hnone
      · have hshort := hm.length_lt (hv [])
        rw [pieces_of_some hm (hv rest), pieces_of_some hm (hv [])]
        rcases hend with rfl | ⟨t, rfl⟩
        · simp [pieces_nil]
        · simp only [List.append_nil, List.length_append, List.length_cons, List.length_nil]
            at hshort
          rw [List.append_assoc, List.singleton_append, ih t.length (by omega) t rfl,
            List.append_nil, List.cons_append]
      · cases u with
        | nil =>
            rw [List.nil_append, List.nil_append, pieces_cons_of_none (hnone rest),
              pieces_cons_of_none (hnone [])]
            rfl
        | cons c u =>
            have hc := hnone rest
            have hc' := hnone []
            rw [List.cons_append] at hc hc'
            rw [List.cons_append, List.cons_append, pieces_cons_of_none hc,
              pieces_cons_of_none hc', ih u.length (by simp [← hlen]) u rfl, List.cons_append]

omit [DecidableEq γ] in
theorem findAll_append_cons (hm : Consumes m) (hd : Within d m) (u rest : List γ) :
    findAll m (u ++ d :: rest) = findAll m (u ++ [d]) ++ findAll m rest := by
  rw [findAll, pieces_append_cons hm hd, List.filterMap_append, findAll, findAll]

omit [DecidableEq γ] in
theorem replaceAll_append_cons {f : α → List γ} (hm : Consumes m) (hd : Within d m)
    (u rest : List γ) :
    replaceAll m f (u ++ d :: rest) = replaceAll m f (u ++ [d]) ++ replaceAll m f rest := by
  rw [replaceAll, pieces_append_cons hm hd, List.flatMap_append, replaceAll, replaceAll]

/-! ### Patterns that open with two symbols -/

omit [DecidableEq γ] in
theorem pair_infix_of_concat (h : [x, y] <:+: w ++ [z]) (hz : z ≠ y) : [x, y] <:+: w := by
  rcases List.infix_concat_iff.mp h with hend | hw
  · obtain ⟨t, ht⟩ := hend
    have hlast := congrArg List.getLast? ht
    simp only [List.getLast?_append, List.getLast?_cons_cons, List.getLast?_singleton,
      Option.some_or, Option.some.injEq] at hlast
    exact absurd hlast.symm hz
  · exact hw

omit [DecidableEq γ] in
theorem pair_infix_of_cons (h : [x, y] <:+: c :: w) (hc : c ≠ x) : [x, y] <:+: w := by
  rcases List.infix_cons_iff.mp h with hstart | hw
  · exact absurd (List.cons_prefix_cons.mp hstart).1.symm hc
  · exact hw

theorem andThen_literal_pair_eq_none {f : Unit → Matcher γ β} (h : ¬ (c = x ∧ s.head? = some y)) :
    andThen (literal [x, y]) f (c :: s) = none := by
  cases s with
  | nil => simp [andThen, literal]
  | cons z s =>
      by_cases hc : c = x
      · have hz : z ≠ y := by simpa [hc] using h
        simp [andThen, literal, hz]
      · simp [andThen, literal, hc]

/-- Where the opening does not occur, nothing is replaced. -/
theorem replaceAll_of_absent {f : Unit → Matcher γ β} {g : β → List γ}
    (h : ¬ [x, y] <:+: w ++ [z]) :
    replaceAll (andThen (literal [x, y]) f) g (w ++ z :: rest) =
      w ++ replaceAll (andThen (literal [x, y]) f) g (z :: rest) := by
  induction w with
  | nil => rfl
  | cons c w ih =>
      have hopen : ¬ (c = x ∧ (w ++ z :: rest).head? = some y) := by
        rintro ⟨rfl, hy⟩
        apply h
        refine List.IsPrefix.isInfix ?_
        cases w with
        | nil => simpa [eq_comm] using hy
        | cons b w => simpa [eq_comm] using hy
      rw [List.cons_append, List.cons_append,
        replaceAll_cons_of_none (andThen_literal_pair_eq_none hopen),
        ih fun hw => h (hw.trans ⟨[c], [], by simp⟩)]

theorem upTo_pair_append (h : ¬ [x, y] <:+: w) (hxy : x ≠ y) (rest : List γ) :
    upTo [x, y] (w ++ x :: y :: rest) = some ((), rest) := by
  induction w with
  | nil => simp [upTo, literal]
  | cons c w ih =>
      have hfail : literal [x, y] (c :: (w ++ x :: y :: rest)) = none := by
        cases hlit : literal [x, y] (c :: (w ++ x :: y :: rest)) with
        | none => rfl
        | some p =>
            exfalso
            have heq := literal_eq_some.mp hlit
            apply h
            refine List.IsPrefix.isInfix ?_
            cases w with
            | nil => simp_all
            | cons b w => simp_all
      rw [List.cons_append, upTo, hfail, Option.none_or,
        ih fun hw => h (hw.trans ⟨[c], [], by simp⟩)]

end GooglePerl.Lib.Scan
