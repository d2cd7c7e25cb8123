import GooglePerl.Lib.FixedWidth
import GooglePerl.Lib.Split

/-!
Forms in a URL: what a query is read as.

A query is cut at `&`, and a piece at its first `=`; then `+` is a space and `%` with two digits
an octet. Reading takes symbols away and puts none in their place, so a text is its own meaning
exactly if it has nothing that is read as something else (`plain_of_weight_le`), and names and
values can be joined as they are exactly if they are plain and hold no separator
(`perm_formDecode_iff`).
-/

namespace GooglePerl.Lib.FormUrl

/-- A text of a URL. -/
abbrev Text := List ℕ

/-- A `+` is a space. -/
def plus (c : ℕ) : ℕ := if c = 43 then 32 else c

/-- `%` and two digits are an octet, and other marks of percent stay. -/
def unescape : Text → Text
  | [] => []
  | [c] => [plus c]
  | [c, d] => [plus c, plus d]
  | c :: h :: l :: s =>
      if c = 37 ∧ isHexDigit h ∧ isHexDigit l then
        (16 * hexNibble h + hexNibble l) :: unescape s
      else plus c :: unescape (h :: l :: s)

/-- A piece of a query, cut at its first `=`. -/
def decodePair (piece : Text) : Text × Text :=
  (unescape (piece.takeWhile (· ≠ 61)), unescape (piece.dropWhile (· ≠ 61)).tail)

/-- The names and values of a query. -/
def formDecode (query : Text) : List (Text × Text) :=
  ((query.splitOn 38).filter (· ≠ [])).map decodePair

/-- The parts of a URL in front of its fragment. -/
structure Parts where
  origin : Text
  path : Text
  query : Text

/-- What ends the name of a host. -/
def endsHost (c : ℕ) : Bool := c = 47 ∨ c = 63 ∨ c = 35

/-- What ends a path. -/
def endsPath (c : ℕ) : Bool := c = 63 ∨ c = 35

/-- The parts of `scheme://host/path?query#fragment`. -/
def split (url : Text) : Parts :=
  let scheme := url.takeWhile (· ≠ 58)
  let rest := url.drop (scheme.length + 3)
  let behind := rest.dropWhile fun c => !endsHost c
  let more := behind.dropWhile fun c => !endsPath c
  { origin := scheme ++ [58, 47, 47] ++ rest.takeWhile fun c => !endsHost c
    path := behind.takeWhile fun c => !endsPath c
    query := if more.head? = some 63 then more.tail.takeWhile (· ≠ 35) else [] }

/-! ### Plain texts -/

/-- Nothing in a text is read as something else. -/
structure Plain (s : Text) : Prop where
  no_plus : 43 ∉ s
  no_escape : ∀ h l, isHexDigit h → isHexDigit l → ¬ [37, h, l] <:+: s

/-- How much there is to read: a `+` weighs more than the space it is read as. -/
def weight : Text → ℕ
  | [] => 0
  | c :: s => (if c = 43 then 2 else 1) + weight s

theorem weight_append (s t : Text) : weight (s ++ t) = weight s + weight t := by
  induction s with
  | nil => simp [weight]
  | cons c s ih => simp [weight, ih, Nat.add_assoc]

theorem one_le_weight_cons (c : ℕ) (s : Text) : 1 + weight s ≤ weight (c :: s) := by
  rw [weight]
  split <;> omega

theorem weight_cons_le (c : ℕ) (s : Text) : weight (c :: s) ≤ 2 + weight s := by
  rw [weight]
  split <;> omega

theorem weight_plus_le (c : ℕ) : weight [plus c] ≤ weight [c] := by
  unfold plus
  split <;> simp_all [weight]

theorem weight_unescape_le (s : Text) : weight (unescape s) ≤ weight s := by
  fun_induction unescape s with
  | case1 => exact le_rfl
  | case2 c => exact weight_plus_le c
  | case3 c d =>
      have hc := weight_plus_le c
      have hd := weight_plus_le d
      simp only [weight] at *
      omega
  | case4 c h l s hhex ih =>
      have hh := one_le_weight_cons h (l :: s)
      have hl := one_le_weight_cons l s
      simp only [weight] at *
      split <;> omega
  | case5 c h l s hhex ih =>
      have hc := weight_plus_le c
      simp only [weight] at *
      omega

theorem plain_nil : Plain [] := ⟨by simp, fun _ _ _ _ h => by simp at h⟩

theorem Plain.of_cons {c : ℕ} {s : Text} (h : Plain (c :: s)) : Plain s :=
  ⟨fun hs => h.no_plus (List.mem_cons_of_mem _ hs),
    fun x y hx hy hs => h.no_escape x y hx hy (hs.trans (List.suffix_cons c s).isInfix)⟩

theorem Plain.plus_eq {c : ℕ} {s : Text} (h : Plain (c :: s)) : plus c = c := by
  rw [plus, if_neg]
  rintro rfl
  exact h.no_plus List.mem_cons_self

theorem unescape_of_plain {s : Text} (hs : Plain s) : unescape s = s := by
  fun_induction unescape s with
  | case1 => rfl
  | case2 c => rw [hs.plus_eq]
  | case3 c d => rw [hs.plus_eq, hs.of_cons.plus_eq]
  | case4 c h l s hhex =>
      obtain ⟨rfl, hh, hl⟩ := hhex
      exact absurd (List.prefix_append [37, h, l] s).isInfix (hs.no_escape h l hh hl)
  | case5 c h l s hhex ih => rw [hs.plus_eq, ih hs.of_cons]

/-- A text that does not lose weight is plain. -/
theorem plain_of_weight_le {s : Text} (hs : weight s ≤ weight (unescape s)) : Plain s := by
  -- unescaping keeps the weight of a character only if it is no plus
  have hplus : ∀ c, weight [c] ≤ weight [plus c] → c ≠ 43 := by
    rintro _ hc rfl
    exact absurd hc (by decide)
  fun_induction unescape s with
  | case1 => exact plain_nil
  | case2 c =>
      refine ⟨by simpa [eq_comm] using hplus c hs, fun h l _ _ hinf => ?_⟩
      simpa using hinf.length_le
  | case3 c d =>
      have hc := weight_plus_le c
      have hd := weight_plus_le d
      have hc' := hplus c
      have hd' := hplus d
      simp only [weight] at *
      refine ⟨?_, fun h l _ _ hinf => ?_⟩
      · rw [List.mem_cons, List.mem_singleton]
        rintro (rfl | rfl)
        · exact hc' (by omega) rfl
        · exact hd' (by omega) rfl
      · simpa using hinf.length_le
  | case4 c h l s hhex ih =>
      have hle := weight_unescape_le s
      have hc := one_le_weight_cons c (h :: l :: s)
      have hh := one_le_weight_cons h (l :: s)
      have hl := one_le_weight_cons l s
      have hoctet := weight_cons_le (16 * hexNibble h + hexNibble l) (unescape s)
      omega
  | case5 c h l s hhex ih =>
      have hc := weight_plus_le c
      have hle := weight_unescape_le (h :: l :: s)
      have hc' := hplus c
      have hrest : Plain (h :: l :: s) := by
        refine ih ?_
        simp only [weight] at *
        omega
      have hne : c ≠ 43 := by
        refine hc' ?_
        simp only [weight] at *
        omega
      refine ⟨fun hmem => ?_, fun x y hx hy hinf => ?_⟩
      · rcases List.mem_cons.mp hmem with heq | hmem
        · exact hne heq.symm
        · exact hrest.no_plus hmem
      · rcases List.infix_cons_iff.mp hinf with hpre | hinf
        · obtain ⟨t, ht⟩ := hpre
          simp only [List.cons_append, List.cons.injEq] at ht
          obtain ⟨rfl, rfl, rfl, -⟩ := ht
          exact hhex ⟨rfl, hx, hy⟩
        · exact hrest.no_escape x y hx hy hinf

/-! ### What is lost with separators -/

/-- The weight of a query without its separators: the state is whether there was a `=` in the
piece. -/
def cost : Bool → Text → ℕ
  | _, [] => 0
  | seen, c :: s =>
      if c = 38 then cost false s
      else if c = 61 ∧ seen = false then cost true s
      else weight [c] + cost seen s

/-- The state behind a text. -/
def after : Bool → Text → Bool
  | seen, [] => seen
  | seen, c :: s => if c = 38 then after false s else after (seen || c = 61) s

theorem cost_append (seen : Bool) (s t : Text) :
    cost seen (s ++ t) = cost seen s + cost (after seen s) t := by
  induction s generalizing seen with
  | nil => simp [cost, after]
  | cons c s ih =>
      by_cases hamp : c = 38
      · simp [cost, after, hamp, ih]
      · by_cases heq : c = 61
        · cases seen <;> simp [cost, after, heq, ih, Nat.add_assoc]
        · simp [cost, after, hamp, heq, ih, Nat.add_assoc]

/-- A `=` that is not counted, and a `&`, make the cost less than the weight. -/
theorem cost_add_le (seen : Bool) (s : Text) :
    cost seen s + (if after seen s ∧ seen = false then 1 else 0) + (if 38 ∈ s then 1 else 0) ≤
      weight s := by
  induction s generalizing seen with
  | nil => cases seen <;> simp [cost, after, weight]
  | cons c s ih =>
      by_cases hamp : c = 38
      · have hs := ih false
        subst hamp
        simp only [cost, after, weight, List.mem_cons, true_or, if_true, and_true] at hs ⊢
        split at hs <;> split <;> simp_all <;> omega
      · have hmem : 38 ∈ c :: s ↔ 38 ∈ s := by
          simp [Ne.symm hamp]
        by_cases heq : c = 61
        · have hs := ih true
          have hafter : (if after true s = true ∧ seen = false then 1 else 0) ≤
              if seen = false then 1 else 0 := by
            cases seen <;> simp; split <;> omega
          subst heq
          simp only [cost, after, hmem, weight, Bool.true_eq_false, and_false, if_false,
            decide_true, Bool.or_true] at hs ⊢
          cases seen <;> simp at hafter ⊢ <;> omega
        · have hs := ih seen
          simp only [cost, after, hamp, heq, if_false, false_and, hmem, decide_false,
            Bool.or_false, weight] at hs ⊢
          omega

/-- An entry of a form costs what its name and its value weigh, less what separators in them
take. -/
theorem cost_entry_add_le (k v : Text) :
    cost false (k ++ 61 :: v) + (if 38 ∈ k ∨ 38 ∈ v then 1 else 0) ≤ weight k + weight v := by
  have hk := cost_add_le false k
  have hv := cost_add_le true v
  have hamp : (if 38 ∈ k ∨ 38 ∈ v then 1 else 0) ≤
      (if 38 ∈ k then 1 else 0) + if 38 ∈ v then 1 else 0 := by
    by_cases hmemk : 38 ∈ k <;> by_cases hmemv : 38 ∈ v <;> simp [hmemk, hmemv]
  rw [cost_append]
  cases hafter : after false k <;> simp [cost, hafter, weight] at hk hv ⊢ <;> omega

theorem takeWhile_ne_append {a : ℕ} {s : Text} (hs : a ∉ s) (t : Text) :
    (s ++ a :: t).takeWhile (· ≠ a) = s ∧ (s ++ a :: t).dropWhile (· ≠ a) = a :: t := by
  rw [List.takeWhile_append_of_pos (decide_ne_of_not_mem hs),
    List.dropWhile_append_of_pos (decide_ne_of_not_mem hs)]
  simp

theorem takeWhile_ne_of_not_mem {a : ℕ} {s : Text} (hs : a ∉ s) :
    s.takeWhile (· ≠ a) = s ∧ s.dropWhile (· ≠ a) = [] :=
  ⟨List.takeWhile_eq_self_iff.mpr (decide_ne_of_not_mem hs),
    List.dropWhile_eq_nil_iff.mpr (decide_ne_of_not_mem hs)⟩

theorem cost_takeWhile_le (seen : Bool) (s : Text) :
    cost seen (s.takeWhile (· ≠ 35)) + (if 35 ∈ s then 1 else 0) ≤ cost seen s := by
  by_cases hs : 35 ∈ s
  · obtain ⟨a, b, rfl, ha⟩ := List.eq_append_cons_of_mem hs
    rw [(takeWhile_ne_append ha b).1, if_pos hs, cost_append]
    simp [cost, weight]
  · rw [(takeWhile_ne_of_not_mem hs).1, if_neg hs]
    exact le_rfl

/-! ### What a query is read as -/

theorem formDecode_append (s t : Text) :
    formDecode (s ++ 38 :: t) = formDecode s ++ formDecode t := by
  rw [formDecode, List.splitOn_append_cons_self, List.filter_append, List.map_append]
  rfl

theorem formDecode_of_not_mem {s : Text} (hs : 38 ∉ s) :
    formDecode s = if s = [] then [] else [decodePair s] := by
  have hsplit : s.splitOn 38 = [s] := by
    rw [List.splitOn_eq_splitOnP]
    exact List.splitOnP_eq_singleton fun c hc => by
      rw [beq_eq_false_iff_ne]
      rintro rfl
      exact hs hc
  rw [formDecode, hsplit]
  split <;> simp_all

/-- The sum of a weight over a list. -/
def total {α : Type} (w : α → ℕ) : List α → ℕ
  | [] => 0
  | a :: l => w a + total w l

theorem total_append {α : Type} (w : α → ℕ) (l m : List α) :
    total w (l ++ m) = total w l + total w m := by
  induction l with
  | nil => simp [total]
  | cons a l ih => simp [total, ih, Nat.add_assoc]

theorem total_perm {α : Type} (w : α → ℕ) {l m : List α} (h : l.Perm m) :
    total w l = total w m := by
  induction h with
  | nil => rfl
  | cons a _ ih => simp [total, ih]
  | swap a b l =>
      simp only [total]
      omega
  | trans _ _ ih ih' => exact ih.trans ih'

/-- A map that makes nothing heavier and permutes a list keeps every weight. -/
theorem weight_map_of_perm {α : Type} {w : α → ℕ} {f : α → α} {l : List α}
    (hle : ∀ a ∈ l, w (f a) ≤ w a) (h : (l.map f).Perm l) : ∀ a ∈ l, w (f a) = w a := by
  have hsum := total_perm w h
  have hmap : ∀ m : List α, (∀ a ∈ m, w (f a) ≤ w a) → total w (m.map f) ≤ total w m ∧
      (total w (m.map f) = total w m → ∀ a ∈ m, w (f a) = w a) := by
    intro m hm
    induction m with
    | nil => simp
    | cons a m ih =>
        have ha := hm a List.mem_cons_self
        obtain ⟨hrest, heq⟩ := ih fun b hb => hm b (List.mem_cons_of_mem _ hb)
        simp only [List.map_cons, total]
        refine ⟨by omega, fun htotal => ?_⟩
        rw [List.forall_mem_cons]
        exact ⟨by omega, heq (by omega)⟩
  exact (hmap l hle).2 hsum

/-- The weight of a name and a value. -/
def pairWeight (e : Text × Text) : ℕ := weight e.1 + weight e.2

theorem cost_of_not_mem {seen : Bool} {s : Text} (hamp : 38 ∉ s) (heq : seen = true ∨ 61 ∉ s) :
    cost seen s = weight s := by
  induction s with
  | nil => rfl
  | cons c s ih =>
      rw [List.mem_cons, not_or] at hamp
      have hc : ¬ (c = 61 ∧ seen = false) := by
        rintro ⟨rfl, hseen⟩
        rcases heq with hseen' | hmem
        · simp [hseen] at hseen'
        · exact hmem List.mem_cons_self
      have hrest : seen = true ∨ 61 ∉ s :=
        heq.imp_right fun hmem hs => hmem (List.mem_cons_of_mem _ hs)
      rw [cost, if_neg (Ne.symm hamp.1), if_neg hc, ih hamp.2 hrest]
      simp [weight]

theorem pairWeight_decodePair_le {p : Text} (hp : 38 ∉ p) :
    pairWeight (decodePair p) ≤ cost false p := by
  rw [decodePair, pairWeight]
  by_cases heq : 61 ∈ p
  · obtain ⟨a, b, rfl, ha⟩ := List.eq_append_cons_of_mem heq
    have hamp : 38 ∉ a ∧ 38 ∉ b := by simpa using hp
    have hcost : cost false (a ++ 61 :: b) = cost (after false a) (61 :: b) + weight a := by
      rw [cost_append, cost_of_not_mem hamp.1 (.inr ha), Nat.add_comm]
    have hb : weight b ≤ cost (after false a) (61 :: b) := by
      have hb : cost true b = weight b := cost_of_not_mem hamp.2 (.inl rfl)
      cases after false a <;> simp [cost, hb]
    have hname := weight_unescape_le a
    have hvalue := weight_unescape_le b
    rw [(takeWhile_ne_append ha b).1, (takeWhile_ne_append ha b).2, List.tail_cons, hcost,
      Nat.add_comm]
    exact Nat.add_le_add (hvalue.trans hb) hname
  · rw [(takeWhile_ne_of_not_mem heq).1, (takeWhile_ne_of_not_mem heq).2,
      cost_of_not_mem hp (.inr heq)]
    exact weight_unescape_le p

/-- Reading a query gives no more than it costs. -/
theorem total_formDecode_le (q : Text) : total pairWeight (formDecode q) ≤ cost false q := by
  induction hlen : q.length using Nat.strong_induction_on generalizing q with
  | _ n ih =>
      by_cases hamp : 38 ∈ q
      · obtain ⟨a, b, rfl, ha⟩ := List.eq_append_cons_of_mem hamp
        have hla : a.length < n := by simp [← hlen]
        have hlb : b.length < n := by simp [← hlen]; omega
        have hdecode := ih a.length hla a rfl
        have hrest := ih b.length hlb b rfl
        rw [formDecode_append, total_append, cost_append]
        have hcost : cost (after false a) (38 :: b) = cost false b := by simp [cost]
        omega
      · rw [formDecode_of_not_mem hamp]
        split
        · exact Nat.zero_le _
        · exact pairWeight_decodePair_le hamp

/-! ### Names and values as they are -/

/-- A name and a value as they are. -/
def entryText (e : Text × Text) : Text := e.1 ++ 61 :: e.2

/-- Names and values joined as they are. -/
def formText (es : List (Text × Text)) : Text := [38].intercalate (es.map entryText)

/-- Nothing in a name or in a value is read as something else, or ends it. -/
structure CleanEntry (e : Text × Text) : Prop where
  name : Plain e.1
  value : Plain e.2
  name_ends : 61 ∉ e.1
  no_amp : 38 ∉ e.1 ∧ 38 ∉ e.2
  no_hash : 35 ∉ e.1 ∧ 35 ∉ e.2

variable {es : List (Text × Text)}

theorem formText_cons (e : Text × Text) (h : es ≠ []) :
    formText (e :: es) = entryText e ++ 38 :: formText es := by
  obtain ⟨a, l, rfl⟩ := List.exists_cons_of_ne_nil h
  simp [formText, List.intercalate_cons_cons]

theorem formText_singleton (e : Text × Text) : formText [e] = entryText e := by
  simp [formText]

theorem decodePair_entryText {e : Text × Text} (h : CleanEntry e) :
    decodePair (entryText e) = e := by
  have hcut := takeWhile_ne_append h.name_ends e.2
  rw [decodePair, entryText, hcut.1, hcut.2, List.tail_cons, unescape_of_plain h.name,
    unescape_of_plain h.value]

/-- A query whose entries have no `&` is read one entry after another. -/
theorem formDecode_formText (h : ∀ e ∈ es, 38 ∉ entryText e) :
    formDecode (formText es) = es.map fun e => decodePair (entryText e) := by
  induction es with
  | nil => rfl
  | cons e es ih =>
      have he : formDecode (entryText e) = [decodePair (entryText e)] := by
        rw [formDecode_of_not_mem (h e List.mem_cons_self), if_neg (by simp [entryText])]
      have hrest := ih fun d hd => h d (List.mem_cons_of_mem _ hd)
      by_cases hes : es = []
      · subst hes
        rw [formText_singleton, he]
        rfl
      · rw [formText_cons e hes, formDecode_append, he, hrest]
        rfl

theorem cost_formText_add_le (es : List (Text × Text)) :
    cost false (formText es) + (if ∃ e ∈ es, 38 ∈ e.1 ∨ 38 ∈ e.2 then 1 else 0) ≤
      total pairWeight es := by
  induction es with
  | nil => simp [formText, cost, total]
  | cons e es ih =>
      have he := cost_entry_add_le e.1 e.2
      have hsplit : cost false (formText (e :: es)) ≤
          cost false (entryText e) + cost false (formText es) := by
        by_cases hes : es = []
        · subst hes
          simp [formText_singleton]
        · rw [formText_cons e hes, cost_append]
          simp [cost]
      have hex : (if ∃ d ∈ e :: es, 38 ∈ d.1 ∨ 38 ∈ d.2 then 1 else 0) ≤
          (if 38 ∈ e.1 ∨ 38 ∈ e.2 then 1 else 0) +
            if ∃ d ∈ es, 38 ∈ d.1 ∨ 38 ∈ d.2 then 1 else 0 := by
        simp only [List.exists_mem_cons_iff]
        by_cases hd : 38 ∈ e.1 ∨ 38 ∈ e.2
        · simp only [hd, true_or, if_true]
          exact Nat.le_add_right _ _
        · simp only [hd, false_or, if_false, Nat.zero_add, le_refl]
      rw [total, pairWeight]
      unfold entryText at hsplit
      omega

theorem not_mem_formText {a : ℕ} (ha : a ≠ 38) : a ∈ formText es → ∃ e ∈ es, a ∈ entryText e := by
  intro h
  induction es with
  | nil => simp [formText] at h
  | cons e es ih =>
      rw [List.exists_mem_cons_iff]
      by_cases hes : es = []
      · subst hes
        exact .inl (by rwa [formText_singleton] at h)
      · rw [formText_cons e hes, List.mem_append, List.mem_cons] at h
        rcases h with h | h | h
        · exact .inl h
        · exact absurd h ha
        · exact .inr (ih h)

theorem mem_formText {a : ℕ} {e : Text × Text} (he : e ∈ es) (ha : a ∈ entryText e) :
    a ∈ formText es := by
  induction es with
  | nil => exact absurd he List.not_mem_nil
  | cons d es ih =>
      by_cases hes : es = []
      · subst hes
        rw [formText_singleton, ← List.mem_singleton.mp he]
        exact ha
      · rw [formText_cons d hes, List.mem_append, List.mem_cons]
        rcases List.mem_cons.mp he with rfl | he
        · exact .inl ha
        · exact .inr (.inr (ih he))

/-- The name that is read weighs no more than the one that is written, and less unless it is plain
and does not end early. -/
theorem weight_name_le (e : Text × Text) :
    weight (decodePair (entryText e)).1 ≤ weight e.1 ∧
      (weight (decodePair (entryText e)).1 = weight e.1 → 61 ∉ e.1 ∧ Plain e.1) := by
  rw [decodePair, entryText]
  by_cases hmem : 61 ∈ e.1
  · obtain ⟨a, b, hab, ha⟩ := List.eq_append_cons_of_mem hmem
    have hle := weight_unescape_le a
    have hlt : weight a < weight e.1 := by
      have hb := one_le_weight_cons 61 b
      rw [hab, weight_append]
      omega
    rw [hab, List.append_assoc, List.cons_append, (takeWhile_ne_append ha _).1, ← hab]
    have hread := hle.trans_lt hlt
    exact ⟨hread.le, fun h => absurd h hread.ne⟩
  · rw [(takeWhile_ne_append hmem e.2).1]
    exact ⟨weight_unescape_le e.1, fun h => ⟨hmem, plain_of_weight_le h.ge⟩⟩

/-- Names and values joined as they are, and read up to a fragment, are what is read exactly if
all are clean. -/
theorem perm_formDecode_iff :
    (formDecode ((formText es).takeWhile (· ≠ 35))).Perm es ↔ ∀ e ∈ es, CleanEntry e := by
  constructor
  · intro h
    -- a permutation keeps the total weight, and reading can only lose some
    have htotal := total_perm pairWeight h
    have hread := total_formDecode_le ((formText es).takeWhile (· ≠ 35))
    have hhash := cost_takeWhile_le false (formText es)
    have hamp := cost_formText_add_le es
    have hno35 : 35 ∉ formText es := by
      intro hmem
      rw [if_pos hmem] at hhash
      omega
    have hno38 : ∀ e ∈ es, 38 ∉ e.1 ∧ 38 ∉ e.2 := by
      intro e he
      by_contra hnot
      rw [if_pos ⟨e, he, by tauto⟩] at hamp
      omega
    rw [(takeWhile_ne_of_not_mem hno35).1, formDecode_formText fun e he => by
      simp [entryText, hno38 e he]] at h
    -- pair by pair nothing may be lost either, neither in the names nor in the values
    have hname : ∀ e ∈ es, 61 ∉ e.1 ∧ Plain e.1 := fun e he =>
      (weight_name_le e).2 (weight_map_of_perm (w := fun e => weight e.1)
        (fun d _ => (weight_name_le d).1) h e he)
    have hread : ∀ e ∈ es, (decodePair (entryText e)).2 = unescape e.2 := fun e he => by
      rw [decodePair, entryText, (takeWhile_ne_append (hname e he).1 e.2).2, List.tail_cons]
    have hvalue : ∀ e ∈ es, Plain e.2 := fun e he => by
      refine plain_of_weight_le ?_
      rw [← hread e he]
      exact (weight_map_of_perm (w := fun e => weight e.2)
        (fun d hd => (hread d hd).symm ▸ weight_unescape_le d.2) h e he).ge
    intro e he
    have hhash : ∀ a ∈ entryText e, a ≠ 35 := by
      rintro _ ha rfl
      exact hno35 (mem_formText he ha)
    exact ⟨(hname e he).2, hvalue e he, (hname e he).1, hno38 e he,
      fun hmem => hhash 35 (by simp [entryText, hmem]) rfl,
      fun hmem => hhash 35 (by simp [entryText, hmem]) rfl⟩
  · intro h
    have hno35 : 35 ∉ formText es := by
      intro hmem
      obtain ⟨e, he, hmem⟩ := not_mem_formText (by decide) hmem
      simp [entryText, (h e he).no_hash] at hmem
    rw [(takeWhile_ne_of_not_mem hno35).1, formDecode_formText fun e he => by
      simp [entryText, (h e he).no_amp]]
    rw [List.map_congr_left fun e he => decodePair_entryText (h e he), List.map_id']

end GooglePerl.Lib.FormUrl
