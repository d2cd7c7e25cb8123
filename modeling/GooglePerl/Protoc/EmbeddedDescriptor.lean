import GooglePerl.Lib.Base64
import GooglePerl.Protobuf.Value
import Mathlib.Data.Nat.Bitwise

/-!
The descriptor that `GenerateModule` of `protoc/generator.cc` writes into a module: base64 in a
heredoc.

The encoder writes four characters for three octets and a line end after every eighteen groups.
Without the line ends this is base64 as `MIME::Base64` writes it (`filter_descriptorText`), and a
line of base64 is never the terminator (`heredoc_descriptor`).
-/

namespace GooglePerl.Protoc

open GooglePerl.Lib GooglePerl.Protobuf

/-! ### The encoder -/

def b64Table : PerlStr := ps "ABCDEFGHIJKLMNOPQRSTUVWXYZabcdefghijklmnopqrstuvwxyz0123456789+/"

/-- `b64_table[(val >> shift) & 0x3F]` -/
def b64Digit (val shift : ℕ) : ℕ := b64Table.getD ((val >>> shift) &&& 0x3F) 0

/-- The line end after every eighteenth group; `i` counts the groups before this one. -/
def lineEnd (i : ℕ) : PerlStr := if (i + 1) % 18 = 0 then [10] else []

/-- The loop over `buf`, from the group `i` on. -/
def encodeFrom (i : ℕ) : List ℕ → PerlStr
  | a :: b :: c :: rest =>
      let val := a <<< 16 ||| b <<< 8 ||| c
      [b64Digit val 18, b64Digit val 12, b64Digit val 6, b64Digit val 0] ++ lineEnd i ++
        encodeFrom (i + 1) rest
  | [a, b] =>
      let val := a <<< 16 ||| b <<< 8
      [b64Digit val 18, b64Digit val 12, b64Digit val 6, 61] ++ lineEnd i
  | [a] =>
      let val := a <<< 16
      [b64Digit val 18, b64Digit val 12, 61, 61] ++ lineEnd i
  | [] => []

/-- What is written for the octets of a serialized descriptor. -/
def descriptorText (buf : List UInt8) : PerlStr := encodeFrom 0 (buf.map UInt8.toNat)

/-! ### Heredocs -/

/-- What Perl reads for `<<'t'`: the lines before the first line `t`, and what comes after that
line. -/
def heredoc (t s : PerlStr) : Option (PerlStr × PerlStr) :=
  let lines := s.splitOn 10
  if t ∈ lines then
    some ((lines.takeWhile (· ≠ t)).flatMap (· ++ [10]),
      [10].intercalate (lines.dropWhile (· ≠ t)).tail)
  else none

theorem flatMap_line_ends {lines : List PerlStr} (h : lines ≠ []) :
    lines.flatMap (· ++ [10]) = [10].intercalate lines ++ [10] := by
  induction lines with
  | nil => exact absurd rfl h
  | cons line lines ih =>
      cases lines with
      | nil => simp
      | cons line' lines =>
          rw [List.flatMap_cons, ih (by simp), List.intercalate_cons_cons]
          simp

/-- A heredoc ends at the first line that is its terminator. -/
theorem heredoc_append {t body : PerlStr} (ht : 10 ∉ t) (hbody : t ∉ body.splitOn 10)
    (after : PerlStr) :
    heredoc t (body ++ 10 :: (t ++ 10 :: after)) = some (body ++ [10], after) := by
  have hlines : (body ++ 10 :: (t ++ 10 :: after)).splitOn 10 =
      body.splitOn 10 ++ t :: after.splitOn 10 := by
    rw [List.splitOn_append_cons_self, List.splitOn_append_cons_self,
      List.splitOn_eq_singleton ht, List.singleton_append]
  have hne : ∀ line ∈ body.splitOn 10, decide (line ≠ t) = true := fun line hline =>
    decide_eq_true fun heq => hbody (heq ▸ hline)
  have hstop : decide (t ≠ t) = false := by simp
  simp only [heredoc, hlines]
  rw [if_pos (by simp), List.takeWhile_append_of_pos hne, List.dropWhile_append_of_pos hne,
    List.takeWhile_cons_of_neg (by simp), List.dropWhile_cons_of_neg (by simp), List.append_nil,
    flatMap_line_ends (List.splitOn_ne_nil 10 body), List.intercalate_splitOn, List.tail_cons,
    List.intercalate_splitOn]

/-! ### What is written -/

theorem b64Digit_eq (val shift : ℕ) :
    b64Digit val shift = base64Char (val / 2 ^ shift % 64) := by
  have htable : ∀ d < 64, b64Table.getD d 0 = base64Char d := by decide +kernel
  rw [b64Digit, Nat.shiftRight_eq_div_pow, show 0x3F = 2 ^ 6 - 1 from rfl,
    Nat.and_two_pow_sub_one_eq_mod]
  exact htable _ (Nat.mod_lt _ (by decide))

/-- Three octets as one number. -/
theorem octets_or {a b c : ℕ} (hb : b < 256) (hc : c < 256) :
    a <<< 16 ||| b <<< 8 ||| c = a * 65536 + b * 256 + c := by
  have hlow : b <<< 8 < 2 ^ 16 := by
    rw [Nat.shiftLeft_eq]
    omega
  have hhigh : a <<< 16 + b <<< 8 = (a * 256 + b) <<< 8 := by
    simp only [Nat.shiftLeft_eq]
    omega
  rw [← Nat.shiftLeft_add_eq_or_of_lt hlow, hhigh, ← Nat.shiftLeft_add_eq_or_of_lt hc,
    Nat.shiftLeft_eq]
  omega

theorem filter_lineEnd (i : ℕ) : (lineEnd i).filter (· ≠ 10) = [] := by
  unfold lineEnd
  split <;> rfl

theorem base64Char_ne_lineEnd (d : ℕ) : base64Char d ≠ 10 := by
  unfold base64Char
  split_ifs <;> omega

/-- The characters of a whole group. -/
theorem b64Digits_eq {a b c : ℕ} (ha : a < 256) (hb : b < 256) (hc : c < 256) :
    [18, 12, 6, 0].map (b64Digit (a <<< 16 ||| b <<< 8 ||| c)) =
      [base64Char (a / 4), base64Char (a % 4 * 16 + b / 16), base64Char (b % 16 * 4 + c / 64),
        base64Char (c % 64)] := by
  simp only [List.map_cons, List.map_nil, b64Digit_eq, octets_or hb hc, List.cons.injEq, and_true]
  refine ⟨congrArg _ ?_, congrArg _ ?_, congrArg _ ?_, congrArg _ ?_⟩ <;> omega

/-- The groups of the text, each with its line end. -/
theorem encodeFrom_cons {a b c : ℕ} (ha : a < 256) (hb : b < 256) (hc : c < 256) (i : ℕ)
    (rest : List ℕ) :
    encodeFrom i (a :: b :: c :: rest) =
      encodeBase64 [a, b, c] ++ (lineEnd i ++ encodeFrom (i + 1) rest) := by
  have hdigits := b64Digits_eq ha hb hc
  simp only [List.map_cons, List.map_nil] at hdigits
  rw [encodeFrom, hdigits]
  rfl

theorem encodeFrom_two {a b : ℕ} (ha : a < 256) (hb : b < 256) (i : ℕ) :
    encodeFrom i [a, b] = encodeBase64 [a, b] ++ lineEnd i := by
  have hdigits := b64Digits_eq ha hb (show 0 < 256 by decide)
  simp only [List.map_cons, List.map_nil, List.cons.injEq, Nat.or_zero] at hdigits
  obtain ⟨h18, h12, h6, -⟩ := hdigits
  rw [encodeFrom, h18, h12, h6]
  rfl

theorem encodeFrom_one {a : ℕ} (ha : a < 256) (i : ℕ) :
    encodeFrom i [a] = encodeBase64 [a] ++ lineEnd i := by
  have hdigits := b64Digits_eq ha (show 0 < 256 by decide) (show 0 < 256 by decide)
  simp only [List.map_cons, List.map_nil, List.cons.injEq, Nat.or_zero, Nat.zero_shiftLeft]
    at hdigits
  obtain ⟨h18, h12, -⟩ := hdigits
  rw [encodeFrom, h18, h12]
  rfl

/-- A group has four characters, and no line end among them. -/
theorem encodeBase64_group {l : List ℕ} (hne : l ≠ []) (hlen : l.length ≤ 3) :
    (encodeBase64 l).length = 4 ∧ 10 ∉ encodeBase64 l := by
  match l with
  | [a] => exact ⟨rfl, by simp [encodeBase64, (base64Char_ne_lineEnd _).symm]⟩
  | [a, b] => exact ⟨rfl, by simp [encodeBase64, (base64Char_ne_lineEnd _).symm]⟩
  | [a, b, c] => exact ⟨rfl, by simp [encodeBase64, (base64Char_ne_lineEnd _).symm]⟩
  | _ :: _ :: _ :: _ :: _ =>
      simp only [List.length_cons] at hlen
      omega

theorem filter_group {l : List ℕ} (hne : l ≠ []) (hlen : l.length ≤ 3) :
    (encodeBase64 l).filter (· ≠ 10) = encodeBase64 l :=
  List.filter_eq_self.mpr fun _ hd => decide_eq_true fun heq =>
    (encodeBase64_group hne hlen).2 (heq ▸ hd)

/-- Without the line ends the text is base64 as the decoder's module writes it. -/
theorem filter_encodeFrom (i : ℕ) {l : List ℕ} (h : ∀ c ∈ l, c < 256) :
    (encodeFrom i l).filter (· ≠ 10) = encodeBase64 l := by
  induction i, l using encodeFrom.induct with
  | case1 i a b c rest ih =>
      have hrest := ih fun d hd => h d (by simp [hd])
      rw [encodeFrom_cons (h a (by simp)) (h b (by simp)) (h c (by simp)), List.filter_append,
        List.filter_append, filter_group (by simp) (by simp), filter_lineEnd, hrest]
      rfl
  | case2 i a b =>
      rw [encodeFrom_two (h a (by simp)) (h b (by simp)), List.filter_append,
        filter_group (by simp) (by simp), filter_lineEnd, List.append_nil]
  | case3 i a =>
      rw [encodeFrom_one (h a (by simp)), List.filter_append, filter_group (by simp) (by simp),
        filter_lineEnd, List.append_nil]
  | case4 i => rfl

/-! ### Its lines -/

theorem splitOn_append_of_not_mem {g : PerlStr} (hg : 10 ∉ g) (s : PerlStr) :
    (g ++ s).splitOn 10 = (s.splitOn 10).modifyHead (g ++ ·) := by
  induction g with
  | nil =>
      cases hsplit : s.splitOn 10 with
      | nil => exact absurd hsplit (List.splitOn_ne_nil 10 s)
      | cons first rest => simp [hsplit]
  | cons c g ih =>
      rw [List.mem_cons, not_or] at hg
      rw [List.cons_append, List.splitOn_cons_eq_if_modifyHead,
        if_neg (by simpa using Ne.symm hg.1), ih hg.2, List.modifyHead_modifyHead]
      rfl

/-- Every line is made of whole groups. -/
def WholeGroups (s : PerlStr) : Prop := ∀ line ∈ s.splitOn 10, 4 ∣ line.length

theorem wholeGroups_nil : WholeGroups [] := by
  intro line hline
  rw [List.splitOn_nil, List.mem_singleton] at hline
  simp [hline]

theorem WholeGroups.group {g s : PerlStr} (hs : WholeGroups s) (hlen : g.length = 4)
    (hg : 10 ∉ g) : WholeGroups (g ++ s) := by
  intro line hline
  rw [splitOn_append_of_not_mem hg] at hline
  cases hsplit : s.splitOn 10 with
  | nil => exact absurd hsplit (List.splitOn_ne_nil 10 s)
  | cons first rest =>
      rw [hsplit, List.modifyHead_cons] at hline
      rcases List.mem_cons.mp hline with rfl | hline
      · rw [List.length_append, hlen]
        exact Nat.dvd_add (Nat.dvd_refl 4) (hs first (by simp [hsplit]))
      · exact hs line (by simp [hsplit, hline])

theorem WholeGroups.lineEnd {s : PerlStr} (hs : WholeGroups s) (i : ℕ) :
    WholeGroups (lineEnd i ++ s) := by
  unfold Protoc.lineEnd
  split
  · intro line hline
    rw [List.singleton_append, List.splitOn_cons_eq_if_modifyHead, if_pos (by simp)] at hline
    rcases List.mem_cons.mp hline with rfl | hline
    · exact ⟨0, rfl⟩
    · exact hs line hline
  · exact hs

theorem wholeGroups_encodeFrom (i : ℕ) {l : List ℕ} (h : ∀ c ∈ l, c < 256) :
    WholeGroups (encodeFrom i l) := by
  have hlast {l : List ℕ} (i : ℕ) (hne : l ≠ []) (hlen : l.length ≤ 3) :
      WholeGroups (encodeBase64 l ++ lineEnd i) := by
    obtain ⟨hfour, hline⟩ := encodeBase64_group hne hlen
    have hend := (wholeGroups_nil.lineEnd i).group hfour hline
    rwa [List.append_nil] at hend
  induction i, l using encodeFrom.induct with
  | case1 i a b c rest ih =>
      obtain ⟨hfour, hline⟩ := encodeBase64_group (l := [a, b, c]) (by simp) (by simp)
      rw [encodeFrom_cons (h a (by simp)) (h b (by simp)) (h c (by simp))]
      exact ((ih fun d hd => h d (by simp [hd])).lineEnd i).group hfour hline
  | case2 i a b =>
      rw [encodeFrom_two (h a (by simp)) (h b (by simp))]
      exact hlast i (by simp) (by simp)
  | case3 i a =>
      rw [encodeFrom_one (h a (by simp))]
      exact hlast i (by simp) (by simp)
  | case4 i => exact wholeGroups_nil

/-! ### What is read -/

theorem decodeBase64_filter (s : PerlStr) : decodeBase64 (s.filter (· ≠ 10)) = decodeBase64 s := by
  rw [decodeBase64, decodeBase64, List.filterMap_filter]
  refine congrArg decodeGroups (List.filterMap_congr fun c _ => ?_)
  by_cases hc : c = 10
  · subst hc
    rfl
  · simp [hc]

theorem octet_lt (buf : List UInt8) : ∀ c ∈ buf.map UInt8.toNat, c < 256 := by
  intro c hc
  obtain ⟨b, -, rfl⟩ := List.mem_map.mp hc
  exact b.toNat_lt

/-- The heredoc of a descriptor ends at its own terminator. -/
theorem heredoc_descriptor (buf : List UInt8) (after : PerlStr) :
    heredoc (ps "EOF") (descriptorText buf ++ ps "\nEOF\n" ++ after) =
      some (descriptorText buf ++ [10], after) := by
  have hterminator : ps "EOF" ∉ (descriptorText buf).splitOn 10 := by
    intro hmem
    have hgroups := wholeGroups_encodeFrom 0 (octet_lt buf) _ hmem
    revert hgroups
    decide
  have hheredoc := heredoc_append (by decide) hterminator after
  rw [List.append_assoc]
  exact hheredoc

/-- The heredoc decodes to the octets of the descriptor. -/
theorem decodeBase64_descriptor (buf : List UInt8) :
    decodeBase64 (descriptorText buf ++ [10]) = buf.map UInt8.toNat := by
  rw [decodeBase64_append (fun c hc => .inl (by rw [List.mem_singleton.mp hc]; rfl)),
    ← decodeBase64_filter, descriptorText, filter_encodeFrom 0 (octet_lt buf),
    decodeBase64_encodeBase64 (octet_lt buf)]

end GooglePerl.Protoc
