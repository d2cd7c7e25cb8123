import GooglePerl.Protobuf.Scalars

/-!
The varint kernel at a position of a string.

`_decode_varint` gets a reference to the data and one to the position, which it
advances. Here the position is an argument and a result, and a read past the
end, which Perl would answer with `undef` or a shorter string, is a way to stop
of its own. `decodeVarintAt_eq` says that this is the kernel on the unread part, so
that no such read happens.

What decoding undoes is in `kernels_inverse`.
-/

namespace GooglePerl.Protobuf

open GooglePerl.Lib

/-- Why a reader stops before it is done: the program dies, it reads past the end
of its string, it takes a turn of its loop that leaves the position where it
was, or it nests deeper than it may. -/
inductive Stop where
  | died (e : Die)
  | pastEnd
  | stuck
  | tooDeep

/-- `substr($$data_ref, $pos, $len)` -/
def substr (data : PerlStr) (pos len : ℕ) : Except Stop PerlStr :=
  if data.length < pos + len then .error .pastEnd else .ok ((data.drop pos).take len)

/-- `ord`: of the first character, and 0 of the empty string. -/
def ord (s : PerlStr) : ℕ := s.headD 0

theorem ord_singleton (char : ℕ) : ord [char] = char := rfl

/-- The loop of `_decode_varint` at a position: the value and the position after it. -/
def decodeVarintLoopAt (data : PerlStr) (val shift pos : ℕ) : Except Stop (ℕ × ℕ) :=
  if _h : data.length ≤ pos then .error (.died malformed)
  else do
    let char ← substr data pos 1
    let byte := ord char
    let val := val ||| ((byte &&& 0x7f) <<< shift)
    if byte &&& 0x80 = 0 then .ok (val, pos + 1)
    else if 70 ≤ shift + 7 then .error (.died malformed)
    else decodeVarintLoopAt data val (shift + 7) (pos + 1)
termination_by data.length - pos

/-- `_decode_varint` -/
def decodeVarintAt (data : PerlStr) (pos : ℕ) : Except Stop (ℕ × ℕ) :=
  decodeVarintLoopAt data 0 0 pos

/-- A read of the unread part of a string of length `size`, with the position after
it in place of what it leaves. -/
def positioned {α : Type} (size : ℕ) : Except Die (α × PerlStr) → Except Stop (α × ℕ)
  | .error e => .error (.died e)
  | .ok (a, rest) => .ok (a, size - rest.length)

theorem substr_eq {data : PerlStr} {pos len : ℕ} (h : pos + len ≤ data.length) :
    substr data pos len = .ok ((data.drop pos).take len) := by
  rw [substr, if_neg (by omega)]

/-- One character before the end is there to be read. -/
theorem substr_one {data : PerlStr} {pos : ℕ} (h : pos < data.length) :
    substr data pos 1 = .ok [data[pos]] := by
  rw [substr_eq h, List.drop_eq_getElem_cons h, List.take_succ_cons, List.take_zero]

theorem decodeVarintLoopAt_eq (data : PerlStr) (val shift pos : ℕ) :
    decodeVarintLoopAt data val shift pos =
      positioned data.length (decodeVarintLoop val shift (data.drop pos)) := by
  induction hn : data.length - pos generalizing val shift pos with
  | zero =>
      have hend : data.length ≤ pos := by omega
      rw [decodeVarintLoopAt, dif_pos hend, List.drop_eq_nil_of_le hend]
      rfl
  | succ n ih =>
      have hlt : pos < data.length := by omega
      rw [decodeVarintLoopAt, dif_neg (by omega), substr_one hlt, ok_bind,
        List.drop_eq_getElem_cons hlt, decodeVarintLoop, ord_singleton]
      by_cases hlast : data[pos] &&& 0x80 = 0
      · rw [if_pos hlast, if_pos hlast, positioned, List.length_drop]
        congr 2
        omega
      · rw [if_neg hlast, if_neg hlast]
        by_cases hfull : 70 ≤ shift + 7
        · rw [if_pos hfull, if_pos hfull]
          rfl
        · rw [if_neg hfull, if_neg hfull]
          exact ih _ _ _ (by omega)

/-- At a position the kernel reads what is unread. -/
theorem decodeVarintAt_eq (data : PerlStr) (pos : ℕ) :
    decodeVarintAt data pos = positioned data.length (decodeVarint (data.drop pos)) :=
  decodeVarintLoopAt_eq data 0 0 pos

/-- A varint between other bytes is read to its end and no further. -/
theorem decodeVarintAt_leb128 {n : ℕ} (h : n < 2 ^ 70) (before after : PerlStr) :
    decodeVarintAt (before ++ leb128 n ++ after) before.length =
      .ok (n, before.length + (leb128 n).length) := by
  rw [decodeVarintAt_eq, List.append_assoc, List.drop_left, decodeVarint_leb128 h, positioned]
  congr 2
  simp only [List.length_append]
  omega

/-- A read either dies or advances by one to ten characters within the string. -/
theorem decodeVarintAt_cases (data : PerlStr) (pos : ℕ) :
    decodeVarintAt data pos = .error (.died malformed) ∨
      ∃ v n, 1 ≤ n ∧ n ≤ 10 ∧ pos + n ≤ data.length ∧
        decodeVarintAt data pos = .ok (v, pos + n) := by
  rw [decodeVarintAt_eq]
  cases hread : decodeVarint (data.drop pos) with
  | error e =>
      obtain rfl := decodeVarintLoop_error hread
      exact .inl rfl
  | ok r =>
      obtain ⟨v, rest⟩ := r
      obtain ⟨used, hused, hpos, hten⟩ := decodeVarint_ok hread
      have hlength : data.length - pos = used.length + rest.length := by
        rw [← List.length_drop, hused, List.length_append]
      refine .inr ⟨v, used.length, hpos, hten, by omega, ?_⟩
      rw [positioned]
      congr 2
      omega

/-! ### The kernels are inverse -/

theorem decodeZigzag64_encodeZigzag64 {v : ℤ} (hlo : -2 ^ 63 ≤ v) (hhi : v < 2 ^ 63) :
    decodeZigzag64 (encodeZigzag64 v) = v := by
  rw [encodeZigzag64_eq hlo hhi, decodeZigzag64, shift_xor_eq_unzigzag (zigzag_nonneg v),
    unzigzag_zigzag]

theorem decodeZigzag32_encodeZigzag32 {v : ℤ} (hlo : -2 ^ 31 ≤ v) (hhi : v < 2 ^ 31) :
    decodeZigzag32 (encodeZigzag32 v) = v := by
  rw [encodeZigzag32_eq hlo hhi, ← Int.toNat_of_nonneg (zigzag_nonneg v)]
  exact decodeZigzag32_zigzag hlo hhi

/-- Decoding undoes encoding, for varints wherever they stand and for both zigzag
forms, whose codes fit their width; and a varint read never leaves its string. -/
theorem kernels_inverse :
    (∀ v : ℤ, -2 ^ 63 ≤ v → v < 2 ^ 64 → ∃ code, encodeVarint (some v) = .ok code ∧
      ∀ before after, decodeVarintAt (before ++ code ++ after) before.length =
        .ok ((v % 2 ^ 64).toNat, before.length + code.length)) ∧
    (∀ data pos, decodeVarintAt data pos = .error (.died malformed) ∨
      ∃ v n, 1 ≤ n ∧ n ≤ 10 ∧ pos + n ≤ data.length ∧
        decodeVarintAt data pos = .ok (v, pos + n)) ∧
    (∀ v : ℤ, -2 ^ 63 ≤ v → v < 2 ^ 63 → decodeZigzag64 (encodeZigzag64 v) = v ∧
      0 ≤ encodeZigzag64 v ∧ encodeZigzag64 v < 2 ^ 64) ∧
    ∀ v : ℤ, -2 ^ 31 ≤ v → v < 2 ^ 31 → decodeZigzag32 (encodeZigzag32 v) = v ∧
      0 ≤ encodeZigzag32 v ∧ encodeZigzag32 v < 2 ^ 32 := by
  refine ⟨?_, ?_, ?_, ?_⟩
  · intro v hlo hhi
    refine ⟨leb128 (varintOf v), encodeVarint_some (by omega), fun before after => ?_⟩
    rw [← varintOf_eq_emod (by omega) hhi]
    have hsize : varintOf v < 2 ^ 70 := by
      rw [varintOf_eq_emod (by omega) hhi]
      omega
    exact decodeVarintAt_leb128 hsize before after
  · intro data pos
    exact decodeVarintAt_cases data pos
  · intro v hlo hhi
    refine ⟨decodeZigzag64_encodeZigzag64 hlo hhi, ?_⟩
    rw [encodeZigzag64_eq hlo hhi]
    exact ⟨zigzag_nonneg v, zigzag_lt hlo hhi⟩
  · intro v hlo hhi
    refine ⟨decodeZigzag32_encodeZigzag32 hlo hhi, ?_⟩
    rw [encodeZigzag32_eq hlo hhi]
    exact ⟨zigzag_nonneg v, zigzag_lt hlo hhi⟩

end GooglePerl.Protobuf
