import GooglePerl.Protobuf.ParseLoop
import GooglePerl.Protobuf.ReadPositions

/-!
`parse_into` with its positions: what it reads, how far each turn of its loop
gets and how deep its sub-messages nest.

The parser of `Parse` goes from a string to what is left of it and cannot read
past its end. The one here keeps the data and a position, as the code does. A
`substr` past the end, a turn of the loop that does not advance and a
sub-message beyond the allowed depth each stop it in their own way. That it is
the parser of `Parse` (`parseIntoAt_eq`) says that none of these ever happens:
it dies, or it returns at the end of its input.
-/

namespace GooglePerl.Protobuf

open GooglePerl.Lib

/-- What dies in a part of the program that reads nothing. -/
def died {α : Type} (x : Except Die α) : Except Stop α := x.mapError .died

/-- `_skip_field`: the position after the payload. -/
def skipFieldAt (data : PerlStr) (pos wire : ℕ) : Except Stop ℕ :=
  match wire with
  | 0 => (decodeVarintAt data pos).map Prod.snd
  | 1 => if data.length < pos + 8 then .error (.died malformed) else .ok (pos + 8)
  | 2 => do
      let (len, pos) ← decodeVarintAt data pos
      if data.length < pos + len then .error (.died malformed) else .ok (pos + len)
  | 5 => if data.length < pos + 4 then .error (.died malformed) else .ok (pos + 4)
  | _ => .error (.died malformed)

/-- `_decode_field`: the value and the position after it. -/
def decodeFieldAt (parseSub : String → PerlStr → Except Stop Msg) (wire : ℕ) (t : FieldType)
    (data : PerlStr) (pos : ℕ) : Except Stop (Val × ℕ) :=
  match wire with
  | 0 => do
      let (v, pos) ← decodeVarintAt data pos
      return (varintValue t v, pos)
  | 1 =>
      if data.length < pos + 8 then .error (.died malformed)
      else do
        let bytes ← substr data pos 8
        return (fixed64Value t bytes, pos + 8)
  | 2 => do
      let (len, pos) ← decodeVarintAt data pos
      if data.length < pos + len then .error (.died malformed)
      else do
        let bytes ← substr data pos len
        match t with
        | .message c => do
            let m ← parseSub c bytes
            return (m.toVal, pos + len)
        | _ => return (.str bytes, pos + len)
  | 5 =>
      if data.length < pos + 4 then .error (.died malformed)
      else do
        let bytes ← substr data pos 4
        return (fixed32Value t bytes, pos + 4)
  -- the groups' wire types: nothing is read
  | _ => .ok (.undef, pos)

/-- One turn of the loop of `parse_into`. -/
def parseStepAt (S : Pool) (parseSub : String → PerlStr → Except Stop Msg) (data : PerlStr)
    (pos : ℕ) (m : Msg) : Except Stop (Msg × ℕ) := do
  let (tagWire, afterTag) ← decodeVarintAt data pos
  let tag := tagWire >>> 3
  let wire := tagWire &&& 7
  match (S.descriptor m.cls).findFieldByNumber tag with
  | none => do
      let fieldEnd ← skipFieldAt data afterTag wire
      let rawField ← substr data pos (fieldEnd - pos)
      return (m.keepUnknown rawField, fieldEnd)
  | some f => do
      let (val, fieldEnd) ← decodeFieldAt parseSub wire f.type data afterTag
      let m' ← died (storeField S f val m)
      return (m', fieldEnd)

/-- The loop of `parse_into`: the message and the position at which it ends. -/
def parseLoopAt (S : Pool) (parseSub : String → PerlStr → Except Stop Msg) (data : PerlStr)
    (pos : ℕ) (m : Msg) : Except (Stop × Msg) (Msg × ℕ) :=
  if _h : pos < data.length then
    match parseStepAt S parseSub data pos m with
    | .error e => .error (e, m)
    | .ok (m', fieldEnd) =>
        if _hadvance : pos < fieldEnd then parseLoopAt S parseSub data fieldEnd m'
        else .error (.stuck, m')
  else .ok (m, pos)
termination_by data.length - pos

/-- `parse` of a sub-message, when `limit` more calls may nest. -/
def parseSubAt (S : Pool) : ℕ → String → PerlStr → Except Stop Msg
  | 0, _, _ => .error .tooDeep
  | limit + 1, c, bytes =>
      ((parseLoopAt S (parseSubAt S limit) bytes 0 (.create c)).mapError Prod.fst).map Prod.fst

/-- `parse_into`, with sub-messages nested to the depth `limit` at most. -/
def parseIntoAt (S : Pool) (limit : ℕ) (data : PerlStr) (m : Msg) :
    Except (Stop × Msg) (Msg × ℕ) :=
  parseLoopAt S (parseSubAt S limit) data 0 m

/-- A parse of a string of length `size` that has no other way to stop than to die,
and that does not return before the end. -/
def finished (size : ℕ) : Except (Die × Msg) Msg → Except (Stop × Msg) (Msg × ℕ)
  | .error (e, m) => .error (.died e, m)
  | .ok m => .ok (m, size)

/-! ### One read -/

/-- The position after a read is where its rest begins. -/
theorem drop_length_sub {data used rest : PerlStr} {pos : ℕ} (h : data.drop pos = used ++ rest) :
    data.drop (data.length - rest.length) = rest := by
  have hdata : data = (data.take pos ++ used) ++ rest := by
    rw [List.append_assoc, ← h, List.take_append_drop]
  conv_lhs => rw [hdata]
  exact List.drop_left' (by simp only [List.length_append]; omega)

/-- What a varint read leaves, by its length. -/
theorem decodeVarint_drop {data rest : PerlStr} {pos v : ℕ}
    (h : decodeVarint (data.drop pos) = .ok (v, rest)) :
    rest.length < data.length - pos ∧ data.drop (data.length - rest.length) = rest := by
  obtain ⟨used, hused, -⟩ := decodeVarint_ok h
  have hlt := decodeVarint_length h
  rw [List.length_drop] at hlt
  exact ⟨hlt, drop_length_sub hused⟩

theorem skipFieldAt_eq (data : PerlStr) (pos wire : ℕ) :
    skipFieldAt data pos wire =
      (died (skipField (data.drop pos) wire)).map fun rest => data.length - rest.length := by
  -- the two payloads of a fixed size
  have hfixed : ∀ k, 0 < k →
      (if data.length < pos + k then .error (.died malformed) else .ok (pos + k)) =
        (died (if (data.drop pos).length < k then .error malformed
          else .ok ((data.drop pos).drop k))).map fun rest => data.length - rest.length := by
    intro k hk
    by_cases hshort : data.length < pos + k
    · rw [if_pos hshort, if_pos (by rw [List.length_drop]; omega)]
      rfl
    · rw [if_neg hshort, if_neg (by rw [List.length_drop]; omega)]
      have hend : data.length - ((data.drop pos).drop k).length = pos + k := by
        rw [List.length_drop, List.length_drop]
        omega
      simp only [died, Except.mapError, Except.map, hend]
  unfold skipFieldAt
  split
  · rw [decodeVarintAt_eq, skipField]
    cases decodeVarint (data.drop pos) with
    | error e => rfl
    | ok r => rfl
  · exact hfixed 8 (by decide)
  · rw [decodeVarintAt_eq, skipField]
    cases hread : decodeVarint (data.drop pos) with
    | error e => rfl
    | ok r =>
        obtain ⟨len, rest⟩ := r
        have hlt := (decodeVarint_drop hread).1
        simp only [positioned, ok_bind]
        by_cases hshort : rest.length < len
        · rw [if_pos hshort, if_pos (by omega)]
          rfl
        · rw [if_neg hshort, if_neg (by omega)]
          have hend : data.length - (rest.drop len).length = data.length - rest.length + len := by
            rw [List.length_drop]
            omega
          simp only [died, Except.mapError, Except.map, hend]
  · exact hfixed 4 (by decide)
  · simp [skipField, died, Except.mapError, Except.map]

/-- Sub-messages are shorter than what is unread, so only on shorter strings need the
two parsers of sub-messages agree. -/
theorem decodeFieldAt_eq {parseSubAt : String → PerlStr → Except Stop Msg}
    {parseSub : String → PerlStr → Except Die Msg} {data : PerlStr} {pos : ℕ}
    (hpos : pos ≤ data.length)
    (hsub : ∀ c bytes, bytes.length < data.length → parseSubAt c bytes = died (parseSub c bytes))
    (wire : ℕ) (t : FieldType) :
    decodeFieldAt parseSubAt wire t data pos =
      positioned data.length (decodeField parseSub wire t (data.drop pos)) := by
  -- the two values of a fixed size
  have hfixed : ∀ k (value : PerlStr → Val), 0 < k →
      (if data.length < pos + k then .error (.died malformed)
        else do
          let bytes ← substr data pos k
          return (value bytes, pos + k)) =
        positioned data.length (if (data.drop pos).length < k then .error malformed
          else .ok (value ((data.drop pos).take k), (data.drop pos).drop k)) := by
    intro k value hk
    by_cases hshort : data.length < pos + k
    · rw [if_pos hshort, if_pos (by rw [List.length_drop]; omega)]
      rfl
    · rw [if_neg hshort, if_neg (by rw [List.length_drop]; omega), substr_eq (by omega), ok_bind,
        pure_eq_ok, positioned]
      congr 2
      rw [List.length_drop, List.length_drop]
      omega
  unfold decodeFieldAt
  split
  · rw [decodeVarintAt_eq, decodeField]
    cases decodeVarint (data.drop pos) with
    | error e => rfl
    | ok r => rfl
  · exact hfixed 8 (fixed64Value t) (by decide)
  · rw [decodeVarintAt_eq, decodeField]
    cases hread : decodeVarint (data.drop pos) with
    | error e => rfl
    | ok r =>
        obtain ⟨len, rest⟩ := r
        obtain ⟨hlt, hdrop⟩ := decodeVarint_drop hread
        simp only [positioned, ok_bind]
        by_cases hshort : rest.length < len
        · rw [if_pos hshort, if_pos (by omega)]
        · have hend : data.length - (rest.drop len).length = data.length - rest.length + len := by
            rw [List.length_drop]
            omega
          rw [if_neg hshort, if_neg (by omega), substr_eq (by omega), ok_bind, hdrop]
          cases t with
          | message c =>
              -- the nested call is given less than all
              have hshorter : (rest.take len).length < data.length := by
                rw [List.length_take]
                omega
              simp only
              rw [hsub c _ hshorter]
              cases parseSub c (rest.take len) with
              | error e => rfl
              | ok inner =>
                  simp only [died, Except.mapError, ok_bind, pure_eq_ok]
                  rw [hend]
          | _ => simp only [pure_eq_ok, hend]
  · exact hfixed 4 (fixed32Value t) (by decide)
  · simp only [decodeField, positioned, List.length_drop]
    congr 2
    omega

/-! ### One turn -/

theorem parseStepAt_eq {S : Pool} {parseSubAt : String → PerlStr → Except Stop Msg}
    {parseSub : String → PerlStr → Except Die Msg} {data : PerlStr}
    (hsub : ∀ c bytes, bytes.length < data.length → parseSubAt c bytes = died (parseSub c bytes))
    (pos : ℕ) (m : Msg) :
    parseStepAt S parseSubAt data pos m =
      positioned data.length (parseStep S parseSub (data.drop pos) m) := by
  unfold parseStepAt parseStep
  rw [decodeVarintAt_eq]
  cases hread : decodeVarint (data.drop pos) with
  | error e => rfl
  | ok r =>
      obtain ⟨tagWire, afterTag⟩ := r
      obtain ⟨hlt, hdrop⟩ := decodeVarint_drop hread
      simp only [positioned, ok_bind]
      cases (S.descriptor m.cls).findFieldByNumber (tagWire >>> 3) with
      | none =>
          simp only
          rw [skipFieldAt_eq, hdrop]
          cases hskip : skipField afterTag (tagWire &&& 7) with
          | error e => rfl
          | ok rest =>
              obtain ⟨used, rfl, -⟩ := skipField_ok hskip
              rw [List.length_append] at hlt
              -- the raw field is what lies between the two positions
              have hraw : (data.drop pos).take (data.length - rest.length - pos) =
                  (data.drop pos).take ((data.drop pos).length - rest.length) := by
                rw [List.length_drop]
                congr 1
                omega
              simp only [died, Except.mapError, Except.map, ok_bind]
              rw [substr_eq (by omega), ok_bind, hraw]
              rfl
      | some f =>
          simp only
          rw [decodeFieldAt_eq (Nat.sub_le _ _) hsub, hdrop]
          cases decodeField parseSub (tagWire &&& 7) f.type afterTag with
          | error e => rfl
          | ok r =>
              obtain ⟨val, rest⟩ := r
              simp only [positioned, ok_bind]
              cases storeField S f val m with
              | error e => rfl
              | ok m' => rfl

/-- A turn of the loop dies or advances, and not past the end. -/
theorem parseStepAt_cases {S : Pool} {parseSubAt : String → PerlStr → Except Stop Msg}
    {parseSub : String → PerlStr → Except Die Msg} {data : PerlStr}
    (hsub : ∀ c bytes, bytes.length < data.length → parseSubAt c bytes = died (parseSub c bytes))
    (pos : ℕ) (m : Msg) :
    (∃ e, parseStepAt S parseSubAt data pos m = .error (.died e)) ∨
      ∃ m' fieldEnd, parseStepAt S parseSubAt data pos m = .ok (m', fieldEnd) ∧
        pos < fieldEnd ∧ fieldEnd ≤ data.length := by
  rw [parseStepAt_eq hsub]
  cases hstep : parseStep S parseSub (data.drop pos) m with
  | error e => exact .inl ⟨e, rfl⟩
  | ok r =>
      obtain ⟨m', rest⟩ := r
      have hlt := parseStep_length hstep
      rw [List.length_drop] at hlt
      exact .inr ⟨m', data.length - rest.length, rfl, by omega, Nat.sub_le _ _⟩

/-! ### The loop and the nesting -/

theorem parseLoopAt_eq {S : Pool} {parseSubAt : String → PerlStr → Except Stop Msg}
    {data : PerlStr}
    (hsub : ∀ c bytes, bytes.length < data.length → parseSubAt c bytes = died (parse S c bytes))
    {pos : ℕ} (hpos : pos ≤ data.length) (m : Msg) :
    parseLoopAt S parseSubAt data pos m = finished data.length (parseInto S (data.drop pos) m) := by
  induction hn : data.length - pos using Nat.strong_induction_on generalizing pos m with
  | _ n ih =>
      subst hn
      rw [parseLoopAt]
      by_cases hlt : pos < data.length
      · have hne : data.drop pos ≠ [] := by
          rw [Ne, List.drop_eq_nil_iff]
          omega
        rw [dif_pos hlt, parseInto_cons m hne, parseStepAt_eq hsub]
        cases hstep : parseStep S (parse S) (data.drop pos) m with
        | error e => rfl
        | ok r =>
            obtain ⟨m', rest⟩ := r
            obtain ⟨used, hused, -⟩ := parseStep_ok hstep
            have hshorter := parseStep_length hstep
            rw [List.length_drop] at hshorter
            have hnext := ih (data.length - (data.length - rest.length)) (by omega)
              (Nat.sub_le data.length rest.length) m' rfl
            rw [drop_length_sub hused] at hnext
            simp only [positioned]
            rw [dif_pos (by omega), hnext]
      · rw [dif_neg hlt, List.drop_eq_nil_of_le (by omega), parseInto_nil, finished,
          Nat.le_antisymm hpos (by omega)]

/-- A depth of the length of the string is enough for its sub-messages. -/
theorem parseSubAt_eq {S : Pool} {limit : ℕ} {c : String} {bytes : PerlStr}
    (h : bytes.length < limit) : parseSubAt S limit c bytes = died (parse S c bytes) := by
  induction limit generalizing c bytes with
  | zero => exact absurd h (Nat.not_lt_zero _)
  | succ limit ih =>
      have hsub : ∀ c' (inner : PerlStr), inner.length < bytes.length →
          parseSubAt S limit c' inner = died (parse S c' inner) :=
        fun c' inner hinner => ih (by omega)
      rw [parseSubAt, parseLoopAt_eq hsub (Nat.zero_le _), List.drop_zero, parse]
      cases parseInto S bytes (.create c) with
      | error e => rfl
      | ok m => rfl

theorem parseSubAt_length (S : Pool) (data : PerlStr) (c : String) (bytes : PerlStr)
    (h : bytes.length < data.length) : parseSubAt S data.length c bytes = died (parse S c bytes) :=
  parseSubAt_eq h

/-- The parser with its positions is the parser. -/
theorem parseIntoAt_eq (S : Pool) (data : PerlStr) (m : Msg) :
    parseIntoAt S data.length data m = finished data.length (parseInto S data m) := by
  have hsub := parseSubAt_length S data
  rw [parseIntoAt, parseLoopAt_eq hsub (Nat.zero_le _), List.drop_zero]

/-- Parsing stays within its input: with no more nesting than the input is long it
dies or returns at the end of the input, each turn of its loop dies or advances
without passing the end, and it is the parser that has no positions. -/
theorem parseInto_within (S : Pool) (data : PerlStr) (m : Msg) :
    ((∃ e m', parseIntoAt S data.length data m = .error (.died e, m')) ∨
      ∃ m', parseIntoAt S data.length data m = .ok (m', data.length)) ∧
    (∀ pos m₁, (∃ e, parseStepAt S (parseSubAt S data.length) data pos m₁ = .error (.died e)) ∨
      ∃ m₂ fieldEnd, parseStepAt S (parseSubAt S data.length) data pos m₁ = .ok (m₂, fieldEnd) ∧
        pos < fieldEnd ∧ fieldEnd ≤ data.length) ∧
    parseIntoAt S data.length data m = finished data.length (parseInto S data m) := by
  refine ⟨?_, ?_, parseIntoAt_eq S data m⟩
  · rw [parseIntoAt_eq]
    cases parseInto S data m with
    | error e => exact .inl ⟨e.1, e.2, rfl⟩
    | ok m' => exact .inr ⟨m', rfl⟩
  · intro pos m₁
    exact parseStepAt_cases (parseSubAt_length S data) pos m₁

end GooglePerl.Protobuf
