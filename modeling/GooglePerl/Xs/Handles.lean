import GooglePerl.Protobuf.WireFields

/-!
Messages on a handle, each behind its length.

`PerlUpb_Message_ToHandle` writes the length of a serialized message as a varint and then the
message; `PerlUpb_Message_FromHandle` reads one such record. What was written is read back
(`length_prefixed_iff`). On other streams a prefix that is cut off passes for the end of the
file, and a length of `2 ^ 63` or more gets past the check for missing bytes.
-/

namespace GooglePerl.Xs

open Protobuf Lib

/-! ### Writing -/

/-- The loop of `WriteVarint`, over a buffer of some length -/
def writeVarintLoop : ℕ → ℕ → List ℕ
  | 0, _ => []
  | n + 1, val =>
      if val >>> 7 > 0 then ((val &&& 127) ||| 128) :: writeVarintLoop n (val >>> 7)
      else [val &&& 127]

/-- `WriteVarint` -/
def writeVarint (val : ℕ) : List ℕ := writeVarintLoop 10 val

/-- What `PerlUpb_Message_ToHandle` writes for a serialized message, with the length -/
def toHandle (payload : List ℕ) : List ℕ := writeVarint payload.length ++ payload

/-! ### Reading -/

/-- `ReadVarint`: the value if it is complete, and what is left on the handle -/
def readVarintLoop (val shift : ℕ) : List ℕ → Option ℕ × List ℕ
  | [] => (none, [])
  | byte :: data =>
      if shift < 64 then
        if byte &&& 128 = 0 then (some (val ||| (byte &&& 127) <<< shift % 2 ^ 64), data)
        else readVarintLoop (val ||| (byte &&& 127) <<< shift % 2 ^ 64) (shift + 7) data
      else (none, byte :: data)

def readVarint (data : List ℕ) : Option ℕ × List ℕ := readVarintLoop 0 0 data

/-- `(SSize_t)n` -/
def ssize (n : ℕ) : ℤ := if n < 2 ^ 63 then n else n - 2 ^ 64

inductive FromHandle where
  /-- `undef`, which readers take for the end of the file -/
  | undef
  /-- `Unexpected EOF reading length-prefixed message: expected %zu, got %zd` -/
  | croak (expected got : ℕ)
  /-- `upb_Decode` is called on a buffer of `size` bytes, of which `read` have been read. -/
  | decode (read : List ℕ) (size : ℕ)
  deriving DecidableEq, Repr

/-- `PerlUpb_Message_FromHandle` with a length, up to the call of the decoder -/
def fromHandle (data : List ℕ) : FromHandle × List ℕ :=
  match readVarint data with
  | (none, rest) => (.undef, rest)
  | (some size, rest) =>
      if ((rest.take size).length : ℤ) < ssize size then
        (.croak size (rest.take size).length, rest.drop size)
      else (.decode (rest.take size) size, rest.drop size)

/-- Reading records until `undef`, with the payloads given to the decoder -/
inductive ReadsAll : List ℕ → List (List ℕ) → Prop where
  | eof {data rest : List ℕ} (h : fromHandle data = (.undef, rest)) : ReadsAll data []
  | message {data rest read : List ℕ} {payloads : List (List ℕ)}
      (h : fromHandle data = (.decode read read.length, rest)) (hrest : ReadsAll rest payloads) :
      ReadsAll data (read :: payloads)

/-! ### What a reader relies on -/

/-- The stream ends inside a length. -/
def EndsInLength (data : List ℕ) : Prop := data ≠ [] ∧ ∀ b ∈ data, b &&& 128 ≠ 0

/-- The decoder is called on what follows a complete length, as many bytes as it says, and a
length that is cut off is not taken for the end of the file. -/
def ReadSafe (data : List ℕ) : FromHandle → Prop
  | .undef => ¬ EndsInLength data
  | .croak _ _ => True
  | .decode read size => ∃ len rest, data = len ++ read ++ rest ∧ IsVarint len ∧
      groupsValue len % 2 ^ 64 = size ∧ read.length = size

/-- The places of a stream where a record is read -/
inductive Boundary (stream : List ℕ) : List ℕ → Prop where
  | start : Boundary stream stream
  | next {data read rest : List ℕ} {size : ℕ} (h : Boundary stream data)
      (hread : fromHandle data = (.decode read size, rest)) : Boundary stream rest

def StreamSafe (stream : List ℕ) : Prop :=
  ∀ data, Boundary stream data → ReadSafe data (fromHandle data).1

/-- Complete records, up to the end, a length of more than ten bytes, or a record that is short by
some bytes and says less than `2 ^ 63` -/
inductive Complete : List ℕ → Prop where
  | eof : Complete []
  | overlong {len rest : List ℕ} {b : ℕ} (hlen : len.length = 10) (hlong : ∀ b ∈ len, b &&& 128 ≠ 0)
      (hb : b ∈ rest) (hend : b &&& 128 = 0) : Complete (len ++ rest)
  | record {len payload rest : List ℕ} (hlen : IsVarint len)
      (hsize : groupsValue len % 2 ^ 64 = payload.length) (hrest : Complete rest) :
      Complete (len ++ payload ++ rest)
  | short {len payload : List ℕ} (hlen : IsVarint len)
      (hshort : payload.length < groupsValue len % 2 ^ 64)
      (hsize : groupsValue len % 2 ^ 64 < 2 ^ 63) : Complete (len ++ payload)

/-! ### Varints -/

theorem readVarintLoop_eq_some_iff {data rest : List ℕ} {val shift v : ℕ} (hval : val < 2 ^ 64) :
    readVarintLoop val shift data = (some v, rest) ↔
      ∃ s, data = s ++ rest ∧ isGroups s = true ∧ shift + 7 * s.length < 71 ∧
        v = (val ||| groupsValue s <<< shift) % 2 ^ 64 := by
  induction data generalizing val shift with
  | nil =>
      constructor
      · intro h
        cases h
      · rintro ⟨s, hs, hgroups, -⟩
        obtain ⟨rfl, -⟩ := List.append_eq_nil_iff.mp hs.symm
        cases hgroups
  | cons b data ih =>
      have hnext : (val ||| (b &&& 127) <<< shift % 2 ^ 64) < 2 ^ 64 :=
        Nat.or_lt_two_pow hval (Nat.mod_lt _ (by decide))
      -- bits beyond the sixty-fourth are shifted out
      have hvalue (s : List ℕ) :
          (val ||| groupsValue (b :: s) <<< shift) % 2 ^ 64 =
            ((val ||| (b &&& 127) <<< shift % 2 ^ 64) ||| groupsValue s <<< (shift + 7)) %
              2 ^ 64 := by
        rw [groupsValue_cons_shiftLeft, ← Nat.or_assoc, Nat.or_mod_two_pow, Nat.or_mod_two_pow,
          Nat.or_mod_two_pow (a := val ||| _ % _), Nat.or_mod_two_pow (a := val), Nat.mod_mod]
      rw [readVarintLoop]
      split
      · rename_i hshift
        -- the last octet of a varint has its highest bit clear
        by_cases hlast : b &&& 128 = 0
        · simp only [if_pos hlast, Prod.mk.injEq, Option.some.injEq]
          constructor
          · rintro ⟨rfl, rfl⟩
            refine ⟨[b], rfl, by simp [isGroups, hlast], by simp; omega, ?_⟩
            rw [hvalue, groupsValue, Nat.zero_shiftLeft, Nat.or_zero, Nat.mod_eq_of_lt hnext]
          · rintro ⟨s, hs, hgroups, -, rfl⟩
            cases s with
            | nil => cases hgroups
            | cons c s =>
                obtain ⟨rfl, hdata⟩ : b = c ∧ data = s ++ rest := by simpa using hs
                simp only [isGroups, if_pos hlast, List.isEmpty_iff] at hgroups
                subst hgroups
                refine ⟨?_, hdata⟩
                rw [hvalue, groupsValue, Nat.zero_shiftLeft, Nat.or_zero, Nat.mod_eq_of_lt hnext]
        · rw [if_neg hlast, ih hnext]
          constructor
          · rintro ⟨s, rfl, hgroups, hlength, rfl⟩
            refine ⟨b :: s, rfl, by simpa [isGroups, hlast] using hgroups, ?_, (hvalue s).symm⟩
            simp only [List.length_cons]
            omega
          · rintro ⟨s, hs, hgroups, hlength, rfl⟩
            cases s with
            | nil => cases hgroups
            | cons c s =>
                obtain ⟨rfl, rfl⟩ : b = c ∧ data = s ++ rest := by simpa using hs
                simp only [isGroups, if_neg hlast] at hgroups
                simp only [List.length_cons] at hlength
                exact ⟨s, rfl, hgroups, by omega, hvalue s⟩
      · constructor
        · intro h
          cases h
        · rintro ⟨s, -, hgroups, hlength, -⟩
          cases s with
          | nil => cases hgroups
          | cons c s =>
              simp only [List.length_cons] at hlength
              omega

theorem readVarint_eq_some_iff {data rest : List ℕ} {v : ℕ} :
    readVarint data = (some v, rest) ↔
      ∃ s, data = s ++ rest ∧ IsVarint s ∧ v = groupsValue s % 2 ^ 64 := by
  rw [readVarint, readVarintLoop_eq_some_iff (by decide)]
  constructor
  · rintro ⟨s, hs, hgroups, hlength, rfl⟩
    exact ⟨s, hs, ⟨hgroups, by omega⟩, by simp⟩
  · rintro ⟨s, hs, hvarint, rfl⟩
    exact ⟨s, hs, hvarint.groups, by have := hvarint.length; omega, by simp⟩

theorem readVarint_append {len : List ℕ} (h : IsVarint len) (rest : List ℕ) :
    readVarint (len ++ rest) = (some (groupsValue len % 2 ^ 64), rest) :=
  readVarint_eq_some_iff.mpr ⟨len, rfl, h, rfl⟩

theorem isGroups_iff {s : List ℕ} :
    isGroups s = true ↔
      ∃ t b, s = t ++ [b] ∧ (∀ c ∈ t, c &&& 128 ≠ 0) ∧ b &&& 128 = 0 := by
  induction s with
  | nil => simp [isGroups]
  | cons c s ih =>
      rw [isGroups]
      split
      · rename_i hlast
        constructor
        · intro h
          rw [List.isEmpty_iff] at h
          exact ⟨[], c, by rw [h]; rfl, by simp, hlast⟩
        · rintro ⟨t, b, hs, hlong, -⟩
          cases t with
          | nil =>
              obtain ⟨rfl, rfl⟩ := List.cons.inj hs
              rfl
          | cons d t =>
              obtain ⟨rfl, -⟩ := List.cons.inj hs
              exact absurd hlast (hlong c List.mem_cons_self)
      · rename_i hlong
        rw [ih]
        constructor
        · rintro ⟨t, b, rfl, ht, hb⟩
          exact ⟨c :: t, b, rfl, List.forall_mem_cons.mpr ⟨hlong, ht⟩, hb⟩
        · rintro ⟨t, b, hs, ht, hb⟩
          cases t with
          | nil =>
              obtain ⟨rfl, -⟩ := List.cons.inj hs
              exact absurd hb hlong
          | cons d t =>
              obtain ⟨rfl, rfl⟩ := List.cons.inj hs
              exact ⟨t, b, rfl, (List.forall_mem_cons.mp ht).2, hb⟩

theorem exists_isGroups {data : List ℕ} {b : ℕ} (hb : b ∈ data) (hend : b &&& 128 = 0) :
    ∃ s rest, data = s ++ rest ∧ isGroups s = true := by
  induction data with
  | nil => cases hb
  | cons c data ih =>
      by_cases hc : c &&& 128 = 0
      · exact ⟨[c], data, rfl, by simp [isGroups, hc]⟩
      · obtain rfl | hb := List.mem_cons.mp hb
        · exact absurd hend hc
        · obtain ⟨s, rest, rfl, hs⟩ := ih hb
          exact ⟨c :: s, rest, rfl, by simpa [isGroups, hc] using hs⟩

/-- How a stream can begin -/
theorem length_cases (data : List ℕ) :
    data = [] ∨ EndsInLength data ∨
      (∃ len rest b, data = len ++ rest ∧ len.length = 10 ∧ (∀ c ∈ len, c &&& 128 ≠ 0) ∧
        b ∈ rest ∧ b &&& 128 = 0) ∨
      ∃ len rest, data = len ++ rest ∧ IsVarint len := by
  by_cases hnil : data = []
  · exact .inl hnil
  by_cases hends : ∀ b ∈ data, b &&& 128 ≠ 0
  · exact .inr (.inl ⟨hnil, hends⟩)
  push Not at hends
  obtain ⟨b, hb, hend⟩ := hends
  obtain ⟨s, rest, rfl, hs⟩ := exists_isGroups hb hend
  by_cases hlength : s.length ≤ 10
  · exact .inr (.inr (.inr ⟨s, rest, rfl, hs, hlength⟩))
  · obtain ⟨t, e, rfl, ht, he⟩ := isGroups_iff.mp hs
    rw [List.length_append, List.length_singleton] at hlength
    refine .inr (.inr (.inl ⟨t.take 10, t.drop 10 ++ [e] ++ rest, e, ?_, ?_, ?_, by simp, he⟩))
    · rw [← List.append_assoc, ← List.append_assoc, List.take_append_drop]
    · rw [List.length_take]
      omega
    · intro c hc
      exact ht c (List.mem_of_mem_take hc)

theorem writeVarintLoop_spec {n val : ℕ} (hn : n ≠ 0) (h : val < 128 ^ n) :
    isGroups (writeVarintLoop n val) = true ∧ groupsValue (writeVarintLoop n val) = val ∧
      (writeVarintLoop n val).length ≤ n := by
  induction n generalizing val with
  | zero => exact absurd rfl hn
  | succ n ih =>
      have hlow : val &&& 127 = val % 128 := Nat.and_two_pow_sub_one_eq_mod val 7
      have hhigh : val >>> 7 = val / 128 := Nat.shiftRight_eq_div_pow val 7
      rw [writeVarintLoop]
      split
      · rename_i hmore
        have hlong : ((val &&& 127) ||| 128) &&& 128 ≠ 0 := by
          rw [Nat.and_or_distrib_right, Nat.and_assoc]
          simp
        have hgroup : ((val &&& 127) ||| 128) &&& 127 = val % 128 := by
          rw [Nat.and_or_distrib_right, Nat.and_assoc]
          simpa using hlow
        have hnext : val >>> 7 < 128 ^ n := by
          rw [hhigh]
          exact Nat.div_lt_of_lt_mul (by rwa [Nat.pow_succ', ] at h)
        have hzero : n ≠ 0 := by
          rintro rfl
          rw [Nat.pow_zero] at hnext
          omega
        obtain ⟨hgroups, hvalue, hlength⟩ := ih hzero hnext
        refine ⟨by simpa [isGroups, hlong] using hgroups, ?_, by simpa using hlength⟩
        rw [groupsValue, hgroup, hvalue, hhigh]
        omega
      · rename_i hlast
        have hend : (val &&& 127) &&& 128 = 0 := by
          rw [Nat.and_assoc]
          simp
        refine ⟨by simp [isGroups, hend], ?_, by simp⟩
        rw [groupsValue, groupsValue, Nat.and_assoc, Nat.and_self, hlow]
        omega

theorem writeVarint_spec {val : ℕ} (h : val < 2 ^ 64) :
    IsVarint (writeVarint val) ∧ groupsValue (writeVarint val) = val := by
  obtain ⟨hgroups, hvalue, hlength⟩ :=
    writeVarintLoop_spec (by decide : 10 ≠ 0) (h.trans (by decide))
  exact ⟨⟨hgroups, hlength⟩, hvalue⟩

/-! ### Records -/

theorem fromHandle_of_none {data rest : List ℕ} (h : readVarint data = (none, rest)) :
    fromHandle data = (.undef, rest) := by
  rw [fromHandle, h]

theorem fromHandle_of_isVarint {len : List ℕ} (h : IsVarint len) (data : List ℕ) :
    fromHandle (len ++ data) =
      if ((data.take (groupsValue len % 2 ^ 64)).length : ℤ) < ssize (groupsValue len % 2 ^ 64) then
        (.croak (groupsValue len % 2 ^ 64) (data.take (groupsValue len % 2 ^ 64)).length,
          data.drop (groupsValue len % 2 ^ 64))
      else (.decode (data.take (groupsValue len % 2 ^ 64)) (groupsValue len % 2 ^ 64),
        data.drop (groupsValue len % 2 ^ 64)) := by
  rw [fromHandle, readVarint_append h]

theorem ssize_le {n : ℕ} : ssize n ≤ n := by
  unfold ssize
  split <;> omega

theorem lt_of_lt_ssize {m n : ℕ} (hn : n < 2 ^ 64) (h : (m : ℤ) < ssize n) : n < 2 ^ 63 := by
  unfold ssize at h
  split at h <;> omega

theorem fromHandle_record {len payload : List ℕ} (h : IsVarint len)
    (hsize : groupsValue len % 2 ^ 64 = payload.length) (rest : List ℕ) :
    fromHandle (len ++ payload ++ rest) = (.decode payload payload.length, rest) := by
  rw [List.append_assoc, fromHandle_of_isVarint h, hsize, List.take_left, List.drop_left,
    if_neg (not_lt.mpr ssize_le)]

theorem fromHandle_short {len payload : List ℕ} (h : IsVarint len)
    (hshort : payload.length < groupsValue len % 2 ^ 64)
    (hsize : groupsValue len % 2 ^ 64 < 2 ^ 63) :
    fromHandle (len ++ payload) = (.croak (groupsValue len % 2 ^ 64) payload.length, []) := by
  rw [fromHandle_of_isVarint h, List.take_of_length_le hshort.le, List.drop_of_length_le hshort.le,
    if_pos]
  rw [ssize, if_pos hsize]
  exact_mod_cast hshort

theorem readVarint_eq_none {data : List ℕ}
    (h : ∀ s rest, data = s ++ rest → ¬ IsVarint s) : ∃ rest, readVarint data = (none, rest) := by
  cases hread : readVarint data with
  | mk v rest =>
      cases v with
      | none => exact ⟨rest, rfl⟩
      | some v =>
          obtain ⟨s, hs, hvarint, -⟩ := readVarint_eq_some_iff.mp hread
          exact absurd hvarint (h s rest hs)

theorem fromHandle_endsInLength {data : List ℕ} (h : ∀ b ∈ data.take 10, b &&& 128 ≠ 0) :
    ∃ rest, fromHandle data = (.undef, rest) := by
  have hnone : ∀ s rest, data = s ++ rest → ¬ IsVarint s := by
    rintro s rest rfl hvarint
    obtain ⟨t, b, rfl, -, hb⟩ := isGroups_iff.mp hvarint.groups
    refine h b ?_ hb
    rw [List.take_append, List.take_of_length_le hvarint.length]
    simp
  obtain ⟨rest, hread⟩ := readVarint_eq_none hnone
  exact ⟨rest, fromHandle_of_none hread⟩

theorem fromHandle_overlong {len : List ℕ} (hlen : len.length = 10)
    (hlong : ∀ b ∈ len, b &&& 128 ≠ 0) (data : List ℕ) :
    ∃ rest, fromHandle (len ++ data) = (.undef, rest) := by
  refine fromHandle_endsInLength ?_
  rwa [List.take_left' hlen]

/-! ### Streams -/

theorem Complete.readSafe {data : List ℕ} (h : Complete data) :
    ReadSafe data (fromHandle data).1 := by
  cases h with
  | eof => exact fun h => h.1 rfl
  | overlong hlen hlong hb hend =>
      obtain ⟨rest, hread⟩ := fromHandle_overlong hlen hlong _
      rw [hread]
      exact fun h => h.2 _ (List.mem_append_right _ hb) hend
  | @record len payload rest hlen hsize hrest =>
      rw [fromHandle_record hlen hsize]
      exact ⟨len, rest, rfl, hlen, hsize, rfl⟩
  | short hlen hshort hsize =>
      rw [fromHandle_short hlen hshort hsize]
      trivial

theorem Complete.next {data read rest : List ℕ} {size : ℕ} (h : Complete data)
    (hread : fromHandle data = (.decode read size, rest)) : Complete rest := by
  cases h with
  | eof => cases hread
  | overlong hlen hlong hb hend =>
      obtain ⟨rest, hundef⟩ := fromHandle_overlong hlen hlong _
      cases hread.symm.trans hundef
  | record hlen hsize hrest =>
      rw [fromHandle_record hlen hsize] at hread
      obtain ⟨-, rfl⟩ := Prod.mk.inj hread
      exact hrest
  | short hlen hshort hsize => cases hread.symm.trans (fromHandle_short hlen hshort hsize)

theorem Complete.streamSafe {stream : List ℕ} (h : Complete stream) : StreamSafe stream := by
  intro data hdata
  have hcomplete : Complete data := by
    induction hdata with
    | start => exact h
    | next _ hread ih => exact ih.next hread
  exact hcomplete.readSafe

theorem Boundary.trans {stream data rest : List ℕ} (h : Boundary stream data)
    (hrest : Boundary data rest) : Boundary stream rest := by
  induction hrest with
  | start => exact h
  | next _ hread ih => exact ih.next hread

theorem StreamSafe.complete {stream : List ℕ} (h : StreamSafe stream) : Complete stream := by
  induction hn : stream.length using Nat.strong_induction_on generalizing stream with
  | _ n ih =>
      have hsafe := h stream .start
      obtain rfl | hends | ⟨len, rest, b, rfl, hlen, hlong, hb, hend⟩ | ⟨len, data, rfl, hlen⟩ :=
        length_cases stream
      · exact .eof
      · obtain ⟨rest, hundef⟩ := fromHandle_endsInLength
          (fun b hb => hends.2 b (List.mem_of_mem_take hb))
        rw [hundef] at hsafe
        exact absurd hends hsafe
      · exact .overlong hlen hlong hb hend
      · have hread := fromHandle_of_isVarint hlen data
        set size := groupsValue len % 2 ^ 64 with hsize
        by_cases hshort : ((data.take size).length : ℤ) < ssize size
        · have hlt : data.length < size := by
            have hle := ssize_le (n := size)
            rw [List.length_take] at hshort
            omega
          exact .short hlen hlt (lt_of_lt_ssize (Nat.mod_lt _ (by decide)) hshort)
        · rw [if_neg hshort] at hread
          rw [hread] at hsafe
          obtain ⟨-, -, -, -, -, hlength⟩ := hsafe
          have hrest : StreamSafe (data.drop size) := fun t ht =>
            h t ((Boundary.start.next hread).trans ht)
          rw [← List.take_append_drop size data, ← List.append_assoc]
          refine .record hlen (hsize.symm.trans hlength.symm) (ih _ ?_ hrest rfl)
          have hpos := List.length_pos_iff.mpr hlen.ne_nil
          simp only [List.length_append, List.length_drop] at hn ⊢
          omega

/-! ### What was written -/

theorem fromHandle_toHandle {payload : List ℕ} (h : payload.length < 2 ^ 64) (rest : List ℕ) :
    fromHandle (toHandle payload ++ rest) = (.decode payload payload.length, rest) := by
  obtain ⟨hvarint, hvalue⟩ := writeVarint_spec h
  exact fromHandle_record hvarint (by rw [hvalue, Nat.mod_eq_of_lt h]) rest

theorem readsAll_iff {payloads : List (List ℕ)} (h : ∀ p ∈ payloads, p.length < 2 ^ 64)
    (messages : List (List ℕ)) :
    ReadsAll (payloads.flatMap toHandle) messages ↔ messages = payloads := by
  induction payloads generalizing messages with
  | nil =>
      constructor
      · intro hreads
        cases hreads with
        | eof _ => rfl
        | message hread _ => cases hread
      · rintro rfl
        exact .eof rfl
  | cons p payloads ih =>
      obtain ⟨hp, hpayloads⟩ := List.forall_mem_cons.mp h
      have hfirst := fromHandle_toHandle hp (payloads.flatMap toHandle)
      rw [List.flatMap_cons]
      constructor
      · intro hreads
        cases hreads with
        | eof hread => cases hread.symm.trans hfirst
        | message hread hrest =>
            obtain ⟨hdecode, rfl⟩ := Prod.mk.inj (hread.symm.trans hfirst)
            obtain ⟨rfl, -⟩ := FromHandle.decode.inj hdecode
            rw [(ih hpayloads _).mp hrest]
      · rintro rfl
        exact .message hfirst ((ih hpayloads _).mpr rfl)

/-- Records that were written are read back, and other streams are read safely when no length is
cut off and none of `2 ^ 63` or more has bytes missing. -/
theorem length_prefixed_iff {payloads : List (List ℕ)} (h : ∀ p ∈ payloads, p.length < 2 ^ 64)
    (messages : List (List ℕ)) (stream : List ℕ) :
    (ReadsAll (payloads.flatMap toHandle) messages ↔ messages = payloads) ∧
      (StreamSafe stream ↔ Complete stream) :=
  ⟨readsAll_iff h messages, StreamSafe.complete, Complete.streamSafe⟩

theorem length_prefixed_two_records :
    ReadsAll ([[8, 1], []].flatMap toHandle) [[8, 1], []] ∧ StreamSafe [2, 8, 1, 3, 8] := by
  have hshort : Complete ([3] ++ [8]) := .short ⟨rfl, by decide⟩ (by decide) (by decide)
  have hrecord : Complete ([2] ++ [8, 1] ++ ([3] ++ [8])) := .record ⟨rfl, by decide⟩ rfl hshort
  have hsmall : ∀ p ∈ [[8, 1], []], p.length < 2 ^ 64 := by simp
  have hiff := length_prefixed_iff hsmall [[8, 1], []] [2, 8, 1, 3, 8]
  exact ⟨hiff.1.mpr rfl, hiff.2.mpr hrecord⟩

/-- A length that is cut off, and a length of `2 ^ 63` with one byte behind it -/
theorem not_streamSafe_cut :
    ¬ StreamSafe [128] ∧ ¬ StreamSafe [128, 128, 128, 128, 128, 128, 128, 128, 128, 1, 8] := by
  constructor
  · intro h
    exact h _ .start ⟨by simp, by simp⟩
  · intro h
    obtain ⟨-, -, -, -, -, hlength⟩ := h _ .start
    simp at hlength

end GooglePerl.Xs
