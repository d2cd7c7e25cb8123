import GooglePerl.Grpc.Status
import GooglePerl.Lib.Leb128

/-!
The reader of `parse_status_details` against the encoding of `google.rpc.Status`.

The reader takes the fields of a status one after another and stops at the first octet that
starts none of them. What it makes of an `Any` is exact while a length fits into seven bits,
and by accident for some strings of `\x01` (`readAny_encode_iff`).
-/

namespace GooglePerl.Grpc

open GooglePerl.Lib
open GooglePerl.Protobuf (PerlStr ps IsOctets)

/-! ### The encoding -/

/-- `google.protobuf.Any` -/
structure RpcAny where
  typeUrl : PerlStr
  value : PerlStr

/-- `google.rpc.Status` -/
structure RpcStatus where
  code : ℤ
  message : PerlStr
  details : List RpcAny

/-- A string field, which is left out when it is empty. -/
def stringField (tag : ℕ) (s : PerlStr) : PerlStr :=
  if s = [] then [] else tag :: (leb128 s.length ++ s)

def RpcAny.encode (a : RpcAny) : PerlStr := stringField 10 a.typeUrl ++ stringField 18 a.value

/-- A field of a status as it is written. -/
inductive Field where
  | code (v : ℕ)
  | message (s : PerlStr)
  | detail (a : RpcAny)

def Field.encode : Field → PerlStr
  | .code v => 8 :: leb128 v
  | .message s => 18 :: (leb128 s.length ++ s)
  | .detail a => 26 :: (leb128 a.encode.length ++ a.encode)

/-- The fields that are written, in field order; a negative code has 64 bits. -/
def RpcStatus.fields (s : RpcStatus) : List Field :=
  (if s.code = 0 then [] else [.code (s.code % 2 ^ 64).toNat]) ++
    (if s.message = [] then [] else [.message s.message]) ++ s.details.map .detail

/-- A well-formed field that is none of the three. -/
inductive UnknownField : PerlStr → Prop where
  | varint {n : ℕ} (hn : 3 < n) (v : ℕ) : UnknownField (leb128 (8 * n) ++ leb128 v)
  | fixed64 {n : ℕ} (hn : 3 < n) {p : PerlStr} (hp : IsOctets p) (hlen : p.length = 8) :
      UnknownField (leb128 (8 * n + 1) ++ p)
  | bytes {n : ℕ} (hn : 3 < n) {p : PerlStr} (hp : IsOctets p) :
      UnknownField (leb128 (8 * n + 2) ++ (leb128 p.length ++ p))
  | group {n : ℕ} (hn : 3 < n) {us : List PerlStr} (hus : ∀ u ∈ us, UnknownField u) :
      UnknownField (leb128 (8 * n + 3) ++ (us.flatten ++ leb128 (8 * n + 4)))
  | fixed32 {n : ℕ} (hn : 3 < n) {p : PerlStr} (hp : IsOctets p) (hlen : p.length = 4) :
      UnknownField (leb128 (8 * n + 5) ++ p)

/-- The fields with unknown fields between them: `gaps i` comes behind the field at `i`. -/
def withGaps (gaps : ℕ → List PerlStr) : ℕ → List Field → PerlStr
  | _, [] => []
  | _, [f] => f.encode
  | i, f :: g :: fs => f.encode ++ ((gaps i).flatten ++ withGaps gaps (i + 1) (g :: fs))

def RpcStatus.encode (s : RpcStatus) (gaps : ℕ → List PerlStr) : PerlStr := withGaps gaps 0 s.fields

/-- An int32 code, and octets that fit into memory. -/
structure RpcStatus.Valid (s : RpcStatus) : Prop where
  code : -2 ^ 31 ≤ s.code ∧ s.code < 2 ^ 31
  message : IsOctets s.message ∧ s.message.length < 2 ^ 63
  details : ∀ a ∈ s.details, IsOctets a.typeUrl ∧ IsOctets a.value ∧ a.encode.length < 2 ^ 63

/-! ### Reading varints -/

theorem readVarint_append {v : ℕ} (rest : PerlStr) {val shift : ℕ} (hval : val < 2 ^ shift)
    (h : val + v * 2 ^ shift < 2 ^ 64) :
    readVarint val shift (leb128 v ++ rest) = (val + v * 2 ^ shift, rest) := by
  induction v using leb128.induct generalizing val shift with
  | case1 v hv =>
      have hplace : (v <<< shift) % 2 ^ 64 = v <<< shift := by
        rw [Nat.shiftLeft_eq]
        exact Nat.mod_eq_of_lt (by omega)
      have hlow : v &&& 0x7f = v := by
        rw [and_127, Nat.mod_eq_of_lt hv]
      rw [leb128_of_lt hv, List.singleton_append, readVarint]
      simp only [hlow, hplace, and_128_of_lt hv, if_true, or_shiftLeft_of_lt hval]
  | case2 v hv ih =>
      have hsplit : v * 2 ^ shift = v % 128 * 2 ^ shift + v / 128 * 2 ^ (shift + 7) := by
        rw [pow_add, ← Nat.mul_assoc, Nat.mul_right_comm (v / 128), ← Nat.add_mul]
        congr 1
        omega
      have hlow : (v % 128 + 128) &&& 0x7f = v % 128 := by
        rw [and_127]
        omega
      have hplace : ((v % 128) <<< shift) % 2 ^ 64 = (v % 128) <<< shift := by
        rw [Nat.shiftLeft_eq]
        exact Nat.mod_eq_of_lt (by omega)
      have hnext : val + v % 128 * 2 ^ shift < 2 ^ (shift + 7) := by
        have hdigit : v % 128 * 2 ^ shift ≤ 127 * 2 ^ shift :=
          Nat.mul_le_mul_right _ (by omega)
        rw [pow_add]
        omega
      rw [leb128_of_ge (by omega), List.cons_append, readVarint]
      simp only [hlow, hplace, and_128_of_add (Nat.mod_lt v (by decide : 128 > 0)),
        or_shiftLeft_of_lt hval]
      rw [if_neg (by decide), ih hnext (by omega)]
      congr 1
      omega

theorem readVarint_leb128 {v : ℕ} (h : v < 2 ^ 64) (rest : PerlStr) :
    readVarint 0 0 (leb128 v ++ rest) = (v, rest) := by
  have hread := readVarint_append (v := v) rest (show 0 < 2 ^ 0 by decide) (by simpa using h)
  simpa using hread

/-! ### Reading the fields -/

/-- What the reader makes of the octets of an `Any`. -/
def readAny (bytes : PerlStr) : AnyDetail := anyLoop bytes.length ⟨some [], some []⟩ bytes

/-- What the reader makes of a field. -/
def Field.read : Field → Status → Status
  | .code v, st => { st with code := v }
  | .message s, st => { st with message := s }
  | .detail a, st => { st with details := st.details ++ [readAny a.encode] }

/-- The numbers of a field fit into 64 bits. -/
def Field.Fits : Field → Prop
  | .code v => v < 2 ^ 64
  | .message s => s.length < 2 ^ 64
  | .detail a => a.encode.length < 2 ^ 64

theorem statusLoop_field {f : Field} (h : f.Fits) (n : ℕ) (st : Status) (rest : PerlStr) :
    statusLoop (n + 1) st (f.encode ++ rest) = statusLoop n (f.read st) rest := by
  cases f with
  | code v =>
      rw [Field.encode, List.cons_append, statusLoop, readVarint_leb128 h]
      rfl
  | message s =>
      rw [Field.encode, List.cons_append, List.append_assoc, statusLoop, readVarint_leb128 h]
      simp [Field.read]
  | detail a =>
      rw [Field.encode, List.cons_append, List.append_assoc, statusLoop, readVarint_leb128 h]
      simp [Field.read, readAny]

theorem statusLoop_nil (n : ℕ) (st : Status) : statusLoop n st [] = st := by
  cases n <;> rfl

/-- An octet that starts no known field ends the reading. -/
theorem statusLoop_stop {b : ℕ} (h : 32 ≤ b) (n : ℕ) (st : Status) (rest : PerlStr) :
    statusLoop n st (b :: rest) = st := by
  cases n with
  | zero => rfl
  | succ n =>
      have hnumber : 4 ≤ b >>> 3 := by
        rw [Nat.shiftRight_eq_div_pow]
        omega
      have hcode : b >>> 3 ≠ 1 := by omega
      have hmessage : b >>> 3 ≠ 2 := by omega
      have hdetail : b >>> 3 ≠ 3 := by omega
      simp only [statusLoop, hcode, hmessage, hdetail, false_and, if_false]

theorem UnknownField.head {u : PerlStr} (h : UnknownField u) :
    ∃ b rest, u = b :: rest ∧ 32 ≤ b := by
  have htag : ∀ m, 32 ≤ m → ∀ p : PerlStr, ∃ b rest, leb128 m ++ p = b :: rest ∧ 32 ≤ b := by
    intro m hm p
    rw [leb128]
    split
    · exact ⟨_, _, rfl, hm⟩
    · exact ⟨_, _, rfl, by omega⟩
  cases h with
  | varint hn => exact htag _ (by omega) _
  | fixed64 hn => exact htag _ (by omega) _
  | bytes hn => exact htag _ (by omega) _
  | group hn => exact htag _ (by omega) _
  | fixed32 hn => exact htag _ (by omega) _

/-! ### Reading a whole status -/

/-- The fields up to the first gap that is not empty. -/
def reached (gaps : ℕ → List PerlStr) : ℕ → List Field → List Field
  | _, [] => []
  | _, [f] => [f]
  | i, f :: g :: fs => if gaps i = [] then f :: reached gaps (i + 1) (g :: fs) else [f]

/-- The status before anything is read. -/
def blank : Status := ⟨0, [], []⟩

theorem statusLoop_withGaps {gaps : ℕ → List PerlStr}
    (hgaps : ∀ i, ∀ u ∈ gaps i, UnknownField u) {fs : List Field} (hfits : ∀ f ∈ fs, f.Fits)
    {n : ℕ} (hn : fs.length ≤ n) (i : ℕ) (st : Status) :
    statusLoop n st (withGaps gaps i fs) =
      (reached gaps i fs).foldl (fun st f => f.read st) st := by
  induction fs generalizing n i st with
  | nil => exact statusLoop_nil n st
  | cons f fs ih =>
      rw [List.length_cons] at hn
      obtain ⟨n, rfl⟩ : ∃ m, n = m + 1 := ⟨n - 1, by omega⟩
      have hf : f.Fits := hfits f List.mem_cons_self
      have hrest (i : ℕ) (st : Status) := ih (fun g hg => hfits g (List.mem_cons_of_mem _ hg))
        (by omega : fs.length ≤ n) i st
      cases fs with
      | nil =>
          rw [withGaps, reached, ← List.append_nil f.encode, statusLoop_field hf, statusLoop_nil]
          rfl
      | cons g fs =>
          rw [withGaps, reached, statusLoop_field hf]
          cases hgap : gaps i with
          | nil =>
              rw [List.flatten_nil, List.nil_append, hrest, if_pos rfl, List.foldl_cons]
          | cons u us =>
              obtain ⟨b, rest, rfl, hb⟩ := (hgaps i u (by simp [hgap])).head
              rw [List.flatten_cons, List.cons_append, List.cons_append, statusLoop_stop hb,
                if_neg (by simp)]
              rfl

theorem reached_isPrefixOf (gaps : ℕ → List PerlStr) (i : ℕ) (fs : List Field) :
    reached gaps i fs <+: fs := by
  induction fs generalizing i with
  | nil => exact List.prefix_rfl
  | cons f fs ih =>
      cases fs with
      | nil => exact List.prefix_rfl
      | cons g fs =>
          rw [reached]
          split
          · exact List.cons_prefix_cons.mpr ⟨rfl, ih (i + 1)⟩
          · exact List.cons_prefix_cons.mpr ⟨rfl, List.nil_prefix⟩

theorem reached_eq_self (gaps : ℕ → List PerlStr) (i : ℕ) (fs : List Field) :
    reached gaps i fs = fs ↔ ∀ j, j + 1 < fs.length → gaps (i + j) = [] := by
  induction fs generalizing i with
  | nil => simp [reached]
  | cons f fs ih =>
      cases fs with
      | nil => simp [reached]
      | cons g fs =>
          rw [reached]
          constructor
          · intro h j hj
            split at h
            · rename_i hgap
              cases j with
              | zero => exact hgap
              | succ j =>
                  have hlater := (ih _).mp (List.cons.inj h).2 j (by simpa using hj)
                  rwa [Nat.add_right_comm, Nat.add_assoc] at hlater
            · cases h
          · intro h
            have hgap : gaps i = [] := h 0 (by simp)
            rw [if_pos hgap]
            congr 1
            refine (ih _).mpr fun j hj => ?_
            have hlater := h (j + 1) (by simpa using hj)
            rwa [Nat.add_right_comm, Nat.add_assoc]

/-- The status says what was encoded. -/
def Status.Says (st : Status) (s : RpcStatus) : Prop :=
  (st.code : ℤ) = s.code ∧ st.message = s.message ∧
    st.details = s.details.map fun a => ⟨some a.typeUrl, some a.value⟩

/-- How many fields it takes to say this. -/
def Status.fieldCount (st : Status) : ℕ :=
  (if st.code = 0 then 0 else 1) + (if st.message = [] then 0 else 1) + st.details.length

theorem fieldCount_foldl_le (fs : List Field) (st : Status) :
    (fs.foldl (fun st f => f.read st) st).fieldCount ≤ st.fieldCount + fs.length := by
  induction fs generalizing st with
  | nil => exact le_rfl
  | cons f fs ih =>
      have hone : (f.read st).fieldCount ≤ st.fieldCount + 1 := by
        cases f <;> grind [Field.read, Status.fieldCount]
      have hrest := ih (f.read st)
      rw [List.foldl_cons, List.length_cons]
      omega

theorem Status.Says.fieldCount {st : Status} {s : RpcStatus} (h : st.Says s) :
    st.fieldCount = s.fields.length := by
  obtain ⟨hcode, hmessage, hdetails⟩ := h
  have hzero : st.code = 0 ↔ s.code = 0 := by omega
  rw [Status.fieldCount, RpcStatus.fields, hmessage, hdetails]
  simp only [hzero, List.length_append, List.length_map]
  split <;> split <;> rfl

theorem foldl_details (as : List RpcAny) (st : Status) :
    (as.map Field.detail).foldl (fun st f => f.read st) st =
      { st with details := st.details ++ as.map fun a => readAny a.encode } := by
  induction as generalizing st with
  | nil => simp
  | cons a as ih =>
      rw [List.map_cons, List.foldl_cons, ih]
      simp [Field.read]

theorem foldl_fields (s : RpcStatus) :
    s.fields.foldl (fun st f => f.read st) blank =
      ⟨(s.code % 2 ^ 64).toNat, s.message, s.details.map fun a => readAny a.encode⟩ := by
  rw [RpcStatus.fields, List.foldl_append, foldl_details]
  by_cases hcode : s.code = 0 <;> by_cases hmessage : s.message = [] <;>
    simp [hcode, hmessage, Field.read, blank]

theorem RpcStatus.Valid.fits {s : RpcStatus} (h : s.Valid) : ∀ f ∈ s.fields, f.Fits := by
  intro f hf
  simp only [RpcStatus.fields, List.mem_append, List.mem_map] at hf
  rcases hf with (hf | hf) | ⟨a, ha, rfl⟩
  · split at hf
    · cases hf
    · rw [List.mem_singleton] at hf
      subst hf
      simp only [Field.Fits]
      omega
  · split at hf
    · cases hf
    · rw [List.mem_singleton] at hf
      subst hf
      exact h.message.2.trans (by decide)
  · exact (h.details a ha).2.2.trans (by decide)

/-- What was read says what was written exactly for a code that is not negative, details
that survive, and no field behind a gap. -/
theorem says_reached_iff {s : RpcStatus} (hs : s.Valid) (gaps : ℕ → List PerlStr) :
    ((reached gaps 0 s.fields).foldl (fun st f => f.read st) blank).Says s ↔
      0 ≤ s.code ∧ (∀ a ∈ s.details, readAny a.encode = ⟨some a.typeUrl, some a.value⟩) ∧
        ∀ i, i + 1 < s.fields.length → gaps i = [] := by
  have hcode : ((s.code % 2 ^ 64).toNat : ℤ) = s.code ↔ 0 ≤ s.code := by
    have hrange := hs.code
    omega
  have hall : (s.fields.foldl (fun st f => f.read st) blank).Says s ↔
      0 ≤ s.code ∧ ∀ a ∈ s.details, readAny a.encode = ⟨some a.typeUrl, some a.value⟩ := by
    rw [foldl_fields, Status.Says, hcode]
    simp [List.map_inj_left]
  have hgaps : reached gaps 0 s.fields = s.fields ↔ ∀ i, i + 1 < s.fields.length → gaps i = [] := by
    simpa using reached_eq_self gaps 0 s.fields
  constructor
  · intro h
    have hcount := fieldCount_foldl_le (reached gaps 0 s.fields) blank
    rw [h.fieldCount] at hcount
    have hfull : reached gaps 0 s.fields = s.fields :=
      (reached_isPrefixOf gaps 0 s.fields).eq_of_length_le
        (by simpa [Status.fieldCount, blank] using hcount)
    rw [hfull] at h
    obtain ⟨hpos, hdetails⟩ := hall.mp h
    exact ⟨hpos, hdetails, hgaps.mp hfull⟩
  · rintro ⟨hpos, hdetails, hempty⟩
    rw [hgaps.mpr hempty]
    exact hall.mpr ⟨hpos, hdetails⟩

/-! ### Reading an `Any` -/

/-- A string that is read back although its length takes two octets. -/
def Ones (s : PerlStr) : Prop := 128 ≤ s.length ∧ s.length < 256 ∧ ∀ c ∈ s, c = 1

/-- Short strings, or only `\x01` in the last one. -/
def RpcAny.Readable (a : RpcAny) : Prop :=
  (a.typeUrl.length < 128 ∧ (a.value.length < 128 ∨ Ones a.value)) ∨
    (Ones a.typeUrl ∧ a.value = [])

theorem anyLoop_nil (n : ℕ) (any : AnyDetail) : anyLoop n any [] = any := by
  cases n <;> rfl

theorem anyLoop_typeUrl (n : ℕ) (any : AnyDetail) (rest : PerlStr) :
    anyLoop (n + 1) any (10 :: rest) =
      anyLoop n { any with typeUrl := (readShort rest).1 } (readShort rest).2 := rfl

theorem anyLoop_value (n : ℕ) (any : AnyDetail) (rest : PerlStr) :
    anyLoop (n + 1) any (18 :: rest) =
      anyLoop n { any with value := (readShort rest).1 } (readShort rest).2 := rfl

theorem anyLoop_one (n : ℕ) (any : AnyDetail) (rest : PerlStr) :
    anyLoop n any (1 :: rest) = any := by
  cases n <;> rfl

/-- The octets that a string takes which was not there before. -/
def changed (old new : Option PerlStr) : ℕ := if old = new then 0 else (new.getD []).length

theorem changed_le_of_le (old new : Option PerlStr) {mid : Option PerlStr} {k : ℕ}
    (h : (mid.getD []).length ≤ k) : changed old new ≤ k + changed mid new := by
  unfold changed
  by_cases hold : old = new
  · rw [if_pos hold]
    exact Nat.zero_le _
  · by_cases hmid : mid = new
    · subst hmid
      rw [if_neg hold]
      omega
    · rw [if_neg hold, if_neg hmid]
      omega

theorem readShort_length (rest : PerlStr) :
    ((readShort rest).1.getD []).length + (readShort rest).2.length ≤ rest.length := by
  cases rest with
  | nil => exact le_rfl
  | cons l rest =>
      simp only [readShort, Option.getD_some, List.length_take, List.length_drop,
        List.length_cons]
      omega

/-- The strings that the loop sets fit into what it reads. -/
theorem changed_anyLoop_le (n : ℕ) (any : AnyDetail) (bytes : PerlStr) :
    changed any.typeUrl (anyLoop n any bytes).typeUrl +
      changed any.value (anyLoop n any bytes).value ≤ bytes.length := by
  induction n generalizing any bytes with
  | zero => simp [anyLoop, changed]
  | succ n ih =>
      cases bytes with
      | nil => simp [anyLoop, changed]
      | cons tag rest =>
          have hshort := readShort_length rest
          rw [anyLoop, List.length_cons]
          split
          · have hrest := ih { any with typeUrl := (readShort rest).1 } (readShort rest).2
            have hset := changed_le_of_le any.typeUrl
              (anyLoop n { any with typeUrl := (readShort rest).1 }
                (readShort rest).2).typeUrl (le_refl ((readShort rest).1.getD []).length)
            dsimp only at hrest hset ⊢
            omega
          · split
            · have hrest := ih { any with value := (readShort rest).1 } (readShort rest).2
              have hset := changed_le_of_le any.value
                (anyLoop n { any with value := (readShort rest).1 }
                  (readShort rest).2).value (le_refl ((readShort rest).1.getD []).length)
              dsimp only at hrest hset ⊢
              omega
            · simp [changed]

/-- On octets, no string that the loop sets is longer than one octet can say. -/
theorem length_anyLoop_lt (n : ℕ) (any : AnyDetail) {bytes : PerlStr} (h : IsOctets bytes) :
    ((anyLoop n any bytes).typeUrl = any.typeUrl ∨
        ((anyLoop n any bytes).typeUrl.getD []).length < 256) ∧
      ((anyLoop n any bytes).value = any.value ∨
        ((anyLoop n any bytes).value.getD []).length < 256) := by
  induction n generalizing any bytes with
  | zero => exact ⟨.inl rfl, .inl rfl⟩
  | succ n ih =>
      cases bytes with
      | nil => exact ⟨.inl rfl, .inl rfl⟩
      | cons tag rest =>
          -- a length is one octet here
          have hrest : IsOctets (readShort rest).2 ∧
              ((readShort rest).1.getD []).length < 256 := by
            cases rest with
            | nil => exact ⟨by simp [readShort, IsOctets], by simp [readShort]⟩
            | cons l rest =>
                have hl : l < 256 := h l (by simp)
                refine ⟨fun c hc => h c ?_, ?_⟩
                · have hmem : c ∈ rest := List.mem_of_mem_drop hc
                  simp [hmem]
                · simp only [readShort, Option.getD_some, List.length_take]
                  omega
          rw [anyLoop]
          split
          · obtain ⟨htype, hvalue⟩ :=
              ih { any with typeUrl := (readShort rest).1 } hrest.1
            refine ⟨.inr ?_, hvalue⟩
            rcases htype with hsame | hlt
            · rw [hsame]
              exact hrest.2
            · exact hlt
          · split
            · obtain ⟨htype, hvalue⟩ := ih { any with value := (readShort rest).1 } hrest.1
              refine ⟨htype, .inr ?_⟩
              rcases hvalue with hsame | hlt
              · rw [hsame]
                exact hrest.2
              · exact hlt
            · exact ⟨.inl rfl, .inl rfl⟩

/-- Shifting a string by one octet gives it back only if it holds nothing else. -/
theorem cons_dropLast_eq_iff {s : PerlStr} {c : ℕ} (hs : s ≠ []) :
    c :: s.dropLast = s ↔ ∀ x ∈ s, x = c := by
  induction s with
  | nil => exact absurd rfl hs
  | cons a s ih =>
      cases s with
      | nil => simp [eq_comm]
      | cons b s =>
          rw [List.dropLast_cons_cons, List.cons.injEq, List.forall_mem_cons, eq_comm]
          constructor
          · rintro ⟨rfl, h⟩
            exact ⟨rfl, (ih (by simp)).mp h⟩
          · rintro ⟨rfl, h⟩
            exact ⟨rfl, (ih (by simp)).mpr h⟩

theorem readShort_of_lt {s : PerlStr} (h : s.length < 128) (rest : PerlStr) :
    readShort (leb128 s.length ++ (s ++ rest)) = (some s, rest) := by
  rw [leb128_of_lt h]
  simp [readShort]

/-- A length of two octets: its second octet is read as the first of the string. -/
theorem readShort_of_ge {s : PerlStr} (hge : 128 ≤ s.length) (hlt : s.length < 256)
    (rest : PerlStr) :
    ∃ last, s.getLast? = some last ∧
      readShort (leb128 s.length ++ (s ++ rest)) = (some (1 :: s.dropLast), last :: rest) := by
  rcases List.eq_nil_or_concat' s with rfl | ⟨init, last, rfl⟩
  · exact absurd hge (by decide)
  · rw [List.length_append, List.length_singleton] at hge hlt
    have hlen : leb128 (init ++ [last]).length = [init.length + 1, 1] := by
      rw [List.length_append, List.length_singleton, leb128_of_ge hge,
        leb128_of_lt (by omega : (init.length + 1) / 128 < 128)]
      congr 1
      · omega
      · congr 1
        omega
    refine ⟨last, by simp, ?_⟩
    rw [hlen]
    simp [readShort]

/-- The second string of an `Any`, read into an entry that has no value yet. -/
theorem anyLoop_value_iff {v : PerlStr} (hv : IsOctets v) (t : Option PerlStr) {n : ℕ}
    (hn : (stringField 18 v).length ≤ n) :
    anyLoop n ⟨t, some []⟩ (stringField 18 v) = ⟨t, some v⟩ ↔ v.length < 128 ∨ Ones v := by
  by_cases hnil : v = []
  · subst hnil
    simp [stringField, anyLoop_nil]
  · have hfield : stringField 18 v = 18 :: (leb128 v.length ++ (v ++ [])) := by
      rw [stringField, if_neg hnil, List.append_nil]
    rw [hfield] at hn ⊢
    obtain ⟨n, rfl⟩ : ∃ m, n = m + 1 := Nat.exists_eq_succ_of_ne_zero (by simp at hn; omega)
    rw [anyLoop_value]
    rcases Nat.lt_or_ge v.length 128 with hshort | hge
    · rw [readShort_of_lt hshort]
      simp [anyLoop_nil, hshort]
    · rcases Nat.lt_or_ge v.length 256 with hlt | hlong
      · obtain ⟨last, hlast, hread⟩ := readShort_of_ge hge hlt []
        rw [hread]
        have hones : (1 :: v.dropLast = v) ↔ Ones v := by
          rw [cons_dropLast_eq_iff hnil, Ones]
          exact ⟨fun h => ⟨hge, hlt, h⟩, fun h => h.2.2⟩
        constructor
        · intro h
          refine .inr (hones.mp ?_)
          by_contra hne
          -- one octet is left, too little to set the value again
          have hle := changed_anyLoop_le n ⟨t, some (1 :: v.dropLast)⟩ [last]
          rw [h] at hle
          simp only [changed, if_true, Option.some.injEq, hne, if_false, Option.getD_some,
            List.length_singleton] at hle
          omega
        · rintro (hshort | hall)
          · omega
          · have hone : last = 1 := hall.2.2 last (List.mem_of_getLast? hlast)
            rw [hone, anyLoop_one, hones.mpr hall]
      · constructor
        · intro h
          have hoctets : IsOctets (18 :: (leb128 v.length ++ (v ++ []))) := by
            intro c hc
            simp only [List.append_nil, List.mem_cons, List.mem_append] at hc
            rcases hc with rfl | hc | hc
            · decide
            · exact leb128_lt _ c hc
            · exact hv c hc
          have hlen := (length_anyLoop_lt (n + 1) ⟨t, some []⟩ hoctets).2
          rw [anyLoop_value, h] at hlen
          rcases hlen with hsame | hlt
          · exact absurd (Option.some.inj hsame) hnil
          · simp only [Option.getD_some] at hlt
            omega
        · rintro (hshort | hall)
          · omega
          · have hlt := hall.2.1
            omega

theorem isOctets_stringField {s : PerlStr} (hs : IsOctets s) {tag : ℕ} (htag : tag < 256) :
    IsOctets (stringField tag s) := by
  intro c hc
  rw [stringField] at hc
  split at hc
  · cases hc
  · simp only [List.mem_cons, List.mem_append] at hc
    rcases hc with rfl | hc | hc
    · exact htag
    · exact leb128_lt _ c hc
    · exact hs c hc

/-- Longer strings than one octet can say are lost. -/
theorem length_lt_of_readAny {a : RpcAny} (ht : IsOctets a.typeUrl) (hv : IsOctets a.value)
    (h : readAny a.encode = ⟨some a.typeUrl, some a.value⟩) :
    a.typeUrl.length < 256 ∧ a.value.length < 256 := by
  have hoctets : IsOctets a.encode := by
    intro c hc
    rcases List.mem_append.mp hc with hc | hc
    · exact isOctets_stringField ht (by decide) c hc
    · exact isOctets_stringField hv (by decide) c hc
  have hlen := length_anyLoop_lt a.encode.length ⟨some [], some []⟩ hoctets
  rw [← readAny, h] at hlen
  obtain ⟨htype, hvalue⟩ := hlen
  constructor
  · rcases htype with hsame | hlt
    · rw [Option.some.inj hsame]
      decide
    · exact hlt
  · rcases hvalue with hsame | hlt
    · rw [Option.some.inj hsame]
      decide
    · exact hlt

theorem length_stringField_le {s : PerlStr} (h : s.length < 256) (tag : ℕ) :
    (stringField tag s).length ≤ s.length + 3 := by
  have hlen : (leb128 s.length).length ≤ 2 := by
    have hmono := leb128_length_mono (show s.length ≤ 255 by omega)
    rw [leb128_of_ge (n := 255) (by decide),
      leb128_of_lt (n := 255 / 128) (by decide)] at hmono
    exact hmono
  rw [stringField]
  split
  · exact Nat.zero_le _
  · simp only [List.length_cons, List.length_append]
    omega

/-- A detail survives exactly if its strings are readable. -/
theorem readAny_encode_iff {a : RpcAny} (ht : IsOctets a.typeUrl) (hv : IsOctets a.value) :
    readAny a.encode = ⟨some a.typeUrl, some a.value⟩ ↔ a.Readable := by
  obtain ⟨t, v⟩ := a
  have hbound := length_lt_of_readAny ht hv
  have hvalue (n : ℕ) (hn : (stringField 18 v).length ≤ n) :=
    anyLoop_value_iff hv (some t) hn
  simp only [readAny, RpcAny.encode, RpcAny.Readable] at hbound ⊢
  by_cases hnil : t = []
  · subst hnil
    rw [show stringField 10 [] = [] from rfl, List.nil_append, hvalue _ le_rfl]
    simp [Ones]
  · have hfield : stringField 10 t ++ stringField 18 v =
        10 :: (leb128 t.length ++ (t ++ stringField 18 v)) := by
      rw [stringField, if_neg hnil, List.cons_append, List.append_assoc]
    have hlength : (stringField 10 t ++ stringField 18 v).length =
        (leb128 t.length).length + t.length + (stringField 18 v).length + 1 := by
      rw [hfield]
      simp [Nat.add_assoc]
    rw [hlength, hfield, anyLoop_typeUrl] at hbound ⊢
    rcases Nat.lt_or_ge t.length 128 with hshort | hge
    · rw [readShort_of_lt hshort, hvalue _ (by omega)]
      have hones : ¬ Ones t := fun h => absurd h.1 (by omega)
      simp [hshort, hones]
    · have hones : ¬ t.length < 128 := by omega
      simp only [hones, false_and, false_or]
      constructor
      · intro h
        obtain ⟨hlt, hvlt⟩ := hbound h
        obtain ⟨last, hlast, hread⟩ := readShort_of_ge hge hlt (stringField 18 v)
        rw [hread] at h
        have hall : ∀ c ∈ t, c = 1 := by
          rw [← cons_dropLast_eq_iff hnil]
          by_contra hne
          -- to set both strings again takes more octets than are left
          have hle := changed_anyLoop_le ((leb128 t.length).length + t.length +
            (stringField 18 v).length) ⟨some (1 :: t.dropLast), some []⟩
            (last :: stringField 18 v)
          have hsecond : v.length ≤ changed (some []) (some v) := by
            unfold changed
            split
            · rename_i hsame
              rw [← Option.some.inj hsame]
              exact le_rfl
            · exact le_rfl
          have hfirst : changed (some (1 :: t.dropLast)) (some t) = t.length := by
            rw [changed, if_neg fun h => hne (Option.some.inj h)]
            rfl
          have hrest := length_stringField_le hvlt 18
          rw [h] at hle
          dsimp only at hle
          rw [hfirst, List.length_cons] at hle
          omega
        have hone : last = 1 := hall last (List.mem_of_getLast? hlast)
        rw [hone, anyLoop_one] at h
        refine ⟨⟨hge, hlt, hall⟩, ?_⟩
        simpa using (AnyDetail.mk.inj h).2.symm
      · rintro ⟨hall, rfl⟩
        obtain ⟨last, hlast, hread⟩ := readShort_of_ge hge hall.2.1 (stringField 18 [])
        have hone : last = 1 := hall.2.2 last (List.mem_of_getLast? hlast)
        rw [hread, hone, anyLoop_one, (cons_dropLast_eq_iff hnil).mpr hall.2.2]

end GooglePerl.Grpc
