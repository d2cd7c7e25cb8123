import Mathlib.Data.List.Flatten
import Mathlib.Data.List.TakeWhile
import GooglePerl.Lib.Attempt
import GooglePerl.Protobuf.WireFields

/-!
`delete_tag` of `Protobuf::UnknownFieldSet`, in both engines.

The pure-Perl engine keeps unknown fields as one string and dies when it cannot
skip a field. The XS engine keeps them in chunks, and goes on with the next
chunk when it cannot skip one; a group is such a field, so what comes after it
in its chunk is lost. Both forget nothing else (`deletes_exactly_iff`).
-/

namespace GooglePerl

open GooglePerl.Lib GooglePerl.Protobuf

/-! ### `Protobuf::UnknownFieldSet` -/

namespace PurePerl

/-- At most `n` turns of the loop of `delete_tag`; `new` is `$new_data`. -/
def deleteLoop (t : ℕ) : ℕ → PerlStr → PerlStr → Except Die PerlStr
  | _, [], new => .ok new
  | 0, _ :: _, _ => .error (.fault .outOfFuel)
  | n + 1, c :: data, new => do
      let (tagWire, afterTag) ← decodeVarint (c :: data)
      let rest ← skipField afterTag (tagWire &&& 7)
      let field := (c :: data).take ((c :: data).length - rest.length)
      deleteLoop t n rest (if tagWire >>> 3 ≠ t then new ++ field else new)

/-- `delete_tag`, on `$msg->{_unknown_fields}` -/
def deleteTag (t : ℕ) (content : Option PerlStr) : Attempt (Option PerlStr) Die Unit :=
  match content with
  | none => (.ok (), none)
  | some [] => (.ok (), some [])
  | some (c :: data) =>
      match deleteLoop t (c :: data).length (c :: data) [] with
      | .error why => (.error why, some (c :: data))
      | .ok new => (.ok (), some new)

end PurePerl

/-! ### `xs/unknown_fields/set.c` -/

namespace Xs

/-- The loop of `decode_varint`. -/
def decodeVarintLoop (res shift : ℕ) : PerlStr → Option (ℕ × PerlStr)
  | [] => none
  | byte :: rest =>
      let res := (res ||| (byte &&& 0x7f) <<< shift) % 2 ^ 64
      if byte &&& 0x80 = 0 then some (res, rest)
      else if 64 ≤ shift + 7 then none
      else decodeVarintLoop res (shift + 7) rest

/-- `decode_varint` -/
def decodeVarint (data : PerlStr) : Option (ℕ × PerlStr) := decodeVarintLoop 0 0 data

/-- `skip_value`: the rest after the payload -/
def skipValue (data : PerlStr) (wire : ℕ) : Option PerlStr :=
  match wire with
  | 0 => (decodeVarint data).map Prod.snd
  | 1 => if data.length < 8 then none else some (data.drop 8)
  | 2 =>
      match decodeVarint data with
      | none => none
      | some (len, rest) => if rest.length < len then none else some (rest.drop len)
  | 5 => if data.length < 4 then none else some (data.drop 4)
  | _ => none

/-- At most `n` turns of the loop over the entries of a chunk; `new` is `new_data`. -/
def scanChunk (t : ℕ) : ℕ → PerlStr → PerlStr → PerlStr
  | _, [], new => new
  | 0, _ :: _, new => new
  | n + 1, c :: data, new =>
      match decodeVarint (c :: data) with
      | none => new
      | some (entryTag, afterTag) =>
          match skipValue afterTag (entryTag &&& 7) with
          | none => new
          | some rest =>
              let entry := (c :: data).take ((c :: data).length - rest.length)
              scanChunk t n rest (if entryTag >>> 3 ≠ t then new ++ entry else new)

/-- `PerlUpb_UnknownFieldSet_DeleteTag` -/
def deleteTag (t : ℕ) (chunks : List PerlStr) : Attempt (List PerlStr) Die Unit :=
  let new := chunks.foldl (fun new chunk => scanChunk t chunk.length chunk new) []
  (.ok (), if new.length = 0 then [] else [new])

end Xs

/-- The bytes of the fields with other numbers. -/
def kept (t : ℕ) (fields : List WireField) : PerlStr :=
  (fields.filter fun f => tagNumber f.tag ≠ t).flatMap WireField.bytes

theorem kept_append (t : ℕ) (fields fields' : List WireField) :
    kept t (fields ++ fields') = kept t fields ++ kept t fields' := by
  simp [kept]

theorem ite_none_eq_some_iff {p : Prop} [Decidable p] {x rest : PerlStr} :
    (if p then none else some x) = some rest ↔ ¬ p ∧ x = rest := by
  by_cases h : p <;> simp [h]

namespace Xs

/-- In C a varint is read in 64 bits. -/
theorem decodeVarintLoop_eq {data : PerlStr} {val shift k : ℕ} (hshift : shift = 7 * k)
    (hk : k ≤ 9) :
    decodeVarintLoop (val % 2 ^ 64) shift data =
      (Protobuf.decodeVarintLoop val shift data).toOption.map fun p => (p.1 % 2 ^ 64, p.2) := by
  induction data generalizing val shift k with
  | nil => rfl
  | cons b data ih =>
      have hres : (val % 2 ^ 64 ||| (b &&& 127) <<< shift) % 2 ^ 64 =
          (val ||| (b &&& 127) <<< shift) % 2 ^ 64 := by
        rw [Nat.or_mod_two_pow, Nat.or_mod_two_pow, Nat.mod_mod]
      have hend : 64 ≤ shift + 7 ↔ 70 ≤ shift + 7 := by omega
      rw [decodeVarintLoop, Protobuf.decodeVarintLoop]
      simp only [hres, hend]
      split
      · rfl
      · split
        · rfl
        · exact ih (k := k + 1) (by omega) (by omega)

theorem decodeVarint_eq (data : PerlStr) :
    decodeVarint data =
      (Protobuf.decodeVarint data).toOption.map fun p => (p.1 % 2 ^ 64, p.2) := by
  have hloop : decodeVarintLoop (0 % 2 ^ 64) 0 data = _ :=
    decodeVarintLoop_eq (k := 0) rfl (Nat.zero_le 9)
  exact hloop

theorem decodeVarint_eq_some_iff {data rest : PerlStr} {v : ℕ} :
    decodeVarint data = some (v, rest) ↔
      ∃ s, data = s ++ rest ∧ IsVarint s ∧ v = groupsValue s % 2 ^ 64 := by
  rw [decodeVarint_eq]
  constructor
  · intro h
    cases hread : Protobuf.decodeVarint data with
    | error e =>
        rw [hread] at h
        cases h
    | ok p =>
        obtain ⟨s, hs, hvarint, hp⟩ := decodeVarint_eq_ok_iff.mp hread
        rw [hread] at h
        obtain ⟨rfl, rfl⟩ := Prod.mk.inj (Option.some.inj h)
        exact ⟨s, hs, hvarint, by rw [hp]⟩
  · rintro ⟨s, rfl, hs, rfl⟩
    rw [decodeVarint_append_of_isVarint hs]
    rfl

theorem decodeVarint_append {s : PerlStr} (h : IsVarint s) (rest : PerlStr) :
    decodeVarint (s ++ rest) = some (groupsValue s % 2 ^ 64, rest) :=
  decodeVarint_eq_some_iff.mpr ⟨s, rfl, h, rfl⟩

/-- `skip_value` takes a payload away. -/
theorem skipValue_eq_some_iff {data rest : PerlStr} {wire : ℕ} :
    skipValue data wire = some rest ↔
      ∃ payload, data = payload ++ rest ∧ PlainPayload wire payload := by
  unfold skipValue
  split
  · constructor
    · intro h
      obtain ⟨⟨v, r⟩, hread, rfl⟩ := Option.map_eq_some_iff.mp h
      obtain ⟨s, rfl, hs, -⟩ := decodeVarint_eq_some_iff.mp hread
      exact ⟨s, rfl, hs⟩
    · rintro ⟨payload, rfl, hpayload⟩
      rw [decodeVarint_append hpayload]
      rfl
  · exact ite_none_eq_some_iff.trans drop_eq_iff
  · constructor
    · intro h
      cases hread : decodeVarint data with
      | none =>
          rw [hread] at h
          cases h
      | some p =>
          obtain ⟨s, rfl, hs, hlen⟩ := decodeVarint_eq_some_iff.mp hread
          rw [hread] at h
          obtain ⟨body, hbody, hlength⟩ := drop_eq_iff.mp (ite_none_eq_some_iff.mp h)
          exact ⟨s ++ body, by simp [hbody], s, body, rfl, hs, by rw [hlength, hlen]⟩
    · rintro ⟨payload, rfl, len, body, rfl, hlen, hbody⟩
      rw [List.append_assoc, decodeVarint_append hlen]
      exact ite_none_eq_some_iff.mpr (drop_eq_iff.mpr ⟨body, rfl, hbody⟩)
  · exact ite_none_eq_some_iff.trans drop_eq_iff
  · rename_i h0 h1 h2 h5
    -- the other wire types are stopped at, groups among them
    have hnone : ∀ payload, ¬ PlainPayload wire payload := by
      intro payload hpayload
      unfold PlainPayload at hpayload
      split at hpayload
      · exact h0 rfl
      · exact h1 rfl
      · exact h2 rfl
      · exact h5 rfl
      · exact hpayload
    simp [hnone]

theorem skipValue_append {wire : ℕ} {payload : PerlStr} (h : PlainPayload wire payload)
    (rest : PerlStr) : skipValue (payload ++ rest) wire = some rest :=
  skipValue_eq_some_iff.mpr ⟨payload, rfl, h⟩

variable {t n : ℕ} {new : PerlStr}

/-- One turn. -/
theorem scanChunk_append {f : WireField} (hf : Plain f) (rest : PerlStr) :
    scanChunk t (n + 1) (f.bytes ++ rest) new =
      scanChunk t n rest (if tagNumber f.tag ≠ t then new ++ f.bytes else new) := by
  have hread := decodeVarint_append hf.tag (f.payload ++ rest)
  have hskip := skipValue_append hf.payload rest
  have hwire : groupsValue f.tag % 2 ^ 64 &&& 7 = tagWire f.tag := by
    rw [and_seven, tagWire]
    omega
  have htake := take_bytes f rest
  rw [← List.append_assoc] at hread
  cases hdata : f.bytes ++ rest with
  | nil =>
      obtain ⟨hbytes, -⟩ := List.append_eq_nil_iff.mp hdata
      exact absurd (List.append_eq_nil_iff.mp hbytes).1 hf.tag.ne_nil
  | cons c data =>
      rw [WireField.bytes] at hdata
      rw [hdata] at hread
      rw [WireField.bytes, hdata] at htake
      simp only [scanChunk, hread, hwire, hskip, shiftRight_three, htake]
      rfl

/-- The loop ends where no plain field begins. -/
theorem scanChunk_stop {data : PerlStr} (h : ∀ f, Plain f → ¬ f.bytes <+: data) :
    scanChunk t n data new = new := by
  cases data with
  | nil => cases n <;> rfl
  | cons c data =>
      cases n with
      | zero => rfl
      | succ n =>
          rw [scanChunk]
          cases hread : decodeVarint (c :: data) with
          | none => rfl
          | some p =>
              obtain ⟨tag, hdata, htag, hvalue⟩ := decodeVarint_eq_some_iff.mp hread
              have hwire : p.1 &&& 7 = tagWire tag := by
                rw [and_seven, hvalue, tagWire]
                omega
              simp only [hwire]
              cases hskip : skipValue p.2 (tagWire tag) with
              | none => rfl
              | some rest =>
                  obtain ⟨payload, hrest, hpayload⟩ := skipValue_eq_some_iff.mp hskip
                  refine absurd ⟨rest, ?_⟩ (h ⟨tag, payload⟩ ⟨htag, hpayload⟩)
                  rw [hdata, hrest, WireField.bytes, List.append_assoc]

/-- What a chunk leaves: its fields up to the first group. -/
theorem scanChunk_eq {data tail : PerlStr} {fields : List WireField}
    (h : Splits data fields tail) (hn : data.length ≤ n) :
    scanChunk t n data new =
      new ++ kept t (fields.takeWhile fun f => tagWire f.tag ≠ 3) := by
  induction fields generalizing data n new with
  | nil =>
      have hdata : data = tail := h.data
      rw [scanChunk_stop fun f hf => hdata ▸ h.tail f hf.wellFormed]
      simp [kept]
  | cons f fields ih =>
      have hf := h.wellFormed f List.mem_cons_self
      have hdata : data = f.bytes ++ (fields.flatMap WireField.bytes ++ tail) := by
        rw [h.data, List.flatMap_cons, List.append_assoc]
      rw [List.takeWhile_cons]
      by_cases hwire : tagWire f.tag = 3
      · rw [if_neg (by simpa using hwire), scanChunk_stop]
        · simp [kept]
        · intro g hg hstart
          rw [hdata] at hstart
          exact hg.wire_ne (hg.eq_of_isPrefix hf hstart ▸ hwire)
      · have hplain := hf.plain_iff.mpr hwire
        have hpos := hf.length_pos
        have hlength := congrArg List.length hdata
        rw [List.length_append] at hlength
        have hrest : Splits (fields.flatMap WireField.bytes ++ tail) fields tail :=
          ⟨rfl, fun g hg => h.wellFormed g (List.mem_cons_of_mem _ hg), h.tail⟩
        obtain ⟨m, rfl⟩ : ∃ m, n = m + 1 := ⟨n - 1, by omega⟩
        rw [if_pos (by simpa using hwire), hdata, scanChunk_append hplain,
          ih hrest (by omega)]
        by_cases hnumber : tagNumber f.tag = t
        · simp [kept, hnumber]
        · simp [kept, hnumber]

/-- The fields of chunks up to the first group of each. -/
def plainFields (parts : List (List WireField × PerlStr)) : List WireField :=
  parts.flatMap fun part => part.1.takeWhile fun f => tagWire f.tag ≠ 3

theorem plainFields_cons (part : List WireField × PerlStr)
    (parts : List (List WireField × PerlStr)) :
    plainFields (part :: parts) =
      part.1.takeWhile (fun f => tagWire f.tag ≠ 3) ++ plainFields parts := List.flatMap_cons

/-- New data as chunks. -/
def chunksOf (new : PerlStr) : List PerlStr := if new.length = 0 then [] else [new]

/-- Chunks with their fields. -/
def SplitsAll (chunks : List PerlStr) (parts : List (List WireField × PerlStr)) : Prop :=
  List.Forall₂ (fun chunk part => Splits chunk part.1 part.2) chunks parts

theorem deleteTag_eq {chunks : List PerlStr} {parts : List (List WireField × PerlStr)}
    (h : SplitsAll chunks parts) (t : ℕ) :
    deleteTag t chunks = (.ok (), chunksOf (kept t (plainFields parts))) := by
  suffices key : ∀ new, chunks.foldl (fun new chunk => scanChunk t chunk.length chunk new) new =
      new ++ kept t (plainFields parts) by
    rw [deleteTag, key]
    rfl
  induction h with
  | nil => simp [plainFields, kept]
  | @cons chunk part chunks parts hchunk _ ih =>
      intro new
      rw [List.foldl_cons, scanChunk_eq hchunk le_rfl, ih, plainFields_cons, kept_append,
        List.append_assoc]

theorem plain_of_mem_plainFields {chunks : List PerlStr}
    {parts : List (List WireField × PerlStr)} (h : SplitsAll chunks parts) :
    ∀ f ∈ plainFields parts, Plain f := by
  induction h with
  | nil => simp [plainFields]
  | @cons chunk part chunks parts hchunk _ ih =>
      intro f hf
      rw [plainFields_cons] at hf
      rcases List.mem_append.mp hf with hf | hf
      · have hwire := List.mem_takeWhile_imp hf
        have hmem := (List.takeWhile_prefix _).subset hf
        exact (hchunk.wellFormed f hmem).plain_iff.mpr (by simpa using hwire)
      · exact ih f hf

/-- What is left after a call is plain fields, in one chunk if there are any. -/
theorem splitsAll_chunksOf {fields : List WireField} (h : ∀ f ∈ fields, Plain f) :
    ∃ parts, SplitsAll (chunksOf (fields.flatMap WireField.bytes)) parts ∧
      plainFields parts = fields := by
  cases fields with
  | nil => exact ⟨[], .nil, rfl⟩
  | cons f fields =>
      have hne : ¬ ((f :: fields).flatMap WireField.bytes).length = 0 := by
        have hpos := (h f List.mem_cons_self).wellFormed.length_pos
        rw [List.flatMap_cons, List.length_append]
        omega
      have hplain : (f :: fields).takeWhile (fun f => tagWire f.tag ≠ 3) = f :: fields := by
        rw [List.takeWhile_eq_self_iff]
        exact fun g hg => by simpa using (h g hg).wire_ne
      refine ⟨[(f :: fields, [])], ?_, ?_⟩
      · rw [chunksOf, if_neg hne]
        exact .cons (splits_of_wellFormed fun g hg => (h g hg).wellFormed) .nil
      · rw [plainFields, List.flatMap_singleton, hplain]

/-- A second call. -/
theorem deleteTag_deleteTag {chunks : List PerlStr} {parts : List (List WireField × PerlStr)}
    (h : SplitsAll chunks parts) (t u : ℕ) :
    deleteTag u (deleteTag t chunks).2 =
      (.ok (), chunksOf (kept u ((plainFields parts).filter fun f => tagNumber f.tag ≠ t))) := by
  have hplain : ∀ f ∈ (plainFields parts).filter fun f => tagNumber f.tag ≠ t, Plain f :=
    fun f hf => plain_of_mem_plainFields h f (List.mem_of_mem_filter hf)
  obtain ⟨parts', hparts', hfields⟩ := splitsAll_chunksOf hplain
  rw [deleteTag_eq h]
  exact hfields ▸ deleteTag_eq hparts' u

end Xs

namespace PurePerl

variable {t n : ℕ} {new : PerlStr}

/-- One turn. -/
theorem deleteLoop_append {f : WireField} (hf : Proper f) (rest : PerlStr) :
    deleteLoop t (n + 1) (f.bytes ++ rest) new =
      deleteLoop t n rest (if groupsValue f.tag / 8 ≠ t then new ++ f.bytes else new) := by
  have hread := decodeVarint_append_of_isVarint hf.tag (f.payload ++ rest)
  have hskip := skipField_of_proper hf.payload rest
  have htake := take_bytes f rest
  rw [← List.append_assoc] at hread
  cases hdata : f.bytes ++ rest with
  | nil =>
      obtain ⟨hbytes, -⟩ := List.append_eq_nil_iff.mp hdata
      exact absurd (List.append_eq_nil_iff.mp hbytes).1 hf.tag.ne_nil
  | cons c data =>
      rw [WireField.bytes] at hdata
      rw [hdata] at hread
      rw [WireField.bytes, hdata] at htake
      rw [deleteLoop, hread, ok_bind]
      simp only [and_seven]
      rw [← tagWire, hskip, ok_bind, shiftRight_three, htake]
      rfl

/-- The loop dies where no proper field begins. -/
theorem deleteLoop_stop {data : PerlStr} (hne : data ≠ [])
    (h : ∀ f, Proper f → ¬ f.bytes <+: data) : ∃ why, deleteLoop t n data new = .error why := by
  cases data with
  | nil => exact absurd rfl hne
  | cons c data =>
      cases n with
      | zero => exact ⟨_, rfl⟩
      | succ n =>
          rw [deleteLoop]
          cases hread : decodeVarint (c :: data) with
          | error why => exact ⟨why, rfl⟩
          | ok p =>
              obtain ⟨tag, hdata, htag, hvalue⟩ := decodeVarint_eq_ok_iff.mp hread
              rw [ok_bind]
              cases hskip : skipField p.2 (p.1 &&& 7) with
              | error why => exact ⟨why, by simp only [hskip, error_bind]⟩
              | ok rest =>
                  obtain ⟨payload, hrest, hpayload⟩ := skipField_eq_ok_iff.mp hskip
                  rw [and_seven, hvalue] at hpayload
                  refine absurd ⟨rest, ?_⟩ (h ⟨tag, payload⟩ ⟨htag, hpayload⟩)
                  rw [hdata, hrest, WireField.bytes, List.append_assoc]

/-- The fields whose numbers, read without a bound, are others. -/
def keptUnbounded (t : ℕ) (fields : List WireField) : List WireField :=
  fields.filter fun f => groupsValue f.tag / 8 ≠ t

/-- A text of proper fields is read to its end. -/
theorem deleteLoop_of_proper {fields : List WireField} (h : ∀ f ∈ fields, Proper f)
    (hn : (fields.flatMap WireField.bytes).length ≤ n) :
    deleteLoop t n (fields.flatMap WireField.bytes) new =
      .ok (new ++ (keptUnbounded t fields).flatMap WireField.bytes) := by
  induction fields generalizing n new with
  | nil =>
      cases n <;> simp [deleteLoop, keptUnbounded]
  | cons f fields ih =>
      have hf := h f List.mem_cons_self
      have hpos : 0 < f.bytes.length := by
        have := List.length_pos_iff.mpr hf.tag.ne_nil
        rw [WireField.bytes, List.length_append]
        omega
      rw [List.flatMap_cons, List.length_append] at hn
      obtain ⟨m, rfl⟩ : ∃ m, n = m + 1 := ⟨n - 1, by omega⟩
      rw [List.flatMap_cons, deleteLoop_append hf,
        ih (fun g hg => h g (List.mem_cons_of_mem _ hg)) (by omega)]
      by_cases hnumber : groupsValue f.tag / 8 = t
      · simp [keptUnbounded, hnumber]
      · simp [keptUnbounded, hnumber]

/-- Any other text makes the loop die. -/
theorem deleteLoop_of_not_proper {data tail : PerlStr} {fields : List WireField}
    (h : Splits data fields tail) (hsize : data.length < 2 ^ 64)
    (hnot : ¬ (tail = [] ∧ ∀ f ∈ fields, Proper f)) :
    ∃ why, deleteLoop t n data new = .error why := by
  have hplain : ∀ g : WireField, Proper g → g.bytes <+: data → Plain g :=
    fun g hg hstart => hg.plain (hstart.length_le.trans_lt hsize)
  induction fields generalizing data n new with
  | nil =>
      have hdata : data = tail := h.data
      refine deleteLoop_stop (fun hnil => hnot ⟨hdata ▸ hnil, by simp⟩) fun g hg hstart => ?_
      exact h.tail g (hplain g hg hstart).wellFormed (hdata ▸ hstart)
  | cons f fields ih =>
      have hf := h.wellFormed f List.mem_cons_self
      have hdata : data = f.bytes ++ (fields.flatMap WireField.bytes ++ tail) := by
        rw [h.data, List.flatMap_cons, List.append_assoc]
      -- a proper field takes one turn; the first other one stops the loop
      by_cases hproper : Proper f
      · have hrest : Splits (fields.flatMap WireField.bytes ++ tail) fields tail :=
          ⟨rfl, fun g hg => h.wellFormed g (List.mem_cons_of_mem _ hg), h.tail⟩
        have hlength := congrArg List.length hdata
        have hpos := hf.length_pos
        rw [List.length_append] at hlength
        cases n with
        | zero =>
            cases data with
            | nil => simp at hlength; omega
            | cons c data => exact ⟨_, rfl⟩
        | succ n =>
            rw [hdata, deleteLoop_append hproper]
            refine ih hrest (by omega) (fun hall => hnot ⟨hall.1, ?_⟩) ?_
            · intro g hg
              rcases List.mem_cons.mp hg with rfl | hg
              · exact hproper
              · exact hall.2 g hg
            · exact fun g hg hstart => hg.plain (hstart.length_le.trans_lt (by omega))
      · refine deleteLoop_stop (fun hnil => ?_) fun g hg hstart => ?_
        · have hpos := hf.length_pos
          rw [hdata, List.append_eq_nil_iff] at hnil
          rw [hnil.1] at hpos
          exact absurd hpos (Nat.lt_irrefl 0)
        · have hsame := (hplain g hg hstart).eq_of_isPrefix hf (hdata ▸ hstart)
          exact hproper (hsame ▸ hg)

/-- A call on a text of proper fields. -/
theorem deleteTag_of_proper {fields : List WireField} (h : ∀ f ∈ fields, Proper f) (t : ℕ) :
    deleteTag t (some (fields.flatMap WireField.bytes)) =
      (.ok (), some ((keptUnbounded t fields).flatMap WireField.bytes)) := by
  have hloop : deleteLoop t _ (fields.flatMap WireField.bytes) [] = _ :=
    deleteLoop_of_proper h le_rfl
  rw [List.nil_append] at hloop
  cases hdata : fields.flatMap WireField.bytes with
  | nil =>
      rw [hdata] at hloop
      rw [← Except.ok.inj hloop]
      rfl
  | cons c data =>
      rw [hdata] at hloop
      simp only [deleteTag, hloop]

/-- A call that dies. -/
theorem deleteTag_of_not_proper {data tail : PerlStr} {fields : List WireField}
    (h : Splits data fields tail) (hsize : data.length < 2 ^ 64)
    (hnot : ¬ (tail = [] ∧ ∀ f ∈ fields, Proper f)) (t : ℕ) :
    ∃ why, deleteTag t (some data) = (.error why, some data) := by
  obtain ⟨why, hwhy⟩ : ∃ why, deleteLoop t data.length data [] = .error why :=
    deleteLoop_of_not_proper h hsize hnot
  refine ⟨why, ?_⟩
  cases data with
  | nil =>
      cases hwhy
  | cons c data => simp only [deleteTag, hwhy]

end PurePerl

/-! ### What is deleted -/

/-- What a call does with a content: it dies and leaves it, or it leaves the fields with other
numbers; a second call does nothing more, and two calls may come in any order. -/
structure DeletesExactly {σ : Type} (delete : ℕ → σ → Attempt σ Die Unit) (bytes : σ → PerlStr)
    (fields : List WireField) (t : ℕ) (content : σ) : Prop where
  filtered : (∃ why, delete t content = (.error why, content)) ∨
    ∃ content', delete t content = (.ok (), content') ∧ bytes content' = kept t fields
  again : (delete t (delete t content).2).2 = (delete t content).2
  commutes : ∀ u, (delete u (delete t content).2).2 = (delete t (delete u content).2).2

theorem kept_eq_nil_iff {t : ℕ} {fields : List WireField} (h : ∀ f ∈ fields, WellFormed f) :
    kept t fields = [] ↔ ∀ f ∈ fields, tagNumber f.tag = t := by
  have hbytes : ∀ f ∈ fields, f.bytes ≠ [] :=
    fun f hf => List.length_pos_iff.mp (h f hf).length_pos
  rw [kept, List.flatMap_eq_nil_iff]
  constructor
  · intro hnil f hf
    by_contra hne
    exact hbytes f hf (hnil f (List.mem_filter.mpr ⟨hf, by simpa using hne⟩))
  · intro hall f hf
    obtain ⟨hf, hne⟩ := List.mem_filter.mp hf
    exact absurd (hall f hf) (by simpa using hne)


/-- Leaving fields out shows in the bytes. -/
theorem eq_of_flatMap_bytes_eq {fields fields' : List WireField} (hsub : fields.Sublist fields')
    (h : ∀ f ∈ fields', WellFormed f)
    (heq : fields.flatMap WireField.bytes = fields'.flatMap WireField.bytes) :
    fields = fields' := by
  induction hsub with
  | slnil => rfl
  | @cons l l' f hsub _ =>
      have hpos := (h f List.mem_cons_self).length_pos
      have hle := (hsub.flatMap WireField.bytes).length_le
      rw [heq, List.flatMap_cons, List.length_append] at hle
      omega
  | @cons_cons l l' f _ ih =>
      rw [List.flatMap_cons, List.flatMap_cons] at heq
      rw [ih (fun g hg => h g (List.mem_cons_of_mem _ hg)) (List.append_cancel_left heq)]

namespace PurePerl

/-- A tag of more than 64 bits is kept even if its low 64 bits have the number. -/
theorem keptUnbounded_eq_iff {t : ℕ} (ht : t < 2 ^ 29) {fields : List WireField}
    (h : ∀ f ∈ fields, WellFormed f) :
    (keptUnbounded t fields).flatMap WireField.bytes = kept t fields ↔
      ¬ ∃ f ∈ fields, tagNumber f.tag = t ∧ 2 ^ 64 ≤ groupsValue f.tag := by
  have hkeep : ∀ f : WireField, groupsValue f.tag / 8 ≠ t ↔
      tagNumber f.tag ≠ t ∨ (tagNumber f.tag = t ∧ 2 ^ 64 ≤ groupsValue f.tag) := by
    intro f
    unfold tagNumber
    omega
  constructor
  · rintro heq ⟨f, hf, hnumber, hlarge⟩
    -- the field is kept here and not there, and nothing is kept there that is not kept here
    have hsub : (fields.filter fun f => tagNumber f.tag ≠ t).Sublist (keptUnbounded t fields) :=
      List.monotone_filter_right fields fun g hg => by
        simp only [decide_eq_true_eq] at hg ⊢
        exact (hkeep g).mpr (.inl hg)
    have hsame := eq_of_flatMap_bytes_eq hsub
      (fun g hg => h g (List.mem_of_mem_filter hg)) heq.symm
    have hmem : f ∈ keptUnbounded t fields :=
      List.mem_filter.mpr ⟨hf, decide_eq_true ((hkeep f).mpr (.inr ⟨hnumber, hlarge⟩))⟩
    rw [← hsame] at hmem
    exact of_decide_eq_true (List.mem_filter.mp hmem).2 hnumber
  · intro hnone
    rw [keptUnbounded, kept]
    congr 1
    refine List.filter_congr fun f hf => ?_
    rw [decide_eq_decide, hkeep]
    exact or_iff_left fun hbad => hnone ⟨f, hf, hbad⟩

/-- A content of proper fields. -/
theorem deletesExactly_of_proper {fields : List WireField} (h : ∀ f ∈ fields, WellFormed f)
    (hproper : ∀ f ∈ fields, Proper f) {t : ℕ} (ht : t < 2 ^ 29) :
    DeletesExactly deleteTag (fun content => content.getD []) fields t
        (some (fields.flatMap WireField.bytes)) ↔
      ¬ ∃ f ∈ fields, tagNumber f.tag = t ∧ 2 ^ 64 ≤ groupsValue f.tag := by
  have hfirst := deleteTag_of_proper hproper
  have hsecond : ∀ t u, deleteTag u (some ((keptUnbounded t fields).flatMap WireField.bytes)) =
      (.ok (), some ((keptUnbounded u (keptUnbounded t fields)).flatMap WireField.bytes)) :=
    fun t u => deleteTag_of_proper (fun f hf => hproper f (List.mem_of_mem_filter hf)) u
  rw [← keptUnbounded_eq_iff ht h]
  constructor
  · intro hdeletes
    rcases hdeletes.filtered with ⟨why, hwhy⟩ | ⟨content', hcontent, hbytes⟩
    · rw [hfirst] at hwhy
      cases hwhy
    · rw [hfirst] at hcontent
      rw [← hbytes, ← (Prod.mk.inj hcontent).2]
      rfl
  · intro heq
    refine ⟨.inr ⟨_, hfirst t, heq⟩, ?_, fun u => ?_⟩
    · rw [hfirst, hsecond]
      simp [keptUnbounded, List.filter_filter]
    · rw [hfirst, hfirst, hsecond, hsecond]
      simp [keptUnbounded, List.filter_filter, Bool.and_comm]

/-- A content on which every call dies. -/
theorem deletesExactly_of_error {content : Option PerlStr}
    (h : ∀ t, ∃ why, deleteTag t content = (.error why, content)) (fields : List WireField)
    (t : ℕ) : DeletesExactly deleteTag (fun content => content.getD []) fields t content := by
  have hsame : ∀ t, (deleteTag t content).2 = content := by
    intro t
    obtain ⟨why, hwhy⟩ := h t
    rw [hwhy]
  refine ⟨.inl (h t), ?_, fun u => ?_⟩
  · rw [hsame, hsame]
  · rw [hsame, hsame, hsame]

theorem deletesExactly_iff {content : Option PerlStr} {fields : List WireField} {tail : PerlStr}
    (h : Splits (content.getD []) fields tail) (hsize : (content.getD []).length < 2 ^ 64) {t : ℕ}
    (ht : t < 2 ^ 29) :
    DeletesExactly deleteTag (fun content => content.getD []) fields t content ↔
      ¬ (tail = [] ∧ (∀ f ∈ fields, Proper f) ∧
        ∃ f ∈ fields, tagNumber f.tag = t ∧ 2 ^ 64 ≤ groupsValue f.tag) := by
  cases content with
  | none =>
      obtain ⟨hbytes, -⟩ := List.append_eq_nil_iff.mp h.data.symm
      have hfields : fields = [] := by
        rw [List.eq_nil_iff_forall_not_mem]
        intro f hf
        have hpos := (h.wellFormed f hf).length_pos
        rw [List.flatMap_eq_nil_iff.mp hbytes f hf] at hpos
        exact absurd hpos (Nat.lt_irrefl 0)
      subst hfields
      exact iff_of_true ⟨.inr ⟨none, rfl, rfl⟩, rfl, fun _ => rfl⟩ (by simp)
  | some data =>
      by_cases hall : tail = [] ∧ ∀ f ∈ fields, Proper f
      · obtain ⟨rfl, hproper⟩ := hall
        have hdata : data = fields.flatMap WireField.bytes := by simpa using h.data
        rw [hdata, deletesExactly_of_proper h.wellFormed hproper ht]
        simp only [true_and, and_iff_right hproper]
      · refine iff_of_true ?_ fun hbad => hall ⟨hbad.1, hbad.2.1⟩
        exact deletesExactly_of_error (deleteTag_of_not_proper h hsize hall) fields t

end PurePerl

namespace Xs

theorem kept_plainFields_eq_iff {t : ℕ} {chunks : List PerlStr}
    {parts : List (List WireField × PerlStr)} (h : SplitsAll chunks parts) :
    kept t (plainFields parts) = kept t (parts.flatMap Prod.fst) ↔
      ∀ part ∈ parts, ∀ f ∈ part.1.dropWhile (fun f => tagWire f.tag ≠ 3), tagNumber f.tag = t := by
  induction h with
  | nil => simp [plainFields]
  | @cons chunk part chunks parts hchunk hchunks ih =>
      have hsplit : kept t part.1 = kept t (part.1.takeWhile fun f => tagWire f.tag ≠ 3) ++
          kept t (part.1.dropWhile fun f => tagWire f.tag ≠ 3) := by
        rw [← kept_append, List.takeWhile_append_dropWhile]
      have hsub : (plainFields parts).Sublist (parts.flatMap Prod.fst) :=
        List.Sublist.flatMap_right parts fun _ _ => List.takeWhile_sublist _
      have hle : (kept t (plainFields parts)).length ≤
          (kept t (parts.flatMap Prod.fst)).length :=
        ((hsub.filter _).flatMap WireField.bytes).length_le
      rw [plainFields_cons, List.flatMap_cons, kept_append, kept_append, hsplit, List.append_assoc,
        List.append_cancel_left_eq, List.forall_mem_cons, ← ih, ← kept_eq_nil_iff]
      · constructor
        · intro heq
          have hnil : kept t (part.1.dropWhile fun f => tagWire f.tag ≠ 3) = [] := by
            have hlength := congrArg List.length heq
            rw [List.length_append] at hlength
            exact List.length_eq_zero_iff.mp (by omega)
          rw [hnil] at heq
          exact ⟨hnil, heq⟩
        · rintro ⟨hnil, heq⟩
          rw [hnil, heq]
          rfl
      · exact fun f hf => hchunk.wellFormed f ((List.dropWhile_suffix _).subset hf)

theorem flatten_chunksOf (new : PerlStr) : (chunksOf new).flatten = new := by
  unfold chunksOf
  split
  · rename_i h
    rw [List.length_eq_zero_iff.mp h]
    rfl
  · simp

theorem deletesExactly_iff {chunks : List PerlStr} {parts : List (List WireField × PerlStr)}
    (h : SplitsAll chunks parts) (t : ℕ) :
    DeletesExactly deleteTag List.flatten (parts.flatMap Prod.fst) t chunks ↔
      ∀ part ∈ parts, ∀ f ∈ part.1.dropWhile (fun f => tagWire f.tag ≠ 3), tagNumber f.tag = t := by
  rw [← kept_plainFields_eq_iff h]
  constructor
  · intro hdeletes
    rcases hdeletes.filtered with ⟨why, hwhy⟩ | ⟨content', hcontent, hbytes⟩
    · rw [deleteTag_eq h] at hwhy
      cases hwhy
    · rw [deleteTag_eq h] at hcontent
      rw [← hbytes, ← (Prod.mk.inj hcontent).2, flatten_chunksOf]
  · intro heq
    refine ⟨.inr ⟨_, deleteTag_eq h t, by rw [flatten_chunksOf, heq]⟩, ?_, fun u => ?_⟩
    · rw [deleteTag_deleteTag h, deleteTag_eq h]
      simp [kept, List.filter_filter]
    · rw [deleteTag_deleteTag h, deleteTag_deleteTag h]
      simp [kept, List.filter_filter, Bool.and_comm]

end Xs

/-- The pure-Perl engine deletes exactly a number unless it reads a content to its end in which a
field with this number has a tag of more than 64 bits, the XS engine exactly if all that comes with
or after a group in a chunk has the number. -/
theorem deletes_exactly_iff {content : Option PerlStr} {fields : List WireField} {tail : PerlStr}
    (hcontent : Splits (content.getD []) fields tail) (hsize : (content.getD []).length < 2 ^ 64)
    {chunks : List PerlStr} {parts : List (List WireField × PerlStr)}
    (hchunks : Xs.SplitsAll chunks parts) {t : ℕ} (ht : t < 2 ^ 29) :
    (DeletesExactly PurePerl.deleteTag (fun content => content.getD []) fields t content ↔
        ¬ (tail = [] ∧ (∀ f ∈ fields, Proper f) ∧
          ∃ f ∈ fields, tagNumber f.tag = t ∧ 2 ^ 64 ≤ groupsValue f.tag)) ∧
      (DeletesExactly Xs.deleteTag List.flatten (parts.flatMap Prod.fst) t chunks ↔
        ∀ part ∈ parts, ∀ f ∈ part.1.dropWhile (fun f => tagWire f.tag ≠ 3),
          tagNumber f.tag = t) :=
  ⟨PurePerl.deletesExactly_iff hcontent hsize ht, Xs.deletesExactly_iff hchunks t⟩

/-- A varint with the number 101, then an empty group with the number 100. -/
def groupLast : List WireField := [⟨[168, 6], [2]⟩, ⟨[163, 6], [164, 6]⟩]

theorem splits_groupLast : Splits [168, 6, 2, 163, 6, 164, 6] groupLast [] := by
  have hfields : ∀ f ∈ groupLast, WellFormed f := by
    intro f hf
    rcases List.mem_pair.mp hf with rfl | rfl
    · exact .plain ⟨rfl, by decide⟩ (show IsVarint [2] from ⟨rfl, by decide⟩)
    · exact .emptyGroup ⟨rfl, by decide⟩ rfl ⟨rfl, by decide⟩ rfl rfl
  exact splits_of_wellFormed hfields

theorem deletes_exactly_group_last :
    DeletesExactly PurePerl.deleteTag (fun content => content.getD []) groupLast 100
        (some [168, 6, 2, 163, 6, 164, 6]) ∧
      DeletesExactly Xs.deleteTag List.flatten groupLast 100 [[168, 6, 2, 163, 6, 164, 6]] := by
  have hcontent : Splits ((some [168, 6, 2, 163, 6, 164, 6]).getD []) groupLast [] :=
    splits_groupLast
  have hchunks : Xs.SplitsAll [[168, 6, 2, 163, 6, 164, 6]] [(groupLast, [])] :=
    .cons splits_groupLast .nil
  obtain ⟨hpurePerl, hxs⟩ := deletes_exactly_iff hcontent (by decide) hchunks
    (show 100 < 2 ^ 29 by decide)
  refine ⟨hpurePerl.mpr ?_, hxs.mpr ?_⟩
  · rintro ⟨-, -, hlarge⟩
    revert hlarge
    decide
  · decide

/-- An empty group with the number 1, then a varint with the number 2. -/
def groupFirst : List WireField := [⟨[11], [12]⟩, ⟨[16], [5]⟩]

/-- Deleting the number 7 deletes the varint behind the group, and the group. -/
theorem deletes_behind_group : Splits [11, 12, 16, 5] groupFirst [] ∧
    Xs.deleteTag 7 [[11, 12, 16, 5]] = (.ok (), []) ∧
      ¬ DeletesExactly Xs.deleteTag List.flatten groupFirst 7 [[11, 12, 16, 5]] := by
  have hdeleted : Xs.deleteTag 7 [[11, 12, 16, 5]] = (.ok (), []) := rfl
  have hfields : ∀ f ∈ groupFirst, WellFormed f := by
    intro f hf
    rcases List.mem_pair.mp hf with rfl | rfl
    · exact .emptyGroup ⟨rfl, by decide⟩ rfl ⟨rfl, by decide⟩ rfl rfl
    · exact .plain ⟨rfl, by decide⟩ (show IsVarint [5] from ⟨rfl, by decide⟩)
  refine ⟨splits_of_wellFormed hfields, hdeleted, fun h => ?_⟩
  rcases h.filtered with ⟨why, hwhy⟩ | ⟨content', hcontent, hbytes⟩
  · cases hwhy
  · rw [hdeleted] at hcontent
    obtain rfl := (Prod.mk.inj hcontent).2
    revert hbytes
    decide

end GooglePerl
