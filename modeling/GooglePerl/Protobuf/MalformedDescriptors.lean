import GooglePerl.Lib.Assoc
import GooglePerl.Protobuf.DescriptorPool
import GooglePerl.Protobuf.WireFields

/-!
Which malformed descriptors the bootstrap parser refuses.

`WellFormed` is the wire format of `descriptor.proto` at every level the parser descends into.
`Readable` is what the parser really asks for: varints that end, and no group or reserved wire
type where it does not know the number. A known field is read whatever its wire type, and a
length or a fixed-size field may run past the end. The parser returns exactly on what is
readable (`parseRest_isOk_iff`), so it refuses what is malformed only if that is not readable
either (`refuses_iff`).
-/

namespace GooglePerl.Protobuf

open GooglePerl.Lib

variable {σ : Type}

/-! ### The levels -/

/-- What a parser parses. -/
inductive DescriptorKind where
  | set
  | file
  | message
  | field
  | oneof
  | enum
  | enumValue
  | options
  deriving DecidableEq

/-- What a field is to a parser. -/
inductive FieldUse where
  | bytes
  | varint
  | nested (k : DescriptorKind)
  | unknown
  deriving DecidableEq

/-- The wire type of a field that the parser knows. -/
def FieldUse.wire : FieldUse → Option ℕ
  | .bytes | .nested _ => some 2
  | .varint => some 0
  | .unknown => none

namespace DescriptorKind

/-- The fields that a parser knows, by number. -/
def fields : DescriptorKind → List (ℕ × FieldUse)
  | .set => [(1, .nested .file)]
  | .file => [(1, .bytes), (2, .bytes), (4, .nested .message), (5, .nested .enum)]
  | .message =>
      [(1, .bytes), (2, .nested .field), (3, .nested .message), (4, .nested .enum),
        (7, .nested .options), (8, .nested .oneof)]
  | .field => [(1, .bytes), (3, .varint), (4, .varint), (5, .varint), (6, .bytes), (9, .varint)]
  | .oneof => [(1, .bytes)]
  | .enum => [(1, .bytes), (2, .nested .enumValue)]
  | .enumValue => [(1, .bytes), (2, .varint)]
  | .options => [(7, .varint)]

def use (k : DescriptorKind) (number : ℕ) : FieldUse := (Assoc.find k.fields number).getD .unknown

/-- What the parser takes a field for. Only the parser of sets looks at the wire type. -/
def useAt (k : DescriptorKind) (number wire : ℕ) : FieldUse :=
  if k = .set ∧ wire ≠ 2 then .unknown else k.use number

end DescriptorKind

/-! ### The wire format -/

structure IsKey (key : PerlStr) (number wire : ℕ) : Prop where
  varint : IsVarint key
  value : groupsValue key = 8 * number + wire
  wire : wire < 8
  number : 0 < number ∧ number < 2 ^ 29

namespace DescriptorKind

/-- A text of fields, each complete, with the wire type of its number, and well formed inside. -/
inductive WellFormed : DescriptorKind → PerlStr → Prop where
  | nil (k : DescriptorKind) : WellFormed k []
  | plain {k : DescriptorKind} {number wire : ℕ} {key payload rest : PerlStr}
      (hkey : IsKey key number wire) (hpayload : ProperPayload wire payload)
      (huse : ∀ k', k.use number ≠ .nested k') (hwire : ∀ w ∈ (k.use number).wire, wire = w)
      (hrest : WellFormed k rest) : WellFormed k (key ++ (payload ++ rest))
  | nested {k k' : DescriptorKind} {number : ℕ} {key len body rest : PerlStr}
      (hkey : IsKey key number 2) (huse : k.use number = .nested k') (hlen : IsVarint len)
      (hlength : body.length = groupsValue len) (hbody : WellFormed k' body)
      (hrest : WellFormed k rest) : WellFormed k (key ++ (len ++ (body ++ rest)))

end DescriptorKind

/-! ### What the parser asks for -/

/-- Skipping a field goes on to `rest`. -/
def SkipsTo (wire : ℕ) (data rest : PerlStr) : Prop :=
  match wire with
  | 0 => ∃ v, IsVarint v ∧ data = v ++ rest
  | 1 => rest = data.drop 8
  | 2 => ∃ len tail, IsVarint len ∧ data = len ++ tail ∧ rest = tail.drop (groupsValue len)
  | 5 => rest = data.drop 4
  | _ => False

namespace DescriptorKind

/-- A text in which all varints end that are read, and all is known that cannot be skipped. -/
inductive Readable : DescriptorKind → PerlStr → Prop where
  | nil (k : DescriptorKind) : Readable k []
  | bytes {k : DescriptorKind} {key len tail : PerlStr} (hkey : IsVarint key)
      (huse : k.useAt (groupsValue key / 8) (groupsValue key % 8) = .bytes) (hlen : IsVarint len)
      (hrest : Readable k (tail.drop (groupsValue len))) : Readable k (key ++ (len ++ tail))
  | varint {k : DescriptorKind} {key v rest : PerlStr} (hkey : IsVarint key)
      (huse : k.useAt (groupsValue key / 8) (groupsValue key % 8) = .varint) (hv : IsVarint v)
      (hrest : Readable k rest) : Readable k (key ++ (v ++ rest))
  | nested {k k' : DescriptorKind} {key len tail : PerlStr} (hkey : IsVarint key)
      (huse : k.useAt (groupsValue key / 8) (groupsValue key % 8) = .nested k')
      (hlen : IsVarint len) (hbody : Readable k' (substrBig tail (groupsValue len)))
      (hrest : Readable k (tail.drop (groupsValue len))) : Readable k (key ++ (len ++ tail))
  | skipped {k : DescriptorKind} {key data rest : PerlStr} (hkey : IsVarint key)
      (huse : k.useAt (groupsValue key / 8) (groupsValue key % 8) = .unknown)
      (hskip : SkipsTo (groupsValue key % 8) data rest) (hrest : Readable k rest) :
      Readable k (key ++ data)

end DescriptorKind

/-! ### One field -/

/-- The payload of a field can be read, and `rest` is behind it. -/
def FieldUse.Reads (wire : ℕ) (data rest : PerlStr) : FieldUse → Prop
  | .bytes => ∃ len tail, IsVarint len ∧ data = len ++ tail ∧ rest = tail.drop (groupsValue len)
  | .varint => ∃ v, IsVarint v ∧ data = v ++ rest
  | .nested k => ∃ len tail, IsVarint len ∧ data = len ++ tail ∧
      k.Readable (substrBig tail (groupsValue len)) ∧ rest = tail.drop (groupsValue len)
  | .unknown => SkipsTo wire data rest

/-- A readable text after its first key. -/
theorem readable_key_iff {k : DescriptorKind} {key data : PerlStr} (hkey : IsVarint key) :
    k.Readable (key ++ data) ↔ ∃ rest,
      (k.useAt (groupsValue key / 8) (groupsValue key % 8)).Reads (groupsValue key % 8) data rest ∧
        k.Readable rest := by
  constructor
  · intro h
    -- a text has one key in front, whichever rule accepts it
    generalize htext : key ++ data = text at h
    cases h with
    | nil => exact absurd (List.append_eq_nil_iff.mp htext).1 hkey.ne_nil
    | bytes hkey' huse hlen hrest =>
        obtain ⟨rfl, rfl⟩ := hkey.append_inj hkey' htext
        rw [huse]
        exact ⟨_, ⟨_, _, hlen, rfl, rfl⟩, hrest⟩
    | varint hkey' huse hv hrest =>
        obtain ⟨rfl, rfl⟩ := hkey.append_inj hkey' htext
        rw [huse]
        exact ⟨_, ⟨_, hv, rfl⟩, hrest⟩
    | nested hkey' huse hlen hbody hrest =>
        obtain ⟨rfl, rfl⟩ := hkey.append_inj hkey' htext
        rw [huse]
        exact ⟨_, ⟨_, _, hlen, rfl, hbody, rfl⟩, hrest⟩
    | skipped hkey' huse hskip hrest =>
        obtain ⟨rfl, rfl⟩ := hkey.append_inj hkey' htext
        rw [huse]
        exact ⟨_, hskip, hrest⟩
  · rintro ⟨rest, hreads, hrest⟩
    cases huse : k.useAt (groupsValue key / 8) (groupsValue key % 8) with
    | bytes =>
        rw [huse] at hreads
        obtain ⟨len, tail, hlen, rfl, rfl⟩ := hreads
        exact .bytes hkey huse hlen hrest
    | varint =>
        rw [huse] at hreads
        obtain ⟨v, hv, rfl⟩ := hreads
        exact .varint hkey huse hv hrest
    | nested k' =>
        rw [huse] at hreads
        obtain ⟨len, tail, hlen, rfl, hbody, rfl⟩ := hreads
        exact .nested hkey huse hlen hbody hrest
    | unknown =>
        rw [huse] at hreads
        exact .skipped hkey huse hreads hrest

theorem readBytes_eq_ok_iff {data bytes rest : PerlStr} :
    readBytes data = .ok (bytes, rest) ↔ ∃ len tail, IsVarint len ∧ data = len ++ tail ∧
      bytes = substrBig tail (groupsValue len) ∧ rest = tail.drop (groupsValue len) := by
  rw [readBytes, bind_eq_ok]
  constructor
  · rintro ⟨⟨v, tail⟩, hread, hrest⟩
    obtain ⟨len, rfl, hlen, rfl⟩ := decodeVarint_eq_ok_iff.mp hread
    obtain ⟨rfl, rfl⟩ := Prod.mk.inj (Except.ok.inj hrest)
    exact ⟨len, tail, hlen, rfl, rfl, rfl⟩
  · rintro ⟨len, tail, hlen, rfl, rfl, rfl⟩
    exact ⟨_, decodeVarint_append_of_isVarint hlen tail, rfl⟩

theorem skipDescriptorField_eq_ok_iff {size wire : ℕ} {data rest : PerlStr} :
    skipDescriptorField size wire data = .ok rest ↔ SkipsTo wire data rest := by
  unfold skipDescriptorField SkipsTo
  split
  · rw [map_eq_ok]
    constructor
    · rintro ⟨⟨v, tail⟩, hread, rfl⟩
      obtain ⟨s, rfl, hs, -⟩ := decodeVarint_eq_ok_iff.mp hread
      exact ⟨s, hs, rfl⟩
    · rintro ⟨s, hs, rfl⟩
      exact ⟨_, decodeVarint_append_of_isVarint hs rest, rfl⟩
  · simp [eq_comm]
  · rw [map_eq_ok]
    constructor
    · rintro ⟨⟨bytes, tail⟩, hread, rfl⟩
      obtain ⟨len, tail', hlen, hdata, -, hrest⟩ := readBytes_eq_ok_iff.mp hread
      exact ⟨len, tail', hlen, hdata, hrest⟩
    · rintro ⟨len, tail, hlen, hdata, hrest⟩
      exact ⟨_, readBytes_eq_ok_iff.mpr ⟨len, tail, hlen, hdata, rfl, hrest⟩, rfl⟩
  · simp [eq_comm]
  · simp_all

/-- A reading does what the use of a field asks for, on texts below the bound. -/
def Reading.Takes (bound : ℕ) : Reading σ → FieldUse → Prop
  | .bytes store, .bytes => ∀ text, ∃ s, store text = .ok s
  | .bytes store, .nested k =>
      ∀ text : PerlStr, text.length < bound → ((∃ s, store text = .ok s) ↔ k.Readable text)
  | .varint _, .varint => True
  | .skip, .unknown => True
  | _, _ => False

theorem Reading.Takes.mono {reading : Reading σ} {use : FieldUse} {bound bound' : ℕ}
    (h : reading.Takes bound use) (hle : bound' ≤ bound) : reading.Takes bound' use := by
  cases reading with
  | bytes store =>
      cases use with
      | nested k => exact fun text htext => h text (htext.trans_le hle)
      | _ => exact h
  | varint store => cases use <;> exact h
  | skip => cases use <;> exact h

theorem Reading.Takes.run_isOk_iff {reading : Reading σ} {use : FieldUse} {size wire : ℕ} {s : σ}
    {data rest : PerlStr} (h : reading.Takes data.length use) :
    (∃ s', reading.run size wire s data = .ok (s', rest)) ↔ use.Reads wire data rest := by
  cases reading with
  | bytes store =>
      have hrun (s' : σ) : Reading.run size wire s data (.bytes store) = .ok (s', rest) ↔
          ∃ text, readBytes data = .ok (text, rest) ∧ store text = .ok s' := by
        rw [Reading.run, bind_eq_ok]
        constructor
        · rintro ⟨⟨text, tail⟩, hread, hstore⟩
          obtain ⟨x, hx, hpair⟩ := bind_eq_ok.mp hstore
          obtain ⟨rfl, rfl⟩ := Prod.mk.inj (Except.ok.inj hpair)
          exact ⟨text, hread, hx⟩
        · rintro ⟨text, hread, hstore⟩
          exact ⟨_, hread, bind_eq_ok.mpr ⟨s', hstore, rfl⟩⟩
      simp only [hrun]
      cases use with
      | bytes =>
          constructor
          · rintro ⟨s', text, hread, -⟩
            obtain ⟨len, tail, hlen, hdata, -, hrest⟩ := readBytes_eq_ok_iff.mp hread
            exact ⟨len, tail, hlen, hdata, hrest⟩
          · rintro ⟨len, tail, hlen, hdata, hrest⟩
            obtain ⟨s', hs'⟩ := h (substrBig tail (groupsValue len))
            exact ⟨s', _, readBytes_eq_ok_iff.mpr ⟨len, tail, hlen, hdata, rfl, hrest⟩, hs'⟩
      | nested k =>
          constructor
          · rintro ⟨s', text, hread, hstore⟩
            have hreadable := (h text (readBytes_length hread).2).mp ⟨s', hstore⟩
            obtain ⟨len, tail, hlen, hdata, rfl, hrest⟩ := readBytes_eq_ok_iff.mp hread
            exact ⟨len, tail, hlen, hdata, hreadable, hrest⟩
          · rintro ⟨len, tail, hlen, hdata, hbody, hrest⟩
            have hread := readBytes_eq_ok_iff.mpr ⟨len, tail, hlen, hdata, rfl, hrest⟩
            obtain ⟨s', hs'⟩ := (h _ (readBytes_length hread).2).mpr hbody
            exact ⟨s', _, hread, hs'⟩
      | varint => exact h.elim
      | unknown => exact h.elim
  | varint store =>
      cases use with
      | varint =>
          constructor
          · rintro ⟨s', hrun⟩
            obtain ⟨⟨v, tail⟩, hread, hpair⟩ := map_eq_ok.mp hrun
            obtain ⟨-, rfl⟩ := Prod.mk.inj hpair
            obtain ⟨text, rfl, htext, -⟩ := decodeVarint_eq_ok_iff.mp hread
            exact ⟨text, htext, rfl⟩
          · rintro ⟨text, htext, rfl⟩
            exact ⟨_, map_eq_ok.mpr ⟨_, decodeVarint_append_of_isVarint htext rest, rfl⟩⟩
      | bytes => exact h.elim
      | nested k => exact h.elim
      | unknown => exact h.elim
  | skip =>
      cases use with
      | unknown =>
          constructor
          · rintro ⟨s', hrun⟩
            obtain ⟨tail, hskip, hpair⟩ := map_eq_ok.mp hrun
            obtain ⟨-, rfl⟩ := Prod.mk.inj hpair
            exact skipDescriptorField_eq_ok_iff.mp hskip
          · intro hskips
            exact ⟨s, map_eq_ok.mpr ⟨rest, skipDescriptorField_eq_ok_iff.mpr hskips, rfl⟩⟩
      | bytes => exact h.elim
      | nested k => exact h.elim
      | varint => exact h.elim

/-! ### The loop -/

theorem DescriptorKind.Readable.exists_key {k : DescriptorKind} {data : PerlStr}
    (h : k.Readable data) (hne : data ≠ []) : ∃ key tail, IsVarint key ∧ data = key ++ tail := by
  cases h with
  | nil => exact absurd rfl hne
  | bytes hkey | varint hkey | nested hkey | skipped hkey => exact ⟨_, _, hkey, rfl⟩

/-- The loop returns on what is readable and on nothing else. -/
theorem parseRest_isOk_iff {k : DescriptorKind} {size : ℕ} {read : σ → ℕ → ℕ → Reading σ}
    {data : PerlStr}
    (h : ∀ s number wire, (read s number wire).Takes data.length (k.useAt number wire)) (s : σ) :
    (∃ s', parseRest size read s data = .ok s') ↔ k.Readable data := by
  induction hn : data.length using Nat.strong_induction_on generalizing data s with
  | _ n ih =>
      cases hread : decodeVarint data with
      | error e =>
          cases data with
          | nil => exact iff_of_true ⟨s, rfl⟩ (.nil k)
          | cons c data =>
              refine iff_of_false (fun ⟨s', hs'⟩ => ?_) fun hreadable => ?_
              · rw [parseRest, List.length_cons, parseTurns, hread] at hs'
                cases hs'
              · obtain ⟨key, tail, hkey, heq⟩ := hreadable.exists_key (List.cons_ne_nil c data)
                rw [heq, decodeVarint_append_of_isVarint hkey] at hread
                cases hread
      | ok p =>
          obtain ⟨v, tail⟩ := p
          have hshort := decodeVarint_length hread
          obtain ⟨key, rfl, hkey, rfl⟩ := decodeVarint_eq_ok_iff.mp hread
          rw [parseRest_eq hread, readable_key_iff hkey, shiftRight_three, and_seven]
          -- one field is read exactly if it is readable
          have hfield (rest : PerlStr) :
              (∃ s', (read s (groupsValue key / 8) (groupsValue key % 8)).run size
                (groupsValue key % 8) s tail = .ok (s', rest)) ↔
                (k.useAt (groupsValue key / 8) (groupsValue key % 8)).Reads
                  (groupsValue key % 8) tail rest :=
            ((h s (groupsValue key / 8) (groupsValue key % 8)).mono hshort.le).run_isOk_iff
          -- and so is what follows, which is shorter
          have hloop (s' : σ) {rest : PerlStr} (hlt : rest.length ≤ tail.length) :=
            ih rest.length (by omega)
              (fun s number wire => (h s number wire).mono (by omega)) s' rfl
          constructor
          · rintro ⟨s', hs'⟩
            obtain ⟨⟨s₁, rest⟩, hrun, hrest⟩ := bind_eq_ok.mp hs'
            have hle := Reading.run_length hrun
            exact ⟨rest, (hfield rest).mp ⟨s₁, hrun⟩, (hloop s₁ hle).mp ⟨s', hrest⟩⟩
          · rintro ⟨rest, hreads, hreadable⟩
            obtain ⟨s₁, hrun⟩ := (hfield rest).mpr hreads
            obtain ⟨s', hs'⟩ := (hloop s₁ (Reading.run_length hrun)).mpr hreadable
            exact ⟨s', bind_eq_ok.mpr ⟨_, hrun, hs'⟩⟩

/-! ### The parsers -/

theorem useAt_of_ne {k : DescriptorKind} (h : k ≠ .set) (number wire : ℕ) :
    k.useAt number wire = k.use number := by
  rw [DescriptorKind.useAt, if_neg fun hset => h hset.1]

theorem map_isOk_iff {α β : Type} {x : Except Die α} {f : α → β} :
    (∃ b, x.map f = .ok b) ↔ ∃ a, x = .ok a := by
  cases x with
  | error e => exact iff_of_false (fun ⟨b, hb⟩ => nomatch hb) fun ⟨a, ha⟩ => nomatch ha
  | ok a => exact iff_of_true ⟨f a, rfl⟩ ⟨a, rfl⟩

/-- A number that no parser of this kind knows. -/
theorem takes_skip {k : DescriptorKind} {number bound : ℕ} (h : number ∉ Assoc.keys k.fields) :
    (Reading.skip : Reading σ).Takes bound (k.use number) := by
  rw [DescriptorKind.use, Assoc.find_eq_none_iff.mpr h]
  trivial

theorem parseEnumValueDescriptor_isOk_iff (data : PerlStr) :
    (∃ v, parseEnumValueDescriptor data = .ok v) ↔ DescriptorKind.enumValue.Readable data := by
  refine parseRest_isOk_iff (fun v number wire => ?_) _
  rw [useAt_of_ne (by decide)]
  unfold enumValueReading
  split
  · exact fun text => ⟨_, rfl⟩
  · trivial
  · exact takes_skip (by simp_all [Assoc.keys, DescriptorKind.fields])

theorem parseOneofDescriptor_isOk_iff (data : PerlStr) :
    (∃ o, parseOneofDescriptor data = .ok o) ↔ DescriptorKind.oneof.Readable data := by
  refine parseRest_isOk_iff (fun o number wire => ?_) _
  rw [useAt_of_ne (by decide)]
  unfold oneofReading
  split
  · exact fun text => ⟨_, rfl⟩
  · exact takes_skip (by simp_all [Assoc.keys, DescriptorKind.fields])

theorem parseMessageOptions_isOk_iff (data : PerlStr) :
    (∃ flag, parseMessageOptions data = .ok flag) ↔ DescriptorKind.options.Readable data := by
  refine parseRest_isOk_iff (fun flag number wire => ?_) _
  rw [useAt_of_ne (by decide)]
  unfold optionsReading
  split
  · trivial
  · exact takes_skip (by simp_all [Assoc.keys, DescriptorKind.fields])

theorem parseFieldDescriptor_isOk_iff (data : PerlStr) :
    (∃ f, parseFieldDescriptor data = .ok f) ↔ DescriptorKind.field.Readable data := by
  refine parseRest_isOk_iff (fun f number wire => ?_) _
  rw [useAt_of_ne (by decide)]
  unfold fieldReading
  split
  case h_1 | h_5 => exact fun text => ⟨_, rfl⟩
  case h_7 => exact takes_skip (by simp_all [Assoc.keys, DescriptorKind.fields])
  all_goals trivial

theorem parseEnumDescriptor_isOk_iff (data : PerlStr) :
    (∃ e, parseEnumDescriptor data = .ok e) ↔ DescriptorKind.enum.Readable data := by
  refine parseRest_isOk_iff (fun e number wire => ?_) _
  rw [useAt_of_ne (by decide)]
  unfold enumReading
  split
  · exact fun text => ⟨_, rfl⟩
  · exact fun text _ => map_isOk_iff.trans (parseEnumValueDescriptor_isOk_iff text)
  · exact takes_skip (by simp_all [Assoc.keys, DescriptorKind.fields])

/-- Nested types are shorter than the type they are in. -/
theorem parseDescriptor_isOk_iff (data : PerlStr) :
    (∃ m, parseDescriptor data = .ok m) ↔ DescriptorKind.message.Readable data := by
  induction hn : data.length using Nat.strong_induction_on generalizing data with
  | _ n ih =>
      rw [parseDescriptor_eq]
      refine parseRest_isOk_iff (fun m number wire => ?_) _
      rw [useAt_of_ne (by decide)]
      unfold descriptorReading
      split
      · exact fun text => ⟨_, rfl⟩
      · exact fun text _ => map_isOk_iff.trans (parseFieldDescriptor_isOk_iff text)
      · exact fun text htext => map_isOk_iff.trans (ih text.length (hn ▸ htext) text rfl)
      · exact fun text _ => map_isOk_iff.trans (parseEnumDescriptor_isOk_iff text)
      · exact fun text _ => map_isOk_iff.trans (parseMessageOptions_isOk_iff text)
      · exact fun text _ => map_isOk_iff.trans (parseOneofDescriptor_isOk_iff text)
      · exact takes_skip (by simp_all [Assoc.keys, DescriptorKind.fields])

theorem parseFileDescriptor_isOk_iff (data : PerlStr) :
    (∃ fd, parseFileDescriptor data = .ok fd) ↔ DescriptorKind.file.Readable data := by
  refine parseRest_isOk_iff (fun fd number wire => ?_) _
  rw [useAt_of_ne (by decide)]
  unfold fileReading
  split
  case h_1 | h_2 => exact fun text => ⟨_, rfl⟩
  case h_3 => exact fun text _ => map_isOk_iff.trans (parseDescriptor_isOk_iff text)
  case h_4 => exact fun text _ => map_isOk_iff.trans (parseEnumDescriptor_isOk_iff text)
  case h_5 => exact takes_skip (by simp_all [Assoc.keys, DescriptorKind.fields])

theorem parseFileDescriptorSet_isOk_iff (data : PerlStr) :
    (∃ files, parseFileDescriptorSet data = .ok files) ↔ DescriptorKind.set.Readable data := by
  refine parseRest_isOk_iff (fun files number wire => ?_) _
  unfold setReading DescriptorKind.useAt
  by_cases hwire : wire = 2
  · by_cases hnumber : number = 1
    · rw [if_pos ⟨hnumber, hwire⟩, if_neg (by simp [hwire]), hnumber]
      exact fun text _ => map_isOk_iff.trans (parseFileDescriptor_isOk_iff text)
    · rw [if_neg fun h => hnumber h.1, if_neg (by simp [hwire])]
      exact takes_skip (by simp [Assoc.keys, DescriptorKind.fields, hnumber])
  · rw [if_neg fun h => hwire h.2, if_pos ⟨rfl, hwire⟩]
    trivial

/-! ### Refusal -/

theorem IsKey.div_mod {key : PerlStr} {number wire : ℕ} (h : IsKey key number wire) :
    groupsValue key / 8 = number ∧ groupsValue key % 8 = wire := by
  have hvalue := h.value
  have hwire := h.wire
  omega

/-- In a set only files are known. -/
theorem useAt_of_wire {k : DescriptorKind} {number wire : ℕ}
    (h : ∀ w ∈ (k.use number).wire, wire = w) : k.useAt number wire = k.use number := by
  rw [DescriptorKind.useAt]
  split
  · rename_i hset
    obtain ⟨rfl, hne⟩ := hset
    by_cases hnumber : number = 1
    · subst hnumber
      exact absurd (h 2 rfl) hne
    · have hnone : Assoc.find DescriptorKind.set.fields number = none :=
        Assoc.find_eq_none_iff.mpr (by simp [Assoc.keys, DescriptorKind.fields, hnumber])
      rw [DescriptorKind.use, hnone]
      rfl
  · rfl

theorem ProperPayload.skipsTo {wire : ℕ} {payload : PerlStr} (h : ProperPayload wire payload)
    (rest : PerlStr) : SkipsTo wire (payload ++ rest) rest := by
  unfold ProperPayload at h
  split at h
  · obtain ⟨len, body, rfl, hlen, hlength⟩ := h
    exact ⟨len, body ++ rest, hlen, List.append_assoc _ _ _, by rw [← hlength, List.drop_left]⟩
  · unfold PlainPayload at h
    split at h
    · exact ⟨payload, h, rfl⟩
    · exact (List.drop_left' h).symm
    · rename_i hne
      exact absurd rfl hne
    · exact (List.drop_left' h).symm
    · exact h.elim

/-- What is well formed is readable. -/
theorem DescriptorKind.WellFormed.readable {k : DescriptorKind} {data : PerlStr}
    (h : k.WellFormed data) (hsize : data.length < 2 ^ 63) : k.Readable data := by
  induction h with
  | nil k => exact .nil k
  | @plain k number wire key payload rest hkey hpayload huse hwire hrest ih =>
      simp only [List.length_append] at hsize
      have hreadable := ih (by omega)
      obtain ⟨hnumber, hwire'⟩ := hkey.div_mod
      rw [readable_key_iff hkey.varint, hnumber, hwire', useAt_of_wire hwire]
      refine ⟨rest, ?_, hreadable⟩
      cases huse' : k.use number with
      | nested k' => exact absurd huse' (huse k')
      | bytes =>
          obtain rfl : wire = 2 := hwire 2 (by rw [huse']; rfl)
          obtain ⟨len, body, rfl, hlen, hlength⟩ := hpayload
          exact ⟨len, body ++ rest, hlen, List.append_assoc _ _ _,
            by rw [← hlength, List.drop_left]⟩
      | varint =>
          obtain rfl : wire = 0 := hwire 0 (by rw [huse']; rfl)
          exact ⟨payload, hpayload, rfl⟩
      | unknown => exact hpayload.skipsTo rest
  | @nested k k' number key len body rest hkey huse hlen hlength hbody hrest ihbody ih =>
      simp only [List.length_append] at hsize
      have hreadable := ih (by omega)
      obtain ⟨hnumber, hwire⟩ := hkey.div_mod
      have hwire' : ∀ w ∈ (k.use number).wire, 2 = w := by
        rw [huse]
        exact fun w hw => Option.some.inj hw
      rw [readable_key_iff hkey.varint, hnumber, hwire, useAt_of_wire hwire', huse]
      refine ⟨rest, ⟨len, body ++ rest, hlen, rfl, ?_, by rw [← hlength, List.drop_left]⟩,
        hreadable⟩
      have hshort : body.length < 2 ^ 63 := by omega
      rw [← hlength, substrBig, if_pos hshort, List.take_left]
      exact ihbody hshort

/-- A file descriptor that is malformed is refused, and no pool registers anything from it. -/
def RefusesFile (data : PerlStr) : Prop :=
  ¬ DescriptorKind.file.WellFormed data → ∃ why, parseFileDescriptor data = .error why ∧
    ∀ p : DescriptorPool, p.addSerializedFile data = (.error why, p)

/-- So is a set of them. -/
def RefusesSet (data : PerlStr) : Prop :=
  ¬ DescriptorKind.set.WellFormed data → ∃ why, parseFileDescriptorSet data = .error why ∧
    ∀ p : DescriptorPool, p.addSerializedFileDescriptorSet data = (.error why, p)

theorem exists_error_iff {α : Type} {x : Except Die α} {P : Die → Prop}
    (h : ∀ why, x = .error why → P why) :
    (∃ why, x = .error why ∧ P why) ↔ ¬ ∃ a, x = .ok a := by
  cases x with
  | error e => exact iff_of_true ⟨e, rfl, h e rfl⟩ fun ⟨a, ha⟩ => nomatch ha
  | ok a => exact iff_of_false (fun ⟨e, he, _⟩ => nomatch he) fun hnone => hnone ⟨a, rfl⟩

/-- What is malformed is refused exactly if it is not readable. -/
theorem refuses_iff (data : PerlStr) :
    (RefusesFile data ↔
        DescriptorKind.file.WellFormed data ∨ ¬ DescriptorKind.file.Readable data) ∧
      (RefusesSet data ↔
        DescriptorKind.set.WellFormed data ∨ ¬ DescriptorKind.set.Readable data) := by
  constructor
  · rw [RefusesFile, exists_error_iff, parseFileDescriptor_isOk_iff, or_iff_not_imp_left]
    intro why hwhy p
    rw [DescriptorPool.addSerializedFile, hwhy]
  · rw [RefusesSet, exists_error_iff, parseFileDescriptorSet_isOk_iff, or_iff_not_imp_left]
    intro why hwhy p
    rw [DescriptorPool.addSerializedFileDescriptorSet, hwhy]

/-- A name that should have five characters and has one. -/
theorem not_wellFormed_truncated : ¬ DescriptorKind.file.WellFormed [10, 5, 97] := by
  intro hw
  generalize htext : [10, 5, 97] = text at hw
  have hread : decodeVarint text = .ok (10, [5, 97]) := by
    rw [← htext]
    rfl
  have hread' : decodeVarint [5, 97] = .ok (5, [97]) := rfl
  cases hw with
  | nil => cases htext
  | @plain _ number wire _ _ _ hkey hpayload huse hwire hrest =>
      rw [decodeVarint_append_of_isVarint hkey.varint] at hread
      obtain ⟨hvalue, htail⟩ := Prod.mk.inj (Except.ok.inj hread)
      have hvalue' := hkey.value
      have hlt := hkey.wire
      obtain rfl : wire = 2 := by omega
      obtain ⟨len, body, rfl, hlen, hlength⟩ := hpayload
      rw [← htail, List.append_assoc, decodeVarint_append_of_isVarint hlen] at hread'
      obtain ⟨hfive, hone⟩ := Prod.mk.inj (Except.ok.inj hread')
      have hcount := congrArg List.length hone
      rw [List.length_append, List.length_singleton] at hcount
      omega
  | @nested _ _ number _ _ _ _ hkey huse hlen hlength hbody hrest =>
      rw [decodeVarint_append_of_isVarint hkey.varint] at hread
      obtain ⟨hvalue, -⟩ := Prod.mk.inj (Except.ok.inj hread)
      have hvalue' := hkey.value
      obtain rfl : number = 1 := by omega
      cases huse

theorem not_refuses_truncated : ¬ RefusesFile [10, 5, 97] := by
  intro h
  have hparse : parseFileDescriptor [10, 5, 97] = .ok { name := [97] } := rfl
  obtain ⟨why, hwhy, -⟩ := h not_wellFormed_truncated
  rw [hparse] at hwhy
  cases hwhy

end GooglePerl.Protobuf
