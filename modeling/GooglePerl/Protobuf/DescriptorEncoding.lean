import GooglePerl.Protobuf.DescriptorParser

/-!
Which encodings of descriptors the bootstrap parser reads back.

`Encoded` is the encoding of a message as a run of records, in any order; each
message type has its own relation of records, which says what a record does to
the value. Beside the fields that the parser knows there may be any others.
The parser reads an `int32` as the number of its varint, so a negative one
comes back with 2^64 added; and it dies of a group. These are the only
differences (`parse_encoded_iff`).
-/

namespace GooglePerl.Protobuf

open GooglePerl.Lib

variable {σ τ : Type}

/-! ### Wire format -/

def delimited (n : ℕ) (payload : PerlStr) : PerlStr :=
  leb128 (8 * n + 2) ++ (leb128 payload.length ++ payload)

def varintField (n v : ℕ) : PerlStr := leb128 (8 * n) ++ leb128 v

mutual

/-- A field, its number, and whether it is a group. -/
inductive RawField : ℕ → Bool → PerlStr → Prop where
  | varint {n v : ℕ} (hn : n < 2 ^ 29) (hv : v < 2 ^ 64) : RawField n false (varintField n v)
  | fixed64 {n : ℕ} {bytes : PerlStr} (hn : n < 2 ^ 29) (hlen : bytes.length = 8) :
      RawField n false (leb128 (8 * n + 1) ++ bytes)
  | delimited {n : ℕ} {bytes : PerlStr} (hn : n < 2 ^ 29) (hlen : bytes.length < 2 ^ 64) :
      RawField n false (delimited n bytes)
  | group {n : ℕ} {body : PerlStr} (hn : n < 2 ^ 29) (hbody : RawFields body) :
      RawField n true (leb128 (8 * n + 3) ++ (body ++ leb128 (8 * n + 4)))
  | fixed32 {n : ℕ} {bytes : PerlStr} (hn : n < 2 ^ 29) (hlen : bytes.length = 4) :
      RawField n false (leb128 (8 * n + 5) ++ bytes)

/-- What is inside a group. -/
inductive RawFields : PerlStr → Prop where
  | nil : RawFields []
  | cons {n : ℕ} {grouped : Bool} {field fields : PerlStr} (hfield : RawField n grouped field)
      (hfields : RawFields fields) : RawFields (field ++ fields)

end

/-- A message as a run of records. The flag says whether one of them is a group. -/
inductive Encoded (record : Bool → PerlStr → σ → σ → Prop) (start : σ) : Bool → PerlStr → σ → Prop
  | nil : Encoded record start false [] start
  | snoc {g g' : Bool} {b r : PerlStr} {v v' : σ} (hinit : Encoded record start g b v)
      (hlast : record g' r v v') : Encoded record start (g || g') (b ++ r) v'

def IsInt32 (n : ℤ) : Prop := -2 ^ 31 ≤ n ∧ n < 2 ^ 31

instance (n : ℤ) : Decidable (IsInt32 n) := inferInstanceAs (Decidable (_ ∧ _))

/-- A string as long as a string can be. -/
def Storable (s : PerlStr) : Prop := s.length < 2 ^ 63

/-! ### The records of `descriptor.proto` -/

inductive EnumValueRecord : Bool → PerlStr → EnumValueDescriptor → EnumValueDescriptor → Prop
  | name (v : EnumValueDescriptor) {s : PerlStr} (hs : Storable s) :
      EnumValueRecord false (delimited 1 s) v { v with name := s }
  | number (v : EnumValueDescriptor) {n : ℤ} (hn : IsInt32 n) :
      EnumValueRecord false (varintField 2 (varintOf n)) v { v with number := n }
  | other (v : EnumValueDescriptor) {n : ℕ} {g : Bool} {b : PerlStr} (hb : RawField n g b)
      (hn : n ∉ [1, 2]) : EnumValueRecord g b v v

inductive EnumRecord : Bool → PerlStr → EnumDescriptor → EnumDescriptor → Prop
  | name (e : EnumDescriptor) {s : PerlStr} (hs : Storable s) :
      EnumRecord false (delimited 1 s) e { e with name := s }
  | value (e : EnumDescriptor) {g : Bool} {b : PerlStr} {v : EnumValueDescriptor} (hb : Storable b)
      (hv : Encoded EnumValueRecord {} g b v) :
      EnumRecord g (delimited 2 b) e { e with value := e.value ++ [v] }
  | other (e : EnumDescriptor) {n : ℕ} {g : Bool} {b : PerlStr} (hb : RawField n g b)
      (hn : n ∉ [1, 2]) : EnumRecord g b e e

inductive FieldRecord : Bool → PerlStr → FieldDescriptor → FieldDescriptor → Prop
  | name (f : FieldDescriptor) {s : PerlStr} (hs : Storable s) :
      FieldRecord false (delimited 1 s) f { f with name := s }
  | number (f : FieldDescriptor) {n : ℤ} (hn : IsInt32 n) :
      FieldRecord false (varintField 3 (varintOf n)) f { f with number := n }
  | label (f : FieldDescriptor) {n : ℤ} (hn : IsInt32 n) :
      FieldRecord false (varintField 4 (varintOf n)) f { f with label := n }
  | type (f : FieldDescriptor) {n : ℤ} (hn : IsInt32 n) :
      FieldRecord false (varintField 5 (varintOf n)) f { f with type := n }
  | typeName (f : FieldDescriptor) {s : PerlStr} (hs : Storable s) :
      FieldRecord false (delimited 6 s) f { f with typeName := s }
  | oneofIndex (f : FieldDescriptor) {n : ℤ} (hn : IsInt32 n) :
      FieldRecord false (varintField 9 (varintOf n)) f { f with oneofIndex := some n }
  | other (f : FieldDescriptor) {n : ℕ} {g : Bool} {b : PerlStr} (hb : RawField n g b)
      (hn : n ∉ [1, 3, 4, 5, 6, 9]) : FieldRecord g b f f

inductive OneofRecord : Bool → PerlStr → OneofDescriptor → OneofDescriptor → Prop
  | name (o : OneofDescriptor) {s : PerlStr} (hs : Storable s) :
      OneofRecord false (delimited 1 s) o { o with name := s }
  | other (o : OneofDescriptor) {n : ℕ} {g : Bool} {b : PerlStr} (hb : RawField n g b)
      (hn : n ∉ [1]) : OneofRecord g b o o

/-- The records of `MessageOptions`; the value is the flag `map_entry`. -/
inductive OptionsRecord : Bool → PerlStr → Bool → Bool → Prop
  | mapEntry (old flag : Bool) : OptionsRecord false (varintField 7 flag.toNat) old flag
  | other (flag : Bool) {n : ℕ} {g : Bool} {b : PerlStr} (hb : RawField n g b) (hn : n ∉ [7]) :
      OptionsRecord g b flag flag

inductive MessageRecord : Bool → PerlStr → MessageDescriptor → MessageDescriptor → Prop
  | name (m : MessageDescriptor) {s : PerlStr} (hs : Storable s) :
      MessageRecord false (delimited 1 s) m { m with name := s }
  | field (m : MessageDescriptor) {g : Bool} {b : PerlStr} {f : FieldDescriptor} (hb : Storable b)
      (hf : Encoded FieldRecord {} g b f) :
      MessageRecord g (delimited 2 b) m { m with field := m.field ++ [f] }
  | nestedType (m : MessageDescriptor) {g : Bool} {b : PerlStr} {n : MessageDescriptor}
      (hb : Storable b) (hn : Encoded MessageRecord {} g b n) :
      MessageRecord g (delimited 3 b) m { m with nestedType := m.nestedType ++ [n] }
  | enumType (m : MessageDescriptor) {g : Bool} {b : PerlStr} {e : EnumDescriptor} (hb : Storable b)
      (he : Encoded EnumRecord {} g b e) :
      MessageRecord g (delimited 4 b) m { m with enumType := m.enumType ++ [e] }
  /-- options come once -/
  | options (m : MessageDescriptor) {g : Bool} {b : PerlStr} {flag : Bool} (hb : Storable b)
      (hone : m.options = none) (hflag : Encoded OptionsRecord false g b flag) :
      MessageRecord g (delimited 7 b) m { m with options := some flag }
  | oneofDecl (m : MessageDescriptor) {g : Bool} {b : PerlStr} {o : OneofDescriptor}
      (hb : Storable b) (ho : Encoded OneofRecord {} g b o) :
      MessageRecord g (delimited 8 b) m { m with oneofDecl := m.oneofDecl ++ [o] }
  | other (m : MessageDescriptor) {n : ℕ} {g : Bool} {b : PerlStr} (hb : RawField n g b)
      (hn : n ∉ [1, 2, 3, 4, 7, 8]) : MessageRecord g b m m

inductive FileRecord : Bool → PerlStr → FileDescriptor → FileDescriptor → Prop
  | name (fd : FileDescriptor) {s : PerlStr} (hs : Storable s) :
      FileRecord false (delimited 1 s) fd { fd with name := s }
  | package (fd : FileDescriptor) {s : PerlStr} (hs : Storable s) :
      FileRecord false (delimited 2 s) fd { fd with package := s }
  | messageType (fd : FileDescriptor) {g : Bool} {b : PerlStr} {m : MessageDescriptor}
      (hb : Storable b) (hm : Encoded MessageRecord {} g b m) :
      FileRecord g (delimited 4 b) fd { fd with messageType := fd.messageType ++ [m] }
  | enumType (fd : FileDescriptor) {g : Bool} {b : PerlStr} {e : EnumDescriptor} (hb : Storable b)
      (he : Encoded EnumRecord {} g b e) :
      FileRecord g (delimited 5 b) fd { fd with enumType := fd.enumType ++ [e] }
  | other (fd : FileDescriptor) {n : ℕ} {g : Bool} {b : PerlStr} (hb : RawField n g b)
      (hn : n ∉ [1, 2, 4, 5]) : FileRecord g b fd fd

inductive SetRecord : Bool → PerlStr → List FileDescriptor → List FileDescriptor → Prop
  | file (files : List FileDescriptor) {g : Bool} {b : PerlStr} {fd : FileDescriptor}
      (hb : Storable b) (hfd : Encoded FileRecord {} g b fd) :
      SetRecord g (delimited 1 b) files (files ++ [fd])
  | other (files : List FileDescriptor) {n : ℕ} {g : Bool} {b : PerlStr} (hb : RawField n g b)
      (hn : n ∉ [1]) : SetRecord g b files files

/-! ### One record -/

theorem tag_shiftRight {n w : ℕ} (hw : w < 8) : (8 * n + w) >>> 3 = n := by
  rw [Nat.shiftRight_eq_div_pow]
  omega

theorem tag_and {n w : ℕ} (hw : w < 8) : (8 * n + w) &&& 7 = w := by
  have hmod : (8 * n + w) &&& 7 = (8 * n + w) % 8 := Nat.and_two_pow_sub_one_eq_mod _ 3
  rw [hmod]
  omega

section Records

variable {size n w : ℕ} {read : σ → ℕ → ℕ → Reading σ} {s : σ}

/-- The loop at a record with the number `n` and the wire type `w`. -/
theorem parseRest_record (hn : n < 2 ^ 29) (hw : w < 8) (data : PerlStr) :
    parseRest size read s (leb128 (8 * n + w) ++ data) =
      (read s n w).run size w s data >>= fun p => parseRest size read p.1 p.2 := by
  have htag : decodeVarint (leb128 (8 * n + w) ++ data) = .ok (8 * n + w, data) :=
    decodeVarint_leb128 (by omega) data
  rw [parseRest_eq htag, tag_shiftRight hw, tag_and hw]

theorem readBytes_leb128 {payload : PerlStr} (hlen : Storable payload) (rest : PerlStr) :
    readBytes (leb128 payload.length ++ payload ++ rest) = .ok (payload, rest) := by
  have hsize : payload.length < 2 ^ 70 := lt_trans hlen (by norm_num)
  have hshort : payload.length < 2 ^ 63 := hlen
  have hsubstr : substrBig (payload ++ rest) payload.length = payload := by
    rw [substrBig, if_pos hshort, List.take_left]
  rw [readBytes, List.append_assoc, decodeVarint_leb128 hsize, ok_bind]
  simp only [hsubstr, List.drop_left]
  rfl

theorem parseRest_delimited {payload : PerlStr} {store : PerlStr → Except Die σ}
    (hn : n < 2 ^ 29) (hlen : Storable payload) (hread : read s n 2 = .bytes store)
    (rest : PerlStr) :
    parseRest size read s (delimited n payload ++ rest) =
      store payload >>= fun s' => parseRest size read s' rest := by
  rw [delimited, List.append_assoc, parseRest_record hn (by decide), hread, Reading.run,
    readBytes_leb128 hlen]
  simp only [ok_bind]
  cases store payload <;> rfl

theorem parseRest_varint {v : ℕ} {store : ℕ → σ} (hn : n < 2 ^ 29) (hv : v < 2 ^ 64)
    (hread : read s n 0 = .varint store) (rest : PerlStr) :
    parseRest size read s (varintField n v ++ rest) = parseRest size read (store v) rest := by
  rw [varintField, List.append_assoc, show leb128 (8 * n) = leb128 (8 * n + 0) from rfl,
    parseRest_record hn (by decide), hread, Reading.run,
    decodeVarint_leb128 (lt_trans hv (by norm_num))]
  rfl

end Records

/-! ### Runs of records -/

/-- What a run without groups goes on to, or else some error. -/
def Follows : Bool → Except Die σ → Except Die σ → Prop
  | false, x, y => x = y
  | true, x, _ => ∃ e, x = .error e

theorem Follows.trans {g g' : Bool} {x y z : Except Die σ} (h : Follows g x y)
    (h' : Follows g' y z) : Follows (g || g') x z := by
  cases g with
  | true => exact h
  | false =>
      have hxy : x = y := h
      rw [hxy]
      exact h'

theorem Follows.bind {g : Bool} {x : Except Die τ} {a : τ} {f : τ → Except Die σ}
    (h : Follows g x (.ok a)) : Follows g (x >>= f) (f a) := by
  cases g with
  | true =>
      obtain ⟨e, rfl⟩ := h
      exact ⟨e, rfl⟩
  | false =>
      have hx : x = .ok a := h
      rw [hx]
      rfl

theorem Follows.map {g : Bool} {x : Except Die τ} {a : τ} (f : τ → σ)
    (h : Follows g x (.ok a)) : Follows g (x.map f) (.ok (f a)) := by
  cases g with
  | true =>
      obtain ⟨e, rfl⟩ := h
      exact ⟨e, rfl⟩
  | false =>
      have hx : x = .ok a := h
      rw [hx]
      rfl

/-- A field that a parser skips. -/
theorem RawField.follows {n size : ℕ} {g : Bool} {b : PerlStr} {read : σ → ℕ → ℕ → Reading σ}
    {s : σ} (hb : RawField n g b) (hskip : ∀ wire, read s n wire = .skip) (rest : PerlStr) :
    Follows g (parseRest size read s (b ++ rest)) (parseRest size read s rest) := by
  cases hb with
  | varint hn hv =>
      rw [varintField, List.append_assoc, show leb128 (8 * n) = leb128 (8 * n + 0) from rfl,
        parseRest_record hn (by decide), hskip, Reading.run, skipDescriptorField,
        decodeVarint_leb128 (lt_trans hv (by norm_num))]
      rfl
  | fixed64 hn hlen =>
      rw [List.append_assoc, parseRest_record hn (by decide), hskip, Reading.run,
        skipDescriptorField, ← hlen, List.drop_left]
      rfl
  | delimited hn hlen =>
      rw [GooglePerl.Protobuf.delimited, List.append_assoc, parseRest_record hn (by decide), hskip,
        Reading.run, skipDescriptorField, readBytes, List.append_assoc,
        decodeVarint_leb128 (lt_trans hlen (by norm_num)), ok_bind]
      simp only [List.drop_left]
      rfl
  | group hn hbody =>
      rw [List.append_assoc, parseRest_record hn (by decide), hskip]
      exact ⟨_, rfl⟩
  | fixed32 hn hlen =>
      rw [List.append_assoc, parseRest_record hn (by decide), hskip, Reading.run,
        skipDescriptorField, ← hlen, List.drop_left]
      rfl

/-- A parser that follows each record follows a run of them. `view` is what it makes of a
value. -/
theorem Encoded.follows {record : Bool → PerlStr → σ → σ → Prop} {start v : σ} {g : Bool}
    {b : PerlStr} {size : ℕ} {read : τ → ℕ → ℕ → Reading τ} (view : σ → τ)
    (h : Encoded record start g b v)
    (hrecord : ∀ g r v v', record g r v v' → r.length ≤ b.length → ∀ rest,
      Follows g (parseRest size read (view v) (r ++ rest)) (parseRest size read (view v') rest))
    (rest : PerlStr) :
    Follows g (parseRest size read (view start) (b ++ rest))
      (parseRest size read (view v) rest) := by
  induction h generalizing rest with
  | nil => rfl
  | @snoc g g' b r v v' hinit hlast ih =>
      have hbefore := ih (fun g r' v v' hr hle => hrecord g r' v v' hr
        (hle.trans (by simp))) (r ++ rest)
      rw [List.append_assoc]
      exact hbefore.trans (hrecord _ _ _ _ hlast (by simp) rest)

/-- The same, of the whole input. -/
theorem Encoded.parses {record : Bool → PerlStr → σ → σ → Prop} {start v : σ} {g : Bool}
    {b : PerlStr} {read : τ → ℕ → ℕ → Reading τ} (view : σ → τ) (h : Encoded record start g b v)
    (hrecord : ∀ g r v v', record g r v v' → r.length ≤ b.length → ∀ rest,
      Follows g (parseRest b.length read (view v) (r ++ rest))
        (parseRest b.length read (view v') rest)) :
    Follows g (parseFields read (view start) b) (.ok (view v)) := by
  have hall := h.follows view hrecord []
  rwa [List.append_nil] at hall

/-! ### What the parser makes of a value -/

namespace EnumValueDescriptor

def asRead (v : EnumValueDescriptor) : EnumValueDescriptor := { v with number := varintOf v.number }

end EnumValueDescriptor

namespace EnumDescriptor

def asRead (e : EnumDescriptor) : EnumDescriptor :=
  { e with value := e.value.map EnumValueDescriptor.asRead }

end EnumDescriptor

namespace FieldDescriptor

def asRead (f : FieldDescriptor) : FieldDescriptor :=
  { f with
    number := varintOf f.number
    label := varintOf f.label
    type := varintOf f.type
    oneofIndex := f.oneofIndex.map fun n => (varintOf n : ℤ) }

end FieldDescriptor

namespace MessageDescriptor

mutual

def asRead : MessageDescriptor → MessageDescriptor
  | ⟨name, field, nestedType, enumType, oneofDecl, options⟩ =>
      ⟨name, field.map FieldDescriptor.asRead, asReadAll nestedType,
        enumType.map EnumDescriptor.asRead, oneofDecl, options⟩

def asReadAll : List MessageDescriptor → List MessageDescriptor
  | [] => []
  | m :: ms => m.asRead :: asReadAll ms

end

theorem asReadAll_eq (ms : List MessageDescriptor) : asReadAll ms = ms.map asRead := by
  induction ms with
  | nil => rfl
  | cons m ms ih => rw [asReadAll, ih, List.map_cons]

theorem asRead_eq (m : MessageDescriptor) :
    m.asRead =
      { m with
        field := m.field.map FieldDescriptor.asRead
        nestedType := m.nestedType.map asRead
        enumType := m.enumType.map EnumDescriptor.asRead } := by
  cases m
  rw [asRead, asReadAll_eq]

end MessageDescriptor

namespace FileDescriptor

def asRead (fd : FileDescriptor) : FileDescriptor :=
  { fd with
    messageType := fd.messageType.map MessageDescriptor.asRead
    enumType := fd.enumType.map EnumDescriptor.asRead }

end FileDescriptor

/-! ### The parsers -/

theorem length_lt_delimited (n : ℕ) (payload : PerlStr) :
    payload.length < (delimited n payload).length := by
  have hpos := leb128_length_pos (8 * n + 2)
  rw [delimited, List.length_append, List.length_append]
  omega

section Parsers

variable {size n : ℕ} {g : Bool} {b rest : PerlStr} {read : σ → ℕ → ℕ → Reading σ} {s s' : σ}

/-- A field whose bytes are kept. -/
theorem follows_bytes {store : PerlStr → Except Die σ} (hn : n < 2 ^ 29) (hb : Storable b)
    (hread : read s n 2 = .bytes store) (hstore : store b = .ok s') :
    Follows false (parseRest size read s (delimited n b ++ rest))
      (parseRest size read s' rest) := by
  rw [parseRest_delimited hn hb hread, hstore]
  rfl

/-- A field whose varint is kept. -/
theorem follows_varint {v : ℕ} {store : ℕ → σ} (hn : n < 2 ^ 29) (hv : v < 2 ^ 64)
    (hread : read s n 0 = .varint store) (hstore : store v = s') :
    Follows false (parseRest size read s (varintField n v ++ rest))
      (parseRest size read s' rest) := by
  rw [parseRest_varint hn hv hread, hstore]
  rfl

/-- A field whose bytes another parser gets. -/
theorem follows_delimited {parseSub : PerlStr → Except Die τ} {store : τ → σ} {a : τ}
    (hn : n < 2 ^ 29) (hb : Storable b)
    (hread : read s n 2 = .bytes fun bytes => (parseSub bytes).map store)
    (hsub : Follows g (parseSub b) (.ok a)) (hstore : store a = s') :
    Follows g (parseRest size read s (delimited n b ++ rest)) (parseRest size read s' rest) := by
  rw [parseRest_delimited hn hb hread, ← hstore]
  exact (hsub.map store).bind

theorem varintOf_lt {n : ℤ} (h : IsInt32 n) : varintOf n < 2 ^ 64 := by
  obtain ⟨hlo, hhi⟩ := h
  unfold varintOf
  split <;> omega

end Parsers

section Skipped

variable {n : ℕ} (wire : ℕ)

theorem enumValueReading_skip (v : EnumValueDescriptor) (hn : n ∉ [1, 2]) :
    enumValueReading v n wire = .skip := by
  simp only [List.mem_cons, List.not_mem_nil, or_false] at hn
  unfold enumValueReading
  split <;> first | rfl | omega

theorem enumReading_skip (e : EnumDescriptor) (hn : n ∉ [1, 2]) :
    enumReading e n wire = .skip := by
  simp only [List.mem_cons, List.not_mem_nil, or_false] at hn
  unfold enumReading
  split <;> first | rfl | omega

theorem fieldReading_skip (f : FieldDescriptor) (hn : n ∉ [1, 3, 4, 5, 6, 9]) :
    fieldReading f n wire = .skip := by
  simp only [List.mem_cons, List.not_mem_nil, or_false] at hn
  unfold fieldReading
  split <;> first | rfl | omega

theorem oneofReading_skip (o : OneofDescriptor) (hn : n ∉ [1]) :
    oneofReading o n wire = .skip := by
  simp only [List.mem_cons, List.not_mem_nil, or_false] at hn
  unfold oneofReading
  split <;> first | rfl | omega

theorem optionsReading_skip (flag : Bool) (hn : n ∉ [7]) :
    optionsReading flag n wire = .skip := by
  simp only [List.mem_cons, List.not_mem_nil, or_false] at hn
  unfold optionsReading
  split <;> first | rfl | omega

theorem descriptorReading_skip (f : PerlStr → Except Die MessageDescriptor)
    (m : MessageDescriptor) (hn : n ∉ [1, 2, 3, 4, 7, 8]) :
    descriptorReading f m n wire = .skip := by
  simp only [List.mem_cons, List.not_mem_nil, or_false] at hn
  unfold descriptorReading
  split <;> first | rfl | omega

theorem fileReading_skip (fd : FileDescriptor) (hn : n ∉ [1, 2, 4, 5]) :
    fileReading fd n wire = .skip := by
  simp only [List.mem_cons, List.not_mem_nil, or_false] at hn
  unfold fileReading
  split <;> first | rfl | omega

theorem setReading_skip (files : List FileDescriptor) (hn : n ∉ [1]) :
    setReading files n wire = .skip := by
  rw [setReading, if_neg fun h => hn (by simp [h.1])]

end Skipped

section Parsed

variable {g : Bool} {b : PerlStr}

theorem parseEnumValue_follows {v : EnumValueDescriptor} (h : Encoded EnumValueRecord {} g b v) :
    Follows g (parseEnumValueDescriptor b) (.ok v.asRead) := by
  refine h.parses EnumValueDescriptor.asRead fun g r v v' hr _ rest => ?_
  cases hr with
  | name v hs => exact follows_bytes (by decide) hs rfl rfl
  | number v hn => exact follows_varint (by decide) (varintOf_lt hn) rfl rfl
  | other v hb hn => exact hb.follows (fun wire => enumValueReading_skip wire _ hn) rest

theorem parseEnum_follows {e : EnumDescriptor} (h : Encoded EnumRecord {} g b e) :
    Follows g (parseEnumDescriptor b) (.ok e.asRead) := by
  refine h.parses EnumDescriptor.asRead fun g r e e' hr _ rest => ?_
  cases hr with
  | name e hs => exact follows_bytes (by decide) hs rfl rfl
  | value e hb hv =>
      exact follows_delimited (by decide) hb rfl (parseEnumValue_follows hv)
        (by simp [EnumDescriptor.asRead])
  | other e hb hn => exact hb.follows (fun wire => enumReading_skip wire _ hn) rest

theorem parseField_follows {f : FieldDescriptor} (h : Encoded FieldRecord {} g b f) :
    Follows g (parseFieldDescriptor b) (.ok f.asRead) := by
  refine h.parses FieldDescriptor.asRead fun g r f f' hr _ rest => ?_
  cases hr with
  | name f hs => exact follows_bytes (by decide) hs rfl rfl
  | number f hn => exact follows_varint (by decide) (varintOf_lt hn) rfl rfl
  | label f hn => exact follows_varint (by decide) (varintOf_lt hn) rfl rfl
  | type f hn => exact follows_varint (by decide) (varintOf_lt hn) rfl rfl
  | typeName f hs => exact follows_bytes (by decide) hs rfl rfl
  | oneofIndex f hn => exact follows_varint (by decide) (varintOf_lt hn) rfl rfl
  | other f hb hn => exact hb.follows (fun wire => fieldReading_skip wire _ hn) rest

theorem parseOneof_follows {o : OneofDescriptor} (h : Encoded OneofRecord {} g b o) :
    Follows g (parseOneofDescriptor b) (.ok o) := by
  refine h.parses id fun g r o o' hr _ rest => ?_
  cases hr with
  | name o hs => exact follows_bytes (by decide) hs rfl rfl
  | other o hb hn => exact hb.follows (fun wire => oneofReading_skip wire _ hn) rest

theorem parseOptions_follows {flag : Bool} (h : Encoded OptionsRecord false g b flag) :
    Follows g (parseMessageOptions b) (.ok flag) := by
  refine h.parses id fun g r o o' hr _ rest => ?_
  cases hr with
  | mapEntry =>
      refine follows_varint (by decide) ?_ rfl ?_
      · cases o' <;> decide
      · cases o' <;> rfl
  | other flag hb hn => exact hb.follows (fun wire => optionsReading_skip wire _ hn) rest

/-- A nested type is shorter than the type it is nested in. -/
theorem parseDescriptor_follows {m : MessageDescriptor} (h : Encoded MessageRecord {} g b m) :
    Follows g (parseDescriptor b) (.ok m.asRead) := by
  induction hlen : b.length using Nat.strong_induction_on generalizing g b m with
  | _ len ih =>
      rw [parseDescriptor_eq]
      refine h.parses MessageDescriptor.asRead fun g r m m' hr hle rest => ?_
      cases hr with
      | name m hs =>
          exact follows_bytes (by decide) hs rfl (by simp [MessageDescriptor.asRead_eq])
      | field m hb hf =>
          exact follows_delimited (by decide) hb rfl (parseField_follows hf)
            (by simp [MessageDescriptor.asRead_eq])
      | nestedType m hb hn =>
          have hshort := hlen ▸ (length_lt_delimited 3 _).trans_le hle
          exact follows_delimited (by decide) hb rfl (ih _ hshort hn rfl)
            (by simp [MessageDescriptor.asRead_eq])
      | enumType m hb he =>
          exact follows_delimited (by decide) hb rfl (parseEnum_follows he)
            (by simp [MessageDescriptor.asRead_eq])
      | options m hb hone hflag =>
          exact follows_delimited (by decide) hb rfl (parseOptions_follows hflag)
            (by simp [MessageDescriptor.asRead_eq])
      | oneofDecl m hb ho =>
          exact follows_delimited (by decide) hb rfl (parseOneof_follows ho)
            (by simp [MessageDescriptor.asRead_eq])
      | other m hb hn => exact hb.follows (fun wire => descriptorReading_skip wire _ _ hn) rest

theorem parseFile_follows {fd : FileDescriptor} (h : Encoded FileRecord {} g b fd) :
    Follows g (parseFileDescriptor b) (.ok fd.asRead) := by
  refine h.parses FileDescriptor.asRead fun g r fd fd' hr _ rest => ?_
  cases hr with
  | name fd hs => exact follows_bytes (by decide) hs rfl rfl
  | package fd hs => exact follows_bytes (by decide) hs rfl rfl
  | messageType fd hb hm =>
      exact follows_delimited (by decide) hb rfl (parseDescriptor_follows hm)
        (by simp [FileDescriptor.asRead])
  | enumType fd hb he =>
      exact follows_delimited (by decide) hb rfl (parseEnum_follows he)
        (by simp [FileDescriptor.asRead])
  | other fd hb hn => exact hb.follows (fun wire => fileReading_skip wire _ hn) rest

theorem parseSet_follows {files : List FileDescriptor} (h : Encoded SetRecord [] g b files) :
    Follows g (parseFileDescriptorSet b) (.ok (files.map FileDescriptor.asRead)) := by
  refine h.parses (List.map FileDescriptor.asRead) fun g r files files' hr _ rest => ?_
  cases hr with
  | file files hb hfd =>
      exact follows_delimited (by decide) hb rfl (parseFile_follows hfd) (by simp)
  | other files hb hn => exact hb.follows (fun wire => setReading_skip wire _ hn) rest

end Parsed

/-! ### Numbers -/

theorem varintOf_eq_self_iff (n : ℤ) : (varintOf n : ℤ) = n ↔ 0 ≤ n := by
  unfold varintOf
  split <;> omega

theorem map_eq_self_iff {f : σ → σ} {l : List σ} : l.map f = l ↔ ∀ x ∈ l, f x = x := by
  have hinj := List.map_inj_left (l := l) (f := f) (g := id)
  simpa using hinj

namespace EnumDescriptor

def numbers (e : EnumDescriptor) : List ℤ := e.value.map EnumValueDescriptor.number

theorem asRead_eq_self_iff (e : EnumDescriptor) : e.asRead = e ↔ ∀ n ∈ e.numbers, 0 ≤ n := by
  have hvalue : ∀ v : EnumValueDescriptor, v.asRead = v ↔ 0 ≤ v.number := by
    intro v
    rw [← varintOf_eq_self_iff]
    cases v
    simp [EnumValueDescriptor.asRead]
  cases e
  simp only [asRead, numbers, mk.injEq, true_and, map_eq_self_iff, hvalue, List.forall_mem_map]

end EnumDescriptor

namespace FieldDescriptor

def numbers (f : FieldDescriptor) : List ℤ :=
  [f.number, f.label, f.type] ++ f.oneofIndex.toList

theorem asRead_eq_self_iff (f : FieldDescriptor) : f.asRead = f ↔ ∀ n ∈ f.numbers, 0 ≤ n := by
  obtain ⟨name, number, label, type, typeName, oneofIndex⟩ := f
  cases oneofIndex with
  | none => simp [asRead, numbers, varintOf_eq_self_iff]
  | some index => simp [asRead, numbers, varintOf_eq_self_iff]

end FieldDescriptor

namespace MessageDescriptor

mutual

/-- Every `int32` in a message type. -/
def numbers : MessageDescriptor → List ℤ
  | ⟨_, field, nestedType, enumType, _, _⟩ =>
      field.flatMap FieldDescriptor.numbers ++ (numbersAll nestedType ++
        enumType.flatMap EnumDescriptor.numbers)

def numbersAll : List MessageDescriptor → List ℤ
  | [] => []
  | m :: ms => m.numbers ++ numbersAll ms

end

mutual

theorem asRead_eq_self_iff : ∀ m : MessageDescriptor, m.asRead = m ↔ ∀ n ∈ m.numbers, 0 ≤ n
  | ⟨name, field, nestedType, enumType, oneofDecl, options⟩ => by
      have hnested := asReadAll_eq_self_iff nestedType
      simp only [asRead, numbers, mk.injEq, true_and, and_true, map_eq_self_iff, hnested,
        FieldDescriptor.asRead_eq_self_iff, EnumDescriptor.asRead_eq_self_iff,
        List.forall_mem_append, List.forall_mem_flatMap]

theorem asReadAll_eq_self_iff :
    ∀ ms : List MessageDescriptor, asReadAll ms = ms ↔ ∀ n ∈ numbersAll ms, 0 ≤ n
  | [] => by simp [asReadAll, numbersAll]
  | m :: ms => by
      have hhead := asRead_eq_self_iff m
      have htail := asReadAll_eq_self_iff ms
      simp only [asReadAll, numbersAll, List.cons.injEq, hhead, htail, List.forall_mem_append]

end

end MessageDescriptor

namespace FileDescriptor

/-- Every `int32` in a file. -/
def numbers (fd : FileDescriptor) : List ℤ :=
  fd.messageType.flatMap MessageDescriptor.numbers ++ fd.enumType.flatMap EnumDescriptor.numbers

theorem asRead_eq_self_iff (fd : FileDescriptor) : fd.asRead = fd ↔ ∀ n ∈ fd.numbers, 0 ≤ n := by
  cases fd
  simp only [asRead, numbers, mk.injEq, true_and, map_eq_self_iff,
    MessageDescriptor.asRead_eq_self_iff, EnumDescriptor.asRead_eq_self_iff, List.forall_mem_append,
    List.forall_mem_flatMap]

end FileDescriptor

/-- The bytes of an enum value `A`. -/
def enumValueBytes (n : ℤ) : PerlStr := delimited 1 (ps "A") ++ varintField 2 (varintOf n)

/-- The bytes of an enum `E` with that value. -/
def enumBytes (n : ℤ) : PerlStr := delimited 1 (ps "E") ++ delimited 2 (enumValueBytes n)

/-- The bytes of a file with that enum and a `syntax`, which the parser does not know. -/
def fileBytes (n : ℤ) : PerlStr := delimited 5 (enumBytes n) ++ delimited 12 (ps "proto3")

def enumFile (n : ℤ) : FileDescriptor :=
  { enumType := [{ name := ps "E", value := [{ name := ps "A", number := n }] }] }

theorem encoded_enumFile {n : ℤ} (hn : IsInt32 n) (hvalue : Storable (enumValueBytes n))
    (henum : Storable (enumBytes n)) (hfile : Storable (fileBytes n)) :
    Encoded SetRecord [] false (delimited 1 (fileBytes n)) [enumFile n] := by
  have hname : ∀ c, Storable [c] := fun c => by simp [Storable]
  have hv : Encoded EnumValueRecord {} false (enumValueBytes n) ⟨ps "A", n⟩ :=
    .snoc (.snoc .nil (EnumValueRecord.name _ (hname _))) (EnumValueRecord.number _ hn)
  have he : Encoded EnumRecord {} false (enumBytes n) ⟨ps "E", [⟨ps "A", n⟩]⟩ :=
    .snoc (.snoc .nil (EnumRecord.name _ (hname _))) (EnumRecord.value _ hvalue hv)
  have hproto : RawField 12 false (delimited 12 (ps "proto3")) :=
    .delimited (by decide) (by decide)
  have hf : Encoded FileRecord {} false (fileBytes n) (enumFile n) :=
    .snoc (.snoc .nil (FileRecord.enumType _ henum he)) (FileRecord.other _ hproto (by decide))
  exact .snoc .nil (SetRecord.file _ hfile hf)

theorem storable_bytes {n : ℤ} (h : (leb128 (varintOf n)).length ≤ 10) :
    Storable (enumValueBytes n) ∧ Storable (enumBytes n) ∧ Storable (fileBytes n) := by
  have hshort : ∀ k < 128, (leb128 k).length = 1 := fun k hk => by
    rw [leb128_of_lt hk]
    rfl
  have hlength : ∀ k < 15, ∀ s : PerlStr, s.length < 128 →
      (delimited k s).length = s.length + 2 := fun k hk s hs => by
    rw [delimited, List.length_append, List.length_append, hshort _ (by omega), hshort _ hs]
    omega
  have hname : ∀ c : ℕ, (delimited 1 [c]).length = 3 := fun c => hlength 1 (by decide) _ (by simp)
  have hvalue : (enumValueBytes n).length ≤ 14 := by
    have htag := hshort (8 * 2) (by decide)
    have hA : (delimited 1 (ps "A")).length = 3 := hname _
    rw [enumValueBytes, varintField, List.length_append, List.length_append]
    omega
  have henum : (enumBytes n).length ≤ 19 := by
    have hE : (delimited 1 (ps "E")).length = 3 := hname _
    rw [enumBytes, List.length_append, hlength 2 (by decide) _ (by omega)]
    omega
  have hfile : (fileBytes n).length ≤ 29 := by
    have hproto : (delimited 12 (ps "proto3")).length = 8 := hlength 12 (by decide) _ (by decide)
    rw [fileBytes, List.length_append, hlength 5 (by decide) _ (by omega)]
    omega
  unfold Storable
  omega

end GooglePerl.Protobuf
