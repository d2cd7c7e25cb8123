import GooglePerl.Lib.Except
import GooglePerl.Protobuf.Kernels

/-!
`Protobuf::Engine::PurePerl::DescriptorParser`, the bootstrap parser of
`descriptor.proto`.

All of its parsers are one loop: it reads a tag, and by the tag's number it
takes the bytes or the varint that follow, or skips them by their wire type.
What a parser does with a number is given to the loop as a `Reading`. Only
`parse_descriptor` calls itself; its depth is bounded by the length of its
input (`parseDescriptor_eq`). A read position is represented by the characters
still unread, as a position past the end just ends the loop.
-/

namespace GooglePerl.Protobuf

open GooglePerl.Lib

/-! ### What the parser returns -/

structure EnumValueDescriptor where
  name : PerlStr := []
  number : ℤ := 0
  deriving DecidableEq

structure EnumDescriptor where
  name : PerlStr := []
  value : List EnumValueDescriptor := []
  deriving DecidableEq

structure FieldDescriptor where
  name : PerlStr := []
  number : ℤ := 0
  label : ℤ := 0
  type : ℤ := 0
  typeName : PerlStr := []
  oneofIndex : Option ℤ := none
  deriving DecidableEq

structure OneofDescriptor where
  name : PerlStr := []
  deriving DecidableEq

/-- `options` is the flag `map_entry`, where there are options. -/
structure MessageDescriptor where
  name : PerlStr := []
  field : List FieldDescriptor := []
  nestedType : List MessageDescriptor := []
  enumType : List EnumDescriptor := []
  oneofDecl : List OneofDescriptor := []
  options : Option Bool := none

structure FileDescriptor where
  name : PerlStr := []
  package : PerlStr := []
  messageType : List MessageDescriptor := []
  enumType : List EnumDescriptor := []

/-! ### The loop -/

variable {σ : Type}

/-- `substr` with a `Math::BigInt` for a length: from 2^63 on the length is taken for a negative
number, which leaves characters off the end. -/
def substrBig (data : PerlStr) (len : ℕ) : PerlStr :=
  if len < 2 ^ 63 then data.take len
  else data.take (data.length - (2 ^ 64 - min len (2 ^ 64 - 1)))

/-- `_read_bytes` -/
def readBytes (data : PerlStr) : Except Die (PerlStr × PerlStr) := do
  let (len, rest) ← decodeVarint data
  return (substrBig rest len, rest.drop len)

/-- `_skip_field`; `size` is the length of the whole input. -/
def skipDescriptorField (size wire : ℕ) (data : PerlStr) : Except Die PerlStr :=
  match wire with
  | 0 => (decodeVarint data).map Prod.snd
  | 1 => .ok (data.drop 8)
  | 2 => (readBytes data).map Prod.snd
  | 5 => .ok (data.drop 4)
  | _ => .error (.croak (ps "Unsupported wire type " ++ natText wire ++ ps " at " ++
      natText (size - data.length)))

/-- What is done with a field: its bytes are read, or its varint, or it is skipped. -/
inductive Reading (σ : Type) where
  | bytes (store : PerlStr → Except Die σ)
  | varint (store : ℕ → σ)
  | skip

def Reading.run (size wire : ℕ) (s : σ) (data : PerlStr) : Reading σ → Except Die (σ × PerlStr)
  | .bytes store => do
      let (text, rest) ← readBytes data
      return (← store text, rest)
  | .varint store => (decodeVarint data).map fun p => (store p.1, p.2)
  | .skip => (skipDescriptorField size wire data).map fun rest => (s, rest)

/-- At most `n` turns of the loop. -/
def parseTurns (size : ℕ) (read : σ → ℕ → ℕ → Reading σ) : ℕ → σ → PerlStr → Except Die σ
  | _, s, [] => .ok s
  | 0, _, _ :: _ => .error malformed
  | n + 1, s, c :: data => do
      let (tagWire, rest) ← decodeVarint (c :: data)
      let (s, rest) ← (read s (tagWire >>> 3) (tagWire &&& 7)).run size (tagWire &&& 7) s rest
      parseTurns size read n s rest

/-- The loop on what is unread of an input of `size` characters. -/
def parseRest (size : ℕ) (read : σ → ℕ → ℕ → Reading σ) (s : σ) (data : PerlStr) : Except Die σ :=
  parseTurns size read data.length s data

def parseFields (read : σ → ℕ → ℕ → Reading σ) (s : σ) (data : PerlStr) : Except Die σ :=
  parseRest data.length read s data

/-! ### The parsers -/

def enumValueReading (v : EnumValueDescriptor) (tag _wire : ℕ) : Reading EnumValueDescriptor :=
  match tag with
  | 1 => .bytes fun bytes => .ok { v with name := bytes }
  | 2 => .varint fun n => { v with number := n }
  | _ => .skip

/-- `parse_enum_value_descriptor` -/
def parseEnumValueDescriptor (data : PerlStr) : Except Die EnumValueDescriptor :=
  parseFields enumValueReading {} data

def enumReading (e : EnumDescriptor) (tag _wire : ℕ) : Reading EnumDescriptor :=
  match tag with
  | 1 => .bytes fun bytes => .ok { e with name := bytes }
  | 2 => .bytes fun bytes =>
      (parseEnumValueDescriptor bytes).map fun v => { e with value := e.value ++ [v] }
  | _ => .skip

/-- `parse_enum_descriptor` -/
def parseEnumDescriptor (data : PerlStr) : Except Die EnumDescriptor :=
  parseFields enumReading {} data

def fieldReading (f : FieldDescriptor) (tag _wire : ℕ) : Reading FieldDescriptor :=
  match tag with
  | 1 => .bytes fun bytes => .ok { f with name := bytes }
  | 3 => .varint fun n => { f with number := n }
  | 4 => .varint fun n => { f with label := n }
  | 5 => .varint fun n => { f with type := n }
  | 6 => .bytes fun bytes => .ok { f with typeName := bytes }
  | 9 => .varint fun n => { f with oneofIndex := some n }
  | _ => .skip

/-- `parse_field_descriptor` -/
def parseFieldDescriptor (data : PerlStr) : Except Die FieldDescriptor :=
  parseFields fieldReading {} data

def oneofReading (o : OneofDescriptor) (tag _wire : ℕ) : Reading OneofDescriptor :=
  match tag with
  | 1 => .bytes fun bytes => .ok { o with name := bytes }
  | _ => .skip

/-- `parse_oneof_descriptor` -/
def parseOneofDescriptor (data : PerlStr) : Except Die OneofDescriptor :=
  parseFields oneofReading {} data

def optionsReading (_flag : Bool) (tag _wire : ℕ) : Reading Bool :=
  match tag with
  | 7 => .varint fun n => n != 0
  | _ => .skip

/-- `parse_message_options`: the flag `map_entry` -/
def parseMessageOptions (data : PerlStr) : Except Die Bool := parseFields optionsReading false data

/-- What `parse_descriptor` does with a field, given the parser for nested types. -/
def descriptorReading (parseNested : PerlStr → Except Die MessageDescriptor)
    (m : MessageDescriptor) (tag _wire : ℕ) : Reading MessageDescriptor :=
  match tag with
  | 1 => .bytes fun bytes => .ok { m with name := bytes }
  | 2 => .bytes fun bytes =>
      (parseFieldDescriptor bytes).map fun f => { m with field := m.field ++ [f] }
  | 3 => .bytes fun bytes =>
      (parseNested bytes).map fun n => { m with nestedType := m.nestedType ++ [n] }
  | 4 => .bytes fun bytes =>
      (parseEnumDescriptor bytes).map fun e => { m with enumType := m.enumType ++ [e] }
  | 7 => .bytes fun bytes =>
      (parseMessageOptions bytes).map fun flag => { m with options := some flag }
  | 8 => .bytes fun bytes =>
      (parseOneofDescriptor bytes).map fun o => { m with oneofDecl := m.oneofDecl ++ [o] }
  | _ => .skip

/-- `parse_descriptor` to the depth `n` -/
def parseDescriptorTo : ℕ → PerlStr → Except Die MessageDescriptor
  | 0, _ => .error malformed
  | n + 1, data => parseFields (descriptorReading (parseDescriptorTo n)) {} data

/-- `parse_descriptor` -/
def parseDescriptor (data : PerlStr) : Except Die MessageDescriptor :=
  parseDescriptorTo (data.length + 1) data

def fileReading (fd : FileDescriptor) (tag _wire : ℕ) : Reading FileDescriptor :=
  match tag with
  | 1 => .bytes fun bytes => .ok { fd with name := bytes }
  | 2 => .bytes fun bytes => .ok { fd with package := bytes }
  | 4 => .bytes fun bytes =>
      (parseDescriptor bytes).map fun m => { fd with messageType := fd.messageType ++ [m] }
  | 5 => .bytes fun bytes =>
      (parseEnumDescriptor bytes).map fun e => { fd with enumType := fd.enumType ++ [e] }
  | _ => .skip

/-- `parse_file_descriptor` -/
def parseFileDescriptor (data : PerlStr) : Except Die FileDescriptor :=
  parseFields fileReading {} data

def setReading (files : List FileDescriptor) (tag wire : ℕ) : Reading (List FileDescriptor) :=
  if tag = 1 ∧ wire = 2 then
    .bytes fun bytes => (parseFileDescriptor bytes).map fun file => files ++ [file]
  else .skip

/-- `parse_file_descriptor_set` -/
def parseFileDescriptorSet (data : PerlStr) : Except Die (List FileDescriptor) :=
  parseFields setReading [] data

/-! ### The bounds are enough -/

theorem substrBig_length_le (data : PerlStr) (len : ℕ) :
    (substrBig data len).length ≤ data.length := by
  rw [substrBig]
  split <;> exact List.length_take_le' _ _

theorem readBytes_length {data bytes rest : PerlStr} (h : readBytes data = .ok (bytes, rest)) :
    rest.length < data.length ∧ bytes.length < data.length := by
  obtain ⟨⟨len, r⟩, hread, hrest⟩ := bind_eq_ok.mp h
  have hlt := decodeVarint_length hread
  obtain ⟨rfl, rfl⟩ := Prod.mk.inj (Except.ok.inj hrest)
  rw [List.length_drop]
  exact ⟨by omega, (substrBig_length_le _ _).trans_lt hlt⟩

theorem skipDescriptorField_length {size wire : ℕ} {data rest : PerlStr}
    (h : skipDescriptorField size wire data = .ok rest) : rest.length ≤ data.length := by
  unfold skipDescriptorField at h
  split at h
  · obtain ⟨p, hread, rfl⟩ := map_eq_ok.mp h
    exact (decodeVarint_length hread).le
  · rw [← Except.ok.inj h, List.length_drop]
    omega
  · obtain ⟨p, hread, rfl⟩ := map_eq_ok.mp h
    exact (readBytes_length hread).1.le
  · rw [← Except.ok.inj h, List.length_drop]
    omega
  · cases h

theorem Reading.run_length {size wire : ℕ} {s s' : σ} {data rest : PerlStr} {reading : Reading σ}
    (h : reading.run size wire s data = .ok (s', rest)) : rest.length ≤ data.length := by
  cases reading with
  | bytes store =>
      obtain ⟨⟨bytes, r⟩, hread, hrest⟩ := bind_eq_ok.mp h
      obtain ⟨x, -, hx⟩ := bind_eq_ok.mp hrest
      obtain ⟨-, rfl⟩ := Prod.mk.inj (Except.ok.inj hx)
      exact (readBytes_length hread).1.le
  | varint store =>
      obtain ⟨p, hread, hp⟩ := map_eq_ok.mp h
      obtain ⟨-, rfl⟩ := Prod.mk.inj hp
      exact (decodeVarint_length hread).le
  | skip =>
      obtain ⟨r, hskip, hr⟩ := map_eq_ok.mp h
      obtain ⟨-, rfl⟩ := Prod.mk.inj hr
      exact skipDescriptorField_length hskip

theorem parseTurns_of_le {size n : ℕ} {read : σ → ℕ → ℕ → Reading σ} {s : σ} {data : PerlStr}
    (h : data.length ≤ n) : parseTurns size read n s data = parseRest size read s data := by
  suffices key : ∀ n m s (data : PerlStr), data.length ≤ n → data.length ≤ m →
      parseTurns size read n s data = parseTurns size read m s data from
    key n data.length s data h le_rfl
  intro n
  induction n with
  | zero =>
      intro m s data hn hm
      obtain rfl := List.length_eq_zero_iff.mp (Nat.le_zero.mp hn)
      cases m <;> rfl
  | succ n ih =>
      intro m s data hn hm
      cases data with
      | nil => cases m <;> rfl
      | cons c data =>
          cases m with
          | zero => exact absurd hm (by simp)
          | succ m =>
              rw [parseTurns, parseTurns]
              cases hread : decodeVarint (c :: data) with
              | error e => rfl
              | ok p =>
                  have htag := decodeVarint_length hread
                  simp only [ok_bind]
                  cases hrun : (read s (p.1 >>> 3) (p.1 &&& 7)).run size (p.1 &&& 7) s p.2 with
                  | error e => rfl
                  | ok q =>
                      have hrest := Reading.run_length hrun
                      simp only [ok_bind]
                      exact ih m q.1 q.2 (by omega) (by omega)

/-- One turn of the loop, and the rest of it. -/
theorem parseRest_eq {size : ℕ} {read : σ → ℕ → ℕ → Reading σ} {s : σ} {data rest : PerlStr}
    {tagWire : ℕ} (hread : decodeVarint data = .ok (tagWire, rest)) :
    parseRest size read s data =
      (read s (tagWire >>> 3) (tagWire &&& 7)).run size (tagWire &&& 7) s rest >>= fun p =>
        parseRest size read p.1 p.2 := by
  have htag := decodeVarint_length hread
  cases data with
  | nil => cases hread
  | cons c data =>
      rw [parseRest, List.length_cons, parseTurns, hread]
      simp only [ok_bind]
      cases hrun : (read s (tagWire >>> 3) (tagWire &&& 7)).run size (tagWire &&& 7) s rest with
      | error e => rfl
      | ok p =>
          have hrest := Reading.run_length hrun
          simp only [ok_bind]
          exact parseTurns_of_le (by simp only [List.length_cons] at htag; omega)

/-- Two parsers that do the same with every field of an input do the same with the input. -/
theorem parseRest_congr {size : ℕ} {read read' : σ → ℕ → ℕ → Reading σ} {data : PerlStr}
    (h : ∀ s tag wire rest, rest.length < data.length →
      (read s tag wire).run size wire s rest = (read' s tag wire).run size wire s rest) (s : σ) :
    parseRest size read s data = parseRest size read' s data := by
  induction hn : data.length using Nat.strong_induction_on generalizing s data with
  | _ n ih =>
      cases hread : decodeVarint data with
      | error e =>
          cases data with
          | nil => rfl
          | cons c data =>
              rw [parseRest, parseRest, List.length_cons, parseTurns, parseTurns, hread]
              rfl
      | ok p =>
          have htag := decodeVarint_length hread
          rw [parseRest_eq hread, parseRest_eq hread, h s _ _ _ htag]
          cases hrun : (read' s (p.1 >>> 3) (p.1 &&& 7)).run size (p.1 &&& 7) s p.2 with
          | error e => rfl
          | ok q =>
              have hrest := Reading.run_length hrun
              simp only [ok_bind]
              refine ih q.2.length (by omega) (fun s tag wire rest hlt => ?_) q.1 rfl
              exact h s tag wire rest (by omega)

theorem descriptorReading_congr {f g : PerlStr → Except Die MessageDescriptor} {size tag wire : ℕ}
    {m : MessageDescriptor} {data : PerlStr}
    (h : ∀ bytes : PerlStr, bytes.length < data.length → f bytes = g bytes) :
    (descriptorReading f m tag wire).run size wire m data =
      (descriptorReading g m tag wire).run size wire m data := by
  unfold descriptorReading
  split
  case h_3 =>
    unfold Reading.run
    cases hread : readBytes data with
    | error e => rfl
    | ok p =>
        simp only [ok_bind]
        rw [h p.1 (readBytes_length hread).2]
  all_goals rfl

theorem parseDescriptorTo_of_lt {n m : ℕ} {data : PerlStr} (hn : data.length < n)
    (hm : data.length < m) : parseDescriptorTo n data = parseDescriptorTo m data := by
  induction n generalizing m data with
  | zero => exact absurd hn (Nat.not_lt_zero _)
  | succ n ih =>
      cases m with
      | zero => exact absurd hm (Nat.not_lt_zero _)
      | succ m =>
          refine parseRest_congr (fun s tag wire rest hrest => ?_) _
          exact descriptorReading_congr fun bytes hbytes => ih (by omega) (by omega)

/-- `parse_descriptor` parses nested types with itself. -/
theorem parseDescriptor_eq (data : PerlStr) :
    parseDescriptor data = parseFields (descriptorReading parseDescriptor) {} data := by
  refine parseRest_congr (fun s tag wire rest hrest => ?_) _
  refine descriptorReading_congr fun bytes hbytes => ?_
  exact parseDescriptorTo_of_lt (by omega) (Nat.lt_succ_self _)

end GooglePerl.Protobuf
