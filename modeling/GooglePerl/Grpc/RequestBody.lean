import GooglePerl.Grpc.Engine

/-!
`my_data_read_callback` of `NGHTTP2.xs`: how nghttp2 gets the body of a request.

A source holds the octets of the body and a cursor. A call copies what fits into its buffer, and
the call that reaches the end frees the source. The string that the source points into is taken
to stay as it is while it is read. Whatever the sizes of the buffers, the calls give the body
once (`delivered_once`).
-/

namespace GooglePerl.Grpc

open GooglePerl.Protobuf (PerlStr)

/-! ### The source -/

/-- A `perl_data_source_t` with its cursor inside the body. -/
structure DataCursor extends DataSource where
  pos_le : pos ≤ buf.length

/-- The octets of a body, before the first call. -/
def DataCursor.ofBody (body : PerlStr) : DataCursor := ⟨⟨body, 0⟩, Nat.zero_le _⟩

/-- What a call does: the octets copied into the buffer, the number returned, and whether the flag
for the end is raised. -/
structure DataRead where
  bytes : PerlStr
  count : ℕ
  eof : Bool
  deriving DecidableEq

/-- `copy_len`: what is left of the body, or the size of the buffer. -/
def DataCursor.copyLen (src : DataCursor) (length : ℕ) : ℕ :=
  let rem := src.buf.length - src.pos
  if rem < length then rem else length

theorem DataCursor.copyLen_eq (src : DataCursor) (length : ℕ) :
    src.copyLen length = min (src.buf.length - src.pos) length := by
  unfold DataCursor.copyLen
  dsimp only
  split <;> omega

theorem DataCursor.pos_add_le (src : DataCursor) (length : ℕ) :
    src.pos + src.copyLen length ≤ src.buf.length := by
  have hle := src.pos_le
  rw [src.copyLen_eq]
  omega

/-- `my_data_read_callback`, with `source->ptr` before and after. -/
def myDataReadCallback (ptr : Option DataCursor) (length : ℕ) : DataRead × Option DataCursor :=
  match ptr with
  | none => (⟨[], 0, false⟩, none)
  | some src =>
      let copyLen := src.copyLen length
      let pos := src.pos + copyLen
      (⟨(src.buf.drop src.pos).take copyLen, copyLen, pos ≥ src.buf.length⟩,
        if pos ≥ src.buf.length then none else some ⟨⟨src.buf, pos⟩, src.pos_add_le length⟩)

/-- The calls for buffers of these sizes. -/
def dataReads (ptr : Option DataCursor) : List ℕ → List DataRead
  | [] => []
  | length :: lengths =>
      (myDataReadCallback ptr length).1 :: dataReads (myDataReadCallback ptr length).2 lengths

/-- A call does what the engine's provider does. -/
theorem myDataReadCallback_some (src : DataCursor) (length : ℕ) :
    (myDataReadCallback (some src) length).1.bytes = (dataRead src.toDataSource length).1 ∧
      (myDataReadCallback (some src) length).1.eof = (dataRead src.toDataSource length).2.1 := by
  have hlength : ((src.buf.drop src.pos).take length).length = src.copyLen length := by
    rw [src.copyLen_eq, List.length_take, List.length_drop, min_comm]
  refine ⟨?_, ?_⟩
  · show (src.buf.drop src.pos).take (src.copyLen length) = (src.buf.drop src.pos).take length
    rw [← hlength, List.length_take, List.take_eq_take_iff]
    omega
  · show decide _ = decide _
    rw [hlength]

/-! ### What is left of the body -/

/-- The calls for what is left of a body: as much as fits, and nothing after the end. -/
def feed (rest : PerlStr) : List ℕ → List DataRead
  | [] => []
  | n :: ns =>
      if rest.length ≤ n then ⟨rest, rest.length, true⟩ :: ns.map fun _ => ⟨[], 0, false⟩
      else ⟨rest.take n, n, false⟩ :: feed (rest.drop n) ns

theorem dataReads_none (lengths : List ℕ) :
    dataReads none lengths = lengths.map fun _ => ⟨[], 0, false⟩ := by
  induction lengths with
  | nil => rfl
  | cons length lengths ih =>
      rw [dataReads, List.map_cons, ← ih]
      rfl

/-- The calls depend on what is behind the cursor. -/
theorem dataReads_some (src : DataCursor) (lengths : List ℕ) :
    dataReads (some src) lengths = feed (src.buf.drop src.pos) lengths := by
  induction lengths generalizing src with
  | nil => rfl
  | cons n ns ih =>
      have hle := src.pos_le
      have hlength : (src.buf.drop src.pos).length = src.buf.length - src.pos := List.length_drop
      have hcopy := src.copyLen_eq n
      rw [dataReads, feed]
      by_cases hfits : (src.buf.drop src.pos).length ≤ n
      · have hcopy : src.copyLen n = (src.buf.drop src.pos).length := by omega
        have hend : src.pos + (src.buf.drop src.pos).length ≥ src.buf.length := by omega
        rw [if_pos hfits, ← dataReads_none]
        simp only [myDataReadCallback, hcopy, if_pos hend, decide_eq_true hend, List.take_length]
      · have hcopy : src.copyLen n = n := by omega
        have hend : ¬ src.pos + n ≥ src.buf.length := by omega
        rw [if_neg hfits]
        simp only [myDataReadCallback, hcopy, if_neg hend, decide_eq_false hend, ih,
          List.drop_drop]

/-! ### Delivery -/

/-- The calls give a body once: the octets of all calls up to the end are the body, the flag is
raised on the call with the last octet (on the first one for an empty body), no call copies more
than its buffer takes, and after the end there is nothing; before the end every buffer is
filled. -/
structure DeliveredOnce (body : PerlStr) (sizes : List ℕ) (rs : List DataRead) : Prop where
  whole : ∀ r ∈ rs, r.eof = true → rs.flatMap DataRead.bytes = body
  last : ∀ before r after, rs = before ++ r :: after →
    (r.eof = true ↔ before.flatMap DataRead.bytes ++ r.bytes = body ∧
      (r.bytes ≠ [] ∨ before = [] ∧ body = []))
  fits : ∀ p ∈ sizes.zip rs, p.2.count = p.2.bytes.length ∧ p.2.bytes.length ≤ p.1
  silent : ∀ before r after, rs = before ++ r :: after → r.eof = true →
    ∀ s ∈ after, s.count = 0 ∧ s.bytes = []
  filled : (∀ r ∈ rs, r.eof = false) → ∀ p ∈ sizes.zip rs, p.2.bytes.length = p.1

theorem zip_feed_nil {ns : List ℕ} {p : ℕ × DataRead}
    (h : p ∈ ns.zip (ns.map fun _ => (⟨[], 0, false⟩ : DataRead))) : p.2 = ⟨[], 0, false⟩ := by
  obtain ⟨n, -, heq⟩ := List.mem_map.mp (List.of_mem_zip h).2
  exact heq.symm

/-- A buffer that takes what is left ends the delivery. -/
theorem deliveredOnce_of_fits {rest : PerlStr} {n : ℕ} (h : rest.length ≤ n) (ns : List ℕ) :
    DeliveredOnce rest (n :: ns) (⟨rest, rest.length, true⟩ :: ns.map fun _ => ⟨[], 0, false⟩) where
  whole := by simp
  last := by
    intro before r after hsplit
    rcases List.cons_eq_append_iff.mp hsplit with ⟨rfl, heq⟩ | ⟨before, rfl, heq⟩
    · obtain ⟨rfl, -⟩ := List.cons.inj heq
      simp [em']
    · have hr : r = ⟨[], 0, false⟩ := by
        have hmem : r ∈ ns.map fun _ => (⟨[], 0, false⟩ : DataRead) := by simp [heq]
        obtain ⟨m, -, hr⟩ := List.mem_map.mp hmem
        exact hr.symm
      subst hr
      simp
  fits := by
    intro p hp
    rw [List.zip_cons_cons] at hp
    rcases List.mem_cons.mp hp with rfl | hp
    · exact ⟨rfl, h⟩
    · rw [zip_feed_nil hp]
      exact ⟨rfl, Nat.zero_le _⟩
  silent := by
    intro before r after hsplit heof s hs
    have hmem : s ∈ ns.map fun _ => (⟨[], 0, false⟩ : DataRead) := by
      rcases List.cons_eq_append_iff.mp hsplit with ⟨rfl, heq⟩ | ⟨before, rfl, heq⟩
      · obtain ⟨-, rfl⟩ := List.cons.inj heq
        exact hs
      · rw [heq]
        exact List.mem_append_right _ (List.mem_cons_of_mem _ hs)
    obtain ⟨m, -, rfl⟩ := List.mem_map.mp hmem
    exact ⟨rfl, rfl⟩
  filled := by
    intro hnone
    cases hnone _ List.mem_cons_self

/-- A buffer that is too small takes a part, and the delivery goes on. -/
theorem DeliveredOnce.cons {rest : PerlStr} {n : ℕ} {ns : List ℕ} {rs : List DataRead}
    (hn : n < rest.length) (h : DeliveredOnce (rest.drop n) ns rs) :
    DeliveredOnce rest (n :: ns) (⟨rest.take n, n, false⟩ :: rs) where
  whole := by
    intro r hr heof
    rcases List.mem_cons.mp hr with rfl | hr
    · cases heof
    · rw [List.flatMap_cons, h.whole r hr heof]
      exact List.take_append_drop n rest
  last := by
    intro before r after hsplit
    rcases List.cons_eq_append_iff.mp hsplit with ⟨rfl, heq⟩ | ⟨before, rfl, heq⟩
    · obtain ⟨rfl, -⟩ := List.cons.inj heq
      have hshort : rest.take n ≠ rest := fun heq => by
        have hlen := congrArg List.length heq
        rw [List.length_take] at hlen
        omega
      simp [hshort]
    · have hleft : rest.drop n ≠ [] := by simpa using hn
      have hrest : rest ≠ [] := by
        rintro rfl
        exact hleft List.drop_nil
      -- the first part is common to both sides
      have hparts : before.flatMap DataRead.bytes ++ r.bytes = rest.drop n ↔
          rest.take n ++ (before.flatMap DataRead.bytes ++ r.bytes) = rest := by
        constructor
        · intro heq
          rw [heq, List.take_append_drop]
        · intro heq
          exact List.append_cancel_left (heq.trans (List.take_append_drop n rest).symm)
      rw [h.last before r after heq, List.flatMap_cons, List.append_assoc, ← hparts]
      simp [hleft]
  fits := by
    intro p hp
    rw [List.zip_cons_cons] at hp
    rcases List.mem_cons.mp hp with rfl | hp
    · have hlen : (rest.take n).length = n := by
        rw [List.length_take]
        omega
      exact ⟨hlen.symm, Nat.le_of_eq hlen⟩
    · exact h.fits p hp
  silent := by
    intro before r after hsplit heof
    rcases List.cons_eq_append_iff.mp hsplit with ⟨rfl, heq⟩ | ⟨before, rfl, heq⟩
    · obtain ⟨rfl, -⟩ := List.cons.inj heq
      cases heof
    · exact h.silent before r after heq heof
  filled := by
    intro hnone p hp
    rw [List.zip_cons_cons] at hp
    rcases List.mem_cons.mp hp with rfl | hp
    · show (rest.take n).length = n
      rw [List.length_take]
      omega
    · exact h.filled (fun r hr => hnone r (List.mem_cons_of_mem _ hr)) p hp

theorem deliveredOnce_feed (rest : PerlStr) (ns : List ℕ) :
    DeliveredOnce rest ns (feed rest ns) := by
  induction ns generalizing rest with
  | nil => exact ⟨by simp [feed], by simp [feed], by simp, by simp [feed], by simp⟩
  | cons n ns ih =>
      rw [feed]
      split
      · rename_i hfits
        exact deliveredOnce_of_fits hfits ns
      · rename_i hfits
        exact (ih (rest.drop n)).cons (by omega)

/-- Five octets in buffers of two, with an empty one in between. -/
example : dataReads (some (DataCursor.ofBody [1, 2, 3, 4, 5])) [2, 0, 2, 2, 2] =
    [⟨[1, 2], 2, false⟩, ⟨[], 0, false⟩, ⟨[3, 4], 2, false⟩, ⟨[5], 1, true⟩, ⟨[], 0, false⟩] := by
  decide

end GooglePerl.Grpc
