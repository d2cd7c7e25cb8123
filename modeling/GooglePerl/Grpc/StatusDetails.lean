import GooglePerl.Grpc.StatusReader

/-!
`parse_status_details` on raw octets and on base64 texts.

Raw octets of a status never look like base64. Standard base64 comes back as it was. In the
URL-safe alphabet the decoder skips two of the digits, and what is left is too short to say the
same (`weight_statusLoop_le`), but for strings of `\x01` in its details.
-/

namespace GooglePerl.Grpc

open GooglePerl.Lib
open GooglePerl.Protobuf (PerlStr ps IsOctets)

/-! ### How much a status takes -/

def stringWeight (s : PerlStr) : ℕ := if s = [] then 0 else 2 + s.length

def AnyDetail.weight (a : AnyDetail) : ℕ :=
  stringWeight (a.typeUrl.getD []) + stringWeight (a.value.getD [])

def detailWeight (a : AnyDetail) : ℕ := 1 + (leb128 a.weight).length + a.weight

def detailsWeight : List AnyDetail → ℕ
  | [] => 0
  | a :: as => detailWeight a + detailsWeight as

theorem detailsWeight_append (as bs : List AnyDetail) :
    detailsWeight (as ++ bs) = detailsWeight as + detailsWeight bs := by
  induction as with
  | nil => exact (Nat.zero_add _).symm
  | cons a as ih => rw [List.cons_append, detailsWeight, detailsWeight, ih, Nat.add_assoc]

def codeWeight (code : ℕ) : ℕ := if code = 0 then 0 else 1 + (leb128 code).length

def messageWeight (s : PerlStr) : ℕ :=
  if s = [] then 0 else 1 + (leb128 s.length).length + s.length

/-- The octets that it takes to make the reader say this. -/
def Status.weight (st : Status) : ℕ :=
  codeWeight st.code + messageWeight st.message + detailsWeight st.details

theorem stringWeight_le (s : PerlStr) : stringWeight s ≤ 2 + s.length := by
  rw [stringWeight]
  split
  · exact Nat.zero_le _
  · exact le_rfl

theorem stringWeight_readShort (rest : PerlStr) :
    stringWeight ((readShort rest).1.getD []) + (readShort rest).2.length ≤ rest.length + 1 := by
  cases rest with
  | nil => exact Nat.zero_le _
  | cons l rest =>
      have hweight := stringWeight_le (rest.take l)
      rw [List.length_take] at hweight
      simp only [readShort, Option.getD_some, List.length_drop, List.length_cons]
      omega

theorem weight_anyLoop_le (n : ℕ) (any : AnyDetail) (bytes : PerlStr) :
    (anyLoop n any bytes).weight ≤ any.weight + bytes.length := by
  induction n generalizing any bytes with
  | zero => exact Nat.le_add_right _ _
  | succ n ih =>
      cases bytes with
      | nil => exact le_rfl
      | cons tag rest =>
          have hshort := stringWeight_readShort rest
          rw [anyLoop, List.length_cons]
          split
          · have hrest := ih { any with typeUrl := (readShort rest).1 } (readShort rest).2
            simp only [AnyDetail.weight] at hrest ⊢
            omega
          · split
            · have hrest := ih { any with value := (readShort rest).1 } (readShort rest).2
              simp only [AnyDetail.weight] at hrest ⊢
              omega
            · exact Nat.le_add_right _ _

theorem leb128_length_le {v k : ℕ} (hk : 0 < k) (h : v < 2 ^ (7 * k)) : (leb128 v).length ≤ k := by
  induction v using leb128.induct generalizing k with
  | case1 v hv =>
      rw [leb128_of_lt hv]
      exact hk
  | case2 v hv ih =>
      obtain ⟨k, rfl⟩ : ∃ m, k = m + 1 := Nat.exists_eq_succ_of_ne_zero (by omega)
      have hsplit : 2 ^ (7 * (k + 1)) = 2 ^ (7 * k) * 128 := by
        rw [Nat.mul_add, pow_add]
        rfl
      have hpos : 0 < k := by
        by_contra hzero
        obtain rfl : k = 0 := by omega
        omega
      have hrest := ih hpos (Nat.div_lt_of_lt_mul (by omega))
      rw [leb128_of_ge (by omega), List.length_cons]
      omega

/-- A varint takes its groups. -/
theorem readVarint_lt (bytes : PerlStr) {val shift : ℕ} (hval : val < 2 ^ shift) :
    ∃ k, (readVarint val shift bytes).2.length + k = bytes.length ∧
      (bytes ≠ [] → 0 < k) ∧ (readVarint val shift bytes).1 < 2 ^ (shift + 7 * k) := by
  induction bytes generalizing val shift with
  | nil => exact ⟨0, rfl, fun h => absurd rfl h, hval⟩
  | cons b rest ih =>
      have hplaced : val ||| (((b &&& 0x7f) <<< shift) % 2 ^ 64) < 2 ^ (shift + 7) := by
        apply Nat.or_lt_two_pow
        · exact hval.trans_le (Nat.pow_le_pow_right (by decide) (by omega))
        · refine (Nat.mod_le _ _).trans_lt ?_
          rw [and_127, Nat.shiftLeft_eq, pow_add, Nat.mul_comm]
          exact Nat.mul_lt_mul_of_pos_left (Nat.mod_lt _ (by decide)) (Nat.two_pow_pos shift)
      rw [readVarint]
      split
      · exact ⟨1, rfl, fun _ => Nat.one_pos, hplaced⟩
      · obtain ⟨k, hlen, -, hlt⟩ := ih hplaced
        refine ⟨k + 1, ?_, fun _ => Nat.succ_pos k, ?_⟩
        · rw [List.length_cons, ← hlen]
          omega
        · have hshift : shift + 7 * (k + 1) = shift + 7 + 7 * k := by omega
          rwa [hshift]

theorem readVarint_suffix (val shift : ℕ) (bytes : PerlStr) :
    (readVarint val shift bytes).2 <:+ bytes := by
  induction bytes generalizing val shift with
  | nil => exact List.suffix_rfl
  | cons b rest ih =>
      rw [readVarint]
      split
      · exact List.suffix_cons b rest
      · exact (ih _ _).trans (List.suffix_cons b rest)

theorem readVarint_groups {bytes : PerlStr} (h : bytes ≠ []) :
    (leb128 (readVarint 0 0 bytes).1).length + (readVarint 0 0 bytes).2.length ≤ bytes.length := by
  obtain ⟨k, hlen, hpos, hlt⟩ := readVarint_lt bytes (show 0 < 2 ^ 0 by decide)
  have hgroups := leb128_length_le (hpos h) (by simpa using hlt)
  omega

section

variable {rest rest' : PerlStr} {v : ℕ}

theorem suffix_of_readVarint (h : readVarint 0 0 rest = (v, rest')) : rest' <:+ rest := by
  have hsuffix := readVarint_suffix 0 0 rest
  rwa [h] at hsuffix

theorem groups_of_readVarint (h : readVarint 0 0 rest = (v, rest')) (hne : rest ≠ []) :
    (leb128 v).length + rest'.length ≤ rest.length := by
  have hgroups := readVarint_groups hne
  rwa [h] at hgroups

theorem codeWeight_le (h : readVarint 0 0 rest = (v, rest')) :
    codeWeight v + rest'.length ≤ rest.length + 1 := by
  have hlen := (suffix_of_readVarint h).length_le
  rw [codeWeight]
  split
  · omega
  · rename_i hv
    have hne : rest ≠ [] := by
      rintro rfl
      exact hv (Prod.mk.inj h).1.symm
    have hle := groups_of_readVarint h hne
    omega

theorem messageWeight_le (h : readVarint 0 0 rest = (v, rest')) :
    messageWeight (rest'.take v) + (rest'.drop v).length ≤ rest.length + 1 := by
  have hlen := (suffix_of_readVarint h).length_le
  have htake : (rest'.take v).length + (rest'.drop v).length = rest'.length := by
    rw [← List.length_append, List.take_append_drop]
  rw [messageWeight]
  split
  · omega
  · rename_i hmessage
    have hne : rest ≠ [] := by
      rintro rfl
      obtain rfl : [] = rest' := (Prod.mk.inj h).2
      exact hmessage List.take_nil
    have hmono := leb128_length_mono (List.length_take_le v rest')
    have hle := groups_of_readVarint h hne
    omega

theorem detailWeight_le (h : readVarint 0 0 rest = (v, rest')) (hne : rest ≠ []) :
    detailWeight (readAny (rest'.take v)) + (rest'.drop v).length ≤ rest.length + 1 := by
  have hle := groups_of_readVarint h hne
  have htake : (rest'.take v).length + (rest'.drop v).length = rest'.length := by
    rw [← List.length_append, List.take_append_drop]
  have hany : (readAny (rest'.take v)).weight ≤ (rest'.take v).length := by
    have hloop := weight_anyLoop_le (rest'.take v).length ⟨some [], some []⟩ (rest'.take v)
    simpa [readAny, AnyDetail.weight, stringWeight] using hloop
  have hmono := leb128_length_mono (hany.trans (List.length_take_le v rest'))
  rw [detailWeight]
  omega

end

/-- What a reader has said weighs no more than a bound. An empty detail at the end of the octets
can do without its length. -/
def Status.Within (st : Status) (bytes : PerlStr) (bound : ℕ) : Prop :=
  st.weight ≤ bound ∨
    st.weight ≤ bound + 1 ∧ bytes.getLast? = some 26 ∧
      st.details.getLast? = some ⟨some [], some []⟩

theorem Status.Within.of_suffix {st : Status} {later bytes : PerlStr} {bound bound' : ℕ}
    (h : st.Within later bound) (hlater : later <:+ bytes) (hle : bound ≤ bound') :
    st.Within bytes bound' := by
  rcases h with hweight | ⟨hweight, hlast, hdetail⟩
  · exact .inl (hweight.trans hle)
  · refine .inr ⟨by omega, ?_, hdetail⟩
    obtain ⟨before, rfl⟩ := hlater
    rw [List.getLast?_append, hlast]
    rfl

theorem key_of_detail {tag : ℕ} (h : tag >>> 3 = 3 ∧ tag &&& 7 = 2) : tag = 26 := by
  have hmod : tag &&& 7 = tag % 8 := Nat.and_two_pow_sub_one_eq_mod tag 3
  have hdiv : tag >>> 3 = tag / 8 := Nat.shiftRight_eq_div_pow tag 3
  omega

/-- A detail whose length is missing is empty. -/
theorem within_blank (st : Status) :
    Status.Within { st with details := st.details ++ [⟨some [], some []⟩] } [26]
      (st.weight + 1) := by
  have hblank : detailsWeight [⟨some [], some []⟩] = 2 := by
    simp [detailsWeight, detailWeight, AnyDetail.weight, stringWeight, leb128_of_lt]
  refine .inr ⟨?_, rfl, by simp⟩
  simp only [Status.weight, detailsWeight_append, hblank]
  omega

/-- The reader needs the weight of what it says. -/
theorem weight_statusLoop_le (n : ℕ) (st : Status) (bytes : PerlStr) :
    (statusLoop n st bytes).Within bytes (st.weight + bytes.length) := by
  induction n generalizing st bytes with
  | zero => exact .inl (Nat.le_add_right _ _)
  | succ n ih =>
      cases bytes with
      | nil => exact .inl (Nat.le_add_right _ _)
      | cons tag rest =>
          obtain ⟨⟨v, rest'⟩, hv⟩ : ∃ r, readVarint 0 0 rest = r := ⟨_, rfl⟩
          have hsuffix := (suffix_of_readVarint hv).trans (List.suffix_cons tag rest)
          have hdrop := (List.drop_suffix v rest').trans hsuffix
          rw [statusLoop, List.length_cons, hv]
          dsimp only
          split
          · have hcode := codeWeight_le hv
            refine (ih { st with code := v } rest').of_suffix hsuffix ?_
            simp only [Status.weight]
            omega
          · split
            · have hmessage := messageWeight_le hv
              refine (ih { st with message := rest'.take v } (rest'.drop v)).of_suffix hdrop ?_
              simp only [Status.weight]
              omega
            · split
              · rename_i htag
                by_cases hrest : rest = []
                · -- the octets end behind the tag
                  obtain rfl := key_of_detail htag
                  subst hrest
                  obtain ⟨rfl, rfl⟩ := Prod.mk.inj hv
                  rw [List.take_nil, List.drop_nil, anyLoop_nil, statusLoop_nil]
                  exact within_blank st
                · have hdetail := detailWeight_le hv hrest
                  refine (ih { st with details := st.details ++ [readAny (rest'.take v)] }
                    (rest'.drop v)).of_suffix hdrop ?_
                  simp only [Status.weight, detailsWeight_append, detailsWeight]
                  omega
              · exact .inl (Nat.le_add_right _ _)

/-! ### How a status is passed -/

/-- Raw octets, or base64 in one of the two alphabets, with or without padding. -/
inductive Form where
  | raw
  | base64 (url padded : Bool)

/-- The character of the URL-safe alphabet. -/
def urlSafe (c : ℕ) : ℕ := if c = 43 then 45 else if c = 47 then 95 else c

def Form.text : Form → PerlStr → PerlStr
  | .raw, b => b
  | .base64 url padded, b =>
      let text := if padded then encodeBase64 b else (encodeBase64 b).filter (· ≠ 61)
      if url then text.map urlSafe else text

/-- The status is read back from this form. -/
def Decodes (s : RpcStatus) (gaps : ℕ → List PerlStr) (form : Form) : Prop :=
  ∃ st, parseStatusDetails (form.text (s.encode gaps)) = some st ∧ st.Says s

/-- What survives: at least one field, no negative code, readable details, and no unknown
field before the last known one. -/
structure RpcStatus.Readable (s : RpcStatus) (gaps : ℕ → List PerlStr) : Prop where
  present : s.fields ≠ []
  code : 0 ≤ s.code
  details : ∀ a ∈ s.details, a.Readable
  gaps : ∀ i, i + 1 < s.fields.length → gaps i = []

/-- Every digit is the same in both alphabets. -/
def Plain (b : PerlStr) : Prop := ∀ d ∈ sextets b, d < 62

def charOf (url : Bool) (d : ℕ) : ℕ := if url then urlSafe (base64Char d) else base64Char d

theorem text_base64 {b : PerlStr} (hb : IsOctets b) (url padded : Bool) :
    ∃ n, (Form.base64 url padded).text b =
      (sextets b).map (charOf url) ++ List.replicate n 61 := by
  obtain ⟨n, heq⟩ := encodeBase64_eq b
  have hplain : ∀ d < 64, base64Char d ≠ 61 := by decide
  have hdigits : ((sextets b).map base64Char).filter (· ≠ 61) = (sextets b).map base64Char := by
    apply List.filter_eq_self.mpr
    intro c hc
    obtain ⟨d, hd, rfl⟩ := List.mem_map.mp hc
    exact decide_eq_true (hplain d (sextets_lt hb d hd))
  have hpads : (List.replicate n 61).filter (· ≠ 61) = [] := by
    apply List.filter_eq_nil_iff.mpr
    intro c hc
    simp [List.eq_of_mem_replicate hc]
  have hchars : (sextets b).map (charOf url) =
      if url then ((sextets b).map base64Char).map urlSafe else (sextets b).map base64Char := by
    cases url <;> simp [charOf]
  have hurl : (List.replicate n 61).map urlSafe = List.replicate n 61 := by
    rw [List.map_replicate]
    rfl
  rw [hchars]
  cases padded with
  | true =>
      refine ⟨n, ?_⟩
      simp only [Form.text, heq]
      cases url <;> simp [hurl]
  | false =>
      refine ⟨0, ?_⟩
      simp only [Form.text, heq, List.filter_append, hdigits, hpads]
      cases url <;> simp

theorem charOf_spec (url : Bool) {d : ℕ} (h : d < 64) :
    inBase64Class (charOf url d) = true ∧ 43 ≤ charOf url d ∧
      base64Symbol (charOf url d) = if !url || d < 62 then some (.digit d) else none := by
  have hall : ∀ url : Bool, ∀ d < 64, inBase64Class (charOf url d) = true ∧ 43 ≤ charOf url d ∧
      base64Symbol (charOf url d) = if !url || d < 62 then some (.digit d) else none := by
    decide
  exact hall url d h

/-- What the decoder finds in a base64 text: the digits that it knows. -/
theorem decodeBase64_text {b : PerlStr} (hb : IsOctets b) (url padded : Bool) :
    decodeBase64 ((Form.base64 url padded).text b) =
      decodeGroups (((sextets b).filter fun d => !url || d < 62).map .digit) := by
  obtain ⟨n, heq⟩ := text_base64 hb url padded
  have hpads : ∀ c ∈ List.replicate n 61,
      base64Symbol c = none ∨ base64Symbol c = some .pad := by
    intro c hc
    rw [List.eq_of_mem_replicate hc]
    exact .inr rfl
  have hsymbols (l : List ℕ) (hl : ∀ d ∈ l, d < 64) :
      (l.map (charOf url)).filterMap base64Symbol =
        (l.filter fun d => !url || d < 62).map .digit := by
    induction l with
    | nil => rfl
    | cons d l ih =>
        have hd := (charOf_spec url (hl d List.mem_cons_self)).2.2
        have hrest := ih fun x hx => hl x (List.mem_cons_of_mem _ hx)
        rw [List.map_cons, List.filterMap_cons, hd, List.filter_cons]
        by_cases hkeep : (!url || decide (d < 62)) = true
        · simp only [hkeep, if_true, List.map_cons, hrest]
        · simp only [hkeep, hrest]
          rfl
  rw [heq, decodeBase64_append hpads, decodeBase64, hsymbols _ (sextets_lt hb)]

theorem decodeBase64_text_of_plain {b : PerlStr} (hb : IsOctets b) {url : Bool}
    (h : url = true → Plain b) (padded : Bool) :
    decodeBase64 ((Form.base64 url padded).text b) = b := by
  have hkeep (url : Bool) (h : url = true → Plain b) :
      ((sextets b).filter fun d => !url || d < 62) = sextets b := by
    apply List.filter_eq_self.mpr
    intro d hd
    cases url with
    | false => rfl
    | true => simpa using h rfl d hd
  have hstandard := decodeBase64_text hb false true
  rw [hkeep false (by simp)] at hstandard
  rw [decodeBase64_text hb, hkeep url h, ← hstandard]
  exact decodeBase64_encodeBase64 hb

/-- A base64 text has the look of one, and starts with no tag. -/
theorem text_base64_ne_nil {b : PerlStr} (hb : IsOctets b) (hne : b ≠ []) (url padded : Bool) :
    ∃ c rest, (Form.base64 url padded).text b = c :: rest ∧ 32 ≤ c ∧
      looksBase64 (c :: rest) = true := by
  obtain ⟨n, heq⟩ := text_base64 hb url padded
  have hlt := sextets_lt hb
  cases hs : sextets b with
  | nil =>
      have hlen := (length_sextets b).1
      rw [hs] at hlen
      exact absurd (List.length_eq_zero_iff.mp hlen.symm) hne
  | cons d ds =>
      rw [hs] at heq hlt
      have hd := charOf_spec url (hlt d List.mem_cons_self)
      refine ⟨charOf url d, ds.map (charOf url) ++ List.replicate n 61, by rw [heq]; rfl,
        by omega, ?_⟩
      have hall : ((charOf url d) :: (ds.map (charOf url) ++ List.replicate n 61)).all
          inBase64Class = true := by
        rw [List.all_eq_true]
        intro c hc
        rw [← List.cons_append, ← List.map_cons] at hc
        rcases List.mem_append.mp hc with hc | hc
        · obtain ⟨x, hx, rfl⟩ := List.mem_map.mp hc
          exact (charOf_spec url (hlt x hx)).1
        · rw [List.eq_of_mem_replicate hc]
          decide
      rw [looksBase64, hall, List.head?_cons]
      simp
      omega

/-! ### The octets of a status -/

theorem UnknownField.octets {u : PerlStr} (h : UnknownField u) : IsOctets u := by
  have happend {p q : PerlStr} (hp : IsOctets p) (hq : IsOctets q) : IsOctets (p ++ q) := by
    intro c hc
    rcases List.mem_append.mp hc with hc | hc
    · exact hp c hc
    · exact hq c hc
  induction h with
  | varint hn v => exact happend (leb128_lt _) (leb128_lt _)
  | fixed64 hn hp => exact happend (leb128_lt _) hp
  | bytes hn hp => exact happend (leb128_lt _) (happend (leb128_lt _) hp)
  | group hn hus ih =>
      refine happend (leb128_lt _) (happend (fun c hc => ?_) (leb128_lt _))
      obtain ⟨u, hu, hc⟩ := List.mem_flatten.mp hc
      exact ih u hu c hc
  | fixed32 hn hp => exact happend (leb128_lt _) hp

theorem Field.head (f : Field) : ∃ b rest, f.encode = b :: rest ∧ (b = 8 ∨ b = 18 ∨ b = 26) := by
  cases f with
  | code v => exact ⟨_, _, rfl, .inl rfl⟩
  | message s => exact ⟨_, _, rfl, .inr (.inl rfl)⟩
  | detail a => exact ⟨_, _, rfl, .inr (.inr rfl)⟩

theorem withGaps_head (gaps : ℕ → List PerlStr) (i : ℕ) {fs : List Field} (h : fs ≠ []) :
    ∃ b rest, withGaps gaps i fs = b :: rest ∧ (b = 8 ∨ b = 18 ∨ b = 26) := by
  match fs with
  | [] => exact absurd rfl h
  | [f] => exact f.head
  | f :: g :: fs =>
      obtain ⟨b, rest, heq, hb⟩ := f.head
      exact ⟨b, _, by rw [withGaps, heq, List.cons_append], hb⟩

theorem length_le_withGaps (gaps : ℕ → List PerlStr) (i : ℕ) (fs : List Field) :
    fs.length ≤ (withGaps gaps i fs).length := by
  induction fs generalizing i with
  | nil => exact Nat.zero_le _
  | cons f fs ih =>
      obtain ⟨b, rest, heq, -⟩ := f.head
      cases fs with
      | nil =>
          rw [withGaps, heq]
          exact Nat.succ_le_succ (Nat.zero_le _)
      | cons g fs =>
          have hrest := ih (i + 1)
          rw [withGaps, heq]
          simp only [List.length_append, List.length_cons] at hrest ⊢
          omega

theorem Field.octets {f : Field} {s : RpcStatus} (hs : s.Valid) (hf : f ∈ s.fields) :
    IsOctets f.encode := by
  have hframe {tag : ℕ} (htag : tag < 256) {p : PerlStr} (hp : IsOctets p) :
      IsOctets (tag :: (leb128 p.length ++ p)) := by
    intro c hc
    simp only [List.mem_cons, List.mem_append] at hc
    rcases hc with rfl | hc | hc
    · exact htag
    · exact leb128_lt _ c hc
    · exact hp c hc
  simp only [RpcStatus.fields, List.mem_append, List.mem_map] at hf
  rcases hf with (hf | hf) | ⟨a, ha, rfl⟩
  · split at hf
    · cases hf
    · rw [List.mem_singleton] at hf
      subst hf
      intro c hc
      rcases List.mem_cons.mp hc with rfl | hc
      · decide
      · exact leb128_lt _ c hc
  · split at hf
    · cases hf
    · rw [List.mem_singleton] at hf
      subst hf
      exact hframe (by decide) hs.message.1
  · obtain ⟨ht, hv, -⟩ := hs.details a ha
    refine hframe (by decide) fun c hc => ?_
    rcases List.mem_append.mp hc with hc | hc
    · exact isOctets_stringField ht (by decide) c hc
    · exact isOctets_stringField hv (by decide) c hc

theorem isOctets_withGaps {gaps : ℕ → List PerlStr} (hgaps : ∀ i, ∀ u ∈ gaps i, UnknownField u)
    {fs : List Field} (hfs : ∀ f ∈ fs, IsOctets f.encode) (i : ℕ) :
    IsOctets (withGaps gaps i fs) := by
  induction fs generalizing i with
  | nil => exact fun c hc => absurd hc List.not_mem_nil
  | cons f fs ih =>
      have hf := hfs f List.mem_cons_self
      cases fs with
      | nil => exact hf
      | cons g fs =>
          have hrest := ih (fun x hx => hfs x (List.mem_cons_of_mem _ hx)) (i + 1)
          intro c hc
          rw [withGaps, List.mem_append, List.mem_append, List.mem_flatten] at hc
          rcases hc with hc | ⟨u, hu, hc⟩ | hc
          · exact hf c hc
          · exact (hgaps i u hu).octets c hc
          · exact hrest c hc

theorem isOctets_encode {s : RpcStatus} (hs : s.Valid) {gaps : ℕ → List PerlStr}
    (hgaps : ∀ i, ∀ u ∈ gaps i, UnknownField u) : IsOctets (s.encode gaps) :=
  isOctets_withGaps hgaps (fun _ hf => Field.octets hs hf) 0

theorem readable_iff {s : RpcStatus} (hs : s.Valid) (gaps : ℕ → List PerlStr) :
    s.Readable gaps ↔ s.fields ≠ [] ∧
      ((reached gaps 0 s.fields).foldl (fun st f => f.read st) blank).Says s := by
  rw [says_reached_iff hs]
  have hdetails : (∀ a ∈ s.details, readAny a.encode = ⟨some a.typeUrl, some a.value⟩) ↔
      ∀ a ∈ s.details, a.Readable := by
    refine forall₂_congr fun a ha => ?_
    obtain ⟨ht, hv, -⟩ := hs.details a ha
    exact readAny_encode_iff ht hv
  rw [hdetails]
  exact ⟨fun h => ⟨h.present, h.code, h.details, h.gaps⟩,
    fun ⟨hpresent, hcode, hdetails, hgaps⟩ => ⟨hpresent, hcode, hdetails, hgaps⟩⟩

/-! ### The forms of a status -/

theorem looksBase64_encode {b : ℕ} {rest : PerlStr} (h : b = 8 ∨ b = 18 ∨ b = 26) :
    looksBase64 (b :: rest) = false := by
  rcases h with rfl | rfl | rfl <;> simp [looksBase64]

section Forms

variable {s : RpcStatus} (hs : s.Valid) {gaps : ℕ → List PerlStr}
  (hgaps : ∀ i, ∀ u ∈ gaps i, UnknownField u)

include hs hgaps

theorem statusLoop_encode :
    statusLoop (s.encode gaps).length blank (s.encode gaps) =
      (reached gaps 0 s.fields).foldl (fun st f => f.read st) blank :=
  statusLoop_withGaps hgaps hs.fits (length_le_withGaps gaps 0 s.fields) 0 blank

/-- A form whose octets come back as they were. -/
theorem decodes_iff_readable {form : Form}
    (hform : s.fields ≠ [] → parseStatusDetails (form.text (s.encode gaps)) =
      some (statusLoop (s.encode gaps).length blank (s.encode gaps)))
    (hnil : s.fields = [] → form.text (s.encode gaps) = []) :
    Decodes s gaps form ↔ s.Readable gaps := by
  rw [readable_iff hs]
  by_cases hpresent : s.fields = []
  · simp [Decodes, hnil hpresent, hpresent, parseStatusDetails]
  · rw [Decodes, hform hpresent, statusLoop_encode hs hgaps]
    simp [hpresent]

theorem decodes_raw : Decodes s gaps .raw ↔ s.Readable gaps := by
  refine decodes_iff_readable hs hgaps (fun hpresent => ?_) fun h => ?_
  · obtain ⟨b, rest, heq, hb⟩ := withGaps_head gaps 0 hpresent
    rw [Form.text, RpcStatus.encode, heq, parseStatusDetails, if_neg (by simp),
      looksBase64_encode hb]
    rfl
  · rw [Form.text, RpcStatus.encode, h, withGaps]

theorem decodes_base64 {url : Bool} (hplain : url = true → Plain (s.encode gaps))
    (padded : Bool) : Decodes s gaps (.base64 url padded) ↔ s.Readable gaps := by
  have hoctets := isOctets_encode hs hgaps
  have hdecoded := decodeBase64_text_of_plain hoctets hplain padded
  refine decodes_iff_readable hs hgaps (fun hpresent => ?_) fun h => ?_
  · obtain ⟨b, bs, heq, -⟩ := withGaps_head gaps 0 hpresent
    have hne : s.encode gaps ≠ [] := by
      rw [RpcStatus.encode, heq]
      exact List.cons_ne_nil b bs
    obtain ⟨c, rest, htext, -, hlooks⟩ := text_base64_ne_nil hoctets hne url padded
    rw [htext] at hdecoded ⊢
    rw [parseStatusDetails, if_neg (by simp), hdecoded, if_pos ⟨hlooks, hne⟩]
    rfl
  · rw [RpcStatus.encode, h, withGaps]
    cases url <;> cases padded <;> rfl

end Forms

/-! ### Lost digits -/

/-- Every length in the details fits into seven bits. -/
def RpcStatus.Short (s : RpcStatus) : Prop :=
  ∀ a ∈ s.details, a.typeUrl.length < 128 ∧ a.value.length < 128

theorem withGaps_of_nil {gaps : ℕ → List PerlStr} {i : ℕ} {fs : List Field}
    (h : ∀ j, j + 1 < fs.length → gaps (i + j) = []) :
    withGaps gaps i fs = fs.flatMap Field.encode := by
  induction fs generalizing i with
  | nil => rfl
  | cons f fs ih =>
      cases fs with
      | nil => simp [withGaps]
      | cons g fs =>
          have hgap : gaps i = [] := h 0 (by simp)
          have hrest := ih (i := i + 1) fun j hj => by
            have hlater := h (j + 1) (by simpa using hj)
            rwa [← Nat.add_assoc, Nat.add_right_comm] at hlater
          rw [withGaps, hgap, hrest]
          rfl

theorem RpcStatus.Readable.encode_eq {s : RpcStatus} {gaps : ℕ → List PerlStr}
    (hr : s.Readable gaps) : s.encode gaps = s.fields.flatMap Field.encode :=
  withGaps_of_nil fun j hj => by
    rw [Nat.zero_add]
    exact hr.gaps j hj

theorem stringWeight_eq {s : PerlStr} (h : s.length < 128) (tag : ℕ) :
    stringWeight s = (stringField tag s).length := by
  rw [stringWeight, stringField]
  split
  · rfl
  · rw [leb128_of_lt h, List.length_cons, List.length_append, List.length_singleton]
    omega

theorem detailsWeight_eq {as : List RpcAny}
    (h : ∀ a ∈ as, a.typeUrl.length < 128 ∧ a.value.length < 128) :
    detailsWeight (as.map fun a => ⟨some a.typeUrl, some a.value⟩) =
      ((as.map Field.detail).flatMap Field.encode).length := by
  induction as with
  | nil => rfl
  | cons a as ih =>
      have hrest := ih fun x hx => h x (List.mem_cons_of_mem _ hx)
      obtain ⟨ht, hv⟩ := h a List.mem_cons_self
      have hweight : AnyDetail.weight ⟨some a.typeUrl, some a.value⟩ = a.encode.length := by
        rw [AnyDetail.weight, RpcAny.encode, List.length_append]
        exact congrArg₂ (· + ·) (stringWeight_eq ht 10) (stringWeight_eq hv 18)
      rw [List.map_cons, detailsWeight, hrest, detailWeight, hweight, List.map_cons,
        List.flatMap_cons, List.length_append, Field.encode, List.length_cons,
        List.length_append]
      omega

/-- What is said of short strings weighs what it takes to write it. -/
theorem Status.Says.weight_eq {st : Status} {s : RpcStatus} (h : st.Says s) (hs : s.Valid)
    (hshort : s.Short) {gaps : ℕ → List PerlStr} (hr : s.Readable gaps) :
    st.weight = (s.encode gaps).length := by
  obtain ⟨hcode, hmessage, hdetails⟩ := h
  have hvalue : (s.code % 2 ^ 64).toNat = st.code := by
    have hrange := hs.code
    omega
  have hzero : st.code = 0 ↔ s.code = 0 := by omega
  rw [hr.encode_eq, RpcStatus.fields, hvalue, List.flatMap_append, List.flatMap_append,
    List.length_append, List.length_append, ← detailsWeight_eq hshort, Status.weight, hdetails,
    hmessage, codeWeight, messageWeight]
  simp only [hzero]
  congr 2
  · split
    · rfl
    · simp [Field.encode, Nat.add_comm]
  · split
    · rfl
    · simp only [List.flatMap_cons, List.flatMap_nil, List.append_nil, Field.encode,
        List.length_cons, List.length_append]
      omega

/-- An empty detail at the end of a status. -/
theorem encode_of_getLast? {s : RpcStatus} {gaps : ℕ → List PerlStr} (hr : s.Readable gaps)
    (h : s.details.getLast? = some ⟨[], []⟩) : ∃ before, s.encode gaps = before ++ [26, 0] := by
  obtain ⟨init, hinit⟩ := List.getLast?_eq_some_iff.mp h
  refine ⟨((if s.code = 0 then [] else [Field.code (s.code % 2 ^ 64).toNat]) ++
    (if s.message = [] then [] else [Field.message s.message]) ++
      init.map Field.detail).flatMap Field.encode, ?_⟩
  have hempty : (Field.detail ⟨[], []⟩).encode = [26, 0] := by
    simp [Field.encode, RpcAny.encode, stringField, leb128_of_lt]
  rw [hr.encode_eq, RpcStatus.fields, hinit, List.map_append, ← List.append_assoc,
    List.flatMap_append]
  simp [hempty]

/-- A digit that the decoder skips loses the status. -/
theorem plain_of_decodes {s : RpcStatus} (hs : s.Valid) {gaps : ℕ → List PerlStr}
    (hgaps : ∀ i, ∀ u ∈ gaps i, UnknownField u) (hshort : s.Short) (hr : s.Readable gaps)
    {padded : Bool} (h : Decodes s gaps (.base64 true padded)) : Plain (s.encode gaps) := by
  by_contra hplain
  have hoctets := isOctets_encode hs hgaps
  have hne : s.encode gaps ≠ [] := by
    obtain ⟨b, bs, heq, -⟩ := withGaps_head gaps 0 hr.present
    rw [RpcStatus.encode, heq]
    exact List.cons_ne_nil b bs
  have hdecoded := decodeBase64_text hoctets true padded
  obtain ⟨c, rest, htext, hc, hlooks⟩ := text_base64_ne_nil hoctets hne true padded
  obtain ⟨st, hparse, htold⟩ := h
  have hweight := htold.weight_eq hs hshort hr
  -- the decoder skips the digits that only this alphabet has, so it reads fewer
  have hfewer : ((sextets (s.encode gaps)).filter fun d => !true || d < 62).length <
      (sextets (s.encode gaps)).length := by
    simp only [Plain, not_forall] at hplain
    obtain ⟨d, hd, hlt⟩ := hplain
    exact List.length_filter_lt_length_iff_exists.mpr ⟨d, hd, by simpa using hlt⟩
  have hlost := length_decodeGroups_lt hfewer
  rw [htext] at hparse hdecoded
  rw [parseStatusDetails, if_neg (by simp), hdecoded, Option.some.injEq] at hparse
  by_cases hempty : decodeGroups (((sextets (s.encode gaps)).filter fun d => !true || d < 62).map
      .digit) = []
  · -- nothing is left of the text, and the text itself starts with no tag
    rw [if_neg (fun hif => hif.2 hempty), statusLoop_stop hc] at hparse
    have hcount := htold.fieldCount
    rw [← hparse] at hcount
    exact hr.present (List.length_eq_zero_iff.mp hcount.symm)
  · rw [if_pos ⟨hlooks, hempty⟩] at hparse
    generalize hd : decodeGroups _ = decoded at *
    have hblank : blank.weight = 0 := rfl
    have hle := weight_statusLoop_le decoded.length blank decoded
    rw [show statusLoop decoded.length blank decoded = st from hparse, hblank] at hle
    rcases hle with hle | ⟨-, hlast, hdetail⟩
    · omega
    -- only an empty last detail makes up for what is lost, and then the last octet differs
    · have hdetails : s.details.getLast? = some ⟨[], []⟩ := by
        rw [htold.2.2, List.getLast?_map, Option.map_eq_some_iff] at hdetail
        obtain ⟨⟨t, v⟩, ha, hsame⟩ := hdetail
        simp only [AnyDetail.mk.injEq, Option.some.injEq] at hsame
        obtain ⟨rfl, rfl⟩ := hsame
        exact ha
      obtain ⟨before, hbefore⟩ := encode_of_getLast? hr hdetails
      obtain ⟨digits, x, hdigits, hx⟩ := sextets_append_zero before 26
      have hkept : (sextets (s.encode gaps)).filter (fun d => !true || d < 62) =
          digits.filter (fun d => !true || d < 62) ++ [x, 0] := by
        have hsmall : x < 62 := by omega
        rw [hbefore, hdigits, List.filter_append]
        simp [hsmall]
      obtain ⟨last, hlast', hne'⟩ := getLast?_decodeGroups_ne
        (digits.filter fun d => !true || d < 62) (x := x) (b := 26) (by omega) (by omega)
        (by decide) (by decide)
      rw [← hkept, hd, hlast] at hlast'
      exact hne' (Option.some.inj hlast').symm

/-! ### Which statuses survive -/

/-- Raw octets and standard base64 survive exactly if the status is readable; the URL-safe
alphabet does if no digit differs there, and for short details only then. -/
theorem decodes_iff (s : RpcStatus) (gaps : ℕ → List PerlStr) (hs : s.Valid)
    (hgaps : ∀ i, ∀ u ∈ gaps i, UnknownField u) :
    ((Decodes s gaps .raw ∧ ∀ padded, Decodes s gaps (.base64 false padded)) ↔ s.Readable gaps) ∧
      (s.Readable gaps ∧ Plain (s.encode gaps) → ∀ form, Decodes s gaps form) ∧
      (s.Short → ((∀ form, Decodes s gaps form) ↔ s.Readable gaps ∧ Plain (s.encode gaps))) := by
  have hraw := decodes_raw hs hgaps
  have hstandard (padded : Bool) : Decodes s gaps (.base64 false padded) ↔ s.Readable gaps :=
    decodes_base64 hs hgaps (by simp) padded
  have hall (hr : s.Readable gaps) (hplain : Plain (s.encode gaps)) (form : Form) :
      Decodes s gaps form := by
    cases form with
    | raw => exact hraw.mpr hr
    | base64 url padded => exact (decodes_base64 hs hgaps (fun _ => hplain) padded).mpr hr
  refine ⟨⟨fun h => hraw.mp h.1, fun hr => ⟨hraw.mpr hr, fun padded => (hstandard padded).mpr hr⟩⟩,
    fun ⟨hr, hplain⟩ => hall hr hplain,
    fun hshort => ⟨fun h => ?_, fun ⟨hr, hplain⟩ => hall hr hplain⟩⟩
  have hr := hraw.mp (h .raw)
  exact ⟨hr, plain_of_decodes hs hgaps hshort hr (h (.base64 true true))⟩

/-- A code and a message with an unknown field between them. -/
def gapped : RpcStatus := ⟨3, ps "no", []⟩

def oneGap : ℕ → List PerlStr
  | 0 => [leb128 (8 * 4) ++ leb128 1]
  | _ => []

theorem valid_of_no_details {code : ℤ} (hcode : -2 ^ 31 ≤ code ∧ code < 2 ^ 31) {message : PerlStr}
    (hoctets : IsOctets message) (hlen : message.length < 2 ^ 63) :
    RpcStatus.Valid ⟨code, message, []⟩ :=
  ⟨hcode, ⟨hoctets, hlen⟩, fun _ ha => absurd ha List.not_mem_nil⟩

theorem unknownField_oneGap : ∀ i, ∀ u ∈ oneGap i, UnknownField u := by
  intro i u hu
  cases i with
  | zero =>
      rw [oneGap, List.mem_singleton] at hu
      rw [hu]
      exact .varint (by decide) 1
  | succ i => cases hu

theorem decodes_iff_gapped :
    ((Decodes gapped oneGap .raw ∧ ∀ padded, Decodes gapped oneGap (.base64 false padded)) ↔
        gapped.Readable oneGap) ∧
      (gapped.Readable oneGap ∧ Plain (gapped.encode oneGap) →
        ∀ form, Decodes gapped oneGap form) ∧
      (gapped.Short → ((∀ form, Decodes gapped oneGap form) ↔
        gapped.Readable oneGap ∧ Plain (gapped.encode oneGap))) :=
  decodes_iff gapped oneGap (valid_of_no_details (by decide) (by decide) (by decide))
    unknownField_oneGap

/-- A negative code comes back as a large positive one. -/
theorem not_decodes_negative : ¬ ∀ form, Decodes ⟨-1, [], []⟩ (fun _ => []) form := by
  intro h
  have hvalid : RpcStatus.Valid ⟨-1, [], []⟩ :=
    valid_of_no_details (by decide) (by decide) (by decide)
  have hr := (decodes_raw hvalid (fun _ _ hu => absurd hu List.not_mem_nil)).mp (h .raw)
  exact absurd hr.code (by decide)

end GooglePerl.Grpc
