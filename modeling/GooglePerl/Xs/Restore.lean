import GooglePerl.Xs.PerlRoundTrip
import Mathlib.Data.List.TakeWhile

/-!
Making a message from what was shown of it.
-/

namespace GooglePerl.Xs

open GooglePerl.Lib GooglePerl.Protobuf

section

variable {S : DefPool} {Text : PerlStr → Prop} {address : Sv → ℕ}

/-! ### Scalars -/

theorem toInt32_of_range {n : ℤ} (h : -2 ^ 31 ≤ n) (h' : n < 2 ^ 31) : toInt32 n = n := by
  apply Int.bmod_eq_of_le
  · norm_num at h ⊢
    exact h
  · norm_num at h' ⊢
    exact h'

theorem svUV_newSVuv {n : ℤ} (h : 0 ≤ n) (h' : n < 2 ^ 64) : (newSVuv n).svUV = n := by
  unfold newSVuv Scalar.svUV
  split
  · exact Int.emod_eq_of_lt h h'
  · rw [Scalar.integer, Int.toNat_of_nonneg h]
    exact Int.emod_eq_of_lt h h'

theorem svToU64_newSVuv {n : ℤ} (h : 0 ≤ n) (h' : n < 2 ^ 64) : (newSVuv n).svToU64 = n := by
  have huv := svUV_newSVuv h h'
  unfold newSVuv at huv ⊢
  split at huv
  · rw [if_pos ‹_›]
    exact huv
  · rw [if_neg ‹_›]
    exact huv

theorem number_newSVuv {n : ℤ} (h : 0 ≤ n) : (newSVuv n).number = some (.fin n) := by
  unfold newSVuv
  split
  · rfl
  · rw [Scalar.number, ← Int.cast_natCast, Int.toNat_of_nonneg h]

theorem isNumeric_newSVuv (n : ℤ) : (newSVuv n).isNumeric = true := by
  unfold newSVuv
  split <;> rfl

theorem newSVuv_ne_undef (n : ℤ) : newSVuv n ≠ .undef := by
  unfold newSVuv
  split <;> simp

theorem perlScalar_ne_undef {t : FieldType} {v : MessageValue} (hv : v.isScalar = true) :
    perlScalar t v ≠ .undef := by
  cases v with
  | msg => cases hv
  | array => cases hv
  | map => cases hv
  | _ => simp [perlScalar, newSVuv_ne_undef]

/-- What the batch makes of the scalar that stands for a value. -/
theorem batchOne_perlScalar {t : FieldType} {v : MessageValue} (h : Typed S Text (.single t) v)
    (ht : isBatch t = true) : batchOne t (perlScalar t v) = v := by
  have hmember := member_of_typed h
  cases v with
  | bool b => cases t <;> cases hmember; rfl
  | int32 n =>
      simp only [Typed] at h
      obtain ⟨-, -, -, hlo, hhi⟩ := h
      cases t <;> cases hmember <;>
        simp only [batchOne, perlScalar, Scalar.svIV, toInt32_of_range hlo hhi]
  | uint32 n =>
      simp only [Typed] at h
      obtain ⟨-, -, -, hlo, hhi⟩ := h
      have huv := svUV_newSVuv hlo (hhi.trans (by norm_num))
      have hmod : toUint32 n = n := Int.emod_eq_of_lt hlo hhi
      cases t <;> cases hmember <;> simp only [batchOne, perlScalar, huv, hmod]
  | int64 n =>
      cases t <;> cases hmember <;> rfl
  | uint64 n =>
      simp only [Typed] at h
      obtain ⟨-, -, -, hlo, hhi⟩ := h
      cases t <;> cases hmember <;> simp only [batchOne, perlScalar, svToU64_newSVuv hlo hhi]
  | float w =>
      simp only [Typed] at h
      cases t <;> cases hmember
      cases w with
      | fin q =>
          have hround := FloatFormat.round_of_representable (h.2 q rfl)
          simp only [batchOne, perlScalar, Scalar.svNV, roundTo, hround]
      | _ => rfl
  | double w => cases t <;> cases hmember; rfl
  | str s => cases t <;> cases hmember <;> cases ht
  | msg c slots rest => cases t <;> cases hmember; cases ht
  | array items => cases t <;> cases hmember
  | map entries => cases t <;> cases hmember

/-- An integer of a half-open range, as the limits are written. -/
theorem inRange_of_lt {lo hi n : ℤ} {x : Scalar} (hx : x.number = some (.fin n)) (hlo : lo ≤ n)
    (hhi : n < hi) : InRange lo (hi - 1) x := by
  refine ⟨n, hx, by exact_mod_cast hlo, ?_⟩
  have hle : n ≤ hi - 1 := by omega
  exact_mod_cast hle

/-- That scalar is in range, unless it is a `float` at the limit. -/
theorem batchable_perlScalar {t : FieldType} {v : MessageValue} (h : Typed S Text (.single t) v)
    (ht : isBatch t = true) (hfloat : ∀ w, v = .float w → passesFloat w = true) :
    Batchable t (perlScalar t v) := by
  have hmember := member_of_typed h
  cases v with
  | bool b => cases t <;> cases hmember; simp [Batchable, perlScalar]
  | int32 n =>
      simp only [Typed] at h
      obtain ⟨-, -, -, hlo, hhi⟩ := h
      have hrange : InRange (-2 ^ 31) (2 ^ 31 - 1) (.iv n) := by
        exact_mod_cast inRange_of_lt rfl hlo hhi
      cases t <;> cases hmember
      · exact ⟨rfl, hrange⟩
      · exact .inl ⟨rfl, hrange⟩
      · exact ⟨rfl, hrange⟩
      · exact ⟨rfl, hrange⟩
  | uint32 n =>
      simp only [Typed] at h
      obtain ⟨-, -, -, hlo, hhi⟩ := h
      have hrange : InRange 0 (2 ^ 32 - 1) (newSVuv n) := by
        exact_mod_cast inRange_of_lt (number_newSVuv hlo) hlo hhi
      cases t <;> cases hmember
      · exact ⟨isNumeric_newSVuv n, hrange⟩
      · exact ⟨isNumeric_newSVuv n, hrange⟩
  | int64 n =>
      simp only [Typed] at h
      obtain ⟨-, -, -, hlo, hhi⟩ := h
      have hrange : InRange (-2 ^ 63) (2 ^ 63 - 1) (.iv n) := by
        exact_mod_cast inRange_of_lt rfl hlo hhi
      cases t <;> cases hmember <;> exact hrange
  | uint64 n =>
      simp only [Typed] at h
      obtain ⟨-, -, -, hlo, hhi⟩ := h
      have hrange : InRange 0 (2 ^ 64 - 1) (newSVuv n) := by
        exact_mod_cast inRange_of_lt (number_newSVuv hlo) hlo hhi
      cases t <;> cases hmember <;> exact hrange
  | float w => cases t <;> cases hmember; exact ⟨rfl, hfloat w rfl⟩
  | double w =>
      simp only [Typed] at h
      cases t <;> cases hmember
      refine ⟨rfl, fun q hq => ?_⟩
      exact (h.2 q (by simpa [Scalar.number, perlScalar] using hq)).2
  | str s => cases t <;> cases hmember <;> cases ht
  | msg c slots rest => cases t <;> cases hmember; cases ht
  | array items => cases t <;> cases hmember
  | map entries => cases t <;> cases hmember

/-- A single scalar comes back, unless it is a `float` at the limit. -/
theorem convertScalar_perlScalar {f : FieldDef} {v : MessageValue} (hv : v.isScalar = true)
    (h : Typed S Text (.single f.type) v) (hfinite : AllFinite v) :
    convertScalar f (perlScalar f.type v) = .ok v ↔
      ∀ q, v = .float (.fin q) → |q| ≠ FloatFormat.single.max := by
  have hmember := member_of_typed h
  by_cases hstr : v.member = .str
  · cases v with
    | str s =>
        simp only [Typed, ValueType.single.injEq] at h
        rcases h with h | ⟨h, -⟩ <;>
          simp [convertScalar, h, perlScalar, Scalar.pok, Scalar.svPVbyte, Scalar.svPVutf8]
    | _ => cases hstr
  have hbatch : isBatch f.type = true := by
    cases ht : f.type with
    | string | bytes => exact absurd (by rw [hmember, ht]; rfl) hstr
    | message c =>
        rw [ht] at hmember
        cases v <;> cases hmember
        cases hv
    | _ => rfl
  have hone := batchOne_perlScalar h hbatch
  constructor
  · rintro hconvert q rfl
    simp only [Typed, ValueType.single.injEq] at h
    have hbatchable := (convertScalar_float h.1).mp (hconvert.trans (congrArg Except.ok hone.symm))
    rw [h.1] at hbatchable
    exact (passesFloat_iff (h.2 q rfl)).mp hbatchable.2
  · intro hfloat
    have hbatchable := batchable_perlScalar h hbatch fun w hw => by
      subst hw
      obtain ⟨q, rfl⟩ := hfinite w (.inl .refl)
      simp only [Typed] at h
      exact (passesFloat_iff (h.2 q rfl)).mpr (hfloat q rfl)
    rw [((agrees_iff hbatch _).mpr hbatchable).1, hone]

/-! ### The entries of a hash -/

section

variable {fs : List FieldDef} {V : FieldDef → Option MessageValue} {shown : List (HashKey × Sv)}

theorem showsSlots_mem (h : ShowsSlots S fs (fs.map V) shown) :
    ∀ e ∈ shown, ∃ f ∈ fs, ∃ v, V f = some v ∧ e.1 = ⟨f.name, false⟩ ∧
      Shows S (valueType S.toPool f) v e.2 := by
  induction fs generalizing shown with
  | nil =>
      cases shown with
      | nil => simp
      | cons => simp [ShowsSlots] at h
  | cons f fs ih =>
      rw [List.map_cons] at h
      cases hv : V f with
      | none =>
          rw [hv] at h
          simp only [ShowsSlots] at h
          intro e he
          obtain ⟨g, hg, hrest⟩ := ih h e he
          exact ⟨g, List.mem_cons_of_mem _ hg, hrest⟩
      | some v =>
          rw [hv] at h
          cases shown with
          | nil => simp [ShowsSlots] at h
          | cons e es =>
              obtain ⟨key, sv⟩ := e
              simp only [ShowsSlots] at h
              obtain ⟨rfl, hshow, hes⟩ := h
              intro e he
              rcases List.mem_cons.mp he with rfl | he
              · exact ⟨f, List.mem_cons_self, v, hv, rfl, hshow⟩
              · obtain ⟨g, hg, hrest⟩ := ih hes e he
                exact ⟨g, List.mem_cons_of_mem _ hg, hrest⟩

theorem showsSlots_exists (h : ShowsSlots S fs (fs.map V) shown) {f : FieldDef} {v : MessageValue}
    (hf : f ∈ fs) (hv : V f = some v) : ∃ sv, (⟨f.name, false⟩, sv) ∈ shown := by
  induction fs generalizing shown with
  | nil => cases hf
  | cons g fs ih =>
      rw [List.map_cons] at h
      cases hg : V g with
      | none =>
          rw [hg] at h
          simp only [ShowsSlots] at h
          rcases List.mem_cons.mp hf with rfl | hf
          · rw [hv] at hg
            cases hg
          · exact ih h hf
      | some w =>
          rw [hg] at h
          cases shown with
          | nil => simp [ShowsSlots] at h
          | cons e es =>
              obtain ⟨key, sv⟩ := e
              simp only [ShowsSlots] at h
              obtain ⟨rfl, -, hes⟩ := h
              rcases List.mem_cons.mp hf with rfl | hf
              · exact ⟨sv, List.mem_cons_self⟩
              · obtain ⟨sv', hsv'⟩ := ih hes hf
                exact ⟨sv', List.mem_cons_of_mem _ hsv'⟩

theorem showsSlots_nodup (h : ShowsSlots S fs (fs.map V) shown)
    (hnd : (fs.map FieldDef.name).Nodup) : (Assoc.keys shown).Nodup := by
  induction fs generalizing shown with
  | nil =>
      cases shown with
      | nil => exact List.nodup_nil
      | cons => simp [ShowsSlots] at h
  | cons f fs ih =>
      rw [List.map_cons] at h
      rw [List.map_cons, List.nodup_cons] at hnd
      cases hv : V f with
      | none =>
          rw [hv] at h
          simp only [ShowsSlots] at h
          exact ih h hnd.2
      | some v =>
          rw [hv] at h
          cases shown with
          | nil => simp [ShowsSlots] at h
          | cons e es =>
              obtain ⟨key, sv⟩ := e
              simp only [ShowsSlots] at h
              obtain ⟨rfl, -, hes⟩ := h
              refine List.nodup_cons.mpr ⟨fun hmem => ?_, ih hes hnd.2⟩
              obtain ⟨e, he, hkey⟩ := List.mem_map.mp hmem
              obtain ⟨g, hg, -, -, hname, -⟩ := showsSlots_mem hes e he
              rw [hname] at hkey
              injection hkey with hkey
              exact hnd.1 (hkey ▸ List.mem_map_of_mem hg)

end

theorem keyField_name {c : String} {f : FieldDef} (hf : f ∈ (S.descriptor c).fields) :
    keyField S c ⟨f.name, false⟩ = some f := by
  have hname : f.name.takeWhile (· != 0) = f.name := by
    rw [List.takeWhile_eq_self_iff]
    intro b hb
    have hne : b ≠ 0 := fun heq => S.name_ne_zero c f hf (heq ▸ hb)
    simpa using hne
  rw [keyField, hname, MessageDef.findFieldByName_eq_some]
  exact ⟨hf, rfl⟩

theorem setFieldByDef_map (c : String) (f : FieldDef) (v : MessageValue)
    (g : FieldDef → Option MessageValue) :
    setFieldByDef S c f v ((S.descriptor c).fields.map g) =
      (S.descriptor c).fields.map fun h =>
        if h = f then stored S c f v
        else if areRivals (S.descriptor c) f h then none
        else g h := by
  rw [setFieldByDef, List.zipWith_map_right, List.zipWith_self]

/-- Populating a message one field after the other, no two of them in one oneof, sets
each of them. -/
theorem populate_eq {c : String} {V : FieldDef → Option MessageValue} (es : List (HashKey × Sv)) :
    ∀ g : FieldDef → Option MessageValue,
    (∀ e ∈ es, ∃ f ∈ (S.descriptor c).fields, ∃ v, e.1 = ⟨f.name, false⟩ ∧
      svToUpb S address f e.2 = .ok v ∧ stored S c f v = V f ∧
      ∀ h ∈ (S.descriptor c).fields, h ≠ f → areRivals (S.descriptor c) f h = true → V h = none) →
    (∀ h ∈ (S.descriptor c).fields, g h = none ∨ g h = V h) →
    ∃ g', populate S address c ((S.descriptor c).fields.map g) es =
        .ok ((S.descriptor c).fields.map g') ∧
      ∀ h ∈ (S.descriptor c).fields,
        g' h = if ⟨h.name, false⟩ ∈ Assoc.keys es then V h else g h := by
  induction es with
  | nil =>
      intro g _ _
      exact ⟨g, by simp [populate], by simp [Assoc.keys]⟩
  | cons e es ih =>
      intro g hes hg
      obtain ⟨key, sv⟩ := e
      obtain ⟨f, hf, v, hkey, hsv, hstored, hrivals⟩ := hes _ List.mem_cons_self
      simp only at hkey hsv
      subst hkey
      let g₁ (h : FieldDef) : Option MessageValue :=
        if h = f then stored S c f v
        else if areRivals (S.descriptor c) f h then none
        else g h
      have hg₁ : ∀ h ∈ (S.descriptor c).fields, g₁ h = none ∨ g₁ h = V h := by
        intro h hh
        dsimp only [g₁]
        split
        · rename_i heq
          exact .inr (heq ▸ hstored)
        · split
          · exact .inl rfl
          · exact hg h hh
      obtain ⟨g', hg', hvalues⟩ :=
        ih g₁ (fun e he => hes e (List.mem_cons_of_mem _ he)) hg₁
      refine ⟨g', ?_, fun h hh => ?_⟩
      · simp only [populate, keyField_name hf, hsv, setFieldByDef_map]
        exact hg'
      rw [hvalues h hh]
      by_cases hmem : (⟨h.name, false⟩ : HashKey) ∈ Assoc.keys es
      · rw [if_pos hmem, if_pos (Assoc.mem_keys_cons.mpr (.inr hmem))]
      rw [if_neg hmem]
      dsimp only [g₁]
      by_cases heq : h = f
      · subst heq
        rw [if_pos rfl, if_pos (Assoc.mem_keys_cons.mpr (.inl rfl)), hstored]
      -- another field: its name differs, and if it is a rival it was not set
      have hne : (⟨h.name, false⟩ : HashKey) ∉ Assoc.keys ((⟨f.name, false⟩, sv) :: es) := by
        intro hin
        rcases Assoc.mem_keys_cons.mp hin with hname | hin
        · injection hname with hname
          exact heq (MessageDef.eq_of_name_eq hh hf hname)
        · exact hmem hin
      rw [if_neg heq, if_neg hne]
      split
      · rename_i hrival
        have hnone := hrivals h hh heq hrival
        rcases hg h hh with hgh | hgh
        · exact hgh.symm
        · rw [hgh, hnone]
      · rfl

theorem populate_ok_mem {c : String} {slots slots' : List (Option MessageValue)}
    {es : List (HashKey × Sv)} (h : populate S address c slots es = .ok slots') :
    ∀ e ∈ es, ∃ f v, keyField S c e.1 = some f ∧ svToUpb S address f e.2 = .ok v := by
  induction es generalizing slots with
  | nil => simp
  | cons e es ih =>
      obtain ⟨key, sv⟩ := e
      cases hkey : keyField S c key with
      | none => simp [populate, hkey] at h
      | some f =>
          cases hsv : svToUpb S address f sv with
          | error err => simp [populate, hkey, hsv] at h
          | ok v =>
              simp only [populate, hkey, hsv] at h
              exact List.forall_mem_cons.mpr ⟨⟨f, v, hkey, hsv⟩, ih h⟩

section Entries

variable {c : String} {V : FieldDef → Option MessageValue} {es : List (HashKey × Sv)}
  (hmem : ∀ e ∈ es, ∃ f ∈ (S.descriptor c).fields, ∃ v, V f = some v ∧ e.1 = ⟨f.name, false⟩)
  (hexclusive : ∀ f ∈ (S.descriptor c).fields, ∀ g ∈ (S.descriptor c).fields, f ≠ g →
    areRivals (S.descriptor c) f g = true → V f = none ∨ V g = none)

include hmem in
/-- A field that is not set has no entry. -/
theorem find_entry_of_unset {h : FieldDef} (hh : h ∈ (S.descriptor c).fields) (hnone : V h = none) :
    Assoc.find es ⟨h.name, false⟩ = none := by
  rw [Assoc.find_eq_none_iff]
  intro hkey
  obtain ⟨e, he, hname⟩ := List.mem_map.mp hkey
  obtain ⟨f, hf, v, hv, hkey'⟩ := hmem e he
  rw [hkey'] at hname
  injection hname with hname
  rw [MessageDef.eq_of_name_eq hf hh hname, hnone] at hv
  cases hv

include hexclusive in
/-- The rivals of a set field are not set. -/
theorem rivals_unset {f : FieldDef} (hf : f ∈ (S.descriptor c).fields) {v : MessageValue}
    (hv : V f = some v) {h : FieldDef} (hh : h ∈ (S.descriptor c).fields) (hne : h ≠ f)
    (hrival : areRivals (S.descriptor c) f h = true) : V h = none := by
  rcases hexclusive f hf h hh hne.symm hrival with hnone | hnone
  · rw [hv] at hnone
    cases hnone
  · exact hnone

include hmem hexclusive in
/-- A hash whose entries give their fields back, one for each set field, gives the
message back. -/
theorem populate_of_entries
    (hex : ∀ f ∈ (S.descriptor c).fields, ∀ v, V f = some v → ∃ sv, (⟨f.name, false⟩, sv) ∈ es)
    (hstored : ∀ f ∈ (S.descriptor c).fields, ∀ v, V f = some v → stored S c f v = some v)
    (hsv : ∀ f ∈ (S.descriptor c).fields, ∀ v sv, V f = some v → (⟨f.name, false⟩, sv) ∈ es →
      svToUpb S address f sv = .ok v) :
    populate S address c (newMessage S c) es = .ok ((S.descriptor c).fields.map V) := by
  have hentries : ∀ e ∈ es, ∃ f ∈ (S.descriptor c).fields, ∃ x, e.1 = ⟨f.name, false⟩ ∧
      svToUpb S address f e.2 = .ok x ∧ stored S c f x = V f ∧
      ∀ h ∈ (S.descriptor c).fields, h ≠ f → areRivals (S.descriptor c) f h = true →
        V h = none := by
    rintro ⟨key, sv⟩ he
    obtain ⟨f, hf, v, hv, rfl⟩ := hmem _ he
    exact ⟨f, hf, v, rfl, hsv f hf v sv hv he, by rw [hstored f hf v hv, hv],
      fun h hh => rivals_unset hexclusive hf hv hh⟩
  obtain ⟨g', hg', hvalues⟩ := populate_eq es (fun _ => none) hentries fun _ _ => .inl rfl
  rw [newMessage, hg']
  congr 1
  apply List.map_congr_left
  intro f hf
  rw [hvalues f hf]
  cases hv : V f with
  | none => simp
  | some v =>
      obtain ⟨sv, hmem⟩ := hex f hf v hv
      rw [if_pos (Assoc.mem_keys_of_mem hmem)]

include hmem hexclusive in
/-- A hash that gives the message back has no entry that does not give its field
back. -/
theorem entries_of_populate (hnd : (Assoc.keys es).Nodup)
    (hpopulate : populate S address c (newMessage S c) es = .ok ((S.descriptor c).fields.map V))
    {f : FieldDef} (hf : f ∈ (S.descriptor c).fields) {v : MessageValue} {sv : Sv}
    (hv : V f = some v) (hsv : (⟨f.name, false⟩, sv) ∈ es) : svToUpb S address f sv = .ok v := by
  -- what each field got, whatever that is
  let W (h : FieldDef) : Option MessageValue :=
    match Assoc.find es ⟨h.name, false⟩ with
    | none => none
    | some sv =>
        match svToUpb S address h sv with
        | .ok x => stored S c h x
        | .error _ => none
  have hW : ∀ h ∈ (S.descriptor c).fields, ∀ sv, (⟨h.name, false⟩, sv) ∈ es →
      ∃ x, svToUpb S address h sv = .ok x ∧ stored S c h x = W h := by
    intro h hh sv hsv
    obtain ⟨h', x, hkey, hx⟩ := populate_ok_mem hpopulate _ hsv
    rw [keyField_name hh] at hkey
    obtain rfl := Option.some.inj hkey
    exact ⟨x, hx, by simp only [W, Assoc.find_of_mem hnd hsv, hx]⟩
  have hentries : ∀ e ∈ es, ∃ f ∈ (S.descriptor c).fields, ∃ x, e.1 = ⟨f.name, false⟩ ∧
      svToUpb S address f e.2 = .ok x ∧ stored S c f x = W f ∧
      ∀ h ∈ (S.descriptor c).fields, h ≠ f → areRivals (S.descriptor c) f h = true →
        W h = none := by
    rintro ⟨key, sv⟩ he
    obtain ⟨f, hf, v, hv, rfl⟩ := hmem _ he
    obtain ⟨x, hx, hstoredx⟩ := hW f hf sv he
    refine ⟨f, hf, x, rfl, hx, hstoredx, fun h hh hne hrival => ?_⟩
    have hnone := rivals_unset hexclusive hf hv hh hne hrival
    simp only [W, find_entry_of_unset hmem hh hnone]
  -- the two descriptions of the message agree at `f`, which is set
  obtain ⟨g', hg', hvalues⟩ := populate_eq es (fun _ => none) hentries fun _ _ => .inl rfl
  rw [newMessage, hg'] at hpopulate
  have hslots := List.map_inj_left.mp (Except.ok.inj hpopulate) f hf
  rw [hvalues f hf, if_pos (Assoc.mem_keys_of_mem hsv), hv] at hslots
  obtain ⟨x, hx, hstoredx⟩ := hW f hf sv hsv
  rw [hslots, stored] at hstoredx
  split at hstoredx
  · rw [hx, Option.some.inj hstoredx]
  · cases hstoredx

include hmem hexclusive in
/-- A hash with one entry for each set field gives the message back exactly if each
entry gives its field back. -/
theorem populate_iff
    (hex : ∀ f ∈ (S.descriptor c).fields, ∀ v, V f = some v → ∃ sv, (⟨f.name, false⟩, sv) ∈ es)
    (hnd : (Assoc.keys es).Nodup)
    (hstored : ∀ f ∈ (S.descriptor c).fields, ∀ v, V f = some v → stored S c f v = some v) :
    populate S address c (newMessage S c) es = .ok ((S.descriptor c).fields.map V) ↔
      ∀ f ∈ (S.descriptor c).fields, ∀ v sv, V f = some v → (⟨f.name, false⟩, sv) ∈ es →
        svToUpb S address f sv = .ok v := by
  constructor
  · intro hpopulate f hf v sv hv hsv
    exact entries_of_populate hmem hexclusive hnd hpopulate hf hv hsv
  · exact populate_of_entries hmem hexclusive hex hstored

end Entries

/-! ### Whole values -/

/-- What comes back when it is the value of a field. -/
def Restores (v : MessageValue) : Prop :=
  (∀ q, v = .float (.fin q) → |q| ≠ FloatFormat.single.max) ∧ Restorable v

theorem restorable_msg {c : String} {slots : List (Option MessageValue)} {rest : PerlStr} :
    Restorable (.msg c slots rest) ↔ rest = [] ∧ ∀ v, some v ∈ slots → Restores v := by
  constructor
  · intro h
    obtain ⟨hrest, hfloat⟩ := h c slots rest .refl
    refine ⟨hrest, fun v hv => ⟨?_, fun c' slots' rest' hw => h c' slots' rest' (.slot hv hw)⟩⟩
    rintro q rfl
    exact hfloat q hv
  · rintro ⟨hrest, hslots⟩ c' slots' rest' hw
    rcases within_msg.mp hw with heq | ⟨v, hv, hu⟩
    · obtain ⟨rfl, rfl, rfl⟩ := MessageValue.msg.inj heq
      exact ⟨hrest, fun q hq => (hslots _ hq).1 q rfl⟩
    · exact (hslots v hv).2 c' slots' rest' hu

theorem restorable_array {items : List MessageValue} :
    Restorable (.array items) ↔ ∀ v ∈ items, Restorable v := by
  constructor
  · intro h v hv c slots rest hw
    exact h c slots rest (.item hv hw)
  · intro h c slots rest hw
    rcases within_array.mp hw with heq | ⟨v, hv, hu⟩
    · cases heq
    · exact h v hv c slots rest hu

theorem restorable_scalar {v : MessageValue} (hv : v.isScalar = true) : Restorable v := by
  intro c slots rest hw
  rw [within_scalar hv] at hw
  subst hw
  cases hv

theorem restores_of_not_scalar {v : MessageValue} (hv : v.isScalar = false) :
    Restores v ↔ Restorable v := by
  refine and_iff_right ?_
  rintro q rfl
  cases hv

theorem AllFinite.slot {c : String} {slots : List (Option MessageValue)} {rest : PerlStr}
    {v : MessageValue} (h : AllFinite (.msg c slots rest)) (hv : some v ∈ slots) : AllFinite v :=
  fun w hw => h w (hw.imp (.slot hv) (.slot hv))

theorem AllFinite.item {items : List MessageValue} {v : MessageValue}
    (h : AllFinite (.array items)) (hv : v ∈ items) : AllFinite v :=
  fun w hw => h w (hw.imp (.item hv) (.item hv))

theorem convertSingular_hash {f : FieldDef} {c : String} (htype : f.type = .message c)
    (es : List (HashKey × Sv)) :
    convertSingular S address f (.hash es) =
      (populate S address c (newMessage S c) es).map fun slots => .msg c slots [] := by
  simp only [convertSingular, convertSingularWith, htype]

theorem svToUpb_singular {f : FieldDef} (hshape : f.shape S.toPool = .singular) {sv : Sv}
    (hsv : sv ≠ .scalar .undef) :
    svToUpb S address f sv = convertSingular S address f sv := by
  cases sv with
  | scalar x =>
      cases x with
      | undef => exact absurd rfl hsv
      | _ => simp only [svToUpb, svToUpbWith, convertSingular, hshape]
  | array xs =>
      simp only [svToUpb, svToUpbWith, convertSingular, hshape]
  | _ => simp only [svToUpb, svToUpbWith, convertSingular, hshape]

theorem mem_zip_map {V : FieldDef → Option MessageValue} {fs : List FieldDef} {f : FieldDef}
    (hf : f ∈ fs) : (f, V f) ∈ fs.zip (fs.map V) := by
  induction fs with
  | nil => cases hf
  | cons g fs ih =>
      rw [List.map_cons, List.zip_cons_cons]
      rcases List.mem_cons.mp hf with rfl | hf
      · exact List.mem_cons_self
      · exact List.mem_cons_of_mem _ (ih hf)

/-- A message comes back if nothing but its fields is in it and they all come back. -/
theorem populate_restores {c : String} {slots : List (Option MessageValue)} {rest : PerlStr}
    {es shown : List (HashKey × Sv)}
    (htyped : Typed S Text (.single (.message c)) (.msg c slots rest)) (hperm : es.Perm shown)
    (hshows : ShowsSlots S (S.descriptor c).fields slots shown)
    (hvalues : ∀ v, some v ∈ slots → ∀ f ∈ (S.descriptor c).fields, ∀ sv,
      Typed S Text (valueType S.toPool f) v → Shows S (valueType S.toPool f) v sv →
      (svToUpb S address f sv = .ok v ↔ Restores v)) :
    (populate S address c (newMessage S c) es).map (fun slots => MessageValue.msg c slots []) =
        .ok (.msg c slots rest) ↔
      Restorable (.msg c slots rest) := by
  simp only [Typed, true_and] at htyped
  obtain ⟨hexclusive, hslots⟩ := htyped
  have hnames := (S.descriptor c).names_nodup
  obtain ⟨V, rfl⟩ := exists_slotFunction (List.Nodup.of_map _ hnames) (typedSlots_length hslots)
  have hmem := fun e he => showsSlots_mem hshows e (hperm.mem_iff.mp he)
  -- each set field has one entry, so that all is restored if each of them is
  have hpopulate :
      populate S address c (newMessage S c) es = .ok ((S.descriptor c).fields.map V) ↔
        ∀ f ∈ (S.descriptor c).fields, ∀ v sv, V f = some v → (⟨f.name, false⟩, sv) ∈ es →
          svToUpb S address f sv = .ok v := by
    apply populate_iff
    · intro e he
      obtain ⟨f, hf, v, hv, hkey, -⟩ := hmem e he
      exact ⟨f, hf, v, hv, hkey⟩
    · exact fun f hf g hg => hexclusive _ (mem_zip_map hf) _ (mem_zip_map hg)
    · intro f hf v hv
      obtain ⟨sv, hsv⟩ := showsSlots_exists hshows hf hv
      exact ⟨sv, hperm.mem_iff.mpr hsv⟩
    · exact (hperm.map Prod.fst).nodup_iff.mpr (showsSlots_nodup hshows hnames)
    · exact fun f hf v hv => (typedSlots_map hslots hf hv).1
  have hfield : ∀ f ∈ (S.descriptor c).fields, ∀ v sv, V f = some v →
      (⟨f.name, false⟩, sv) ∈ es → (svToUpb S address f sv = .ok v ↔ Restores v) := by
    intro f hf v sv hv hsv
    obtain ⟨f', hf', v', hv', hkey, hshow⟩ := hmem _ hsv
    injection hkey with hname
    obtain rfl := MessageDef.eq_of_name_eq hf hf' hname
    obtain rfl : v = v' := Option.some.inj (hv.symm.trans hv')
    exact hvalues v (List.mem_map.mpr ⟨f, hf, hv⟩) f hf sv (typedSlots_map hslots hf hv).2 hshow
  rw [restorable_msg, map_eq_ok]
  constructor
  · rintro ⟨slots', hok, hmsg⟩
    obtain ⟨-, rfl, rfl⟩ := MessageValue.msg.inj hmsg
    refine ⟨rfl, fun v hv => ?_⟩
    obtain ⟨f, hf, hv⟩ := List.mem_map.mp hv
    obtain ⟨sv, hsv⟩ := showsSlots_exists hshows hf hv
    have hsv' := hperm.mem_iff.mpr hsv
    exact (hfield f hf v sv hv hsv').mp (hpopulate.mp hok f hf v sv hv hsv')
  · rintro ⟨rfl, hall⟩
    refine ⟨_, hpopulate.mpr fun f hf v sv hv hsv => ?_, rfl⟩
    exact (hfield f hf v sv hv hsv).mpr (hall v (List.mem_map.mpr ⟨f, hf, hv⟩))

theorem valueType_single {f : FieldDef} {t : FieldType} (h : valueType S.toPool f = .single t) :
    f.shape S.toPool = .singular ∧ f.type = t := by
  unfold valueType at h
  cases hshape : f.shape S.toPool with
  | singular => exact ⟨rfl, by simpa [hshape] using h⟩
  | repeated => simp [hshape] at h
  | map c =>
      simp only [hshape] at h
      split at h <;> cases h

theorem valueType_array {f : FieldDef} {t : FieldType} (h : valueType S.toPool f = .array t) :
    f.shape S.toPool = .repeated ∧ f.type = t := by
  unfold valueType at h
  cases hshape : f.shape S.toPool with
  | singular => simp [hshape] at h
  | repeated => exact ⟨rfl, by simpa [hshape] using h⟩
  | map c =>
      obtain ⟨k, v, hfields⟩ := mapFields_of_mapEntry (FieldDef.shape_map hshape).2
      simp [hshape, hfields] at h

theorem showsItems_iff {t : FieldType} {items : List MessageValue} {svs : List Sv} :
    ShowsItems S t items svs ↔ List.Forall₂ (Shows S (.single t)) items svs := by
  induction items generalizing svs with
  | nil => cases svs <;> simp [ShowsItems]
  | cons v vs ih => cases svs <;> simp [ShowsItems, ih]

theorem convertItems_eq_ok {f : FieldDef} {svs : List Sv} {vs : List MessageValue} :
    convertItems S address f svs = .ok vs ↔
      List.Forall₂ (fun v sv => convertSingular S address f sv = .ok v) vs svs := by
  induction svs generalizing vs with
  | nil => cases vs <;> simp [convertItems]
  | cons sv svs ih =>
      cases hsv : convertSingular S address f sv with
      | error e => cases vs <;> simp [convertItems, hsv]
      | ok v =>
          simp only [convertItems, hsv, map_eq_ok, ih]
          cases vs with
          | nil => simp
          | cons w ws =>
              simp only [List.cons.injEq, List.forall₂_cons, Except.ok.injEq, hsv]
              constructor
              · rintro ⟨ws', hws, rfl, rfl⟩
                exact ⟨rfl, hws⟩
              · rintro ⟨rfl, hws⟩
                exact ⟨ws, hws, rfl, rfl⟩

theorem convertSingular_element {f : FieldDef} {v : MessageValue} (hv : v.isScalar = true)
    (h : Typed S Text (.single f.type) v) (hfinite : AllFinite v) :
    convertSingular S address f (.scalar (perlScalar f.type v)) = .ok v ↔ Restores v := by
  have hconvert : convertSingular S address f (.scalar (perlScalar f.type v)) =
      convertScalar f (perlScalar f.type v) := by
    simp only [convertSingular, convertSingularWith]
    cases ht : f.type with
    | message c =>
        have hmember := member_of_typed h
        rw [ht] at hmember
        cases v <;> cases hmember
        cases hv
    | _ => rfl
  rw [hconvert, convertScalar_perlScalar hv h hfinite]
  exact (and_iff_left (restorable_scalar hv)).symm

theorem forall₂_iff {α β : Type} {P Q : α → β → Prop} {R : α → Prop} {xs : List α} {ys : List β}
    (h : List.Forall₂ P xs ys) (hiff : ∀ x ∈ xs, ∀ y, P x y → (Q x y ↔ R x)) :
    List.Forall₂ Q xs ys ↔ ∀ x ∈ xs, R x := by
  induction h with
  | nil => simp
  | cons hxy hrest ih =>
      simp only [List.forall_mem_cons] at hiff
      rw [List.forall₂_cons, List.forall_mem_cons, hiff.1 _ hxy, ih hiff.2]

theorem isScalar_of_typed {t : FieldType} {v : MessageValue} (h : Typed S Text (.single t) v)
    (ht : typeMember t ≠ .msg) : v.isScalar = true := by
  rw [← member_of_typed h] at ht
  cases v with
  | msg c slots rest => exact absurd rfl ht
  | array items => simp [Typed] at h
  | map entries => simp [Typed] at h
  | _ => rfl

/-- What shows the elements of an array of scalars. -/
theorem shown_scalars {t : FieldType} {items : List MessageValue} {svs : List Sv}
    (hscalar : ∀ v ∈ items, v.isScalar = true)
    (hshows : List.Forall₂ (Shows S (.single t)) items svs) :
    svs = (items.map (perlScalar t)).map .scalar := by
  rw [List.map_map]
  induction hshows with
  | nil => rfl
  | cons hshow _ ih =>
      simp only [List.forall_mem_cons] at hscalar
      obtain ⟨t', hty, rfl⟩ := (shows_scalar hscalar.1).mp hshow
      obtain rfl := ValueType.single.inj hty
      rw [List.map_cons, ih hscalar.2]
      rfl

/-- A batch takes the elements back without looking at them. -/
theorem svToUpb_shown_batch {f : FieldDef} {items : List MessageValue} {svs : List Sv}
    (hshape : f.shape S.toPool = .repeated) (hbatch : isBatch f.type = true)
    (hitems : ∀ v ∈ items, Typed S Text (.single f.type) v)
    (hscalar : ∀ v ∈ items, v.isScalar = true)
    (hshows : List.Forall₂ (Shows S (.single f.type)) items svs) :
    svToUpb S address f (.array svs) = .ok (.array items) := by
  have hback : (items.map (perlScalar f.type)).map (batchOne f.type) = items := by
    calc (items.map (perlScalar f.type)).map (batchOne f.type)
        = items.map (batchOne f.type ∘ perlScalar f.type) := List.map_map
      _ = items.map id :=
          List.map_congr_left fun v hv => batchOne_perlScalar (hitems v hv) hbatch
      _ = items := List.map_id items
  rw [shown_scalars hscalar hshows,
    svToUpb_batch S address (label_of_shape (S := S) (by simp [hshape])) hbatch, hback]

/-- A message element comes back as the value of a singular field does. -/
theorem convertSingular_message {f : FieldDef} {c : String} (hc : f.type = .message c)
    {v : MessageValue} (htyped : Typed S Text (.single f.type) v) {sv : Sv}
    (hshow : Shows S (.single f.type) v sv) :
    ∃ g, valueType S.toPool g = .single f.type ∧
      convertSingular S address f sv = svToUpb S address g sv := by
  have hsv : ∃ es, sv = .hash es := by
    obtain ⟨slots, rest, rfl⟩ := eq_message_of_typed (hc ▸ htyped)
    simp only [Shows] at hshow
    obtain ⟨-, es, -, rfl, -⟩ := hshow
    exact ⟨es, rfl⟩
  obtain ⟨es, rfl⟩ := hsv
  let g : FieldDef := ⟨[], 1, .message c, .optional⟩
  have hg : g.shape S.toPool = .singular := FieldDef.shape_singular_of_optional rfl
  refine ⟨g, by rw [valueType, hg, hc], ?_⟩
  rw [svToUpb_singular hg (by simp), convertSingular_hash hc, convertSingular_hash rfl]

/-- The elements of an array come back one by one, or in a batch that does not look
at them. -/
theorem restores_items {f : FieldDef} {items : List MessageValue} {svs : List Sv}
    (hshape : f.shape S.toPool = .repeated) (hitems : ∀ v ∈ items, Typed S Text (.single f.type) v)
    (hfinite : AllFinite (.array items))
    (hshows : List.Forall₂ (Shows S (.single f.type)) items svs)
    (hvalues : ∀ v ∈ items, ∀ g sv, valueType S.toPool g = .single f.type →
      Shows S (.single f.type) v sv → (svToUpb S address g sv = .ok v ↔ Restores v)) :
    svToUpb S address f (.array svs) = .ok (.array items) ↔ Restorable (.array items) := by
  rw [restorable_array]
  by_cases hbatch : isBatch f.type = true
  · have hscalar : ∀ v ∈ items, v.isScalar = true := fun v hv =>
      isScalar_of_typed (hitems v hv) (by cases ht : f.type <;> simp_all [isBatch, typeMember])
    exact iff_of_true (svToUpb_shown_batch hshape hbatch hitems hscalar hshows)
      fun v hv => restorable_scalar (hscalar v hv)
  · have harray : svToUpb S address f (.array svs) =
        (convertItems S address f svs).map .array := by
      simp [svToUpb, svToUpbWith, hshape, hbatch]
    have hconvert : svToUpb S address f (.array svs) = .ok (.array items) ↔
        convertItems S address f svs = .ok items := by
      rw [harray, map_eq_ok]
      simp
    rw [hconvert, convertItems_eq_ok]
    apply forall₂_iff hshows
    intro v hv sv hshow
    cases hscalar : v.isScalar with
    | true =>
        obtain ⟨t, hty, rfl⟩ := (shows_scalar hscalar).mp hshow
        obtain rfl := ValueType.single.inj hty
        rw [convertSingular_element hscalar (hitems v hv) (hfinite.item hv)]
        -- `float` fields are batched, so no element is at their limit
        refine and_iff_right ?_
        rintro q rfl
        have hmember := member_of_typed (hitems _ hv)
        cases ht : f.type <;> simp_all [isBatch, typeMember, MessageValue.member]
    | false =>
        have hmessage : ∃ c, f.type = .message c := by
          cases ht : f.type with
          | message c => exact ⟨c, rfl⟩
          | _ =>
              have h := isScalar_of_typed (hitems v hv) (by simp [ht, typeMember])
              rw [hscalar] at h
              cases h
        obtain ⟨c, hc⟩ := hmessage
        obtain ⟨g, hg, hsame⟩ := convertSingular_message hc (hitems v hv) hshow
        rw [hsame, hvalues v hv g sv hg hshow, restores_of_not_scalar hscalar]

/-- A value comes back from whatever shows it, unless something in it does not. -/
theorem restores_iff (v : MessageValue) :
    ∀ ty, Typed S Text ty v → AllFinite v → Readable S v → v.member ≠ .map →
      ∀ f sv, valueType S.toPool f = ty → Shows S ty v sv →
        (svToUpb S address f sv = .ok v ↔ Restores v) := by
  -- the value below a field is restored through its own field, so the field varies
  induction v using MessageValue.inductionOn with
  | scalar v hv =>
      intro ty htyped hfinite _ _ f sv hty hshows
      obtain ⟨t, rfl, rfl⟩ := (shows_scalar hv).mp hshows
      obtain ⟨hshape, rfl⟩ := valueType_single hty
      rw [svToUpb_singular hshape (by simpa using perlScalar_ne_undef hv),
        convertSingular_element hv htyped hfinite]
  | msg c slots rest ih =>
      intro ty htyped hfinite hreadable _ f sv hty hshows
      simp only [Shows] at hshows
      obtain ⟨rfl, es, shown, rfl, hperm, hshows⟩ := hshows
      obtain ⟨hshape, htype⟩ := valueType_single hty
      obtain ⟨hfields, hslots⟩ := readable_msg.mp hreadable
      rw [svToUpb_singular hshape (by simp), convertSingular_hash htype,
        restores_of_not_scalar rfl]
      apply populate_restores htyped hperm hshows
      intro v hv g hg sv hgv hshow
      exact ih v hv _ hgv (hfinite.slot hv) (hslots v hv) (member_of_valueType (hfields g hg).1 hgv)
        g sv rfl hshow
  | array items ih =>
      intro ty htyped hfinite hreadable _ f sv hty hshows
      simp only [Shows] at hshows
      obtain ⟨t, svs, rfl, rfl, hshows⟩ := hshows
      obtain ⟨hshape, rfl⟩ := valueType_array hty
      simp only [Typed, ValueType.array.injEq] at htyped
      obtain ⟨_, rfl, hitems⟩ := htyped
      rw [typedItems_iff] at hitems
      rw [readable_array] at hreadable
      rw [restores_of_not_scalar rfl]
      apply restores_items hshape hitems hfinite (showsItems_iff.mp hshows)
      intro v hv g sv hg hshow
      have hmap : v.member ≠ .map := by
        rw [member_of_typed (hitems v hv)]
        cases f.type <;> simp [typeMember]
      exact ih v hv _ (hitems v hv) (hfinite.item hv) (hreadable v hv) hmap g sv hg hshow
  | map entries ih =>
      intro _ _ _ _ hmap
      exact absurd rfl hmap

end

/-! ### The round trip -/

/-- The round trip through Perl works exactly for messages that can be read at all
and, their numbers being finite, hold nothing that is dropped or refused. -/
theorem roundTrips_iff (S : DefPool) (address : Sv → ℕ) (m : HeldMessage S) :
    RoundTrips S address m ↔ Readable S m.value ∧ (AllFinite m.value → Restorable m.value) := by
  have hmap : m.value.member ≠ .map := by simp [HeldMessage.value, MessageValue.member]
  have hrestores : Restores m.value ↔ Restorable m.value := restores_of_not_scalar rfl
  constructor
  · rintro ⟨sv, hsv, hshows, hback⟩
    have hreadable := readable_of_shown m.value _ sv m.typed hmap hsv
    refine ⟨hreadable, fun hfinite => ?_⟩
    let f : FieldDef := ⟨[], 1, .message m.cls, .optional⟩
    have hf : valueType S.toPool f = .single (.message m.cls) := rfl
    rw [← hrestores, ← restores_iff m.value _ m.typed hfinite hreadable hmap f sv hf hshows]
    exact hback hfinite f sv rfl (by simp [f]) hshows
  · rintro ⟨hreadable, hrestorable⟩
    obtain ⟨sv, hsv, hshows⟩ := shown_of_readable m.value _ m.typed hmap hreadable
    refine ⟨sv, hsv, hshows, fun hfinite f sv' htype hlabel hshows' => ?_⟩
    have hf : valueType S.toPool f = .single (.message m.cls) := by
      have hshape : f.shape S.toPool = .singular := by
        by_contra hne
        exact hlabel (label_of_shape hne)
      rw [valueType, hshape, htype]
    rw [restores_iff m.value _ m.typed hfinite hreadable hmap f sv' hf hshows', hrestores]
    exact hrestorable hfinite

/-- A message type with the one field `map<string, int32> counts`. -/
def countsPool : DefPool where
  descriptor := fun c =>
    if c = "M" then { fields := [counts] }
    else { fields := entryFields .string .int32
           mapEntry := true
           entry_shape := fun _ => ⟨_, _, rfl, rfl⟩ }
  hasPresence := fun _ _ => false
  not_repeated_of_hasPresence := not_repeated_of_noPresence
  name_ne_zero := by
    intro c
    split <;> decide

/-- With no entries. -/
def noCounts : HeldMessage countsPool where
  cls := "M"
  slots := [none]
  rest := []
  typed := by
    simp only [Typed, true_and]
    refine ⟨?_, ?_⟩
    · intro a ha b hb hne
      simp [countsPool] at ha hb
      simp [ha, hb] at hne
    · simp [countsPool, TypedSlots]

/-- The absent map is asked for its length as an array. -/
theorem roundTrips_fails : ¬ RoundTrips countsPool (fun _ => 0) noCounts := by
  rintro ⟨sv, hsv, -⟩
  have hmisread : valueToSv countsPool (.single (.message noCounts.cls)) noCounts.value =
      .error .misread := rfl
  rw [hmisread] at hsv
  cases hsv

end GooglePerl.Xs
