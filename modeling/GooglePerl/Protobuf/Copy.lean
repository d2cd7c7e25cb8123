import GooglePerl.Protobuf.Merge
import GooglePerl.Protobuf.RoundTrip
import GooglePerl.Xs.Message

/-!
`copy_from` of both engines, on a store of message objects.

The store says what each object holds, so that copying an object to itself is
a case like any other.
-/

namespace GooglePerl.Protobuf

open GooglePerl.Lib

/-! ### A clone serializes alike -/

theorem isDefined_deepClone (v : Val) : (deepClone v).isDefined = v.isDefined := by
  cases v with
  | arr kind xs => cases kind <;> rfl
  | _ => rfl

theorem missingRequired_clone (d : MessageDef) {fs gs : List (PerlStr × Val)}
    (h : ∀ name, Assoc.find gs name = (Assoc.find fs name).map deepClone) :
    missingRequired d gs = missingRequired d fs := by
  unfold missingRequired
  congr 2
  funext f
  rw [h]
  cases Assoc.find fs f.name with
  | none => rfl
  | some v => simp [isDefined_deepClone]

/-- A table of clones serializes alike, if each value does. -/
theorem serialize_clone {S : Pool} {cls : String} {fs gs : List (PerlStr × Val)}
    (u : Option PerlStr) (h : ∀ name, Assoc.find gs name = (Assoc.find fs name).map deepClone)
    (hvalue : ∀ f name v, Assoc.find fs name = some v →
      serializeField S f (deepClone v) = serializeField S f v) :
    serialize S ⟨cls, gs, u⟩ = serialize S ⟨cls, fs, u⟩ := by
  have hloop :
      (fun f : FieldDef => ((Assoc.find gs f.name).map (serializeField S f)).getD (.ok [])) =
      fun f => ((Assoc.find fs f.name).map (serializeField S f)).getD (.ok []) := by
    funext f
    rw [h]
    cases hv : Assoc.find fs f.name with
    | none => rfl
    | some v => simp [hvalue f f.name v hv]
  rw [serialize_eq, serialize_eq]
  simp only [missingRequired_clone _ h, hloop]

theorem encodeItems_deepClone {S : Pool} (number : ℕ) (t : FieldType) {xs : List Val}
    (h : ∀ x ∈ xs, encodePayload S t (deepClone x) = encodePayload S t x) :
    encodeItems S number t (deepCloneList xs) = encodeItems S number t xs := by
  induction xs with
  | nil => rfl
  | cons x xs ih =>
      rw [deepCloneList, encodeItems, encodeItems, h x List.mem_cons_self,
        ih fun y hy => h y (List.mem_cons_of_mem _ hy)]

theorem encodeEntries_deepClone {S : Pool} (number : ℕ) (kt vt : FieldType)
    {es : List (PerlStr × Val)}
    (h : ∀ k v, (k, v) ∈ es → encodePayload S vt (deepClone v) = encodePayload S vt v) :
    encodeEntries S number kt vt (deepCloneEntries es) = encodeEntries S number kt vt es := by
  induction es with
  | nil => rfl
  | cons p es ih =>
      obtain ⟨k, v⟩ := p
      rw [deepCloneEntries, encodeEntries, encodeEntries, h k v List.mem_cons_self,
        ih fun k' v' hmem => h k' v' (List.mem_cons_of_mem _ hmem)]

theorem encodeScalar_arr (t : FieldType) (kind kind' : ArrKind) (xs ys : List Val) :
    encodeScalar t (.arr kind xs) = encodeScalar t (.arr kind' ys) := by
  cases t <;> rfl

theorem encodeScalar_hash (t : FieldType) (es es' : List (PerlStr × Val)) :
    encodeScalar t (.hash es) = encodeScalar t (.hash es') := by
  cases t <;> rfl

theorem encodeScalar_msg (t : FieldType) (c c' : String) (fs fs' : List (PerlStr × Val))
    (u u' : Option PerlStr) : encodeScalar t (.msg c fs u) = encodeScalar t (.msg c' fs' u') := by
  cases t <;> rfl

/-- A clone is written as its original is. -/
theorem encode_deepClone (S : Pool) (v : Val) :
    (∀ t, encodePayload S t (deepClone v) = encodePayload S t v) ∧
      ∀ f, serializeField S f (deepClone v) = serializeField S f v := by
  -- a payload and a field are proved together: each asks the other of the values below
  induction v using Val.induct with
  | undef => exact ⟨fun _ => rfl, fun _ => rfl⟩
  | iv n => exact ⟨fun _ => rfl, fun _ => rfl⟩
  | big n => exact ⟨fun _ => rfl, fun _ => rfl⟩
  | nv p => exact ⟨fun _ => rfl, fun _ => rfl⟩
  | str s => exact ⟨fun _ => rfl, fun _ => rfl⟩
  | arr kind xs ih =>
      obtain ⟨kind', hclone⟩ :
          ∃ kind', deepClone (.arr kind xs) = .arr kind' (deepCloneList xs) := by
        cases kind <;> exact ⟨_, rfl⟩
      have hpayload : ∀ t, encodePayload S t (.arr kind' (deepCloneList xs)) =
          encodePayload S t (.arr kind xs) := by
        intro t
        simp only [encodePayload]
        exact encodeScalar_arr t _ _ _ _
      rw [hclone]
      refine ⟨hpayload, fun f => ?_⟩
      simp only [serializeField]
      cases f.shape S with
      | singular => simp only [hpayload]
      | repeated => exact encodeItems_deepClone f.number f.type fun x hx => (ih x hx).1 f.type
      | map c => rfl
  | hash es ih =>
      have hpayload : ∀ t, encodePayload S t (.hash (deepCloneEntries es)) =
          encodePayload S t (.hash es) := by
        intro t
        simp only [encodePayload]
        exact encodeScalar_hash t _ _
      rw [deepClone]
      refine ⟨hpayload, fun f => ?_⟩
      simp only [serializeField]
      cases f.shape S with
      | singular => simp only [hpayload]
      | repeated => rfl
      | map c =>
          simp only
          split
          · rename_i kd vd _ _
            exact encodeEntries_deepClone f.number kd.type vd.type
              fun k x hx => (ih k x hx).1 vd.type
          · rfl
  | msg c fs u ih =>
      have hser : serialize S ⟨c, deepCloneEntries fs, u⟩ = serialize S ⟨c, fs, u⟩ :=
        serialize_clone u (find_deepCloneEntries fs) fun f name v hv =>
          (ih name v (Assoc.mem_of_find hv)).2 f
      have hpayload : ∀ t, encodePayload S t (.msg c (deepCloneEntries fs) u) =
          encodePayload S t (.msg c fs u) := by
        intro t
        cases t with
        | message c' => rw [encodePayload_msg, encodePayload_msg, hser]
        | _ =>
            simp only [encodePayload]
            exact encodeScalar_msg _ _ _ _ _ _ _
      rw [deepClone]
      refine ⟨hpayload, fun f => ?_⟩
      simp only [serializeField]
      cases f.shape S with
      | singular => simp only [hpayload]
      | repeated => rfl
      | map c => rfl

/-! ### Copying -/

/-- `copy_from` of the pure-Perl engine: a new table for the destination first,
then what the source holds by then. -/
def copyFrom (h : ℕ → Msg) (dst src : ℕ) : ℕ → Msg :=
  let cleared := Function.update h dst { h dst with fields := [] }
  Function.update cleared dst
    { cleared dst with fields := mergeEntries (cleared src).fields [] }

theorem copyFrom_ne (h : ℕ → Msg) {dst src : ℕ} (hne : src ≠ dst) :
    copyFrom h dst src = Function.update h dst (copy (h dst) (h src)) := by
  simp [copyFrom, copy, Function.update_of_ne hne]

theorem copyFrom_self (h : ℕ → Msg) (r : ℕ) :
    copyFrom h r r = Function.update h r (copySelf (h r)) := by
  simp [copyFrom, copySelf, mergeEntries]

/-- A copy makes an equal message, which serializes to the same bytes, and leaves
the source alone. The two are compared with their hashes in the same order. -/
def CopyOk (S : Pool) (h : ℕ → Msg) (dst src : ℕ) : Prop :=
  (copyFrom h dst src dst).cls = (h src).cls ∧
    serialize S (copyFrom h dst src dst) = serialize S (h src) ∧ copyFrom h dst src src = h src

theorem serialize_copy (S : Pool) {dst src : Msg} (hcls : dst.cls = src.cls)
    (hnd : (Assoc.keys src.fields).Nodup) :
    serialize S (copy dst src) = serialize S ⟨src.cls, src.fields, dst.unknown⟩ := by
  rw [copy, hcls]
  refine serialize_clone dst.unknown ?_ fun f _ v _ => (encode_deepClone S v).2 f
  intro name
  rw [find_mergeEntries hnd]
  simp

theorem map_append_eq_iff (r : Except Die PerlStr) (a b : PerlStr) :
    r.map (· ++ a) = r.map (· ++ b) ↔ a = b ∨ ∀ bytes, r.map (· ++ b) ≠ .ok bytes := by
  cases r with
  | error e => simp [Except.map]
  | ok p => simp [Except.map]

theorem copyOk_iff (S : Pool) {h : ℕ → Msg} (hnd : ∀ r, (Assoc.keys (h r).fields).Nodup)
    (dst src : ℕ) :
    CopyOk S h dst src ↔
      if src = dst then (h dst).fields = []
      else (h dst).cls = (h src).cls ∧
        ((h dst).unknown.getD [] = (h src).unknown.getD [] ∨
          ∀ bytes, serialize S (h src) ≠ .ok bytes) := by
  unfold CopyOk
  split
  · rename_i hself
    subst hself
    simp only [copyFrom_self, Function.update_self]
    constructor
    · rintro ⟨-, -, hsame⟩
      rw [← hsame]
      rfl
    · intro hempty
      have hsame : copySelf (h src) = h src := by rw [copySelf, ← hempty]
      exact ⟨rfl, by rw [hsame], hsame⟩
  · rename_i hne
    rw [copyFrom_ne h hne, Function.update_self, Function.update_of_ne hne]
    have hcls : (copy (h dst) (h src)).cls = (h dst).cls := rfl
    rw [hcls]
    constructor
    · rintro ⟨hsame, hser, -⟩
      refine ⟨hsame, ?_⟩
      -- the fields are written alike, so only what the unknown bytes add can differ
      rw [serialize_copy S hsame (hnd src), serialize_unknown,
        serialize_unknown S (h src).cls (h src).fields (h src).unknown] at hser
      rw [serialize_unknown S (h src).cls (h src).fields (h src).unknown]
      exact (map_append_eq_iff _ _ _).mp hser
    · rintro ⟨hsame, hunknown⟩
      refine ⟨hsame, ?_, rfl⟩
      rw [serialize_unknown S (h src).cls (h src).fields (h src).unknown] at hunknown ⊢
      rw [serialize_copy S hsame (hnd src), serialize_unknown]
      exact (map_append_eq_iff _ _ _).mpr hunknown

/-- Two message types without fields: a message holds its unknown bytes. -/
def bareUpb : Xs.Upb where
  Def := Bool
  Data := PerlStr
  empty := []
  encode _ x := some x
  decode _ bytes x := (true, x ++ bytes)

theorem bareUpb_lawful : bareUpb.Lawful where
  encode_empty _ := rfl
  decode_nil _ x := congrArg (Prod.mk true) (List.append_nil x)
  decode_encode _ x bytes hx := by
    obtain rfl := Option.some.inj hx
    exact ⟨x, rfl, rfl⟩

/-- Two objects of each engine, the second to be copied to the first. -/
def twoNamed (r : ℕ) : Msg :=
  if r = 0 then ⟨"Simple", [(ps "name", .str (ps "a"))], none⟩
  else ⟨"Simple", [(ps "name", .str (ps "b"))], none⟩

def twoBare (r : ℕ) : Xs.Object bareUpb := ⟨true, if r = 0 then [8, 1] else [16, 1]⟩

theorem twoNamed_nodup (r : ℕ) : (Assoc.keys (twoNamed r).fields).Nodup := by
  unfold twoNamed
  split <;> exact List.nodup_singleton _

end GooglePerl.Protobuf
