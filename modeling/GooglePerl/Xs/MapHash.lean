import GooglePerl.Lib.Run
import GooglePerl.Xs.MapCopy

/-!
The tie interface of a map field: `Internal/Map.xs.part` and `Internal/Map.pm` over
`xs/map/map.c` and `xs/map/iterator.c`.

`Hash` is what such a map is for: a hash under the texts of the keys, which knows of a key only the
text that the key field makes of it, and of a value only what the value field makes of it. Any
sequence of calls gets the same replies from the map and from that hash (`call_refines`).
-/

namespace GooglePerl.Xs.MapHash

open GooglePerl.Lib GooglePerl.Protobuf GooglePerl.Xs.MapCopy

/-! ### The calls -/

/-- Scalars that a Perl program can pass: an `IV` has 64 bits. -/
def Fits : Scalar → Prop
  | .iv n => -2 ^ 63 ≤ n ∧ n < 2 ^ 63
  | _ => True

/-- A scalar that is passed as a key. -/
abbrev Key := { x : Scalar // Fits x }

inductive Call where
  | fetch (key : Key)
  | store (key : Key) (value : Sv)
  | existsKey (key : Key)
  | delete (key : Key)
  | clear
  | scalar
  /-- `FIRSTKEY`, and `NEXTKEY` until there is none -/
  | keys
  | asHash

/-- What a call gives back. The order of the keys is not promised. -/
inductive Reply where
  | item (sv : Sv)
  | yesNo (b : Bool)
  | size (n : ℤ)
  | keys (keys : Multiset PerlStr)
  | hash (entries : Multiset (PerlStr × Sv))
  | done
  | died

section

variable (S : DefPool) (address : Sv → ℕ) (t : MapType)

/-- `PerlUpb_Map_Exists`: a key that is not taken croaks in the conversion. -/
def mapExists (entries : Entries) (key : Scalar) : Except Fault Bool :=
  (convertScalar t.key key).map fun x => (mapGet x entries).isSome

/-- `PerlUpb_Map_SetItem`: the key is converted first. -/
def setItem (entries : Entries) (key : Scalar) (value : Sv) : Except Fault Entries :=
  match convertScalar t.key key with
  | .error f => .error f
  | .ok x => (convertSingular S address t.val value).map fun y => mapSet x y entries

/-- `upb_Map_Delete` -/
def mapDelete (x : MessageValue) (entries : Entries) : Entries :=
  entries.eraseP fun e => x.sameKey e.1

/-- `PerlUpb_Map_DeleteItem` -/
def deleteItem (entries : Entries) (key : Scalar) : Except Fault Entries :=
  (convertScalar t.key key).map fun x => mapDelete x entries

/-- A map behind its tie, with the iterator of `FIRSTKEY`. -/
structure MapObject where
  entries : Entries
  /-- `_iter`, by its place -/
  iter : Option ℕ

/-- `PerlUpb_Map_Iterator_NextKey` -/
def iteratorNextKey (entries : Entries) (place : ℕ) : Option Scalar × ℕ :=
  match entries[place]? with
  | some e => (some (perlScalar t.key.type e.1), place + 1)
  | none => (none, place)

/-- `FIRSTKEY` -/
def firstKey (m : MapObject) : Option Scalar × MapObject :=
  let (key, place) := iteratorNextKey t m.entries 0
  (key, { m with iter := some place })

/-- `NEXTKEY`: the iterator goes with the last key. -/
def nextKey (m : MapObject) : Option Scalar × MapObject :=
  match m.iter with
  | none => (none, m)
  | some place =>
      let (key, place) := iteratorNextKey t m.entries place
      (key, { m with iter := if key.isSome then some place else none })

/-- What `keys` does with a tied hash, behind the first key; it is done before the fuel is. -/
def keysFrom : ℕ → Option Scalar × MapObject → List Scalar × MapObject
  | _, (none, m) => ([], m)
  | 0, (some _, m) => ([], m)
  | fuel + 1, (some key, m) =>
      let (keys, m) := keysFrom fuel (nextKey t m)
      (key :: keys, m)

def keys (m : MapObject) : List Scalar × MapObject := keysFrom t (m.entries.length + 1) (firstKey t m)

/-- `DELETE` fetches the value before it deletes the entry. -/
def delete (entries : Entries) (key : Scalar) : Except Fault (Entries × Sv) :=
  match fetch t entries key with
  | .error f => .error f
  | .ok sv => (deleteItem t entries key).map fun entries => (entries, sv)

/-- The glue of `Internal/Map.xs.part`; a call that croaks leaves the map as it is. -/
def call (m : MapObject) : Call → MapObject × Reply
  | .fetch key =>
      match fetch t m.entries key.1 with
      | .ok sv => (m, .item sv)
      | .error _ => (m, .died)
  | .store key value =>
      match setItem S address t m.entries key.1 value with
      | .ok entries => ({ m with entries := entries }, .done)
      | .error _ => (m, .died)
  | .existsKey key =>
      match mapExists t m.entries key.1 with
      | .ok b => (m, .yesNo b)
      | .error _ => (m, .died)
  | .delete key =>
      match delete t m.entries key.1 with
      | .ok (entries, sv) => ({ m with entries := entries }, .item sv)
      | .error _ => (m, .died)
  | .clear => ({ m with entries := [] }, .done)
  | .scalar => (m, .size (toInt32 m.entries.length))
  | .keys =>
      let (keys, m) := keys t m
      (m, .keys (keys.map fun key => (hashKey key).text))
  | .asHash =>
      match asHash t m.entries with
      | .ok hash => (m, .hash (hash.map fun e => (e.1.text, e.2)))
      | .error _ => (m, .died)

end

/-! ### What a map is for -/

/-- A hash under the texts of its keys. -/
abbrev Hash := List (PerlStr × Sv)

/-- A hash that files a key under the name that it is given, and a value as it is held, or dies. -/
def Hash.call (name : Key → Option PerlStr) (held : Sv → Option Sv) (h : Hash) :
    Call → Hash × Reply
  | .fetch key =>
      match name key with
      | some n => (h, .item ((Assoc.find h n).getD (.scalar .undef)))
      | none => (h, .died)
  | .store key value =>
      match name key, held value with
      | some n, some v => (Assoc.store h n v, .done)
      | _, _ => (h, .died)
  | .existsKey key =>
      match name key with
      | some n => (h, .yesNo (Assoc.find h n).isSome)
      | none => (h, .died)
  | .delete key =>
      match name key with
      | some n => (Assoc.delete h n, .item ((Assoc.find h n).getD (.scalar .undef)))
      | none => (h, .died)
  | .clear => ([], .done)
  | .scalar => (h, .size (toInt32 h.length))
  | .keys => (h, .keys (Assoc.keys h))
  | .asHash => (h, .hash h)

section

variable (S : DefPool) (address : Sv → ℕ) (t : MapType)

/-- The name of a key: the text of what the key field makes of it. -/
def name (key : Key) : Option PerlStr :=
  (convertScalar t.key key.1).toOption.map (keyText t.key.type)

/-- What is fetched of a value that was stored. -/
def held (value : Sv) : Option Sv :=
  (convertSingular S address t.val value).toOption.map (itemSv t.val.type)

end

/-! ### Keys -/

section

variable {S : DefPool} {t : MapType}

theorem svToI64_range {x : Scalar} (h : Fits x) : -2 ^ 63 ≤ x.svToI64 ∧ x.svToI64 < 2 ^ 63 := by
  have hcast : ∀ v, -2 ^ 63 ≤ castInt64 v ∧ castInt64 v < 2 ^ 63 := by
    intro v
    unfold castInt64
    split
    · split <;> omega
    · omega
  have hbmod : ∀ n : ℤ, -2 ^ 63 ≤ n.bmod (2 ^ 64) ∧ n.bmod (2 ^ 64) < 2 ^ 63 := by
    intro n
    have hlo := Int.le_bmod (x := n) (m := 2 ^ 64) (by norm_num)
    have hhi := Int.bmod_lt (x := n) (m := 2 ^ 64) (by norm_num)
    omega
  cases x with
  | iv n => exact h
  | str pv utf8 => exact svToI64_text_range pv utf8
  | uv n =>
      have hvalue : (Scalar.uv n).svToI64 = Int.bmod n (2 ^ 64) := by
        have hiok : (Scalar.uv n).iok = true := rfl
        rw [Scalar.svToI64, if_pos hiok, Scalar.svIV, Scalar.integer] <;> (intros; contradiction)
      exact hvalue ▸ hbmod n
  | yesNo b =>
      cases b with
      | false => exact (show (Scalar.yesNo false).svToI64 = 0 from rfl) ▸ by norm_num
      | true => exact (show (Scalar.yesNo true).svToI64 = 1 from rfl) ▸ by norm_num
  | big n =>
      simp only [Scalar.svToI64, Scalar.iok, Bool.false_eq_true, if_false]
      omega
  | undef | nv v | ref a =>
      simp only [Scalar.svToI64, Scalar.iok, Bool.false_eq_true, if_false]
      exact hcast _

/-- What a scalar is converted to is a key of the type. -/
theorem keyOf_key {f : FieldDef} {key : Key} {x : MessageValue} (hkey : isKeyType f.type = true)
    (h : convertScalar f key.1 = .ok x) : KeyOf S f.type x := by
  unfold convertScalar at h
  cases ht : f.type with
  | int32 | sint32 | sfixed32 =>
      rw [ht] at h
      obtain rfl := eq_of_checked (eq_of_guarded h)
      exact ⟨_, rfl, rfl, toInt32_range _⟩
  | uint32 | fixed32 =>
      rw [ht] at h
      obtain rfl := eq_of_checked (eq_of_guarded h)
      exact ⟨_, rfl, rfl, toUint32_range _⟩
  | int64 | sint64 | sfixed64 =>
      rw [ht] at h
      obtain rfl := eq_of_checked h
      exact ⟨_, rfl, rfl, svToI64_range key.2⟩
  | uint64 | fixed64 =>
      rw [ht] at h
      obtain rfl := eq_of_checked h
      exact ⟨_, rfl, rfl, svToU64_range _⟩
  | bool =>
      rw [ht] at h
      obtain rfl := Except.ok.inj h
      rfl
  | string =>
      rw [ht] at h
      obtain rfl := Except.ok.inj (eq_of_guarded h)
      exact .inr ⟨rfl, trivial⟩
  | double | float | bytes | message c | enum values =>
      rw [ht] at hkey
      cases hkey

/-- The text of a key is the name of that key. -/
theorem name_keyText {x : MessageValue} (h : KeyOf S t.key.type x) :
    name t ⟨.str (keyText t.key.type x) true, trivial⟩ = some (keyText t.key.type x) := by
  have hread := convertScalar_fileKey t.key_type h
  rw [convertScalar_text t.key_type (text_fileKey t.key_type h)] at hread
  rw [name]
  show Option.map _ (Except.toOption (convertScalar t.key (.str (keyText t.key.type x) true))) = _
  rw [keyText, hread]
  rfl

end

/-! ### The entries -/

section

variable {S : DefPool} {t : MapType}

/-- The map has the entries of the hash. -/
structure Holds (S : DefPool) (t : MapType) (m : MapObject) (h : Hash) : Prop where
  view_eq : view t m.entries = h
  key_of : ∀ e ∈ m.entries, KeyOf S t.key.type e.1
  nodup : (Assoc.keys h).Nodup

theorem keys_view (t : MapType) (entries : Entries) :
    Assoc.keys (view t entries) = entries.map fun e => keyText t.key.type e.1 := by
  rw [Assoc.keys, view, List.map_map]
  rfl

/-- The contents of a map with the entries of a hash. -/
def Holds.contents {m : MapObject} {h : Hash} (hm : Holds S t m h) : Contents S t where
  entries := m.entries
  key_of := hm.key_of
  distinct := by
    have hnodup := hm.nodup
    rw [← hm.view_eq, keys_view, List.Nodup, List.pairwise_map] at hnodup
    refine hnodup.imp_of_mem fun {a b} ha hb hne => ?_
    rw [← Bool.not_eq_true, sameKey_iff t.key_type (hm.key_of b hb) (hm.key_of a ha)]
    exact fun heq => hne (congrArg _ heq.symm)

theorem Contents.holds (c : Contents S t) (iter : Option ℕ) :
    Holds S t ⟨c.entries, iter⟩ (view t c.entries) := by
  refine ⟨rfl, c.key_of, ?_⟩
  rw [keys_view]
  exact c.nodup_keyText

theorem sameKey_eq_decide {x y : MessageValue} (hx : KeyOf S t.key.type x)
    (hy : KeyOf S t.key.type y) :
    x.sameKey y = decide (keyText t.key.type x = keyText t.key.type y) := by
  rw [Bool.eq_iff_iff, sameKey_iff t.key_type hx hy, decide_eq_true_iff]
  exact ⟨fun h => by rw [h], keyText_inj t.key_type hx hy⟩

theorem find_view {entries : Entries} (hkeys : ∀ e ∈ entries, KeyOf S t.key.type e.1)
    {x : MessageValue} (hx : KeyOf S t.key.type x) :
    Assoc.find (view t entries) (keyText t.key.type x) =
      (mapGet x entries).map (itemSv t.val.type) := by
  induction entries with
  | nil => rfl
  | cons e entries ih =>
      have hrest := ih fun d hd => hkeys d (List.mem_cons_of_mem _ hd)
      have hsame := sameKey_eq_decide hx (hkeys e List.mem_cons_self)
      simp only [mapGet] at hrest ⊢
      rw [view, List.map_cons, Assoc.find_cons, List.find?_cons, hsame]
      by_cases heq : keyText t.key.type x = keyText t.key.type e.1
      · rw [if_pos heq, decide_eq_true heq]
        rfl
      · rw [if_neg heq, decide_eq_false heq]
        exact hrest

/-- A hash has one entry at most to delete. -/
theorem delete_of_not_mem {α κ : Type} [DecidableEq κ] {h : List (κ × α)} {n : κ}
    (hn : n ∉ Assoc.keys h) : Assoc.delete h n = h := by
  induction h with
  | nil => rfl
  | cons e h ih =>
      rw [Assoc.mem_keys_cons, not_or] at hn
      rw [Assoc.delete, if_neg hn.1, ih hn.2]

theorem view_mapDelete {entries : Entries} (hkeys : ∀ e ∈ entries, KeyOf S t.key.type e.1)
    (hnodup : (Assoc.keys (view t entries)).Nodup) {x : MessageValue}
    (hx : KeyOf S t.key.type x) :
    view t (mapDelete x entries) = Assoc.delete (view t entries) (keyText t.key.type x) := by
  induction entries with
  | nil => rfl
  | cons e entries ih =>
      have hsame := sameKey_eq_decide hx (hkeys e List.mem_cons_self)
      have hnodup' := hnodup
      rw [keys_view, List.map_cons, List.nodup_cons, ← keys_view] at hnodup'
      have hrest := ih (fun d hd => hkeys d (List.mem_cons_of_mem _ hd)) hnodup'.2
      have hcons : view t (e :: entries) =
          (keyText t.key.type e.1, itemSv t.val.type e.2) :: view t entries := rfl
      rw [hcons, Assoc.delete, mapDelete]
      by_cases heq : keyText t.key.type x = keyText t.key.type e.1
      · rw [if_pos heq, List.eraseP_cons_of_pos (by simp [hsame, heq])]
        exact (delete_of_not_mem (heq ▸ hnodup'.1)).symm
      · rw [if_neg heq, List.eraseP_cons_of_neg (by simp [hsame, heq])]
        exact congrArg _ hrest

/-! ### The iterator -/

theorem nextKey_of_some (t : MapType) {entries : Entries} {place : ℕ}
    {e : MessageValue × MessageValue} (h : entries[place]? = some e) :
    nextKey t ⟨entries, some place⟩ =
      (some (perlScalar t.key.type e.1), ⟨entries, some (place + 1)⟩) := by
  simp [nextKey, iteratorNextKey, h]

theorem nextKey_of_none (t : MapType) {entries : Entries} {place : ℕ}
    (h : entries[place]? = none) : nextKey t ⟨entries, some place⟩ = (none, ⟨entries, none⟩) := by
  simp [nextKey, iteratorNextKey, h]

/-- From a place on the iterator gives each key once. -/
theorem keysFrom_eq (t : MapType) (before behind : Entries) (fuel : ℕ)
    (hfuel : behind.length < fuel) :
    keysFrom t fuel (nextKey t ⟨before ++ behind, some before.length⟩) =
      (behind.map fun e => perlScalar t.key.type e.1, ⟨before ++ behind, none⟩) := by
  induction behind generalizing before fuel with
  | nil => rw [nextKey_of_none t (by simp), keysFrom, List.map_nil]
  | cons e behind ih =>
      obtain ⟨fuel, rfl⟩ : ∃ n, fuel = n + 1 := ⟨fuel - 1, by omega⟩
      have hrest := ih (before ++ [e]) fuel (by simpa using hfuel)
      rw [List.append_assoc, List.singleton_append, List.length_append] at hrest
      rw [nextKey_of_some t (e := e) (by simp), keysFrom]
      exact congrArg (fun r => (perlScalar t.key.type e.1 :: r.1, r.2)) hrest

/-- `keys` gives each key once. -/
theorem keys_eq (t : MapType) (m : MapObject) :
    ∃ iter, keys t m = (m.entries.map fun e => perlScalar t.key.type e.1, ⟨m.entries, iter⟩) := by
  obtain ⟨entries, iter⟩ := m
  cases entries with
  | nil => exact ⟨some 0, rfl⟩
  | cons e entries =>
      refine ⟨none, ?_⟩
      rw [keys]
      exact congrArg (fun r => (perlScalar t.key.type e.1 :: r.1, r.2))
        (keysFrom_eq t [e] entries (e :: entries).length (by simp))

/-! ### The map is the hash -/

section

variable (address : Sv → ℕ)

theorem Holds.of_entries {m m' : MapObject} {h : Hash} (hm : Holds S t m h)
    (hsame : m'.entries = m.entries) : Holds S t m' h :=
  ⟨hsame ▸ hm.view_eq, hsame ▸ hm.key_of, hm.nodup⟩

/-- What is fetched is what the hash has under the name of the key. -/
theorem Holds.fetch {m : MapObject} {h : Hash} (hm : Holds S t m h) {key : Key} {x : MessageValue}
    (hx : convertScalar t.key key.1 = .ok x) :
    fetch t m.entries key.1 =
      .ok ((Assoc.find h (keyText t.key.type x)).getD (.scalar .undef)) := by
  rw [MapCopy.fetch, hx, ← hm.view_eq, find_view hm.key_of (keyOf_key t.key_type hx)]
  rfl

theorem Holds.store {m : MapObject} {h : Hash} (hm : Holds S t m h) {x : MessageValue}
    (hx : KeyOf S t.key.type x) (y : MessageValue) :
    Holds S t { m with entries := mapSet x y m.entries }
      (Assoc.store h (keyText t.key.type x) (itemSv t.val.type y)) where
  view_eq := by rw [view_mapSet hm.key_of hx, hm.view_eq]
  key_of := keyOf_mapSet hm.key_of hx y
  nodup := Assoc.nodup_keys_store hm.nodup _ _

theorem Holds.delete {m : MapObject} {h : Hash} (hm : Holds S t m h) {x : MessageValue}
    (hx : KeyOf S t.key.type x) :
    Holds S t { m with entries := mapDelete x m.entries }
      (Assoc.delete h (keyText t.key.type x)) where
  view_eq := by rw [view_mapDelete hm.key_of (hm.view_eq ▸ hm.nodup) hx, hm.view_eq]
  key_of e he := hm.key_of e (List.mem_of_mem_eraseP he)
  nodup := by
    rw [Assoc.keys_delete]
    exact hm.nodup.filter _

/-- One call: the same reply, and the same entries behind it. -/
theorem call_holds {m : MapObject} {h : Hash} (hm : Holds S t m h) (c : Call) :
    Holds S t (call S address t m c).1 (h.call (name t) (held S address t) c).1 ∧
      (call S address t m c).2 = (h.call (name t) (held S address t) c).2 := by
  cases c with
  | fetch key =>
      cases hx : convertScalar t.key key.1 with
      | error f => simp [call, Hash.call, name, MapCopy.fetch, hx, Except.map, Except.toOption, hm]
      | ok x => simp [call, Hash.call, name, hm.fetch hx, hx, Except.toOption, hm]
  | store key value =>
      cases hx : convertScalar t.key key.1 with
      | error f => simp [call, Hash.call, name, setItem, hx, Except.toOption, hm]
      | ok x =>
          cases hy : convertSingular S address t.val value with
          | error f =>
              simp [call, Hash.call, name, held, setItem, hx, hy, Except.map, Except.toOption, hm]
          | ok y =>
              have hstore := hm.store (keyOf_key t.key_type hx) y
              simp [call, Hash.call, name, held, setItem, hx, hy, Except.map, Except.toOption,
                hstore]
  | existsKey key =>
      cases hx : convertScalar t.key key.1 with
      | error f => simp [call, Hash.call, name, mapExists, hx, Except.map, Except.toOption, hm]
      | ok x =>
          have hfind := find_view hm.key_of (keyOf_key t.key_type hx)
          rw [hm.view_eq] at hfind
          simp [call, Hash.call, name, mapExists, hx, Except.map, Except.toOption, hm, hfind]
  | delete key =>
      cases hx : convertScalar t.key key.1 with
      | error f =>
          simp [call, Hash.call, name, MapHash.delete, MapCopy.fetch, hx, Except.map,
            Except.toOption, hm]
      | ok x =>
          have hdelete := hm.delete (keyOf_key t.key_type hx)
          simp [call, Hash.call, name, MapHash.delete, deleteItem, hm.fetch hx, hx, Except.map,
            Except.toOption, hdelete]
  | clear => exact ⟨⟨rfl, fun e he => absurd he List.not_mem_nil, List.nodup_nil⟩, rfl⟩
  | scalar =>
      refine ⟨hm, ?_⟩
      have hlength : m.entries.length = h.length := by rw [← hm.view_eq, view, List.length_map]
      rw [call, Hash.call, hlength]
  | keys =>
      obtain ⟨iter, hkeys⟩ := keys_eq t m
      have hreply : (m.entries.map fun e => perlScalar t.key.type e.1).map
          (fun key => (hashKey key).text) = Assoc.keys h := by
        rw [List.map_map, ← hm.view_eq, keys_view]
        rfl
      rw [call, hkeys]
      exact ⟨hm.of_entries rfl, congrArg (fun l : List PerlStr => Reply.keys l) hreply⟩
  | asHash =>
      have hhash : asHash t m.entries = .ok (hashOf t m.entries) := asHash_eq hm.contents
      have hreply : (hashOf t m.entries).map (fun e => (e.1.text, e.2)) = h := by
        rw [hashOf, List.map_map, ← hm.view_eq]
        rfl
      rw [call, hhash]
      exact ⟨hm, congrArg (fun l : Hash => Reply.hash l) hreply⟩

/-- A map of the XS engine is a hash. Any sequence of calls gets from it the replies of a hash
under the names of the keys, has the entries of that hash behind it, and each of its keys is found
again under its text. -/
theorem call_refines (c : Contents S t) (iter : Option ℕ) (calls : List Call) :
    ∃ (m : MapObject) (replies : List Reply),
      run (logged (call S address t)) (⟨c.entries, iter⟩, []) calls = (m, replies) ∧
      run (logged (Hash.call (name t) (held S address t))) (view t c.entries, []) calls =
        (view t m.entries, replies) ∧
      ∀ n ∈ Assoc.keys (view t m.entries), name t ⟨.str n true, trivial⟩ = some n := by
  obtain ⟨hholds, hreplies⟩ := logged_simulation (Holds S t)
    (fun m h call hm _ => call_holds address hm call) (Contents.holds c iter)
    (fun call (_ : call ∈ calls) => trivial) []
  refine ⟨_, _, rfl, Prod.ext hholds.view_eq.symm hreplies.symm, fun n hn => ?_⟩
  rw [keys_view] at hn
  obtain ⟨e, he, rfl⟩ := List.mem_map.mp hn
  exact name_keyText (hholds.key_of e he)

end

end

end GooglePerl.Xs.MapHash
