import Mathlib.Data.List.Basic
import GooglePerl.Protobuf.MalformedDescriptors

/-!
Encodings that are made of length-delimited fields, and the least length they have.

`Fields` says what a text decodes to as such fields, with varints of any length; it is a function
of the text (`Fields.unique`). A field takes at least two octets more than it carries, and three
more where its length does not fit seven bits, so a text that is shorter than its fields need
does not decode to them (`Fields.weight_le`).
-/

namespace GooglePerl.Protobuf

open GooglePerl.Lib

/-- The numbers and the contents of the fields of a text. -/
inductive Fields : PerlStr → List (ℕ × PerlStr) → Prop where
  | nil : Fields [] []
  | cons {number : ℕ} {key len body rest : PerlStr} {fields : List (ℕ × PerlStr)}
      (hkey : IsKey key number 2) (hlen : IsVarint len) (hlength : body.length = groupsValue len)
      (hrest : Fields rest fields) :
      Fields (key ++ (len ++ (body ++ rest))) ((number, body) :: fields)

/-- The contents of the fields with a number. -/
def contents (number : ℕ) (fields : List (ℕ × PerlStr)) : List PerlStr :=
  (fields.filter fun f => f.1 = number).map Prod.snd

/-- The last of them, or else the empty string. -/
def lastContent (number : ℕ) (fields : List (ℕ × PerlStr)) : PerlStr :=
  (contents number fields).getLast?.getD []

/-! ### One decoding -/

theorem Fields.unique {text : PerlStr} {fields fields' : List (ℕ × PerlStr)}
    (h : Fields text fields) (h' : Fields text fields') : fields = fields' := by
  induction h generalizing fields' with
  | nil =>
      generalize htext : ([] : PerlStr) = text at h'
      cases h' with
      | nil => rfl
      | cons hkey => exact absurd (List.append_eq_nil_iff.mp htext.symm).1 hkey.varint.ne_nil
  | @cons number key len body rest fields hkey hlen hlength hrest ih =>
      generalize htext : key ++ (len ++ (body ++ rest)) = text at h'
      cases h' with
      | nil => exact absurd (List.append_eq_nil_iff.mp htext).1 hkey.varint.ne_nil
      | @cons number' key' len' body' rest' fields' hkey' hlen' hlength' hrest' =>
          obtain ⟨rfl, htail⟩ := hkey.varint.append_inj hkey'.varint htext
          obtain ⟨rfl, hbody⟩ := hlen.append_inj hlen' htail
          obtain ⟨rfl, rfl⟩ := List.append_inj hbody (hlength.trans hlength'.symm)
          have hvalue := hkey.value
          have hvalue' := hkey'.value
          obtain rfl : number = number' := by omega
          rw [ih hrest']

/-! ### Short fields -/

theorem isVarint_of_lt {n : ℕ} (h : n < 128) : IsVarint [n] ∧ groupsValue [n] = n := by
  refine ⟨⟨?_, by simp⟩, ?_⟩
  · simp [isGroups, and_128_of_lt h]
  · simp [groupsValue, and_127, Nat.mod_eq_of_lt h]

theorem Fields.cons_short {number : ℕ} {body rest : PerlStr} {fields : List (ℕ × PerlStr)}
    (hpos : 0 < number) (hnumber : number < 16) (hlength : body.length < 128)
    (hrest : Fields rest fields) :
    Fields ((8 * number + 2) :: body.length :: (body ++ rest)) ((number, body) :: fields) := by
  obtain ⟨hkey, hvalue⟩ := isVarint_of_lt (n := 8 * number + 2) (by omega)
  obtain ⟨hlen, hsize⟩ := isVarint_of_lt hlength
  exact .cons ⟨hkey, hvalue, by decide, hpos, by omega⟩ hlen hsize.symm hrest

/-! ### The least length -/

/-- The least length of a field with this content. -/
def fieldWeight (content : PerlStr) : ℕ := (if content.length < 128 then 2 else 3) + content.length

theorem fieldWeight_ge (content : PerlStr) : content.length + 2 ≤ fieldWeight content := by
  rw [fieldWeight]
  split <;> omega

theorem length_lt_of_fieldWeight_le {content : PerlStr}
    (h : fieldWeight content ≤ content.length + 2) : content.length < 128 := by
  by_contra hlong
  rw [fieldWeight, if_neg hlong] at h
  omega

def weight : List (ℕ × PerlStr) → ℕ
  | [] => 0
  | f :: fields => fieldWeight f.2 + weight fields

theorem IsVarint.length_ge {s : PerlStr} (h : IsVarint s) :
    (if groupsValue s < 128 then 1 else 2) ≤ s.length := by
  cases s with
  | nil => exact absurd rfl h.ne_nil
  | cons b s =>
      cases s with
      | nil =>
          have hsmall : groupsValue [b] < 128 := by
            rw [groupsValue, groupsValue, and_127]
            omega
          rw [if_pos hsmall]
          exact le_rfl
      | cons c s =>
          simp only [List.length_cons]
          split <;> omega

theorem Fields.weight_le {text : PerlStr} {fields : List (ℕ × PerlStr)} (h : Fields text fields) :
    weight fields ≤ text.length := by
  induction h with
  | nil => exact le_rfl
  | @cons number key len body rest fields hkey hlen hlength hrest ih =>
      have hpos := List.length_pos_iff.mpr hkey.varint.ne_nil
      have hsize := hlen.length_ge
      rw [← hlength] at hsize
      rw [weight, fieldWeight]
      simp only [List.length_append]
      split at hsize <;> rename_i hlt
      · rw [if_pos hlt]
        omega
      · rw [if_neg hlt]
        omega

theorem weight_erase {fields : List (ℕ × PerlStr)} {f : ℕ × PerlStr} (h : f ∈ fields) :
    weight fields = fieldWeight f.2 + weight (fields.erase f) := by
  induction fields with
  | nil => exact absurd h List.not_mem_nil
  | cons g fields ih =>
      by_cases hg : g = f
      · rw [hg, List.erase_cons_head, weight]
      · have hmem := (List.mem_cons.mp h).resolve_left fun heq => hg heq.symm
        rw [List.erase_cons_tail (by simpa using hg), weight, weight, ih hmem]
        omega

/-- Different fields of a text weigh no more than all. -/
theorem weight_le_of_nodup {picks fields : List (ℕ × PerlStr)} (hnd : picks.Nodup)
    (h : ∀ f ∈ picks, f ∈ fields) : weight picks ≤ weight fields := by
  induction picks generalizing fields with
  | nil => exact Nat.zero_le _
  | cons f picks ih =>
      obtain ⟨hnot, hnd⟩ := List.nodup_cons.mp hnd
      have hrest : weight picks ≤ weight (fields.erase f) := by
        refine ih hnd fun g hg => ?_
        have hne : g ≠ f := fun heq => hnot (heq ▸ hg)
        exact (List.mem_erase_of_ne hne).mpr (h g (List.mem_cons_of_mem f hg))
      rw [weight, weight_erase (h f List.mem_cons_self)]
      omega

theorem mem_of_contents {number : ℕ} {fields : List (ℕ × PerlStr)} {content : PerlStr}
    (h : content ∈ contents number fields) : (number, content) ∈ fields := by
  obtain ⟨f, hf, rfl⟩ := List.mem_map.mp h
  obtain ⟨hmem, hnumber⟩ := List.mem_filter.mp hf
  rwa [← of_decide_eq_true hnumber]

theorem mem_of_lastContent {number : ℕ} {fields : List (ℕ × PerlStr)}
    (h : lastContent number fields ≠ []) : (number, lastContent number fields) ∈ fields := by
  cases hlast : (contents number fields).getLast? with
  | none =>
      rw [lastContent, hlast] at h
      exact absurd rfl h
  | some content =>
      rw [lastContent, hlast, Option.getD_some]
      exact mem_of_contents (List.mem_of_getLast? hlast)

end GooglePerl.Protobuf
