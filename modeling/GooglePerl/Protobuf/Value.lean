import GooglePerl.Lib.Assoc
import GooglePerl.Lib.Decimal

/-!
Perl values as the pure-Perl engine stores them.

Strings are lists of code points, so that an octet string and a string with
wide characters are values of one type. Integers come in two kinds: a native
scalar and a `Math::BigInt` object; they compare alike but only the second is
a reference. A double or a float is kept as the octets `pack` makes of it.
-/

namespace GooglePerl.Protobuf

open GooglePerl.Lib

/-- A Perl string: the code points of its characters. -/
abbrev PerlStr := List ℕ

instance : LawfulBEq PerlStr := inferInstance

/-- The Perl string of a literal. -/
def ps (s : String) : PerlStr := s.toList.map Char.toNat

/-- A string of octets. -/
def IsOctets (s : PerlStr) : Prop := ∀ c ∈ s, c < 256

instance (s : PerlStr) : Decidable (IsOctets s) := inferInstanceAs (Decidable (∀ c ∈ s, c < 256))

/-- Run-time errors the interpreter raises by itself, and the three places
where the model stops short of the interpreter. -/
inductive Fault where
  /-- a method called on something that has no such method -/
  | noMethod (name : String)
  /-- dereferencing something that is not a reference of the right kind -/
  | notReference
  /-- `chr` or `pack` of a NaN -/
  | nan
  /-- the code would convert to or from floating point here -/
  | floating
  /-- the code would use the address or the internals of an object here -/
  | internals
  /-- the recursion budget of the model is used up -/
  | outOfFuel
  deriving DecidableEq, Repr

/-- Why a call died. -/
inductive Die where
  | croak (text : PerlStr)
  | fault (what : Fault)
  deriving DecidableEq, Repr

/-- The arrays that occur as values: a caller's own, a repeated field's
(`Protobuf::Internal::Repeated::Public`), and one that is moreover tied and
checks what is pushed on it. -/
inductive ArrKind where
  | plain
  | blessed
  | tied
  deriving DecidableEq, Repr

inductive Val where
  | undef
  /-- a native integer -/
  | iv (n : ℤ)
  /-- a `Math::BigInt` object -/
  | big (n : ℤ)
  /-- a floating-point number, as its packed little-endian octets -/
  | nv (packed : PerlStr)
  | str (s : PerlStr)
  | arr (kind : ArrKind) (items : List Val)
  /-- a hash, in iteration order -/
  | hash (entries : List (PerlStr × Val))
  /-- a message object: class, `_fields`, `_unknown_fields` -/
  | msg (cls : String) (fields : List (PerlStr × Val)) (unknown : Option PerlStr)

/-- A message object on its own. -/
structure Msg where
  cls : String
  fields : List (PerlStr × Val)
  unknown : Option PerlStr

namespace Msg

def toVal (m : Msg) : Val := .msg m.cls m.fields m.unknown

/-- `create_message`: an object with an empty `_fields`. -/
def create (cls : String) : Msg := ⟨cls, [], none⟩

@[simp] theorem create_cls (cls : String) : (create cls).cls = cls := rfl
@[simp] theorem create_fields (cls : String) : (create cls).fields = [] := rfl
@[simp] theorem create_unknown (cls : String) : (create cls).unknown = none := rfl

end Msg

/-- Induction over a value: a container is proved from its elements. -/
theorem Val.induct {P : Val → Prop} (undef : P .undef) (iv : ∀ n, P (.iv n))
    (big : ∀ n, P (.big n)) (nv : ∀ p, P (.nv p)) (str : ∀ s, P (.str s))
    (arr : ∀ a xs, (∀ x ∈ xs, P x) → P (.arr a xs))
    (hash : ∀ es, (∀ k v, (k, v) ∈ es → P v) → P (.hash es))
    (msg : ∀ c fs u, (∀ k v, (k, v) ∈ fs → P v) → P (.msg c fs u)) (v : Val) : P v := by
  refine @Val.rec P (fun xs => ∀ x ∈ xs, P x) (fun es => ∀ k v, (k, v) ∈ es → P v)
    (fun p => P p.2) undef iv big nv str arr hash msg ?_ ?_ ?_ ?_ ?_ v
  · intro x hx
    cases hx
  · intro x xs hx hxs y hy
    rcases List.mem_cons.mp hy with rfl | hy
    · exact hx
    · exact hxs y hy
  · intro k w hw
    cases hw
  · intro p es hp hes k w hw
    rcases List.mem_cons.mp hw with rfl | hw
    · exact hp
    · exact hes k w hw
  · intro k w hw
    exact hw

/-! ### Conversions -/

/-- String conversion, as in interpolation and hash keys. -/
def Val.stringify : Val → Except Die PerlStr
  | .undef => .ok []
  | .iv n => .ok (decimalText n)
  | .big n => .ok (decimalText n)
  | .str s => .ok s
  | .nv _ => .error (.fault .floating)
  | .arr _ _ | .hash _ | .msg _ _ _ => .error (.fault .internals)

/-- `Math::BigInt->new`: `none` is a NaN. Of the notations for numbers only
signed decimal is read; the text of a reference is never a number. -/
def Val.bigInt : Val → Except Die (Option ℤ)
  | .undef => .ok (some 0)
  | .iv n => .ok (some n)
  | .big n => .ok (some n)
  | .str s => .ok (readDecimal s)
  | .nv _ => .error (.fault .floating)
  | .arr _ _ | .hash _ | .msg _ _ _ => .ok none

/-- Perl's notion of truth, which `||=` tests. -/
def Val.truthy : Val → Bool
  | .undef => false
  | .iv n | .big n => n != 0
  | .nv p => !(p.dropLast.all (· == 0) && (p.getLast? == some 0 || p.getLast? == some 128))
  | .str s => !(s == [] || s == ps "0")
  | .arr _ _ | .hash _ | .msg _ _ _ => true

def Val.isDefined : Val → Bool
  | .undef => false
  | _ => true

/-- A repeated or map field without elements. -/
def Val.isEmptyContainer : Val → Bool
  | .arr _ [] => true
  | .hash [] => true
  | _ => false

/-! ### Content

What a value says, apart from how it is stored: integers as numbers, hashes
and field tables as functions of the key, a container field without elements
as a field that is not set, missing unknown-field bytes as none. -/

inductive Content where
  | undef
  | num (n : ℤ)
  | nv (packed : PerlStr)
  | str (s : PerlStr)
  | arr (items : List Content)
  | hash (entry : PerlStr → Option Content)
  | msg (cls : String) (field : PerlStr → Option Content) (unknown : PerlStr)

mutual

def Val.content : Val → Content
  | .undef => .undef
  | .iv n => .num n
  | .big n => .num n
  | .nv p => .nv p
  | .str s => .str s
  | .arr _ xs => .arr (contentList xs)
  | .hash es => .hash (Assoc.find (contentEntries es))
  | .msg c fs u => .msg c
      (fun name =>
        if (Assoc.find fs name).any Val.isEmptyContainer then none
        else Assoc.find (contentEntries fs) name)
      (u.getD [])

def contentList : List Val → List Content
  | [] => []
  | x :: xs => x.content :: contentList xs

def contentEntries : List (PerlStr × Val) → List (PerlStr × Content)
  | [] => []
  | (k, v) :: es => (k, v.content) :: contentEntries es

end

section

attribute [local simp] Val.content contentList contentEntries

theorem contentList_eq_map (xs : List Val) : contentList xs = xs.map Val.content := by
  induction xs with
  | nil => rfl
  | cons x xs ih => simp [ih]

theorem contentEntries_eq_map (es : List (PerlStr × Val)) :
    contentEntries es = es.map fun p => (p.1, p.2.content) := by
  induction es with
  | nil => rfl
  | cons p es ih =>
      obtain ⟨k, v⟩ := p
      simp [ih]

theorem find_contentEntries (es : List (PerlStr × Val)) (k : PerlStr) :
    Assoc.find (contentEntries es) k = (Assoc.find es k).map Val.content := by
  rw [contentEntries_eq_map, Assoc.find_map]

/-- What a message says about one of its fields. -/
def fieldContent (fs : List (PerlStr × Val)) (name : PerlStr) : Option Content :=
  if (Assoc.find fs name).any Val.isEmptyContainer then none
  else (Assoc.find fs name).map Val.content

@[simp] theorem content_iv (n : ℤ) : (Val.iv n).content = .num n := by rw [Val.content]
@[simp] theorem content_big (n : ℤ) : (Val.big n).content = .num n := by rw [Val.content]
@[simp] theorem content_nv (p : PerlStr) : (Val.nv p).content = .nv p := by rw [Val.content]
@[simp] theorem content_str (s : PerlStr) : (Val.str s).content = .str s := by rw [Val.content]

@[simp] theorem content_arr (k : ArrKind) (xs : List Val) :
    (Val.arr k xs).content = .arr (xs.map Val.content) := by
  rw [Val.content, contentList_eq_map]

@[simp] theorem content_hash (es : List (PerlStr × Val)) :
    (Val.hash es).content = .hash fun k => (Assoc.find es k).map Val.content := by
  rw [Val.content]
  congr 1
  funext k
  exact find_contentEntries es k

@[simp] theorem content_msg (c : String) (fs : List (PerlStr × Val)) (u : Option PerlStr) :
    (Val.msg c fs u).content = .msg c (fieldContent fs) (u.getD []) := by
  rw [Val.content]
  congr 1
  funext name
  rw [fieldContent, find_contentEntries]

end

/-- What a message says about a field that holds `v`. -/
def Val.setContent (v : Val) : Option Content :=
  if v.isEmptyContainer then none else some v.content

theorem fieldContent_eq (fs : List (PerlStr × Val)) (name : PerlStr) :
    fieldContent fs name = (Assoc.find fs name).bind Val.setContent := by
  unfold fieldContent Val.setContent
  cases Assoc.find fs name with
  | none => rfl
  | some v => simp

/-- The content shows whether a container is empty. -/
theorem isEmptyContainer_congr {v w : Val} (h : v.content = w.content) :
    v.isEmptyContainer = w.isEmptyContainer := by
  have hash_ne_nil : ∀ (k : PerlStr) (x : Val) (es : List (PerlStr × Val)),
      (Val.hash []).content ≠ (Val.hash ((k, x) :: es)).content := by
    intro k x es heq
    simp only [content_hash, Content.hash.injEq] at heq
    simpa [Assoc.find_cons] using congrFun heq k
  cases v with
  | arr _ xs =>
      cases w with
      | arr _ ys =>
          simp only [content_arr, Content.arr.injEq] at h
          have hlen : xs.length = ys.length := by simpa using congrArg List.length h
          cases xs <;> cases ys <;> simp_all [Val.isEmptyContainer]
      | _ => simp [Val.content] at h
  | hash es =>
      cases w with
      | hash es' =>
          cases es with
          | nil =>
              cases es' with
              | nil => rfl
              | cons p es' => exact absurd h (hash_ne_nil p.1 p.2 es')
          | cons p es =>
              cases es' with
              | nil => exact absurd h.symm (hash_ne_nil p.1 p.2 es)
              | cons p' es' => rfl
      | _ => simp [Val.content] at h
  | _ => cases w <;> simp_all [Val.content, Val.isEmptyContainer]

theorem setContent_congr {v w : Val} (h : v.content = w.content) : v.setContent = w.setContent := by
  rw [Val.setContent, Val.setContent, h, isEmptyContainer_congr h]

theorem setContent_arr_inj (kind kind' : ArrKind) {xs ys : List Val} :
    (Val.arr kind xs).setContent = (Val.arr kind' ys).setContent ↔
      xs.map Val.content = ys.map Val.content := by
  cases xs <;> cases ys <;> simp [Val.setContent, Val.isEmptyContainer]

def Msg.content (m : Msg) : Content := m.toVal.content

theorem Msg.content_eq (m : Msg) :
    m.content = .msg m.cls (fieldContent m.fields) (m.unknown.getD []) :=
  content_msg _ _ _

end GooglePerl.Protobuf
