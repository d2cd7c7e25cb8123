import GooglePerl.Lib.Assoc
import GooglePerl.Lib.Scan
import GooglePerl.Lib.Split
import GooglePerl.Protobuf.Value

/-!
`connect` of `DBD::Spanner` and `DBD::BigQuery`: what is taken from a DSN.

The parameters are split off at semicolons, the transport is looked for by a pattern of its own
that begins with a semicolon, and a Spanner DSN that begins with `projects/` is taken for a path
as a whole. So a transport is not seen in the first place, and a path with a transport keeps it
(`dsn_iff`).
-/

namespace GooglePerl.Dbd

open GooglePerl.Lib GooglePerl.Protobuf
open GooglePerl.Lib.Scan (Matcher literal andThen many1 findFirst)

/-! ### Letter case -/

/-- A letter of ASCII in lower case. -/
def lower (c : ℕ) : ℕ := if 65 ≤ c ∧ c ≤ 90 then c + 32 else c

/-- `lc`, and a character without its case, as `/i` compares it; of these only ASCII is fixed. -/
structure LetterCase where
  lc : PerlStr → PerlStr
  fold : ℕ → ℕ
  lc_ascii : ∀ s : PerlStr, (∀ c ∈ s, c < 128) → lc s = s.map lower
  fold_ascii : ∀ c < 128, fold c = lower c

variable (cls : LetterCase)

/-- A fixed word under `/i`. -/
def LetterCase.word : PerlStr → Matcher ℕ Unit
  | [], s => some ((), s)
  | _ :: _, [] => none
  | c :: w, x :: s => if cls.fold x = c then LetterCase.word w s else none

/-! ### The source -/

def truthy (s : PerlStr) : Bool := s ≠ [] && s ≠ ps "0"

/-- `split /=/, $pair, 2`, where there are both parts. -/
def splitPair (pair : PerlStr) : Option (PerlStr × PerlStr) :=
  if 61 ∈ pair then some (pair.takeWhile (· ≠ 61), (pair.dropWhile (· ≠ 61)).tail) else none

/-- `%dsn_params` -/
def dsnParams (dsn : PerlStr) : List (PerlStr × PerlStr) :=
  Assoc.assignAll [] (((splitFields 59 dsn).filterMap splitPair).map fun e => (cls.lc e.1, e.2))

/-- `/;transport=([^;]+)/i` -/
def transportPattern : Matcher ℕ PerlStr :=
  andThen (literal [59]) fun _ => andThen (cls.word (ps "transport")) fun _ =>
    andThen (literal [61]) fun _ => many1 (· ≠ 59)

/-- What comes instead of a transport in the DSN. -/
def defaultTransport (builtin : String) (env : Option PerlStr) : PerlStr :=
  match env with
  | some v => if truthy v then cls.lc v else ps builtin
  | none => ps builtin

/-- `$transport` -/
def transport (builtin : String) (env : Option PerlStr) (dsn : PerlStr) : PerlStr :=
  ((findFirst (transportPattern cls) dsn).map cls.lc).getD (defaultTransport cls builtin env)

/-- A value of `%dsn_params`. -/
def param (params : List (PerlStr × PerlStr)) (key : String) : PerlStr :=
  (Assoc.find params (ps key)).getD []

def databasePath (project inst database : PerlStr) : PerlStr :=
  ps "projects/" ++ project ++ ps "/instances/" ++ inst ++ ps "/databases/" ++ database

namespace Spanner

/-- What `connect` keeps in its handle. -/
structure Handle where
  name : PerlStr
  dbPath : PerlStr
  transport : PerlStr

/-- `/^projects\//i` -/
def isPath (dsn : PerlStr) : Bool :=
  (andThen (cls.word (ps "projects")) (fun _ => literal [47]) dsn).isSome

/-- `$dsn_params{'database_path'}`, or nothing -/
def dbPath (dsn : PerlStr) : PerlStr :=
  if isPath cls dsn then dsn
  else
    let params := dsnParams cls dsn
    if truthy (param params "project") ∧ truthy (param params "instance") ∧
        truthy (param params "database") then
      databasePath (param params "project") (param params "instance") (param params "database")
    else param params "database_path"

/-- `DBD::Spanner::dr::connect` -/
def connect (env : Option PerlStr) (dsn : PerlStr) : Handle where
  name := if truthy (dbPath cls dsn) then dbPath cls dsn else ps "Spanner"
  dbPath := if truthy (dbPath cls dsn) then dbPath cls dsn else []
  transport := transport cls "grpc" env dsn

end Spanner

namespace BigQuery

structure Handle where
  name : PerlStr
  project : PerlStr
  dataset : PerlStr
  transport : PerlStr

/-- `DBD::BigQuery::dr::connect` -/
def connect (env : Option PerlStr) (dsn : PerlStr) : Handle :=
  let params := dsnParams cls dsn
  let orElse (key : String) (other : PerlStr) :=
    if truthy (param params key) then param params key else other
  { name := orElse "dataset" (ps "BigQuery")
    project := orElse "project" []
    dataset := orElse "dataset" []
    transport := transport cls "rest" env dsn }

end BigQuery

/-! ### DSNs -/

/-- A parameter of a DSN: the word for it, spelled with letters of either case, and a value. -/
structure Param where
  word : PerlStr
  key : PerlStr
  value : PerlStr
  spelled : key.map lower = word
  value_plain : 59 ∉ value

def Param.text (p : Param) : PerlStr := p.key ++ 61 :: p.value

def Param.entry (p : Param) : PerlStr × PerlStr := (p.word, p.value)

/-- Parameters with semicolons between them. -/
def paramsText (params : List Param) : PerlStr := [59].intercalate (params.map Param.text)

def transportEntry (transport : Option PerlStr) : List (PerlStr × PerlStr) :=
  transport.toList.map fun t => (ps "transport", t)

/-- The names in a Spanner DSN, with the transport that may be given. -/
structure Spanner.Names where
  project : PerlStr
  inst : PerlStr
  database : PerlStr
  transport : Option PerlStr
  plain : 59 ∉ project ∧ 59 ∉ inst ∧ 59 ∉ database

def Spanner.Names.entries (n : Spanner.Names) : List (PerlStr × PerlStr) :=
  [(ps "project", n.project), (ps "instance", n.inst), (ps "database", n.database)] ++
    transportEntry n.transport

/-- The two forms of a Spanner DSN. -/
inductive Spanner.Dsn (n : Spanner.Names) where
  /-- the path, and the transport behind it -/
  | path (behind : List Param) (h : behind.map Param.entry = transportEntry n.transport)
  /-- the parameters in any order -/
  | pairs (params : List Param) (h : (params.map Param.entry).Perm n.entries)

def Spanner.Dsn.text {n : Spanner.Names} : Spanner.Dsn n → PerlStr
  | .path behind _ =>
      databasePath n.project n.inst n.database ++ behind.flatMap fun p => 59 :: p.text
  | .pairs params _ => paramsText params

structure BigQuery.Names where
  project : PerlStr
  dataset : PerlStr
  transport : Option PerlStr

def BigQuery.Names.entries (n : BigQuery.Names) : List (PerlStr × PerlStr) :=
  [(ps "project", n.project), (ps "dataset", n.dataset)] ++ transportEntry n.transport

/-- A BigQuery DSN: the parameters in any order. -/
structure BigQuery.Dsn (n : BigQuery.Names) where
  params : List Param
  h : (params.map Param.entry).Perm n.entries

/-- What the transport should be: the one given, if there is one. -/
def wantedTransport (builtin : String) (env : Option PerlStr) (given : Option PerlStr) : PerlStr :=
  match given with
  | some t => if t = [] then defaultTransport cls builtin env else cls.lc t
  | none => defaultTransport cls builtin env

/-- A DSN gives the path of its database, and the transport. -/
def Spanner.Dsn.Reads {n : Spanner.Names} (env : Option PerlStr) (d : Spanner.Dsn n) : Prop :=
  (Spanner.connect cls env d.text).dbPath = databasePath n.project n.inst n.database ∧
    (Spanner.connect cls env d.text).transport = wantedTransport cls "grpc" env n.transport

def BigQuery.Dsn.Reads {n : BigQuery.Names} (env : Option PerlStr) (d : BigQuery.Dsn n) : Prop :=
  (BigQuery.connect cls env (paramsText d.params)).project =
      (if truthy n.project then n.project else []) ∧
    (BigQuery.connect cls env (paramsText d.params)).dataset =
      (if truthy n.dataset then n.dataset else []) ∧
    (BigQuery.connect cls env (paramsText d.params)).transport =
      wantedTransport cls "rest" env n.transport

/-- The first parameter is no transport, or one that comes to what there is without it. -/
def TransportSeen (builtin : String) (env : Option PerlStr) (params : List Param) : Prop :=
  ∀ p ∈ params.head?, p.word = ps "transport" → p.value ≠ [] →
    cls.lc p.value = defaultTransport cls builtin env

/-- When a DSN is read as it should be. -/
def Spanner.Dsn.Sound {n : Spanner.Names} (env : Option PerlStr) : Spanner.Dsn n → Prop
  | .path _ _ => n.transport = none
  | .pairs params _ =>
      (truthy n.project ∧ truthy n.inst ∧ truthy n.database) ∧ TransportSeen cls "grpc" env params

/-! ### Words -/

section Words

variable {cls}

theorem lt_of_lower_lt {c : ℕ} (h : lower c < 128) : c < 128 := by
  unfold lower at h
  split at h <;> omega

/-- A word matches however it is spelled. -/
theorem word_append {key u : PerlStr} (hkey : key.map lower = u) (hu : ∀ c ∈ u, c < 128)
    (v s : PerlStr) : cls.word (u ++ v) (key ++ s) = cls.word v s := by
  induction key generalizing u with
  | nil =>
      cases hkey
      rfl
  | cons c key ih =>
      cases hkey
      have hc : cls.fold c = lower c :=
        cls.fold_ascii c (lt_of_lower_lt (hu _ (by simp)))
      rw [List.map_cons, List.cons_append, List.cons_append, LetterCase.word, if_pos hc]
      exact ih rfl fun d hd => hu d (by simp [hd])

theorem word_of_spelled {key u : PerlStr} (hkey : key.map lower = u) (hu : ∀ c ∈ u, c < 128)
    (s : PerlStr) : cls.word u (key ++ s) = some ((), s) := by
  have happend : cls.word (u ++ []) (key ++ s) = cls.word [] s := word_append hkey hu [] s
  rw [List.append_nil] at happend
  rw [happend, LetterCase.word]

theorem word_of_head_ne {c d : ℕ} (hd : d < 128) (h : lower d ≠ c) (w s : PerlStr) :
    cls.word (c :: w) (d :: s) = none := by
  rw [LetterCase.word, if_neg]
  rwa [cls.fold_ascii d hd]

theorem lc_of_spelled {key u : PerlStr} (hkey : key.map lower = u) (hu : ∀ c ∈ u, c < 128) :
    cls.lc key = u := by
  rw [cls.lc_ascii, hkey]
  intro c hc
  exact lt_of_lower_lt (hu _ (hkey ▸ List.mem_map_of_mem hc))

theorem not_mem_of_spelled {key u : PerlStr} (hkey : key.map lower = u) {c : ℕ}
    (hnot : lower c = c) (hu : c ∉ u) : c ∉ key := by
  intro hmem
  have hlower : lower c ∈ u := hkey ▸ List.mem_map_of_mem hmem
  rw [hnot] at hlower
  exact hu hlower

end Words

/-! ### The parameters -/

/-- The words that the drivers know. -/
def knownWords : List PerlStr :=
  [ps "project", ps "instance", ps "database", ps "dataset", ps "transport"]

theorem plain_of_mem {w : PerlStr} (h : w ∈ knownWords) :
    (∀ c ∈ w, c < 128) ∧ 59 ∉ w ∧ 61 ∉ w := by
  revert w
  decide

section Params

variable {p : Param} {params : List Param}

theorem Param.text_ne_nil (p : Param) : p.text ≠ [] := by
  simp [Param.text]

theorem Param.not_mem_text (p : Param) (h : p.word ∈ knownWords) : 59 ∉ p.text := by
  obtain ⟨-, hsep, -⟩ := plain_of_mem h
  have hkey := not_mem_of_spelled p.spelled (c := 59) rfl hsep
  simp [Param.text, hkey, p.value_plain]

theorem splitPair_text (h : p.word ∈ knownWords) : splitPair p.text = some (p.key, p.value) := by
  obtain ⟨-, -, hequals⟩ := plain_of_mem h
  have hkey := decide_ne_of_not_mem (not_mem_of_spelled p.spelled (c := 61) rfl hequals)
  rw [splitPair, if_pos (by simp [Param.text]), Param.text, List.takeWhile_append_of_pos hkey,
    List.dropWhile_append_of_pos hkey]
  simp

theorem splitFields_paramsText (hknown : ∀ p ∈ params, p.word ∈ knownWords) (hne : params ≠ []) :
    splitFields 59 (paramsText params) = params.map Param.text := by
  have hsplit : (paramsText params).splitOn 59 = params.map Param.text := by
    refine List.splitOn_intercalate 59 (fun l hl => ?_) (by simpa using hne)
    obtain ⟨p, hp, rfl⟩ := List.mem_map.mp hl
    exact p.not_mem_text (hknown p hp)
  rw [splitFields_of_ne_nil, hsplit]
  rw [hsplit]
  intro l hl
  obtain ⟨p, -, rfl⟩ := List.mem_map.mp hl
  exact p.text_ne_nil

/-- The parameters are read back in their order, under the words for them. -/
theorem dsnParams_paramsText (hknown : ∀ p ∈ params, p.word ∈ knownWords) (hne : params ≠ [])
    (hnd : (Assoc.keys (params.map Param.entry)).Nodup) :
    dsnParams cls (paramsText params) = params.map Param.entry := by
  have hpairs : ((params.map Param.text).filterMap splitPair).map (fun e => (cls.lc e.1, e.2)) =
      params.map Param.entry := by
    have hsplit : (params.map Param.text).filterMap splitPair =
        params.map fun p => (p.key, p.value) := by
      rw [List.filterMap_map, ← List.filterMap_eq_map]
      exact List.filterMap_congr fun p hp => splitPair_text (hknown p hp)
    rw [hsplit, List.map_map]
    refine List.map_congr_left fun p hp => ?_
    show (cls.lc p.key, p.value) = (p.word, p.value)
    rw [lc_of_spelled p.spelled (plain_of_mem (hknown p hp)).1]
  rw [dsnParams, splitFields_paramsText hknown hne, hpairs, Assoc.assignAll_eq_self hnd]

/-! ### The pattern for the transport -/

/-- The transport that a parameter gives. -/
def Param.transport (p : Param) : Option PerlStr :=
  if p.word = ps "transport" ∧ p.value ≠ [] then some p.value else none

/-- Parameters behind other text, each with a semicolon before it. -/
def moreText (params : List Param) : PerlStr := params.flatMap fun p => 59 :: p.text

theorem stops_moreText (params : List Param) :
    Scan.Stops (fun c => decide (c ≠ 59)) (moreText params) := by
  cases params with
  | nil =>
      intro c hc
      cases hc
  | cons p params => exact Scan.stops_cons (by simp)

theorem transportPattern_of_ne {c : ℕ} (hc : c ≠ 59) (s : PerlStr) :
    transportPattern cls (c :: s) = none :=
  Scan.andThen_of_none (if_neg hc)

theorem many1_value (p : Param) (more : List Param) :
    many1 (fun c => decide (c ≠ 59)) (p.value ++ moreText more) =
      if p.value = [] then none else some (p.value, moreText more) := by
  split
  · rename_i hvalue
    rw [hvalue, List.nil_append, many1, if_pos]
    cases more with
    | nil => rfl
    | cons q more => simp [moreText]
  · rename_i hvalue
    exact Scan.many1_append hvalue (decide_ne_of_not_mem p.value_plain) (stops_moreText more)

theorem transportPattern_param (hp : p.word ∈ knownWords) (more : List Param) :
    transportPattern cls (59 :: (p.text ++ moreText more)) =
      p.transport.map fun v => (v, moreText more) := by
  have hsemicolon : literal [59] (59 :: (p.text ++ moreText more)) =
      some ((), p.text ++ moreText more) := rfl
  rw [transportPattern, Scan.andThen_of_some hsemicolon, Param.text, List.append_assoc]
  by_cases htransport : p.word = ps "transport"
  · have hword : cls.word (ps "transport") (p.key ++ 61 :: (p.value ++ moreText more)) =
        some ((), 61 :: (p.value ++ moreText more)) :=
      word_of_spelled (p.spelled.trans htransport) (by decide) _
    have hequals : literal [61] (61 :: (p.value ++ moreText more)) =
        some ((), p.value ++ moreText more) := rfl
    rw [List.cons_append, Scan.andThen_of_some hword, Scan.andThen_of_some hequals, many1_value,
      Param.transport]
    by_cases hvalue : p.value = [] <;> simp [htransport, hvalue]
  · have hnone : cls.word (ps "transport") (p.key ++ (61 :: p.value ++ moreText more)) = none := by
      have hspelled := p.spelled
      cases hkey : p.key with
      | nil =>
          rw [hkey, List.map_nil] at hspelled
          exact absurd (hspelled ▸ hp) (by decide)
      | cons c key =>
          rw [hkey, List.map_cons] at hspelled
          have hhead : ∀ w ∈ knownWords, w ≠ ps "transport" → ∀ d ∈ w.head?, d ≠ 116 ∧ d < 128 := by
            decide
          obtain ⟨hne, hlt⟩ := hhead p.word hp htransport (lower c) (by simp [← hspelled])
          exact word_of_head_ne (lt_of_lower_lt hlt) hne _ _
    rw [Scan.andThen_of_none hnone, Param.transport, if_neg fun h => htransport h.1]
    rfl

/-- The pattern finds the first transport behind a semicolon. -/
theorem findFirst_transport (first : PerlStr) (hfirst : 59 ∉ first)
    (hknown : ∀ p ∈ params, p.word ∈ knownWords) :
    findFirst (transportPattern cls) (first ++ moreText params) =
      params.findSome? Param.transport := by
  have hskip (u rest : PerlStr) (hu : 59 ∉ u) :
      findFirst (transportPattern cls) (u ++ rest) = findFirst (transportPattern cls) rest := by
    refine Scan.findFirst_skip fun v hne hv => ?_
    cases v with
    | nil => exact absurd rfl hne
    | cons c v =>
        refine transportPattern_of_ne cls ?_ _
        rintro rfl
        exact hu (hv.subset List.mem_cons_self)
  rw [hskip _ _ hfirst]
  induction params with
  | nil => rfl
  | cons p params ih =>
      have hp := hknown p List.mem_cons_self
      have hmore := ih fun q hq => hknown q (List.mem_cons_of_mem _ hq)
      have hpattern := transportPattern_param cls hp params
      have htext : moreText (p :: params) = 59 :: (p.text ++ moreText params) := by
        simp [moreText]
      rw [htext, List.findSome?_cons]
      cases hgiven : p.transport with
      | some v =>
          rw [hgiven, Option.map_some] at hpattern
          exact Scan.findFirst_of_some hpattern
      | none =>
          rw [hgiven, Option.map_none] at hpattern
          rw [findFirst, Scan.findAll_cons_of_none hpattern]
          exact (hskip _ _ (p.not_mem_text hp)).trans hmore

end Params

/-! ### Whole DSNs -/

section Whole

variable {params : List Param} {entries : List (PerlStr × PerlStr)} {given : Option PerlStr}

theorem knownWords_of_perm (hkeys : ∀ k ∈ Assoc.keys entries, k ∈ knownWords)
    (h : (params.map Param.entry).Perm entries) : ∀ p ∈ params, p.word ∈ knownWords := by
  intro p hp
  exact hkeys _ (Assoc.mem_keys_of_mem (h.subset (List.mem_map_of_mem hp)))

theorem paramsText_cons (p : Param) (params : List Param) :
    paramsText (p :: params) = p.text ++ moreText params := by
  induction params generalizing p with
  | nil => simp [paramsText, moreText]
  | cons q params ih =>
      have hq := ih q
      simp only [paramsText, List.map_cons] at hq ⊢
      rw [List.intercalate_cons_cons, hq]
      simp [moreText]

/-- A transport in the first place is not seen. -/
theorem transport_paramsText (builtin : String) (env : Option PerlStr) (p : Param)
    (hknown : ∀ q ∈ p :: params, q.word ∈ knownWords) :
    transport cls builtin env (paramsText (p :: params)) =
      ((params.findSome? Param.transport).map cls.lc).getD (defaultTransport cls builtin env) := by
  rw [transport, paramsText_cons, findFirst_transport cls _
    (p.not_mem_text (hknown p List.mem_cons_self))
    fun q hq => hknown q (List.mem_cons_of_mem _ hq)]

theorem findSome_transport {t : PerlStr}
    (hvalue : ∀ q ∈ params, q.word = ps "transport" → q.value = t) :
    params.findSome? Param.transport =
      if t ≠ [] ∧ ∃ q ∈ params, q.word = ps "transport" then some t else none := by
  induction params with
  | nil => simp
  | cons q params ih =>
      have hrest := ih fun r hr => hvalue r (List.mem_cons_of_mem _ hr)
      rw [List.findSome?_cons, hrest, Param.transport]
      by_cases hq : q.word = ps "transport"
      · have hqt := hvalue q List.mem_cons_self hq
        by_cases ht : t = [] <;> simp [hq, hqt, ht]
      · simp [hq]

/-- The parameters say what the transport is. -/
structure Gives (params : List Param) (given : Option PerlStr) : Prop where
  value : ∀ q ∈ params, q.word = ps "transport" → given = some q.value
  given : ∀ t, given = some t → ∃ q ∈ params, q.word = ps "transport"
  once : (Assoc.keys (params.map Param.entry)).Nodup

theorem gives_of_perm (hkeys : (Assoc.keys (entries ++ transportEntry given)).Nodup)
    (hother : ps "transport" ∉ Assoc.keys entries)
    (h : (params.map Param.entry).Perm (entries ++ transportEntry given)) :
    Gives params given where
  value := by
    intro q hq hword
    have hmem := h.subset (List.mem_map_of_mem hq)
    rw [Param.entry, hword] at hmem
    rcases List.mem_append.mp hmem with hentry | hentry
    · exact absurd (Assoc.mem_keys_of_mem hentry) hother
    · obtain ⟨t, ht, heq⟩ := List.mem_map.mp hentry
      rw [← (Prod.mk.inj heq).2]
      exact Option.mem_toList.mp ht
  given := by
    rintro t rfl
    have hmem : (ps "transport", t) ∈ params.map Param.entry :=
      h.symm.subset (by simp [transportEntry])
    obtain ⟨q, hq, heq⟩ := List.mem_map.mp hmem
    exact ⟨q, hq, (Prod.mk.inj heq).1⟩
  once := ((h.map Prod.fst).nodup_iff).mpr hkeys

/-- The transport of a DSN is the one given exactly if that is seen. -/
theorem transport_iff (builtin : String) (env : Option PerlStr) (hne : params ≠ [])
    (hknown : ∀ q ∈ params, q.word ∈ knownWords) (h : Gives params given) :
    transport cls builtin env (paramsText params) = wantedTransport cls builtin env given ↔
      TransportSeen cls builtin env params := by
  obtain ⟨p, rest, rfl⟩ := List.exists_cons_of_ne_nil hne
  rw [transport_paramsText cls builtin env p hknown]
  have honce := h.once
  rw [List.map_cons, Assoc.keys, List.map_cons, List.nodup_cons] at honce
  have hseen : TransportSeen cls builtin env (p :: rest) ↔
      (p.word = ps "transport" → p.value ≠ [] →
        cls.lc p.value = defaultTransport cls builtin env) := by
    simp [TransportSeen]
  rw [hseen]
  -- the pattern sees a parameter behind a semicolon: any but the first
  cases given with
  | none =>
      have hnone : ∀ q ∈ p :: rest, q.word ≠ ps "transport" := fun q hq hword => by
        cases h.value q hq hword
      rw [findSome_transport (t := []) fun q hq hword =>
        absurd hword (hnone q (List.mem_cons_of_mem _ hq))]
      simp [wantedTransport, hnone p List.mem_cons_self]
  | some t =>
      have hvalue : ∀ q ∈ p :: rest, q.word = ps "transport" → q.value = t := fun q hq hword =>
        (Option.some.inj (h.value q hq hword)).symm
      rw [findSome_transport fun q hq => hvalue q (List.mem_cons_of_mem _ hq)]
      by_cases hp : p.word = ps "transport"
      · have hrest : ¬ ∃ q ∈ rest, q.word = ps "transport" := by
          rintro ⟨q, hq, hword⟩
          refine honce.1 (List.mem_map.mpr ⟨q.entry, List.mem_map_of_mem hq, ?_⟩)
          exact hword.trans hp.symm
        rw [if_neg fun hboth => hrest hboth.2, hvalue p List.mem_cons_self hp]
        by_cases ht : t = []
        · simp [wantedTransport, ht]
        · simp [wantedTransport, ht, hp, eq_comm]
      · obtain ⟨q, hq, hword⟩ := h.given t rfl
        have hrest : ∃ q ∈ rest, q.word = ps "transport" := by
          rcases List.mem_cons.mp hq with rfl | hq
          · exact absurd hword hp
          · exact ⟨q, hq, hword⟩
        by_cases ht : t = [] <;> simp [wantedTransport, ht, hp, hrest]

/-- The value of a word in a DSN. -/
theorem param_paramsText (hne : params ≠ []) (hknown : ∀ q ∈ params, q.word ∈ knownWords)
    (hkeys : (Assoc.keys entries).Nodup) (h : (params.map Param.entry).Perm entries)
    (key : String) :
    param (dsnParams cls (paramsText params)) key = (Assoc.find entries (ps key)).getD [] := by
  have hnd : (Assoc.keys (params.map Param.entry)).Nodup := ((h.map Prod.fst).nodup_iff).mpr hkeys
  rw [param, dsnParams_paramsText cls hknown hne hnd, Assoc.find_perm h hnd]

end Whole

/-! ### Spanner -/

namespace Spanner

variable {n : Names}

theorem Names.nodup_keys (n : Names) : (Assoc.keys n.entries).Nodup := by
  unfold Names.entries transportEntry
  cases n.transport with
  | none =>
      show [ps "project", ps "instance", ps "database"].Nodup
      decide
  | some t =>
      show [ps "project", ps "instance", ps "database", ps "transport"].Nodup
      decide

theorem Names.known (n : Names) : ∀ k ∈ Assoc.keys n.entries, k ∈ knownWords := by
  unfold Names.entries transportEntry
  cases n.transport with
  | none =>
      show ∀ k ∈ [ps "project", ps "instance", ps "database"], k ∈ knownWords
      decide
  | some t =>
      show ∀ k ∈ [ps "project", ps "instance", ps "database", ps "transport"], k ∈ knownWords
      decide

/-- A text of parameters is not taken for a path. -/
theorem isPath_paramsText {p : Param} (hp : p.word ∈ knownWords) (rest : List Param) :
    isPath cls (paramsText (p :: rest)) = false := by
  have hword : cls.word (ps "projects") (paramsText (p :: rest)) = none := by
    rw [paramsText_cons, Param.text, List.append_assoc]
    by_cases hproject : p.word = ps "project"
    · have happend : cls.word (ps "project" ++ [115]) (p.key ++ (61 :: p.value ++ moreText rest)) =
          cls.word [115] (61 :: p.value ++ moreText rest) :=
        word_append (p.spelled.trans hproject) (by decide) [115] _
      exact happend.trans (word_of_head_ne (by decide) (by decide) _ _)
    · have hspelled := p.spelled
      cases hkey : p.key with
      | nil =>
          rw [hkey, List.map_nil] at hspelled
          exact absurd (hspelled ▸ hp) (by decide)
      | cons c key =>
          rw [hkey, List.map_cons] at hspelled
          have hhead : ∀ w ∈ knownWords, w ≠ ps "project" → ∀ d ∈ w.head?, d ≠ 112 ∧ d < 128 := by
            decide
          obtain ⟨hne, hlt⟩ := hhead p.word hp hproject (lower c) (by simp [← hspelled])
          exact word_of_head_ne (lt_of_lower_lt hlt) hne _ _
  rw [isPath, Scan.andThen_of_none hword]
  rfl

theorem isPath_path (rest : PerlStr) : isPath cls (ps "projects/" ++ rest) = true := by
  have hword : cls.word (ps "projects") (ps "projects" ++ 47 :: rest) = some ((), 47 :: rest) :=
    word_of_spelled (by decide) (by decide) (47 :: rest)
  have hslash : literal [47] (47 :: rest) = some ((), rest) := rfl
  have hpath : ps "projects/" ++ rest = ps "projects" ++ 47 :: rest := rfl
  rw [isPath, hpath, Scan.andThen_of_some hword, hslash]
  rfl

theorem truthy_databasePath (project inst database more : PerlStr) :
    truthy (databasePath project inst database ++ more) = true := by
  simp [truthy, databasePath, ps]

theorem connect_dbPath (env : Option PerlStr) {dsn : PerlStr} (h : truthy (dbPath cls dsn) = true) :
    (connect cls env dsn).dbPath = dbPath cls dsn := by
  show (if truthy (dbPath cls dsn) then dbPath cls dsn else []) = dbPath cls dsn
  rw [if_pos h]

theorem pairs_ne_nil {params : List Param} (h : (params.map Param.entry).Perm n.entries) :
    params ≠ [] := by
  rintro rfl
  have hlength := h.length_eq
  simp [Names.entries] at hlength

theorem dbPath_pairs {params : List Param} (h : (params.map Param.entry).Perm n.entries) :
    dbPath cls (paramsText params) =
      if truthy n.project ∧ truthy n.inst ∧ truthy n.database then
        databasePath n.project n.inst n.database else [] := by
  have hne := pairs_ne_nil h
  have hknown := knownWords_of_perm n.known h
  have hparam := param_paramsText cls hne hknown n.nodup_keys h
  have hpath : isPath cls (paramsText params) = false := by
    obtain ⟨p, rest, rfl⟩ := List.exists_cons_of_ne_nil hne
    exact isPath_paramsText cls (hknown p List.mem_cons_self) rest
  have hproject : param (dsnParams cls (paramsText params)) "project" = n.project := hparam _
  have hinst : param (dsnParams cls (paramsText params)) "instance" = n.inst := hparam _
  have hdatabase : param (dsnParams cls (paramsText params)) "database" = n.database := hparam _
  have hother : param (dsnParams cls (paramsText params)) "database_path" = [] := by
    rw [hparam, Assoc.find_eq_none_iff.mpr fun hmem => absurd (n.known _ hmem) (by decide)]
    rfl
  rw [dbPath, hpath, if_neg (by simp)]
  simp only [hproject, hinst, hdatabase, hother]

theorem gives_pairs {params : List Param} (h : (params.map Param.entry).Perm n.entries) :
    Gives params n.transport := by
  have hother : ps "transport" ∉ [ps "project", ps "instance", ps "database"] := by decide
  exact gives_of_perm n.nodup_keys hother h

theorem reads_pairs_iff (env : Option PerlStr) {params : List Param}
    (h : (params.map Param.entry).Perm n.entries) :
    (Dsn.pairs params h).Reads cls env ↔ (Dsn.pairs params h).Sound cls env := by
  have hpath := truthy_databasePath n.project n.inst n.database []
  rw [List.append_nil] at hpath
  have htransport := transport_iff cls "grpc" env (pairs_ne_nil h) (knownWords_of_perm n.known h)
    (gives_pairs h)
  have hdb : (connect cls env (paramsText params)).dbPath =
      if truthy n.project ∧ truthy n.inst ∧ truthy n.database then
        databasePath n.project n.inst n.database else [] := by
    have hdb := dbPath_pairs cls h
    by_cases htruthy : truthy n.project ∧ truthy n.inst ∧ truthy n.database
    · rw [if_pos htruthy] at hdb ⊢
      rw [connect_dbPath cls env (hdb ▸ hpath), hdb]
    · rw [if_neg htruthy] at hdb ⊢
      show (if truthy (dbPath cls (paramsText params)) then _ else _) = _
      rw [hdb]
      rfl
  show (connect cls env (paramsText params)).dbPath = _ ∧ _ ↔ _ ∧ _
  rw [hdb]
  refine and_congr ?_ htransport
  constructor
  · intro heq
    by_contra hnot
    rw [if_neg hnot] at heq
    rw [← heq] at hpath
    cases hpath
  · exact fun htruthy => if_pos htruthy

theorem reads_path_iff (env : Option PerlStr) {behind : List Param}
    (h : behind.map Param.entry = transportEntry n.transport) :
    (Dsn.path behind h).Reads cls env ↔ n.transport = none := by
  have hbehind : behind = [] ↔ n.transport = none := by
    rw [← List.map_eq_nil_iff (f := Param.entry), h, transportEntry, List.map_eq_nil_iff,
      Option.toList_eq_nil_iff]
  -- all of the text passes for the path, with what stands behind the database
  have hwhole : (connect cls env (Dsn.path behind h).text).dbPath = (Dsn.path behind h).text := by
    have hdb : dbPath cls (Dsn.path behind h).text = (Dsn.path behind h).text := by
      rw [dbPath, if_pos]
      rw [Dsn.text, databasePath]
      simp only [List.append_assoc]
      exact isPath_path cls _
    have htruthy := truthy_databasePath n.project n.inst n.database (moreText behind)
    rw [connect_dbPath cls env (hdb.symm ▸ htruthy), hdb]
  unfold Dsn.Reads
  rw [hwhole]
  constructor
  · rintro ⟨htext, -⟩
    have hmore : moreText behind = [] := List.append_right_eq_self.mp htext
    rw [← hbehind]
    cases behind with
    | nil => rfl
    | cons p behind => cases hmore
  · intro hnone
    obtain rfl := hbehind.mpr hnone
    have hplain : 59 ∉ databasePath n.project n.inst n.database := by
      obtain ⟨hproject, hinst, hdatabase⟩ := n.plain
      simp [databasePath, hproject, hinst, hdatabase, ps]
    have hfind : findFirst (transportPattern cls)
        (databasePath n.project n.inst n.database ++ moreText []) = none :=
      findFirst_transport cls _ hplain (by simp)
    rw [moreText, List.flatMap_nil, List.append_nil] at hfind
    refine ⟨by simp [Dsn.text], ?_⟩
    show transport cls "grpc" env (Dsn.path [] h).text = _
    rw [transport, Dsn.text, List.flatMap_nil, List.append_nil, hfind, hnone]
    rfl

/-- A Spanner DSN is read as it should be exactly if it is sound. -/
theorem reads_iff (env : Option PerlStr) (d : Dsn n) : d.Reads cls env ↔ d.Sound cls env := by
  cases d with
  | path behind h => exact reads_path_iff cls env h
  | pairs params h => exact reads_pairs_iff cls env h

end Spanner

/-! ### BigQuery -/

namespace BigQuery

variable {n : Names}

theorem Names.nodup_keys (n : Names) : (Assoc.keys n.entries).Nodup := by
  unfold Names.entries transportEntry
  cases n.transport with
  | none =>
      show [ps "project", ps "dataset"].Nodup
      decide
  | some t =>
      show [ps "project", ps "dataset", ps "transport"].Nodup
      decide

theorem Names.known (n : Names) : ∀ k ∈ Assoc.keys n.entries, k ∈ knownWords := by
  unfold Names.entries transportEntry
  cases n.transport with
  | none =>
      show ∀ k ∈ [ps "project", ps "dataset"], k ∈ knownWords
      decide
  | some t =>
      show ∀ k ∈ [ps "project", ps "dataset", ps "transport"], k ∈ knownWords
      decide

/-- A BigQuery DSN is read as it should be exactly if its transport is seen. -/
theorem reads_iff (env : Option PerlStr) (d : Dsn n) :
    d.Reads cls env ↔ TransportSeen cls "rest" env d.params := by
  have hne : d.params ≠ [] := by
    intro hnil
    have hlength := d.h.length_eq
    simp [hnil, Names.entries] at hlength
  have hknown := knownWords_of_perm n.known d.h
  have hparam := param_paramsText cls hne hknown n.nodup_keys d.h
  have hproject : param (dsnParams cls (paramsText d.params)) "project" = n.project := hparam _
  have hdataset : param (dsnParams cls (paramsText d.params)) "dataset" = n.dataset := hparam _
  have hother : ps "transport" ∉ [ps "project", ps "dataset"] := by decide
  have hgives : Gives d.params n.transport := gives_of_perm n.nodup_keys hother d.h
  rw [← transport_iff cls "rest" env hne hknown hgives]
  simp only [Dsn.Reads, connect, hproject, hdataset, true_and]

end BigQuery

/-- A Spanner DSN gives the path of its database and its transport exactly if it is a path with
no transport, or parameters with names that are true and a transport that is seen; a BigQuery DSN
gives what it should exactly if its transport is seen. -/
theorem dsn_iff (env : Option PerlStr) :
    (∀ (n : Spanner.Names) (d : Spanner.Dsn n), d.Reads cls env ↔ d.Sound cls env) ∧
      ∀ (n : BigQuery.Names) (d : BigQuery.Dsn n),
        d.Reads cls env ↔ TransportSeen cls "rest" env d.params :=
  ⟨fun _ d => Spanner.reads_iff cls env d, fun _ d => BigQuery.reads_iff cls env d⟩

/-- Letter case in ASCII. -/
def asciiCase : LetterCase where
  lc s := s.map lower
  fold := lower
  lc_ascii _ _ := rfl
  fold_ascii _ _ := rfl

def restParam : Param where
  word := ps "transport"
  key := ps "transport"
  value := ps "rest"
  spelled := by decide
  value_plain := by decide

def plainNames : Spanner.Names where
  project := ps "p"
  inst := ps "i"
  database := ps "d"
  transport := some (ps "rest")
  plain := by decide

/-- The DSN of the documentation, with a transport behind the path. -/
theorem not_reads_path :
    ¬ (Spanner.Dsn.path [restParam] rfl : Spanner.Dsn plainNames).Reads asciiCase none := by
  rintro ⟨hpath, -⟩
  revert hpath
  decide

end GooglePerl.Dbd
