import GooglePerl.Lib.Assoc
import GooglePerl.Lib.FormUrl
import GooglePerl.Protobuf.Value
import Mathlib.Data.List.Sort

/-!
`Google::Cloud::REST::Client::call`: the URL of a request.

The path and the parameters are put into the URL as they are. So a URL means what it was made of
exactly if none of them has a symbol that means something in a URL, the path is not `0`, and a
scheme is spelled with small letters (`requestUrl_iff`).
-/

namespace GooglePerl.Rest

open GooglePerl.Lib GooglePerl.Protobuf
open GooglePerl.Lib.FormUrl (formDecode formText entryText endsHost endsPath CleanEntry)

/-! ### The source -/

def truthy (s : PerlStr) : Bool := s ≠ [] && s ≠ ps "0"

/-- The arguments that the URL is made of: a path, which may go by the name of `url`, and the
parameters of the query. -/
structure Args where
  path : PerlStr
  url : PerlStr
  queryParams : List (PerlStr × PerlStr)
  one_path : path = [] ∨ url = []
  once : (Assoc.keys queryParams).Nodup

/-- `$args->{path} || $args->{url} || ''` -/
def Args.truePath (a : Args) : PerlStr :=
  if truthy a.path then a.path else if truthy a.url then a.url else []

/-- `=~ /^https?:\/\//` -/
def hasScheme (target : PerlStr) : Bool :=
  (ps "http://").isPrefixOf target || (ps "https://").isPrefixOf target

/-- `s/\/+$//`, which looks behind a line's end too. -/
def stripSlashes (s : PerlStr) : PerlStr :=
  if s.getLast? = some 10 then s.dropLast.rdropWhile (· = 47) ++ [10] else s.rdropWhile (· = 47)

/-- `$base_url`, before the path -/
def baseUrl (target : PerlStr) : PerlStr :=
  stripSlashes (if hasScheme target then target else ps "https://" ++ target)

/-- What is appended for a path. -/
def pathText (path : PerlStr) : PerlStr :=
  if path = [] then [] else 47 :: path.dropWhile (· = 47)

/-- `sort keys %$query_params`, with the values -/
def sortedParams (params : List (PerlStr × PerlStr)) : List (PerlStr × PerlStr) :=
  params.insertionSort fun p q => p.1 ≤ q.1

/-- What is appended for the parameters. -/
def queryText (params : List (PerlStr × PerlStr)) : PerlStr :=
  if params = [] then [] else 63 :: formText (sortedParams params)

/-- `$base_url`, as it is requested -/
def requestUrl (target : PerlStr) (a : Args) : PerlStr :=
  baseUrl target ++ pathText a.truePath ++ queryText a.queryParams

/-! ### What a request should be -/

/-- A letter of ASCII in lower case. -/
def lower (c : ℕ) : ℕ := if 65 ≤ c ∧ c ≤ 90 then c + 32 else c

/-- A target: a host, with a scheme of either letter case or none, and slashes behind it. -/
structure Target where
  scheme : Option PerlStr
  host : PerlStr
  slashes : ℕ
  known : ∀ s ∈ scheme, s.map lower = ps "http" ∨ s.map lower = ps "https"
  host_ne : host ≠ []
  host_plain : ∀ c ∈ host, endsHost c = false ∧ c ≠ 10
  no_colon : host.getLast? ≠ some 58

def schemeText (scheme : Option PerlStr) : PerlStr :=
  match scheme with
  | some s => s ++ ps "://"
  | none => []

def Target.text (t : Target) : PerlStr :=
  schemeText t.scheme ++ t.host ++ List.replicate t.slashes 47

/-- The origin of a target: what has no scheme has the usual one. -/
def Target.origin (t : Target) : PerlStr := t.scheme.getD (ps "https") ++ ps "://" ++ t.host

/-- The path that is given. -/
def Args.givenPath (a : Args) : PerlStr := if a.path = [] then a.url else a.path

/-- The URL of a request means what it was made of. -/
structure Faithful (t : Target) (a : Args) : Prop where
  origin : (FormUrl.split (requestUrl t.text a)).origin = t.origin
  path : (FormUrl.split (requestUrl t.text a)).path = pathText a.givenPath
  query : (formDecode (FormUrl.split (requestUrl t.text a)).query).Perm a.queryParams

/-- When it does. -/
structure Sound (t : Target) (a : Args) : Prop where
  scheme : ∀ s ∈ t.scheme, s = ps "http" ∨ s = ps "https"
  path_true : a.givenPath ≠ ps "0"
  path_plain : ∀ c ∈ a.givenPath, endsPath c = false
  params : ∀ e ∈ a.queryParams, CleanEntry e

/-! ### Origins -/

theorem stripSlashes_append {s : PerlStr} (hlast : ∀ c ∈ s.getLast?, c ≠ 47 ∧ c ≠ 10)
    (n : ℕ) : stripSlashes (s ++ List.replicate n 47) = s := by
  have hdrop : (s ++ List.replicate n 47).rdropWhile (· = 47) = s := by
    induction n with
    | zero =>
        rw [List.replicate_zero, List.append_nil, List.rdropWhile_eq_self_iff]
        intro h
        have hc := (hlast _ (List.getLast?_eq_some_getLast h)).1
        simpa using hc
    | succ n ih =>
        rw [List.replicate_succ', ← List.append_assoc, List.rdropWhile_concat_pos _ _ _ (by simp),
          ih]
  rw [stripSlashes, if_neg, hdrop]
  intro hnewline
  cases n with
  | zero =>
      rw [List.replicate_zero, List.append_nil] at hnewline
      exact (hlast 10 hnewline).2 rfl
  | succ n =>
      rw [List.replicate_succ', ← List.append_assoc, List.getLast?_append] at hnewline
      simp at hnewline

/-- What stands in front of the slashes of a target. -/
theorem stripSlashes_host (t : Target) (s : PerlStr) :
    stripSlashes (s ++ t.host ++ List.replicate t.slashes 47) = s ++ t.host := by
  refine stripSlashes_append (fun c hc => ?_) _
  rw [List.getLast?_append_of_ne_nil _ t.host_ne] at hc
  have hplain := t.host_plain c (List.mem_of_mem_getLast? hc)
  simp only [endsHost, decide_eq_false_iff_not, not_or] at hplain
  exact ⟨hplain.1.1, hplain.2⟩

/-- A text begins with the scheme of a URL exactly if that stands in front of its first colon. -/
theorem hasScheme_append {s : PerlStr} (hs : 58 ∉ s) (rest : PerlStr) :
    hasScheme (s ++ ps "://" ++ rest) = true ↔ s = ps "http" ∨ s = ps "https" := by
  have hscheme : ∀ w : PerlStr, 58 ∉ w → (w ++ ps "://" <+: s ++ ps "://" ++ rest ↔ s = w) := by
    intro w hw
    constructor
    · rintro ⟨more, h⟩
      have htake := congrArg (List.takeWhile (· ≠ 58)) h
      have hleft := (FormUrl.takeWhile_ne_append hw (47 :: 47 :: more)).1
      have hright := (FormUrl.takeWhile_ne_append hs (47 :: 47 :: rest)).1
      have hcolon : ps "://" = [58, 47, 47] := by decide
      simp only [hcolon, List.append_assoc, List.cons_append, List.nil_append] at htake
      exact hright.symm.trans (htake.symm.trans hleft)
    · rintro rfl
      exact List.prefix_append _ rest
  rw [hasScheme, Bool.or_eq_true, List.isPrefixOf_iff_prefix, List.isPrefixOf_iff_prefix]
  exact or_congr (hscheme (ps "http") (by decide)) (hscheme (ps "https") (by decide))

theorem Target.not_mem_scheme (t : Target) {s : PerlStr} (hs : s ∈ t.scheme) : 58 ∉ s := by
  intro hmem
  have hlower : 58 ∈ s.map lower := List.mem_map.mpr ⟨58, hmem, by decide⟩
  rcases t.known s hs with h | h <;> exact absurd (h ▸ hlower) (by decide)

theorem Target.not_mem_host (t : Target) : 47 ∉ t.host := fun hmem => by
  simpa [endsHost] using (t.host_plain 47 hmem).1

/-- A host is not taken for a scheme. -/
theorem hasScheme_host (t : Target) :
    hasScheme (t.host ++ List.replicate t.slashes 47) = false := by
  have hscheme : ∀ w : PerlStr, 47 ∉ w →
      ¬ w ++ [58] ++ ps "//" <+: t.host ++ List.replicate t.slashes 47 := by
    rintro w hw ⟨more, h⟩
    have htake := congrArg (List.takeWhile (· ≠ 47)) h
    have hcolon : 47 ∉ w ++ [58] := by simpa using hw
    have hslash : ps "//" = [47, 47] := by decide
    have hleft := (FormUrl.takeWhile_ne_append hcolon (47 :: more)).1
    rw [hslash, List.append_assoc, List.cons_append, List.cons_append, List.nil_append,
      hleft] at htake
    have hright : (t.host ++ List.replicate t.slashes 47).takeWhile (· ≠ 47) = t.host := by
      rw [List.takeWhile_append_of_pos (decide_ne_of_not_mem t.not_mem_host)]
      cases t.slashes <;> simp [List.replicate_succ]
    rw [hright] at htake
    apply t.no_colon
    rw [← htake, List.getLast?_concat]
  rw [hasScheme, Bool.or_eq_false_iff, ← Bool.not_eq_true, ← Bool.not_eq_true,
    List.isPrefixOf_iff_prefix, List.isPrefixOf_iff_prefix]
  exact ⟨hscheme (ps "http") (by decide), hscheme (ps "https") (by decide)⟩

/-- The URL of a target is its origin if the scheme is spelled with small letters. -/
theorem baseUrl_of_scheme (t : Target)
    (h : ∀ s ∈ t.scheme, s = ps "http" ∨ s = ps "https") : baseUrl t.text = t.origin := by
  rw [baseUrl, Target.text, Target.origin]
  cases hscheme : t.scheme with
  | none =>
      rw [schemeText, List.nil_append, hasScheme_host, if_neg (by simp), ← List.append_assoc,
        stripSlashes_host]
      rfl
  | some s =>
      have htrue : hasScheme (s ++ ps "://" ++ t.host ++ List.replicate t.slashes 47) = true := by
        rw [List.append_assoc, hasScheme_append (t.not_mem_scheme hscheme)]
        exact h s hscheme
      rw [schemeText, htrue, if_pos rfl, stripSlashes_host]
      rfl

/-- With another spelling it has a scheme in front. -/
theorem exists_baseUrl (t : Target) {s : PerlStr} (hscheme : s ∈ t.scheme)
    (h : ¬ (s = ps "http" ∨ s = ps "https")) : ∃ rest, baseUrl t.text = ps "https://" ++ rest := by
  have hfalse : hasScheme (s ++ ps "://" ++ t.host ++ List.replicate t.slashes 47) = false := by
    rw [← Bool.not_eq_true, List.append_assoc, hasScheme_append (t.not_mem_scheme hscheme)]
    exact h
  refine ⟨s ++ ps "://" ++ t.host, ?_⟩
  rw [baseUrl, Target.text, Option.mem_def.mp hscheme, schemeText, hfalse, if_neg (by simp),
    ← List.append_assoc, ← List.append_assoc, stripSlashes_host, List.append_assoc]

/-! ### Splitting -/

/-- The parts of a URL whose origin and path are known. -/
theorem split_append {s host rest : PerlStr} (hs : 58 ∉ s) (hhost : ∀ c ∈ host, endsHost c = false)
    (hrest : ∀ c ∈ rest.head?, endsHost c = true) :
    FormUrl.split (s ++ ps "://" ++ host ++ rest) =
      { origin := s ++ ps "://" ++ host
        path := rest.takeWhile fun c => !endsPath c
        query :=
          let more := rest.dropWhile fun c => !endsPath c
          if more.head? = some 63 then more.tail.takeWhile (· ≠ 35) else [] } := by
  have hcolon : ps "://" = [58, 47, 47] := by decide
  have hscheme := (FormUrl.takeWhile_ne_append hs (47 :: 47 :: (host ++ rest))).1
  have hpos : ∀ c ∈ host, (!endsHost c) = true := fun c hc => by rw [hhost c hc]; rfl
  have hdrop : (s ++ 58 :: 47 :: 47 :: (host ++ rest)).drop (s.length + 3) = host ++ rest := by
    rw [List.drop_length_add_append]
    rfl
  have hhead : rest.takeWhile (fun c => !endsHost c) = [] ∧
      rest.dropWhile (fun c => !endsHost c) = rest := by
    cases rest with
    | nil => exact ⟨rfl, rfl⟩
    | cons c rest => simp [hrest c rfl]
  rw [hcolon]
  simp only [List.append_assoc, List.cons_append, List.nil_append, FormUrl.split, hscheme, hdrop]
  rw [List.takeWhile_append_of_pos hpos, List.dropWhile_append_of_pos hpos, hhead.1, hhead.2,
    List.append_nil]

theorem Args.truePath_eq (a : Args) (h : a.givenPath ≠ ps "0") : a.truePath = a.givenPath := by
  rw [Args.givenPath] at h
  rw [Args.truePath, Args.givenPath]
  by_cases hpath : a.path = []
  · rw [if_pos hpath] at h ⊢
    by_cases hurl : a.url = [] <;> simp [truthy, hpath, hurl, h]
  · rw [if_neg hpath] at h ⊢
    simp [truthy, hpath, h]

theorem Args.truePath_eq_nil (a : Args) (h : a.givenPath = ps "0") : a.truePath = [] := by
  have hzero : truthy (ps "0") = false := by decide
  have hnil : truthy [] = false := rfl
  rw [Args.givenPath] at h
  rw [Args.truePath]
  by_cases hpath : a.path = []
  · rw [if_pos hpath] at h
    rw [hpath, h, hnil, hzero]
    rfl
  · rw [if_neg hpath] at h
    rw [h, hzero, a.one_path.resolve_left hpath, hnil]
    rfl

theorem mem_pathText {p : PerlStr} (h : ∀ c ∈ p, endsPath c = false) :
    ∀ c ∈ pathText p, (!endsPath c) = true := by
  intro c hc
  rw [pathText] at hc
  split at hc
  · exact absurd hc List.not_mem_nil
  · rcases List.mem_cons.mp hc with rfl | hc
    · decide
    · rw [h c ((List.dropWhile_suffix _).subset hc)]
      rfl

/-- The slashes in front of a path end no path. -/
theorem plain_of_pathText {p : PerlStr} (h : ∀ c ∈ pathText p, (!endsPath c) = true) :
    ∀ c ∈ p, endsPath c = false := by
  intro c hc
  have hne : p ≠ [] := List.ne_nil_of_mem hc
  rw [pathText, if_neg hne] at h
  rw [← List.takeWhile_append_dropWhile (p := (· = 47)) (l := p), List.mem_append] at hc
  rcases hc with hc | hc
  · have hslash := List.mem_takeWhile_imp hc
    rw [of_decide_eq_true hslash]
    decide
  · simpa using h c (List.mem_cons_of_mem _ hc)

theorem takeWhile_queryText (params : List (PerlStr × PerlStr)) :
    (queryText params).takeWhile (fun c => !endsPath c) = [] ∧
      (queryText params).dropWhile (fun c => !endsPath c) = queryText params := by
  rw [queryText]
  split
  · exact ⟨rfl, rfl⟩
  · exact ⟨rfl, rfl⟩

/-- A path that nothing in it ends is the path of a URL. -/
theorem takeWhile_plain {p : PerlStr} (h : ∀ c ∈ p, endsPath c = false)
    (params : List (PerlStr × PerlStr)) :
    (pathText p ++ queryText params).takeWhile (fun c => !endsPath c) = pathText p ∧
      (pathText p ++ queryText params).dropWhile (fun c => !endsPath c) = queryText params := by
  have hquery := takeWhile_queryText params
  rw [List.takeWhile_append_of_pos (mem_pathText h), List.dropWhile_append_of_pos (mem_pathText h),
    hquery.1, hquery.2, List.append_nil]
  exact ⟨rfl, rfl⟩

/-- The path of a URL is the one that is given only if that is not `0` and nothing in it ends
it. -/
theorem plain_of_takeWhile {a : Args}
    (h : (pathText a.truePath ++ queryText a.queryParams).takeWhile (fun c => !endsPath c) =
      pathText a.givenPath) :
    a.givenPath ≠ ps "0" ∧ ∀ c ∈ a.givenPath, endsPath c = false := by
  constructor
  · intro hzero
    have hnone : pathText [] = [] := rfl
    rw [a.truePath_eq_nil hzero, hzero, hnone, List.nil_append,
      (takeWhile_queryText a.queryParams).1] at h
    exact absurd h (by decide)
  · refine plain_of_pathText fun c hc => ?_
    rw [← h] at hc
    have hends := List.mem_takeWhile_imp hc
    exact hends

/-- The parameters are what their text is read as exactly if all of them are clean. -/
theorem query_iff (params : List (PerlStr × PerlStr)) :
    (formDecode (if (queryText params).head? = some 63 then
      (queryText params).tail.takeWhile (· ≠ 35) else [])).Perm params ↔
        ∀ e ∈ params, CleanEntry e := by
  rw [queryText]
  have hsort := List.perm_insertionSort (fun p q : PerlStr × PerlStr => p.1 ≤ q.1) params
  by_cases hnil : params = []
  · subst hnil
    simp [formDecode]
  · rw [if_neg hnil, if_pos (List.head?_cons ..), List.tail_cons, ← List.Perm.congr_right hsort]
    rw [sortedParams, FormUrl.perm_formDecode_iff]
    exact forall_congr' fun e => by rw [hsort.mem_iff]

/-! ### Requests -/

theorem head?_rest (a : Args) :
    ∀ c ∈ (pathText a.truePath ++ queryText a.queryParams).head?, endsHost c = true := by
  intro c hc
  rw [pathText, queryText] at hc
  split at hc <;> split at hc <;> simp at hc <;> subst hc <;> decide

/-- The parts of a URL whose scheme is spelled with small letters. -/
theorem split_requestUrl (t : Target) (a : Args)
    (h : ∀ s ∈ t.scheme, s = ps "http" ∨ s = ps "https") :
    FormUrl.split (requestUrl t.text a) =
      let rest := pathText a.truePath ++ queryText a.queryParams
      { origin := t.origin
        path := rest.takeWhile fun c => !endsPath c
        query :=
          let more := rest.dropWhile fun c => !endsPath c
          if more.head? = some 63 then more.tail.takeWhile (· ≠ 35) else [] } := by
  have hscheme : 58 ∉ t.scheme.getD (ps "https") := by
    cases hs : t.scheme with
    | none => decide
    | some s => exact t.not_mem_scheme hs
  rw [requestUrl, baseUrl_of_scheme t h, List.append_assoc]
  exact split_append hscheme (fun c hc => (t.host_plain c hc).1) (head?_rest a)

/-- The origin of a URL is that of the target only if the scheme is spelled with small letters. -/
theorem scheme_of_origin {t : Target} {a : Args}
    (h : (FormUrl.split (requestUrl t.text a)).origin = t.origin) :
    ∀ s ∈ t.scheme, s = ps "http" ∨ s = ps "https" := by
  intro s hs
  by_contra hnot
  obtain ⟨rest, hbase⟩ := exists_baseUrl t hs hnot
  have hcolon : ps "://" = [58, 47, 47] := by decide
  have hhttps : ps "https://" = ps "https" ++ [58, 47, 47] := by decide
  have htake := congrArg (List.takeWhile (· ≠ 58)) h
  rw [FormUrl.split, requestUrl, hbase, hhttps, Target.origin, Option.mem_def.mp hs,
    Option.getD_some, hcolon] at htake
  simp only [List.append_assoc, List.cons_append, List.nil_append,
    (FormUrl.takeWhile_ne_append (a := 58) (s := ps "https") (by decide) _).1,
    (FormUrl.takeWhile_ne_append (t.not_mem_scheme hs) _).1] at htake
  exact hnot (.inr htake.symm)

/-- A request means what it was made of exactly if its scheme is spelled with small letters, its
path is not `0` and ends nowhere, and its parameters are clean. -/
theorem faithful_iff (t : Target) (a : Args) : Faithful t a ↔ Sound t a := by
  constructor
  · intro h
    have hscheme := scheme_of_origin h.origin
    have hpath := h.path
    have hquery := h.query
    rw [split_requestUrl t a hscheme] at hpath hquery
    have hplain := plain_of_takeWhile hpath
    simp only [a.truePath_eq hplain.1, (takeWhile_plain hplain.2 a.queryParams).2] at hquery
    exact ⟨hscheme, hplain.1, hplain.2, (query_iff a.queryParams).mp hquery⟩
  · intro h
    have hsplit := split_requestUrl t a h.scheme
    have hplain := takeWhile_plain h.path_plain a.queryParams
    simp only [a.truePath_eq h.path_true, hplain.1, hplain.2] at hsplit
    refine ⟨by rw [hsplit], by rw [hsplit], ?_⟩
    rw [hsplit]
    exact (query_iff a.queryParams).mpr h.params

/-- The URLs of requests mean what these were made of, and different parameters give different
URLs, exactly if all of the requests are sound. -/
theorem requestUrl_iff (requests : Set (Target × Args)) :
    ((∀ r ∈ requests, Faithful r.1 r.2) ∧
      ∀ r ∈ requests, ∀ s ∈ requests, requestUrl r.1.text r.2 = requestUrl s.1.text s.2 →
        r.2.queryParams.Perm s.2.queryParams) ↔
      ∀ r ∈ requests, Sound r.1 r.2 := by
  constructor
  · exact fun h r hr => (faithful_iff r.1 r.2).mp (h.1 r hr)
  · intro h
    have hfaithful : ∀ r ∈ requests, Faithful r.1 r.2 := fun r hr =>
      (faithful_iff r.1 r.2).mpr (h r hr)
    refine ⟨hfaithful, fun r hr s hs heq => ?_⟩
    have hread := (hfaithful r hr).query
    rw [heq] at hread
    exact hread.symm.trans (hfaithful s hs).query

/-- A host alone. -/
def plainTarget : Target where
  scheme := none
  host := ps "h"
  slashes := 0
  known := by simp
  host_ne := by decide
  host_plain := by decide
  no_colon := by decide

def filterArgs (value : String) : Args where
  path := ps "v1/x"
  url := []
  queryParams := [(ps "filter", ps value)]
  one_path := .inr rfl
  once := by simp [Assoc.keys]

/-- A filter with an ampersand in it. -/
theorem not_faithful_filter : ¬ Faithful plainTarget (filterArgs "a&b") := by
  intro h
  have hquery := h.query.length_eq
  revert hquery
  decide

end GooglePerl.Rest
