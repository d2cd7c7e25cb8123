import GooglePerl.Grpc.Dispatch

/-!
How the server's status gets from the wire to the stream.

The pure-Perl engine reports the headers of a finished request as one list of
trailers. nghttp2 reports each header by itself; `my_on_header_callback` takes the
categories of a response and of its trailers alike for headers, and these never
reach `handle_trailers`. `handle_trailers` in turn takes what it is given for the
whole block, and sets what it does not find to the defaults.
-/

namespace GooglePerl.Grpc

open GooglePerl.Lib
open GooglePerl.Protobuf (PerlStr ps Die)

variable {M : Type}

/-! ### What `parse_trailers` reads -/

abbrev Block := List (PerlStr × PerlStr)

/-- The trailers that are found with a way of looking names up. -/
def infoOf (value : PerlStr → Option PerlStr) : TrailerInfo :=
  ⟨((value (ps "grpc-status")).map perlInt).getD (.fin 0), (value (ps "grpc-message")).getD [],
    (value (ps "grpc-status-details-bin")).bind fromTrailer⟩

/-- The headers under their names in lower case, the last one first. -/
def lowered (block : Block) : Block := (block.map fun h => (lc h.1, h.2)).reverse

theorem lowered_concat (block : Block) (h : PerlStr × PerlStr) :
    lowered (block ++ [h]) = (lc h.1, h.2) :: lowered block := by
  simp [lowered]

/-- In an array of headers the last one of a name counts, in any spelling. -/
theorem parseTrailers_array (block : Block) :
    parseTrailers (.array block) = infoOf (Assoc.find (lowered block)) := by
  have hfields : block.foldl TrailerFields.add {} =
      { status := ((Assoc.find (lowered block) (ps "grpc-status")).map perlInt).getD (.fin 0)
        message := (Assoc.find (lowered block) (ps "grpc-message")).getD []
        detailsBin := Assoc.find (lowered block) (ps "grpc-status-details-bin") } := by
    induction block using List.reverseRecOn with
    | nil => rfl
    | append_singleton block h ih =>
        rw [List.foldl_append, List.foldl_cons, List.foldl_nil, ih, lowered_concat,
          TrailerFields.add]
        simp only [Assoc.find_cons, eq_comm (b := lc h.1)]
        have hmessage : ps "grpc-message" ≠ ps "grpc-status" := by decide
        have hdetails : ps "grpc-status-details-bin" ≠ ps "grpc-status" := by decide
        have hbin : ps "grpc-status-details-bin" ≠ ps "grpc-message" := by decide
        -- the name is at most one of the three
        by_cases h1 : lc h.1 = ps "grpc-status"
        · simp [h1, hmessage.symm, hdetails.symm]
        by_cases h2 : lc h.1 = ps "grpc-message"
        · simp [h2, hmessage, hbin.symm]
        by_cases h3 : lc h.1 = ps "grpc-status-details-bin"
        · simp [h3, hdetails, hbin]
        simp [h1, h2, h3]
  rw [parseTrailers, hfields]
  rfl

theorem parseTrailers_hash (entries : Block) :
    parseTrailers (.hash entries) = infoOf (Assoc.find entries) := rfl

/-! ### Blocks with distinct names -/

/-- No two headers have the same name, in any spelling. -/
def DistinctNames (block : Block) : Prop := (block.map fun h => lc h.1).Nodup

theorem keys_lowered (block : Block) :
    Assoc.keys (lowered block) = (block.map fun h => lc h.1).reverse := by
  simp [lowered, Assoc.keys, Function.comp_def]

theorem nodup_keys_lowered {block : Block} (hnd : DistinctNames block) :
    (Assoc.keys (lowered block)).Nodup := by
  rw [keys_lowered]
  exact List.nodup_reverse.mpr hnd

theorem find_lowered {block : Block} (hnd : DistinctNames block) {name v : PerlStr} :
    Assoc.find (lowered block) name = some v ↔ ∃ h ∈ block, lc h.1 = name ∧ h.2 = v := by
  rw [Assoc.find_eq_some_iff (nodup_keys_lowered hnd)]
  simp only [lowered, List.mem_reverse, List.mem_map, Prod.mk.injEq]

theorem find_lowered_perm {block block' : Block} (hp : block.Perm block')
    (hnd : DistinctNames block) (name : PerlStr) :
    Assoc.find (lowered block) name = Assoc.find (lowered block') name := by
  have hlowered : (lowered block).Perm (lowered block') :=
    (List.reverse_perm _).trans ((hp.map _).trans (List.reverse_perm _).symm)
  exact Assoc.find_perm hlowered (nodup_keys_lowered hnd) name

/-- What a part has under a name is what the block has there. -/
theorem mem_part_of_find {block part : Block} (hnd : DistinctNames block)
    (hpart : part.Sublist block) {name v : PerlStr}
    (hfind : Assoc.find (lowered part) name = some v) {h : PerlStr × PerlStr} (hh : h ∈ block)
    (hname : lc h.1 = name) : h ∈ part ∧ h.2 = v := by
  have hndp : DistinctNames part := hnd.sublist (hpart.map _)
  obtain ⟨h', hh', hname', hv⟩ := (find_lowered hndp).mp hfind
  obtain rfl : h' = h :=
    List.inj_on_of_nodup_map hnd (hpart.subset hh') hh (hname'.trans hname.symm)
  exact ⟨hh', hv⟩

/-- A header read in a part of its block: the same as in the block, unless the part lacks
a header that is not the default. -/
theorem find_part {β : Type} (g : PerlStr → β) (b : β) (name : PerlStr) {block part : Block}
    (hnd : DistinctNames block) (hpart : part.Sublist block) :
    ((Assoc.find (lowered part) name).map g).getD b =
        ((Assoc.find (lowered block) name).map g).getD b ↔
      ∀ h ∈ block, lc h.1 = name → g h.2 ≠ b → h ∈ part := by
  have hndp : DistinctNames part := hnd.sublist (hpart.map _)
  constructor
  · intro heq h hh hname hne
    rw [(find_lowered hnd).mpr ⟨h, hh, hname, rfl⟩] at heq
    cases hfind : Assoc.find (lowered part) name with
    | none =>
        rw [hfind] at heq
        exact absurd heq.symm hne
    | some v => exact (mem_part_of_find hnd hpart hfind hh hname).1
  · intro hall
    cases hpartFind : Assoc.find (lowered part) name with
    | some v =>
        obtain ⟨h, hh, hname, rfl⟩ := (find_lowered hndp).mp hpartFind
        rw [(find_lowered hnd).mpr ⟨h, hpart.subset hh, hname, rfl⟩]
    | none =>
        cases hfind : Assoc.find (lowered block) name with
        | none => rfl
        | some v =>
            -- the part lacks the header, which can only be a default
            obtain ⟨h, hh, hname, rfl⟩ := (find_lowered hnd).mp hfind
            by_contra hne
            have hmem := hall h hh hname fun heq => hne (by simp [heq])
            rw [(find_lowered hndp).mpr ⟨h, hmem, hname, rfl⟩] at hpartFind
            cases hpartFind

/-! ### What a stream makes of reports -/

/-- The status of a stream, as `parse_trailers` would report it. -/
def Stream.info (s : Stream M) : TrailerInfo := ⟨s.status, s.statusMessage, s.statusDetails⟩

/-- A report to a stream whose callbacks only look on. -/
def report (S : Setup M) (w : World M) (r : Report) : World M := leaves (r.perform S onlookers) w

theorem report_trailers (S : Setup M) {w : World M} (hw : w.stream.state ≠ .closed) (t : Headers) :
    (report S w (.trailers t)).stream = { w.stream with
      status := (parseTrailers t).status
      statusMessage := (parseTrailers t).message
      statusDetails := (parseTrailers t).statusDetails.or w.stream.statusDetails } := by
  simp only [report, Report.perform, handleTrailers, leaves, unlessClosed_of_ne hw]
  cases hdetails : (parseTrailers t).statusDetails <;> cases hset : S.onTrailers <;> rfl

theorem report_headers (S : Setup M) (w : World M) (h : Headers) :
    (report S w (.headers h)).stream = { w.stream with headersReceived := true } := rfl

theorem report_close (S : Setup M) (w : World M) (code : ℕ) :
    (report S w (.close code)).stream = { w.stream with state := .closed } := by
  by_cases hw : w.stream.state = .closed
  · simp only [report, Report.perform, handleClose, leaves, unlessClosed_of_closed hw, ← hw]
  · simp only [report, Report.perform, handleClose, leaves, unlessClosed_of_ne hw]
    cases hset : S.onClose <;> rfl

/-! ### Deliveries -/

/-- `frame->headers.cat` -/
inductive HeaderCategory where
  | request
  | response
  | pushResponse
  | headers
  deriving DecidableEq

/-- `my_on_header_callback`: which callback one header goes to. -/
def onHeaderCallback (category : HeaderCategory) (header : PerlStr × PerlStr) : Report :=
  if category = .headers ∨ category = .response then .headers (.array [header])
  else .trailers (.array [header])

/-- The ways in which trailers come to a stream. -/
inductive Delivery where
  /-- by nghttp2, one header at a time -/
  | nghttp2 (category : HeaderCategory) (order : Block)
  /-- by the pure-Perl engine, as an array or as a hash -/
  | list (block : Block)
  | hash (entries : Block)
  /-- by several calls of the callback for trailers -/
  | parts (blocks : List Block)

namespace Delivery

/-- The reports of a delivery and of the close after it. -/
def reports : Delivery → List Report
  | .nghttp2 category order => order.map (onHeaderCallback category) ++ [.close 0]
  | .list block => [.trailers (.array block), .close 0]
  | .hash entries => [.trailers (.hash entries), .close 0]
  | .parts bs => (bs.map fun b => .trailers (.array b)) ++ [.close 0]

/-- The delivery carries the block. A response has the category `response`, its
trailers have `headers`. A hash keeps the last value of a name. Only a block with
distinct names is cut into parts. -/
def Carries (block : Block) : Delivery → Prop
  | .nghttp2 category order =>
      (category = .headers ∨ category = .response) ∧ order.Perm block
  | .list b => b = block
  | .hash entries => ∀ name, Assoc.find entries name = Assoc.find block.reverse name
  | .parts bs => bs ≠ [] ∧ bs.flatten.Perm block ∧ DistinctNames block

/-- The status in force after the delivery does not depend on what is lost in it: by
nghttp2 everything; in a hash, what is not spelled in lower case; of parts, the
status and message that are not in the last one. -/
def Spares (block : Block) : Delivery → Prop
  | .nghttp2 _ _ =>
      (∀ v ∈ Assoc.find (lowered block) (ps "grpc-status"), perlInt v = .fin 0) ∧
      (∀ v ∈ Assoc.find (lowered block) (ps "grpc-message"), v = []) ∧
      ∀ v ∈ Assoc.find (lowered block) (ps "grpc-status-details-bin"), v = []
  | .list _ => True
  | .hash _ => infoOf (Assoc.find block.reverse) = infoOf (Assoc.find (lowered block))
  | .parts bs => ∀ last ∈ bs.getLast?,
      (∀ h ∈ block, lc h.1 = ps "grpc-status" → perlInt h.2 ≠ .fin 0 → h ∈ last) ∧
      ∀ h ∈ block, lc h.1 = ps "grpc-message" → h.2 ≠ [] → h ∈ last

end Delivery

/-! ### Parts -/

/-- The name of the header with the details. -/
abbrev detailsBin : PerlStr := ps "grpc-status-details-bin"

/-- Of parts with distinct names, the details are kept wherever they come. -/
theorem run_parts (S : Setup M) {w : World M} (hw : w.stream.state ≠ .closed)
    (hnone : w.stream.statusDetails = none) {bs : List Block} (hnd : DistinctNames bs.flatten) :
    (run (report S) w (bs.map fun b => .trailers (.array b))).stream.state ≠ .closed ∧
      (run (report S) w (bs.map fun b => .trailers (.array b))).stream.statusDetails =
        (Assoc.find (lowered bs.flatten) detailsBin).bind fromTrailer := by
  induction bs using List.reverseRecOn with
  | nil => exact ⟨hw, hnone⟩
  | append_singleton bs b ih =>
      rw [List.flatten_append, List.flatten_singleton] at hnd ⊢
      have hndb : DistinctNames bs.flatten := hnd.sublist (List.sublist_append_left .. |>.map _)
      obtain ⟨hopen, hdetails⟩ := ih hndb
      rw [List.map_append, run_append, List.map_singleton, run_cons, run_nil,
        report_trailers S hopen]
      refine ⟨hopen, ?_⟩
      dsimp only
      rw [hdetails, parseTrailers_array]
      have hlowered : lowered (bs.flatten ++ b) = lowered b ++ lowered bs.flatten := by
        simp [lowered]
      rw [hlowered, Assoc.find_append]
      -- the details are in one part at most
      cases hb : Assoc.find (lowered b) detailsBin with
      | none => simp [infoOf, hb]
      | some v =>
          have hrest : Assoc.find (lowered bs.flatten) detailsBin = none := by
            rw [Assoc.find_eq_none_iff, keys_lowered, List.mem_reverse]
            intro hmem
            have hkey := Assoc.mem_keys_of_mem (Assoc.mem_of_find hb)
            rw [keys_lowered, List.mem_reverse] at hkey
            rw [DistinctNames, List.map_append, List.nodup_append] at hnd
            exact hnd.2.2 _ hmem _ hkey rfl
          simp [infoOf, hb, hrest]

/-! ### The status that arrives -/

/-- A stream that has seen no trailers. -/
structure Untouched (w : World M) : Prop where
  isOpen : w.stream.state ≠ .closed
  info : w.stream.info = ⟨.fin 0, [], none⟩

/-- After the delivery the stream shows what `parse_trailers` reads in the block. -/
def StatusReaches (S : Setup M) (w : World M) (block : Block) (d : Delivery) : Prop :=
  (run (report S) w d.reports).stream.info = parseTrailers (.array block)

/-- Closing the stream does not touch its status. -/
theorem info_close (S : Setup M) (w : World M) (reports : List Report) :
    (run (report S) w (reports ++ [.close 0])).stream.info =
      (run (report S) w reports).stream.info := by
  rw [run_append, run_cons, run_nil, report_close]
  rfl

theorem info_headers (S : Setup M) (w : World M) (order : Block) :
    (run (report S) w (order.map fun h => .headers (.array [h]))).stream.info = w.stream.info := by
  induction order generalizing w with
  | nil => rfl
  | cons h order ih =>
      rw [List.map_cons, run_cons, ih, report_headers]
      rfl

/-- The defaults are what a block says exactly when none of its three headers says
anything else. -/
theorem infoOf_eq_default {value : PerlStr → Option PerlStr} :
    (⟨.fin 0, [], none⟩ : TrailerInfo) = infoOf value ↔
      (∀ v ∈ value (ps "grpc-status"), perlInt v = .fin 0) ∧
      (∀ v ∈ value (ps "grpc-message"), v = []) ∧
      ∀ v ∈ value (ps "grpc-status-details-bin"), v = [] := by
  rw [infoOf, TrailerInfo.mk.injEq]
  refine and_congr ?_ (and_congr ?_ ?_)
  · cases value (ps "grpc-status") with
    | none => simp
    | some v => simp [eq_comm]
  · cases value (ps "grpc-message") with
    | none => simp
    | some v => simp [eq_comm]
  · cases value (ps "grpc-status-details-bin") with
    | none => simp
    | some v => simpa using eq_comm.trans fromTrailer_eq_none

theorem statusReaches_nghttp2 (S : Setup M) {w : World M} (hw : Untouched w) {block order : Block}
    {category : HeaderCategory} (hcat : category = .headers ∨ category = .response) :
    StatusReaches S w block (.nghttp2 category order) ↔
      (Delivery.nghttp2 category order).Spares block := by
  have hroute : order.map (onHeaderCallback category) =
      order.map fun h => .headers (.array [h]) := by
    simp [onHeaderCallback, hcat]
  rw [StatusReaches, Delivery.reports, info_close, hroute, info_headers, hw.info,
    parseTrailers_array]
  exact infoOf_eq_default

/-- Trailers that come at once. -/
theorem info_trailers (S : Setup M) {w : World M} (hw : Untouched w) (t : Headers) :
    (run (report S) w [.trailers t, .close 0]).stream.info = parseTrailers t := by
  have hdetails : w.stream.statusDetails = none := congrArg TrailerInfo.statusDetails hw.info
  rw [run_cons, run_cons, run_nil, report_close, report_trailers S hw.isOpen]
  simp [Stream.info, hdetails]

theorem statusReaches_parts (S : Setup M) {w : World M} (hw : Untouched w) {block : Block}
    {bs : List Block} (h : (Delivery.parts bs).Carries block) :
    StatusReaches S w block (.parts bs) ↔ (Delivery.parts bs).Spares block := by
  obtain ⟨hne, hperm, hnd⟩ := h
  have hndf : DistinctNames bs.flatten := (hperm.map _).nodup_iff.mpr hnd
  have hdetails : w.stream.statusDetails = none := congrArg TrailerInfo.statusDetails hw.info
  obtain ⟨-, hlastDetails⟩ := run_parts S hw.isOpen hdetails hndf
  have hlookup := find_lowered_perm hperm hndf
  rw [StatusReaches, Delivery.reports, info_close, parseTrailers_array]
  rcases List.eq_nil_or_concat bs with rfl | ⟨init, last, rfl⟩
  · exact absurd rfl hne
  rw [List.concat_eq_append] at hndf hperm hlastDetails hlookup ⊢
  have hsub : last.Sublist (init ++ [last]).flatten := by simp
  have hinit : DistinctNames init.flatten := by
    rw [List.flatten_append] at hndf
    exact hndf.sublist ((List.sublist_append_left ..).map _)
  obtain ⟨hopen, -⟩ := run_parts S hw.isOpen hdetails hinit
  -- the last part decides on status and message
  have hstream : (run (report S) w
      ((init ++ [last]).map fun b => .trailers (.array b))).stream.info =
      ⟨(parseTrailers (.array last)).status, (parseTrailers (.array last)).message,
        (Assoc.find (lowered (init ++ [last]).flatten) detailsBin).bind fromTrailer⟩ := by
    rw [Stream.info, hlastDetails, List.map_append, run_append, List.map_singleton, run_cons,
      run_nil, report_trailers S hopen]
  rw [hstream, parseTrailers_array, infoOf, infoOf, TrailerInfo.mk.injEq, ← hlookup, ← hlookup,
    ← hlookup]
  have hstatus := find_part perlInt (.fin 0) (ps "grpc-status") hndf hsub
  have hmessage := find_part id [] (ps "grpc-message") hndf hsub
  simp only [Option.map_id, id] at hmessage
  rw [hstatus, hmessage]
  simp only [Delivery.Spares, List.getLast?_concat, Option.mem_some_iff, forall_eq', hperm.mem_iff,
    and_true]

/-- For every delivery of every block: the server's status reaches the stream exactly
when what the delivery loses does not matter. -/
theorem statusReaches_iff (S : Setup M) (w : World M) (hw : Untouched w) (block : Block)
    (d : Delivery) (hd : d.Carries block) : StatusReaches S w block d ↔ d.Spares block := by
  cases d with
  | nghttp2 category order => exact statusReaches_nghttp2 S hw hd.1
  | list b =>
      obtain rfl : b = block := hd
      simp only [Delivery.Spares, iff_true]
      exact info_trailers S hw _
  | hash entries =>
      have hentries : Assoc.find entries = Assoc.find block.reverse := funext hd
      rw [StatusReaches, Delivery.reports, info_trailers S hw, parseTrailers_hash,
        parseTrailers_array, hentries]
      rfl
  | parts bs => exact statusReaches_parts S hw hd

/-- The pure-Perl engine, names spelled as they like. -/
theorem statusReaches_of_list :
    StatusReaches ({ parse := .ok } : Setup PerlStr) {}
      [(ps "Grpc-Message", ps "no"), (ps "grpc-STATUS", ps "5")]
      (.list [(ps "Grpc-Message", ps "no"), (ps "grpc-STATUS", ps "5")]) :=
  (statusReaches_iff _ _ ⟨by decide, rfl⟩ _ (.list _) rfl).mpr trivial

/-- By nghttp2 the status is lost; cut into two parts, the second one overwrites it. -/
theorem statusReaches_fails :
    ¬ StatusReaches ({ parse := .ok } : Setup PerlStr) {}
        [(ps "grpc-status", ps "5"), (ps "grpc-message", ps "no")]
        (.nghttp2 .headers [(ps "grpc-status", ps "5"), (ps "grpc-message", ps "no")]) ∧
    ¬ StatusReaches ({ parse := .ok } : Setup PerlStr) {}
        [(ps "grpc-status", ps "5"), (ps "grpc-message", ps "no")]
        (.parts [[(ps "grpc-status", ps "5")], [(ps "grpc-message", ps "no")]]) := by
  constructor
  · intro h
    have hmessage := congrArg TrailerInfo.message h
    exact absurd hmessage (by decide)
  · intro h
    have hstatus := congrArg TrailerInfo.status h
    exact absurd hstatus (by decide)

end GooglePerl.Grpc
