import GooglePerl.Grpc.Deadline
import GooglePerl.Lib.Assoc
import GooglePerl.Lib.Except

/-!
`Google::gRPC::ChannelPool`: the subchannels of a pool, and the key under which the traffic of a
subchannel is counted.

`_init_pool` makes a target from each endpoint and counts under the endpoint;
`_extract_ip_key` recovers a key from the target. The two agree for endpoints without a port
and without brackets, and for few others (`keepsKeys_iff`).
-/

namespace GooglePerl.Grpc

open GooglePerl.Lib
open GooglePerl.Protobuf (PerlStr ps Die)

/-! ### Regular expressions -/

/-- What `$` leaves out: a newline at the very end. -/
def beforeEnd (s : PerlStr) : PerlStr := if s.getLast? = some 10 then s.dropLast else s

/-- `[a-fA-F0-9:]` -/
def hexOrColon (c : ℕ) : Bool :=
  isDigit c || (97 ≤ c && c ≤ 102) || (65 ≤ c && c ≤ 70) || c == 58

namespace CharClasses

variable (cls : CharClasses)

/-- `^:(\d+)$` -/
def port : PerlStr → Option PerlStr
  | 58 :: s => if beforeEnd s ≠ [] ∧ (beforeEnd s).all cls.digit then some (beforeEnd s) else none
  | _ => none

/-- `^\[([a-fA-F0-9:]+)\](?::(\d+))?$` -/
def bracketed : PerlStr → Option (PerlStr × Option PerlStr)
  | 91 :: s =>
      match s.takeWhile hexOrColon, s.dropWhile hexOrColon with
      | [], _ => none
      | addr, 93 :: rest =>
          if beforeEnd rest = [] then some (addr, none)
          else (cls.port rest).map fun port => (addr, some port)
      | _, _ => none
  | _ => none

/-- `^([^:]+):(\d+)$` -/
def hostPort (s : PerlStr) : Option (PerlStr × PerlStr) :=
  if s.takeWhile (· ≠ 58) = [] then none
  else (cls.port (s.dropWhile (· ≠ 58))).map fun port => (s.takeWhile (· ≠ 58), port)

/-- `:\d+$` -/
def endsWithPort (s : PerlStr) : Bool :=
  (beforeEnd s).reverse.takeWhile cls.digit ≠ [] &&
    ((beforeEnd s).reverse.dropWhile cls.digit).head? == some 58

end CharClasses

/-! ### The source -/

structure Metrics where
  requests : ℕ := 0
  bytesSent : ℕ := 0
  bytesReceived : ℕ := 0
  totalBytes : ℕ := 0
  target : PerlStr
  deriving DecidableEq

structure ChannelPool where
  subchannels : List Channel
  rrIndex : ℕ := 0
  metrics : List (PerlStr × Metrics)

variable (cls : CharClasses)

/-- The host and the port of the pool's target. -/
def targetParts (target : PerlStr) : PerlStr × PerlStr :=
  match cls.bracketed target with
  | some (host, port) => (host, (port.filter truthy).getD (ps "443"))
  | none =>
      match cls.hostPort target with
      | some parts => parts
      | none => (target, ps "443")

/-- `@ips`: the endpoints that were given, else the addresses that the target's host has, else
the host itself. -/
def poolIps (target : PerlStr) (resolvedIps addresses : List PerlStr) : List PerlStr :=
  if resolvedIps ≠ [] then resolvedIps
  else
    let ips := (addresses.filter truthy).eraseDups
    if ips ≠ [] then ips else [(targetParts cls target).1]

/-- `$sub_target` -/
def subTarget (ip port : PerlStr) : PerlStr :=
  if ip.contains 58 ∧ ip.head? ≠ some 91 then ps "[" ++ ip ++ ps "]:" ++ port
  else if cls.endsWithPort ip then ip
  else ip ++ ps ":" ++ port

/-- `_init_pool`, where `addresses` is what `getaddrinfo` and `getnameinfo` find. -/
def initPool (target : PerlStr) (authToken engineType : Option PerlStr) (xsAvailable : Bool)
    (resolvedIps addresses : List PerlStr) : Except Die ChannelPool := do
  let ips := poolIps cls target resolvedIps addresses
  let port := (targetParts cls target).2
  let subchannels ← ips.mapM fun ip =>
    Channel.build (subTarget cls ip port) (authToken.filter truthy) (engineType.filter truthy)
      xsAvailable
  return {
    subchannels
    metrics := Assoc.assignAll [] (ips.map fun ip => (ip, { target := subTarget cls ip port })) }

/-- `_extract_ip_key` -/
def extractIpKey (channelTarget : PerlStr) : PerlStr :=
  match cls.bracketed channelTarget with
  | some (addr, _) => addr
  | none =>
      match cls.hostPort channelTarget with
      | some (host, _) => host
      | none => channelTarget

/-- A change of one entry, which is made where there is none. -/
def record (metrics : List (PerlStr × Metrics)) (ipKey : PerlStr) (change : Metrics → Metrics) :
    List (PerlStr × Metrics) :=
  Assoc.store metrics ipKey (change ((Assoc.find metrics ipKey).getD { target := ipKey }))

namespace ChannelPool

/-- `record_request` -/
def recordRequest (pool : ChannelPool) (ipKey : PerlStr) (bytes : ℕ) : ChannelPool :=
  { pool with
    metrics := record pool.metrics ipKey fun m =>
      { m with
        requests := m.requests + 1
        bytesSent := m.bytesSent + bytes
        totalBytes := m.totalBytes + bytes } }

/-- `record_response` -/
def recordResponse (pool : ChannelPool) (ipKey : PerlStr) (bytes : ℕ) : ChannelPool :=
  { pool with
    metrics := record pool.metrics ipKey fun m =>
      { m with
        bytesReceived := m.bytesReceived + bytes
        totalBytes := m.totalBytes + bytes } }

end ChannelPool

/-! ### Endpoints -/

/-- A port as it is written. -/
def IsPort (p : PerlStr) : Prop := p ≠ [] ∧ ∀ c ∈ p, isDigit c = true

/-- A host name or an IPv4 address. -/
def IsName (h : PerlStr) : Prop := h ≠ [] ∧ ∀ c ∈ h, c ≠ 58 ∧ c ≠ 91 ∧ c ≠ 93 ∧ c ≠ 10

/-- An IPv6 address in any form, a zone included. -/
def IsIpv6 (a : PerlStr) : Prop := 58 ∈ a ∧ ∀ c ∈ a, c ≠ 91 ∧ c ≠ 93 ∧ c ≠ 10

/-- A host, or an IPv6 address in brackets, with or without a port. -/
inductive Authority where
  | name (host : PerlStr) (port : Option PerlStr)
  | ipv6 (addr : PerlStr) (port : Option PerlStr)

def portText : Option PerlStr → PerlStr
  | none => []
  | some p => 58 :: p

namespace Authority

def text : Authority → PerlStr
  | .name host port => host ++ portText port
  | .ipv6 addr port => 91 :: (addr ++ 93 :: portText port)

def port : Authority → Option PerlStr
  | .name _ port => port
  | .ipv6 _ port => port

def Valid (a : Authority) : Prop :=
  (match a with
    | .name host _ => IsName host
    | .ipv6 addr _ => IsIpv6 addr) ∧ ∀ p ∈ a.port, IsPort p

/-- The port is read from the target. -/
def PortKept : Authority → Prop
  | .name _ _ => True
  | .ipv6 addr port =>
      ∀ p ∈ port, if addr.all hexOrColon then p ≠ ps "0" else p = ps "443"

end Authority

/-- What a pool connects to: also an IPv6 address without brackets. -/
inductive Endpoint where
  | authority (a : Authority)
  | bareIpv6 (addr : PerlStr)

namespace Endpoint

def text : Endpoint → PerlStr
  | .authority a => a.text
  | .bareIpv6 addr => addr

def Valid : Endpoint → Prop
  | .authority a => a.Valid
  | .bareIpv6 addr => IsIpv6 addr

/-- `host:port` or `[ipv6]:port`, with this port for an endpoint that has none. -/
def denoted (port : PerlStr) : Endpoint → PerlStr
  | .authority (.name host own) => host ++ 58 :: own.getD port
  | .authority (.ipv6 addr own) => 91 :: (addr ++ 93 :: 58 :: own.getD port)
  | .bareIpv6 addr => 91 :: (addr ++ 93 :: 58 :: port)

/-- The target of the subchannel is right, and its key is the endpoint. -/
def Fits (target : Authority) : Endpoint → Prop
  | .authority (.name _ none) => target.PortKept
  | .authority (.name _ (some _)) => False
  | .authority (.ipv6 _ none) => False
  | .authority (.ipv6 addr (some _)) => addr.all hexOrColon = false
  | .bareIpv6 addr => addr.all hexOrColon = true ∧ target.PortKept

end Endpoint

/-! ### What the expressions match -/

theorem beforeEnd_of_ne {s : PerlStr} (h : ∀ c ∈ s.getLast?, c ≠ 10) : beforeEnd s = s := by
  rw [beforeEnd, if_neg]
  exact fun hlast => h 10 hlast rfl

theorem mem_beforeEnd {s : PerlStr} {c : ℕ} (h : c ∈ s) (hc : c ≠ 10) : c ∈ beforeEnd s := by
  rw [beforeEnd]
  split
  · rename_i hlast
    obtain ⟨init, rfl⟩ := List.getLast?_eq_some_iff.mp hlast
    rw [List.dropLast_concat]
    rcases List.mem_append.mp h with h | h
    · exact h
    · exact absurd (List.mem_singleton.mp h) hc
  · exact h

theorem IsPort.beforeEnd {p : PerlStr} (h : IsPort p) (front : PerlStr) :
    beforeEnd (front ++ p) = front ++ p := by
  refine beforeEnd_of_ne fun c hc => ?_
  rw [List.getLast?_append_of_ne_nil _ h.1] at hc
  have hdigit := h.2 c (List.mem_of_getLast? hc)
  rintro rfl
  cases hdigit

theorem isPort_443 : IsPort (ps "443") := ⟨by decide, by decide⟩

namespace CharClasses

theorem port_of_isPort {p : PerlStr} (h : IsPort p) : cls.port (58 :: p) = some p := by
  have hend : beforeEnd p = p := h.beforeEnd []
  rw [port, hend, if_pos ⟨h.1, List.all_eq_true.mpr fun c hc => cls.digit_of_isDigit (h.2 c hc)⟩]

theorem bracketed_of_ne {s : PerlStr} (h : s.head? ≠ some 91) : cls.bracketed s = none := by
  unfold bracketed
  split
  · exact absurd rfl h
  · rfl

/-- Hexadecimal digits and colons up to the bracket. -/
theorem bracketed_of_all {addr : PerlStr} (hne : addr ≠ []) (hall : addr.all hexOrColon = true)
    {own : Option PerlStr} (hport : ∀ p ∈ own, IsPort p) :
    cls.bracketed (91 :: (addr ++ 93 :: portText own)) = some (addr, own) := by
  have hall' := List.all_eq_true.mp hall
  have hstop : hexOrColon 93 = false := rfl
  have htake : (addr ++ 93 :: portText own).takeWhile hexOrColon = addr := by
    rw [List.takeWhile_append_of_pos hall', List.takeWhile_cons, hstop]
    exact List.append_nil _
  have hdrop : (addr ++ 93 :: portText own).dropWhile hexOrColon = 93 :: portText own := by
    rw [List.dropWhile_append_of_pos hall', List.dropWhile_cons, hstop]
    rfl
  obtain ⟨c, addr, rfl⟩ := List.exists_cons_of_ne_nil hne
  rw [bracketed, htake, hdrop]
  cases own with
  | none => rfl
  | some p =>
      have hp := hport p rfl
      have hend : beforeEnd (58 :: p) = 58 :: p := hp.beforeEnd [58]
      simp only [portText, cls.port_of_isPort hp, hend]
      rfl

/-- Another character in the address. -/
theorem bracketed_of_not_all {addr : PerlStr} (hall : addr.all hexOrColon = false)
    (hclose : 93 ∉ addr) (rest : PerlStr) :
    cls.bracketed (91 :: (addr ++ 93 :: rest)) = none := by
  obtain ⟨c, hc, htail⟩ : ∃ c ∈ addr, (addr ++ 93 :: rest).dropWhile hexOrColon =
      c :: ((addr ++ 93 :: rest).dropWhile hexOrColon).tail := by
    have hne : addr.dropWhile hexOrColon ≠ [] := by
      intro hnil
      have htrue := List.all_eq_true.mpr (List.dropWhile_eq_nil_iff.mp hnil)
      rw [hall] at htrue
      cases htrue
    obtain ⟨c, t, hct⟩ := List.exists_cons_of_ne_nil hne
    refine ⟨c, (List.dropWhile_sublist _).mem (hct ▸ List.mem_cons_self), ?_⟩
    rw [List.dropWhile_append, hct]
    rfl
  have hne : c ≠ 93 := fun h => hclose (h ▸ hc)
  rw [bracketed, htail]
  cases (addr ++ 93 :: rest).takeWhile hexOrColon with
  | nil => rfl
  | cons x xs =>
      split
      · rename_i heq
        exact absurd heq (List.cons_ne_nil x xs)
      · rename_i heq _
        exact absurd (List.cons.inj heq).1 hne
      · rfl

theorem hostPort_name {host p : PerlStr} (hhost : IsName host) (hp : IsPort p) :
    cls.hostPort (host ++ 58 :: p) = some (host, p) := by
  have hall : ∀ c ∈ host, decide (c ≠ 58) = true := fun c hc => decide_eq_true (hhost.2 c hc).1
  have htake : (host ++ 58 :: p).takeWhile (· ≠ 58) = host := by
    rw [List.takeWhile_append_of_pos hall]
    simp
  have hdrop : (host ++ 58 :: p).dropWhile (· ≠ 58) = 58 :: p := by
    rw [List.dropWhile_append_of_pos hall]
    simp
  rw [hostPort, htake, hdrop, if_neg hhost.1, cls.port_of_isPort hp]
  rfl

theorem hostPort_of_not_mem {s : PerlStr} (h : 58 ∉ s) : cls.hostPort s = none := by
  have hdrop : s.dropWhile (· ≠ 58) = [] := by
    rw [List.dropWhile_eq_nil_iff]
    exact fun c hc => decide_eq_true fun heq => h (heq ▸ hc)
  rw [hostPort, hdrop]
  split <;> rfl

theorem port_of_mem {s : PerlStr} (h : 93 ∈ s) (x : ℕ) : cls.port (x :: s) = none := by
  have hdigit : cls.digit 93 = false := cls.digit_ascii 93 (by decide)
  unfold port
  split
  · rename_i t heq
    rw [(List.cons.inj heq).2] at h
    refine if_neg fun hall => ?_
    have htrue := List.all_eq_true.mp hall.2 93 (mem_beforeEnd h (by decide))
    rw [hdigit] at htrue
    cases htrue
  · rfl

/-- Behind the first colon of an address in brackets there are not only digits. -/
theorem hostPort_brackets {addr : PerlStr} (h : 58 ∈ addr) (rest : PerlStr) :
    cls.hostPort (91 :: (addr ++ 93 :: rest)) = none := by
  have hne : (91 :: addr).dropWhile (· ≠ 58) ≠ [] := by
    intro hnil
    have hall := List.dropWhile_eq_nil_iff.mp hnil 58 (List.mem_cons_of_mem _ h)
    cases hall
  obtain ⟨x, t, hxt⟩ := List.exists_cons_of_ne_nil hne
  have hdrop : (91 :: (addr ++ 93 :: rest)).dropWhile (· ≠ 58) = x :: (t ++ 93 :: rest) := by
    rw [← List.cons_append, List.dropWhile_append, hxt]
    rfl
  rw [hostPort, hdrop, cls.port_of_mem (by simp)]
  split <;> rfl

theorem endsWithPort_of_isPort {p : PerlStr} (h : IsPort p) (front : PerlStr) :
    cls.endsWithPort (front ++ 58 :: p) = true := by
  have hend : beforeEnd (front ++ 58 :: p) = front ++ 58 :: p := by
    have heq := h.beforeEnd (front ++ [58])
    rwa [List.append_assoc, List.singleton_append] at heq
  have hreverse : (front ++ 58 :: p).reverse = p.reverse ++ 58 :: front.reverse := by simp
  have hdigits : ∀ c ∈ p.reverse, cls.digit c = true := fun c hc =>
    cls.digit_of_isDigit (h.2 c (List.mem_reverse.mp hc))
  obtain ⟨htake, hdrop⟩ := cls.dropWhile_digits (58 :: front.reverse) hdigits fun c hc => by
      obtain rfl : 58 = c := Option.some.inj hc
      exact cls.digit_ascii 58 (by decide)
  have hne : p.reverse ≠ [] := by simpa using h.1
  rw [endsWithPort, hend, hreverse, htake, hdrop]
  simp [hne]

theorem endsWithPort_bracket (front : PerlStr) : cls.endsWithPort (front ++ [93]) = false := by
  have hdigit : cls.digit 93 = false := cls.digit_ascii 93 (by decide)
  have hend : beforeEnd (front ++ [93]) = front ++ [93] :=
    beforeEnd_of_ne fun c hc => by
      rw [List.getLast?_append, List.getLast?_singleton, Option.some_or] at hc
      obtain rfl : 93 = c := Option.some.inj hc
      decide
  rw [endsWithPort, hend, List.reverse_append]
  simp [hdigit]

theorem endsWithPort_of_not_mem {s : PerlStr} (h : 58 ∉ s) : cls.endsWithPort s = false := by
  have hend : 58 ∉ beforeEnd s := by
    rw [beforeEnd]
    split
    · exact fun hmem => h (List.mem_of_mem_dropLast hmem)
    · exact h
  have hhead : ((beforeEnd s).reverse.dropWhile cls.digit).head? ≠ some 58 := by
    intro hhead
    have hmem := (List.dropWhile_sublist cls.digit).mem (List.mem_of_head? hhead)
    exact hend (List.mem_reverse.mp hmem)
  rw [endsWithPort]
  simp [hhead]

end CharClasses

/-! ### Targets and keys -/

theorem IsName.head?_ne {h : PerlStr} (hh : IsName h) (rest : PerlStr) :
    (h ++ rest).head? ≠ some 91 := by
  obtain ⟨c, h, rfl⟩ := List.exists_cons_of_ne_nil hh.1
  exact fun heq => (hh.2 c List.mem_cons_self).2.1 (Option.some.inj heq)

theorem IsIpv6.ne_nil {a : PerlStr} (h : IsIpv6 a) : a ≠ [] := by
  rintro rfl
  exact absurd h.1 List.not_mem_nil

theorem extractIpKey_name {host p : PerlStr} (hhost : IsName host) (hp : IsPort p) :
    extractIpKey cls (host ++ 58 :: p) = host := by
  rw [extractIpKey, cls.bracketed_of_ne (hhost.head?_ne _), cls.hostPort_name hhost hp]

/-- An address in brackets is a key if it has hexadecimal digits and colons only; else the whole
target is the key. -/
theorem extractIpKey_brackets {addr p : PerlStr} (haddr : IsIpv6 addr) (hp : IsPort p) :
    extractIpKey cls (91 :: (addr ++ 93 :: 58 :: p)) =
      if addr.all hexOrColon then addr else 91 :: (addr ++ 93 :: 58 :: p) := by
  by_cases hall : addr.all hexOrColon = true
  · have hport : ∀ q ∈ some p, IsPort q := fun q hq => Option.some.inj hq ▸ hp
    have hmatch := cls.bracketed_of_all haddr.ne_nil hall hport
    rw [portText] at hmatch
    rw [extractIpKey, hmatch, if_pos hall]
  · rw [extractIpKey,
      cls.bracketed_of_not_all (by simpa using hall) fun h => (haddr.2 93 h).2.1 rfl,
      cls.hostPort_brackets haddr.1, if_neg hall]

/-- The port of the target, where it is read. -/
theorem targetParts_port {target : Authority} (h : target.Valid) :
    IsPort (targetParts cls target.text).2 ∧
      ((targetParts cls target.text).2 = target.port.getD (ps "443") ↔ target.PortKept) := by
  obtain ⟨hhost, hport⟩ := h
  cases target with
  | name host own =>
      have hne := cls.bracketed_of_ne (hhost.head?_ne (portText own))
      rw [Authority.text, targetParts, hne]
      cases own with
      | none =>
          have hcolon : 58 ∉ host ++ portText none := by
            rw [portText, List.append_nil]
            exact fun hmem => (hhost.2 58 hmem).1 rfl
          rw [cls.hostPort_of_not_mem hcolon]
          exact ⟨isPort_443, iff_of_true rfl trivial⟩
      | some p =>
          rw [portText, cls.hostPort_name hhost (hport p rfl)]
          exact ⟨hport p rfl, iff_of_true rfl trivial⟩
  | ipv6 addr own =>
      rw [Authority.text, targetParts, Authority.PortKept, Authority.port]
      rw [Authority.port] at hport
      by_cases hall : addr.all hexOrColon = true
      · rw [cls.bracketed_of_all hhost.ne_nil hall hport]
        cases own with
        | none => exact ⟨isPort_443, iff_of_true rfl fun p hp => by cases hp⟩
        | some p =>
            have hp : IsPort p := hport p rfl
            -- `$2 || 443`: the port 0 is false
            by_cases hzero : p = ps "0"
            · subst hzero
              refine ⟨isPort_443, iff_of_false (show ps "443" ≠ ps "0" by decide) fun h => ?_⟩
              have hne := h (ps "0") rfl
              rw [if_pos hall] at hne
              exact hne rfl
            · have htrue : truthy p = true := by simp [truthy, hp.1, hzero]
              have hkeep : ((some p).filter truthy).getD (ps "443") = p := by
                rw [Option.filter_some, if_pos htrue]
                rfl
              dsimp only
              rw [hkeep]
              refine ⟨hp, iff_of_true rfl fun q hq => ?_⟩
              rw [if_pos hall, ← Option.some.inj hq]
              exact hzero
      -- a zone in the brackets: no pattern matches, and the port is lost
      · rw [cls.bracketed_of_not_all (by simpa using hall) fun h => (hhost.2 93 h).2.1 rfl,
          cls.hostPort_brackets hhost.1]
        refine ⟨isPort_443, ?_⟩
        cases own with
        | none => exact iff_of_true rfl fun p hp => by cases hp
        | some p => simp [hall, eq_comm]

theorem subTarget_bare {addr : PerlStr} (h : IsIpv6 addr) (port : PerlStr) :
    subTarget cls addr port = 91 :: (addr ++ 93 :: 58 :: port) := by
  have hhead : addr.head? ≠ some 91 := fun hhead => (h.2 91 (List.mem_of_head? hhead)).1 rfl
  rw [subTarget, if_pos ⟨List.contains_iff_mem.mpr h.1, hhead⟩]
  simp [ps]

theorem subTarget_name {host : PerlStr} (h : IsName host) (port : PerlStr) :
    subTarget cls host port = host ++ 58 :: port := by
  have hcolon : 58 ∉ host := fun hmem => (h.2 58 hmem).1 rfl
  have hcontains : ¬ host.contains 58 = true := by simpa using hcolon
  rw [subTarget, if_neg fun hif => hcontains hif.1, cls.endsWithPort_of_not_mem hcolon]
  simp [ps]

/-- A name with a port is taken for an IPv6 address. -/
theorem subTarget_namePort {host : PerlStr} (h : IsName host) (p port : PerlStr) :
    (subTarget cls (host ++ 58 :: p) port).head? = some 91 := by
  have hcontains : (host ++ 58 :: p).contains 58 = true := by simp
  rw [subTarget, if_pos ⟨hcontains, h.head?_ne _⟩]
  rfl

theorem subTarget_brackets {addr : PerlStr} {own : Option PerlStr} (hown : ∀ p ∈ own, IsPort p)
    (port : PerlStr) :
    subTarget cls (91 :: (addr ++ 93 :: portText own)) port =
      91 :: (addr ++ 93 :: 58 :: own.getD port) := by
  rw [subTarget, if_neg fun hif => hif.2 rfl]
  cases own with
  | none =>
      have hends := cls.endsWithPort_bracket (91 :: addr)
      rw [List.cons_append] at hends
      rw [portText, hends]
      simp [ps]
  | some p =>
      have hends := cls.endsWithPort_of_isPort (hown p rfl) (91 :: (addr ++ [93]))
      rw [List.cons_append, List.append_assoc, List.singleton_append] at hends
      rw [portText, hends]
      rfl

/-- The target and the key of one endpoint. -/
theorem fits_iff {target : Authority} (htarget : target.Valid) {e : Endpoint} (he : e.Valid) :
    (subTarget cls e.text (targetParts cls target.text).2 =
        e.denoted (target.port.getD (ps "443")) ∧
      extractIpKey cls (subTarget cls e.text (targetParts cls target.text).2) = e.text) ↔
        e.Fits target := by
  obtain ⟨hport, hkept⟩ := targetParts_port cls htarget
  generalize (targetParts cls target.text).2 = port at hport hkept
  -- brackets and a port make a text longer
  have hlonger (addr p : PerlStr) : 91 :: (addr ++ 93 :: 58 :: p) ≠ addr := by
    intro heq
    have hlen := congrArg List.length heq
    simp only [List.length_cons, List.length_append] at hlen
    omega
  cases e with
  | bareIpv6 addr =>
      rw [Endpoint.text, subTarget_bare cls he, extractIpKey_brackets cls he hport,
        Endpoint.denoted, Endpoint.Fits, ← hkept, and_comm]
      refine and_congr ?_ (by simp)
      by_cases hall : addr.all hexOrColon = true
      · simp [hall]
      · simp [hall, hlonger]
  | authority a =>
      cases a with
      | name host own =>
          have hhost : IsName host := he.1
          cases own with
          | none =>
              rw [Endpoint.text, Authority.text, portText, List.append_nil,
                subTarget_name cls hhost, extractIpKey_name cls hhost hport, Endpoint.denoted,
                Endpoint.Fits, ← hkept]
              simp
          | some p =>
              -- the port of the endpoint is not looked for, and another is put behind it
              refine iff_of_false (fun h => ?_) id
              have hhead := subTarget_namePort cls hhost p port
              rw [Endpoint.text, Authority.text, portText, Endpoint.denoted] at h
              rw [h.1] at hhead
              exact hhost.head?_ne _ hhead
      | ipv6 addr own =>
          have haddr : IsIpv6 addr := he.1
          have hown : ∀ p ∈ own, IsPort p := he.2
          rw [Endpoint.text, Authority.text, subTarget_brackets cls hown, Endpoint.denoted]
          cases own with
          | none =>
              refine iff_of_false (fun h => ?_) id
              have hkey := h.2
              rw [Option.getD_none, extractIpKey_brackets cls haddr hport, portText] at hkey
              have hlen := congrArg List.length hkey
              split at hlen
              all_goals
                simp only [List.length_cons, List.length_append, List.length_nil] at hlen
                omega
          | some p =>
              rw [Option.getD_some, extractIpKey_brackets cls haddr (hown p rfl), Endpoint.Fits,
                portText]
              by_cases hall : addr.all hexOrColon = true
              · simp [hall, (hlonger addr p).symm]
              · simp [hall]

/-! ### The pool -/

theorem build_target {target : PerlStr} {authToken engineType : Option PerlStr}
    {xsAvailable : Bool} {ch : Channel}
    (h : Channel.build target authToken engineType xsAvailable = .ok ch) : ch.target = target := by
  rw [Channel.build] at h
  cases hengine : Engine.create (engineType.filter truthy) xsAvailable with
  | error e =>
      rw [hengine] at h
      cases h
  | ok engine =>
      rw [hengine] at h
      rw [← Except.ok.inj h]

theorem targets_of_build {target : PerlStr → PerlStr} {authToken engineType : Option PerlStr}
    {xsAvailable : Bool} {ips : List PerlStr} {chs : List Channel}
    (h : (ips.mapM fun ip => Channel.build (target ip) authToken engineType xsAvailable) =
      .ok chs) : chs.map Channel.target = ips.map target := by
  induction ips generalizing chs with
  | nil =>
      rw [← Except.ok.inj h]
      rfl
  | cons ip ips ih =>
      rw [List.mapM_cons] at h
      obtain ⟨ch, hbuild, h⟩ := bind_eq_ok.mp h
      obtain ⟨rest, hrest, h⟩ := bind_eq_ok.mp h
      rw [← Except.ok.inj h, List.map_cons, ih hrest, build_target hbuild, List.map_cons]

/-- The subchannels and the entries of a new pool. -/
theorem initPool_spec {target : PerlStr} {authToken engineType : Option PerlStr}
    {xsAvailable : Bool} {resolvedIps addresses : List PerlStr} {pool : ChannelPool}
    (h : initPool cls target authToken engineType xsAvailable resolvedIps addresses = .ok pool) :
    pool.subchannels.map Channel.target =
        (poolIps cls target resolvedIps addresses).map
          (fun ip => subTarget cls ip (targetParts cls target).2) ∧
      pool.metrics = Assoc.assignAll [] ((poolIps cls target resolvedIps addresses).map
        fun ip => (ip, { target := subTarget cls ip (targetParts cls target).2 })) ∧
      pool.rrIndex = 0 := by
  rw [initPool] at h
  cases hsub : (poolIps cls target resolvedIps addresses).mapM fun ip =>
      Channel.build (subTarget cls ip (targetParts cls target).2) (authToken.filter truthy)
        (engineType.filter truthy) xsAvailable with
  | error e =>
      rw [hsub] at h
      cases h
  | ok chs =>
      rw [hsub] at h
      rw [← Except.ok.inj h]
      exact ⟨targets_of_build hsub, rfl, rfl⟩

/-- Every subchannel has the target that its endpoint denotes, is counted under its endpoint,
and adds no entry whatever was counted before. -/
structure KeepsKeys (pool : ChannelPool) (port : PerlStr) (es : List Endpoint) : Prop where
  targets : pool.subchannels.map Channel.target = es.map (Endpoint.denoted port)
  keys : pool.subchannels.map (fun ch => extractIpKey cls ch.target) = es.map Endpoint.text
  entries : ∀ metrics, Assoc.keys metrics = Assoc.keys pool.metrics → ∀ ch ∈ pool.subchannels,
    ∀ change, Assoc.keys (record metrics (extractIpKey cls ch.target) change) = Assoc.keys metrics

theorem keys_record {metrics : List (PerlStr × Metrics)} {ipKey : PerlStr}
    (h : ipKey ∈ Assoc.keys metrics) (change : Metrics → Metrics) :
    Assoc.keys (record metrics ipKey change) = Assoc.keys metrics := by
  cases hfind : Assoc.find metrics ipKey with
  | none => exact absurd h (Assoc.find_eq_none_iff.mp hfind)
  | some m => exact Assoc.keys_store_of_find _ hfind

/-- A pool keeps its keys exactly if every endpoint fits. -/
theorem keepsKeys_iff (target : Authority) (htarget : target.Valid)
    (authToken engineType : Option PerlStr) (xsAvailable : Bool)
    (resolvedIps addresses : List PerlStr) (es : List Endpoint) (hes : ∀ e ∈ es, e.Valid)
    (hips : poolIps cls target.text resolvedIps addresses = es.map Endpoint.text)
    (pool : ChannelPool)
    (hpool : initPool cls target.text authToken engineType xsAvailable resolvedIps addresses =
      .ok pool) :
    KeepsKeys cls pool (target.port.getD (ps "443")) es ↔ ∀ e ∈ es, e.Fits target := by
  obtain ⟨hsub, hmetrics, -⟩ := initPool_spec cls hpool
  rw [hips, List.map_map] at hsub
  have hkeys : pool.subchannels.map (fun ch => extractIpKey cls ch.target) =
      es.map fun e => extractIpKey cls (subTarget cls e.text (targetParts cls target.text).2) := by
    have hmap := congrArg (List.map (extractIpKey cls)) hsub
    rwa [List.map_map, List.map_map] at hmap
  constructor
  · intro h e he
    have htargets := h.targets
    have hkept := h.keys
    rw [hsub] at htargets
    rw [hkeys] at hkept
    exact (fits_iff cls htarget (hes e he)).mp
      ⟨List.map_inj_left.mp htargets e he, List.map_inj_left.mp hkept e he⟩
  · intro h
    have hfit (e : Endpoint) (he : e ∈ es) := (fits_iff cls htarget (hes e he)).mpr (h e he)
    -- no key is new to the metrics, so that recording keeps the keys
    have hkept : pool.subchannels.map (fun ch => extractIpKey cls ch.target) =
        es.map Endpoint.text :=
      hkeys.trans (List.map_congr_left fun e he => (hfit e he).2)
    refine ⟨hsub.trans (List.map_congr_left fun e he => (hfit e he).1), hkept, ?_⟩
    intro metrics hsame ch hch change
    refine keys_record ?_ change
    have hmem : extractIpKey cls ch.target ∈ es.map Endpoint.text :=
      hkept ▸ List.mem_map_of_mem hch
    rw [hsame, hmetrics, Assoc.mem_keys_assignAll, hips]
    refine .inr ?_
    rw [Assoc.keys, List.map_map, List.map_map]
    simpa using hmem

/-- The target `spanner:443`. -/
def spanner : Authority := .name (ps "spanner") (some (ps "443"))

def namedPool : ChannelPool where
  subchannels := [{ target := ps "10.0.0.1:443", engine := .pp }]
  metrics := [(ps "10.0.0.1", { target := ps "10.0.0.1:443" })]

theorem keepsKeys_iff_namedPool :
    KeepsKeys asciiClasses namedPool (ps "443") [.authority (.name (ps "10.0.0.1") none)] ↔
      ∀ e ∈ [Endpoint.authority (.name (ps "10.0.0.1") none)], e.Fits spanner := by
  have hname {h : PerlStr} (hne : h ≠ []) (hall : ∀ c ∈ h, c ≠ 58 ∧ c ≠ 91 ∧ c ≠ 93 ∧ c ≠ 10)
      {own : Option PerlStr} (hown : ∀ p ∈ own, IsPort p) : (Authority.name h own).Valid :=
    ⟨⟨hne, hall⟩, hown⟩
  refine keepsKeys_iff asciiClasses spanner (hname (by decide) (by decide) fun p hp => ?_) none
    none false [ps "10.0.0.1"] [] [.authority (.name (ps "10.0.0.1") none)] (fun e he => ?_) rfl
    namedPool rfl
  · rw [← Option.some.inj hp]
    exact isPort_443
  · rw [List.mem_singleton.mp he]
    exact hname (by decide) (by decide) fun p hp => by cases hp

/-- An endpoint with a port of its own becomes an IPv6 address in brackets. -/
theorem not_keepsKeys_hostPort :
    ∃ pool, initPool asciiClasses (ps "spanner:443") none none false [ps "10.0.0.1:50051"] [] =
        .ok pool ∧
      ¬ KeepsKeys asciiClasses pool (ps "443")
        [.authority (.name (ps "10.0.0.1") (some (ps "50051")))] := by
  refine ⟨_, rfl, fun h => ?_⟩
  have htargets := h.targets
  revert htargets
  decide

end GooglePerl.Grpc
