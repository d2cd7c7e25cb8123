import GooglePerl.Lib.Ring
import GooglePerl.Lib.Run
import GooglePerl.Protobuf.Value
import GooglePerl.Xs.ObjCache

/-!
The audit log of `xs/protobuf/obj_cache.c`: the last events of the object cache,
in a ring buffer with the type, the pointer and the time of each.

`PerlUpb_ObjCache_LogEvent` does nothing before `ensure_mutexes_init` has run,
and `PerlUpb_ObjCache_Clear` sets the head and the count back without touching
the entries. What `time(NULL)` gives comes with the call, and how `%p` writes a
pointer is the C library's.
-/

namespace GooglePerl.Xs

open GooglePerl.Lib
open GooglePerl.Protobuf (PerlStr ps)

/-- `AUDIT_LOG_SIZE` -/
def auditLogSize : ℕ := 2048

/-- `audit_entry_t` -/
structure AuditEntry where
  type : ℤ
  ptr : Ptr
  timestamp : ℤ

/-- `global_audit_log`, with its entries, head and count in a ring. -/
structure AuditLog where
  ring : Ring AuditEntry auditLogSize
  init : Bool

/-- One value of an entry handed to Perl: `newSViv` or `newSVpv`. -/
inductive AuditValue where
  | iv (n : ℤ)
  | pv (text : PerlStr)

namespace AuditLog

/-- The static object: all zeros. -/
def static : AuditLog where
  ring := .empty (Vector.replicate auditLogSize ⟨0, 0, 0⟩) (Nat.zero_lt_succ 2047)
  init := false

/-- `ensure_mutexes_init` -/
def ensureMutexesInit (log : AuditLog) : AuditLog := { log with init := true }

/-- `PerlUpb_ObjCache_LogEvent`, at the time `now`. -/
def logEvent (log : AuditLog) (type : ℤ) (ptr : Ptr) (now : ℤ) : AuditLog :=
  if log.init then { log with ring := log.ring.push ⟨type, ptr, now⟩ } else log

/-- The part of `PerlUpb_ObjCache_Clear` that is about the audit log. -/
def clear (log : AuditLog) : AuditLog :=
  { log.ensureMutexesInit with ring := log.ring.clear }

/-- The hash for an entry. -/
def entryHv (percentP : Ptr → PerlStr) (e : AuditEntry) : List (PerlStr × AuditValue) :=
  [(ps "type", .iv e.type), (ps "ptr", .pv (percentP e.ptr)), (ps "timestamp", .iv e.timestamp)]

/-- `PerlUpb_ObjCache_GetAuditLog`: the array, and the log, which the call
initialises. -/
def getAuditLog (percentP : Ptr → PerlStr) (log : AuditLog) :
    List (List (PerlStr × AuditValue)) × AuditLog :=
  (log.ring.contents.map (entryHv percentP), log.ensureMutexesInit)

/-- A call from outside. -/
inductive Call where
  | logEvent (type : ℤ) (ptr : Ptr) (now : ℤ)
  | clear

def step (log : AuditLog) : Call → AuditLog
  | .logEvent type ptr now => log.logEvent type ptr now
  | .clear => log.clear

/-! ### The events since the last `Clear` -/

/-- What a call logs. -/
def Call.logged : Call → Option AuditEntry
  | .logEvent type ptr now => some ⟨type, ptr, now⟩
  | .clear => none

/-- The events logged after the last `Clear`, the oldest first. -/
def sinceClear (calls : List Call) : List AuditEntry :=
  (calls.rtakeWhile fun call => call.logged.isSome).filterMap Call.logged

theorem sinceClear_clear (calls : List Call) : sinceClear (calls ++ [.clear]) = [] := by
  rw [sinceClear, List.rtakeWhile_concat, if_neg (by simp [Call.logged]), List.filterMap_nil]

theorem sinceClear_logEvent (calls : List Call) (type : ℤ) (ptr : Ptr) (now : ℤ) :
    sinceClear (calls ++ [.logEvent type ptr now]) = sinceClear calls ++ [⟨type, ptr, now⟩] := by
  rw [sinceClear, List.rtakeWhile_concat, if_pos (by simp [Call.logged]), List.filterMap_append]
  rfl

/-! ### The window -/

/-- What the log is after the calls: initialised, with the last of the events since
`Clear` as its elements. -/
structure Window (log : AuditLog) (events : List AuditEntry) : Prop where
  init : log.init = true
  contents : log.ring.contents = events.rtake auditLogSize

/-- One event more. -/
theorem Window.logEvent {log : AuditLog} {events : List AuditEntry} (h : log.Window events)
    (type : ℤ) (ptr : Ptr) (now : ℤ) :
    (log.logEvent type ptr now).Window (events ++ [⟨type, ptr, now⟩]) := by
  rw [AuditLog.logEvent, if_pos h.init]
  refine ⟨h.init, ?_⟩
  rw [Ring.contents_push, h.contents, rtake_append_rtake]

theorem Window.clear (log : AuditLog) : log.clear.Window [] := by
  refine ⟨rfl, ?_⟩
  rw [List.rtake_nil]
  exact Ring.contents_clear log.ring

theorem window_run {log : AuditLog} (h : log.Window []) (calls : List Call) :
    (run step log calls).Window (sinceClear calls) := by
  induction calls using List.reverseRecOn with
  | nil => exact h
  | append_singleton calls call ih =>
      rw [run_append, run_cons, run_nil]
      cases call with
      | logEvent type ptr now =>
          rw [sinceClear_logEvent]
          exact ih.logEvent type ptr now
      | clear =>
          rw [sinceClear_clear]
          exact .clear _

theorem window_init : static.ensureMutexesInit.Window [] := by
  refine ⟨rfl, ?_⟩
  rw [List.rtake_nil]
  exact Ring.contents_empty _ _

/-- Reading the log initialises it, which it is. -/
theorem Window.ensureMutexesInit {log : AuditLog} {events : List AuditEntry}
    (h : log.Window events) : log.ensureMutexesInit = log := by
  rw [AuditLog.ensureMutexesInit, ← h.init]

theorem Window.length {log : AuditLog} {events : List AuditEntry} (h : log.Window events) :
    log.ring.contents.length = min events.length 2048 := by
  rw [h.contents, List.rtake, List.length_drop, auditLogSize]
  omega

/-- After any calls the log handed out is that of the last 2048 events since the
last `Clear`, or of all of them when they are fewer, the oldest first. -/
theorem getAuditLog_run (percentP : Ptr → PerlStr) (calls : List Call) :
    let log := run step static.ensureMutexesInit calls
    let events := sinceClear calls
    (log.getAuditLog percentP).1 =
        (events.drop (events.length - min events.length 2048)).map (entryHv percentP) ∧
      (log.getAuditLog percentP).1.length = min events.length 2048 ∧
      (log.getAuditLog percentP).2 = log := by
  have hwindow := window_run window_init calls
  refine ⟨?_, ?_, hwindow.ensureMutexesInit⟩
  · have hfirst : (sinceClear calls).length - min (sinceClear calls).length 2048 =
        (sinceClear calls).length - auditLogSize := by
      rw [auditLogSize]
      omega
    rw [getAuditLog, hwindow.contents, List.rtake, hfirst]
  · rw [getAuditLog, List.length_map, hwindow.length]

end AuditLog

end GooglePerl.Xs
