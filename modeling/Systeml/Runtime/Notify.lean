import Systeml.Lib.Text

/-!
# `sd_notify` datagrams and PID files

`NotifyMessage.parse` reads `KEY=VALUE` lines, a later one of a key over an
earlier one. The main pid of a message is the number of its last `MAINPID=` line
(`parse_mainPid`), whatever its sign. A PID file counts only if its first line is
a positive number.
-/

namespace Systeml.Runtime

open Systeml.Lib

/-- Parsed message from a single `sd_notify` datagram. -/
structure NotifyMessage where
  /-- `READY=1`. -/
  ready : Bool := false
  /-- `STOPPING=1`. -/
  stopping : Bool := false
  /-- `RELOADING=1`. -/
  reloading : Bool := false
  /-- `WATCHDOG=1` ping. -/
  watchdog : Bool := false
  /-- `BARRIER=1`. -/
  barrier : Bool := false
  /-- `MAINPID=N`. -/
  mainPid : Option Int := none
  /-- `STATUS=...`. -/
  status : Option Str := none
  /-- `WATCHDOG_USEC=N`. -/
  watchdogUsec : Option Nat := none
  /-- `ERRNO=N`. -/
  errno : Option Int := none
  deriving DecidableEq, Repr

namespace NotifyMessage

/-- What one line sets. Unknown keys and lines without `=` are ignored. -/
def addLine (out : NotifyMessage) (line : Str) : NotifyMessage :=
  match splitOnce '=' line with
  | none => out
  | some (k, v) =>
    if k = "READY".toList ∧ v = ['1'] then { out with ready := true }
    else if k = "STOPPING".toList ∧ v = ['1'] then { out with stopping := true }
    else if k = "RELOADING".toList ∧ v = ['1'] then { out with reloading := true }
    else if k = "WATCHDOG".toList ∧ v = ['1'] then { out with watchdog := true }
    else if k = "BARRIER".toList ∧ v = ['1'] then { out with barrier := true }
    else if k = "MAINPID".toList then { out with mainPid := parseI32 v }
    else if k = "STATUS".toList then { out with status := some v }
    else if k = "WATCHDOG_USEC".toList then { out with watchdogUsec := parseU64 v }
    else if k = "ERRNO".toList then { out with errno := parseI32 v }
    else out

/-- Parse a datagram. -/
def parse (buf : List UInt8) : NotifyMessage :=
  match fromUtf8 buf with
  | none => {}
  | some s => (lines s).foldl addLine {}

end NotifyMessage

/-- The value of a `MAINPID=` line. -/
def mainPidValue (line : Str) : Option Str :=
  match splitOnce '=' line with
  | some (k, v) => if k = "MAINPID".toList then some v else none
  | none => none

/-- The main pid that a datagram announces: the number of its last `MAINPID=`
line. -/
def announcedPid (buf : List UInt8) : Option Int :=
  match fromUtf8 buf with
  | none => none
  | some s => ((lines s).filterMap mainPidValue).getLast?.bind parseI32

theorem addLine_mainPid (out : NotifyMessage) (line : Str) :
    (out.addLine line).mainPid = match mainPidValue line with
      | some v => parseI32 v
      | none => out.mainPid := by
  unfold NotifyMessage.addLine mainPidValue
  cases splitOnce '=' line with
  | none => rfl
  | some kv =>
    obtain ⟨k, v⟩ := kv
    by_cases hk : k = "MAINPID".toList
    · subst hk
      simp +decide only [if_true, if_false, false_and]
    · simp only [if_neg hk]
      repeat (first | rfl | split)

theorem foldl_addLine_mainPid : ∀ (ls : List Str) (out : NotifyMessage),
    (ls.foldl NotifyMessage.addLine out).mainPid = match (ls.filterMap mainPidValue).getLast? with
      | some v => parseI32 v
      | none => out.mainPid
  | [], out => rfl
  | l :: ls, out => by
    rw [List.foldl_cons, foldl_addLine_mainPid ls, addLine_mainPid]
    cases hv : mainPidValue l with
    | none => rw [List.filterMap_cons_none hv]
    | some v =>
      rw [List.filterMap_cons_some hv, List.getLast?_cons]
      cases (ls.filterMap mainPidValue).getLast? <;> rfl

/-- **The main pid of a message is the announced one.** -/
theorem parse_mainPid (buf : List UInt8) :
    (NotifyMessage.parse buf).mainPid = announcedPid buf := by
  unfold NotifyMessage.parse announcedPid
  cases fromUtf8 buf with
  | none => rfl
  | some s =>
    simp only [foldl_addLine_mainPid]
    cases ((lines s).filterMap mainPidValue).getLast? <;> rfl

/-- The pid a PID file holds: its first line, if that is a positive number. -/
def pidOfFile (text : Str) : Option Int :=
  match lines text with
  | line :: _ => (parseI32 (trim line)).filter (0 < ·)
  | [] => none

theorem pidOfFile_pos {text : Str} {p : Int} (h : pidOfFile text = some p) : 0 < p := by
  unfold pidOfFile at h
  split at h
  · simpa using (Option.filter_eq_some_iff.mp h).2
  · exact absurd h (by simp)

end Systeml.Runtime
