import Systeml.Lib.Run
import Systeml.Runtime.Manager
import Systeml.Runtime.Timer

/-!
# The timer scheduler

One task computes the earliest deadline of all active timers, waits for it, for a
control message or for an event of the manager, deals with it and computes again.
A step is what happens under one hold of the manager's lock; between two of them
time passes and other tasks change the manager.

Stamp files are kept as the seconds they hold; one that does not hold a number
counts as absent. Which events arrive, and when, is left open: any event may come
at any time.
-/

namespace Systeml.Runtime

open Systeml.Lib Systeml.Unit Systeml.Deps

/-- Where the task is in its loop. -/
inductive Phase where
  /-- At the top of the loop. -/
  | ready
  /-- In `select!`, with the deadline it computed. -/
  | waiting (next : Option (DateTime × UnitName))
  /-- In `fire`, with the linked unit resolved, before it takes the lock. -/
  | firing (timer : UnitName) (fireTime : DateTime) (target : UnitName)
  /-- In `handle_event`, with timers to flip back to waiting. -/
  | flipping (timers : List UnitName)
  | stopped
  deriving DecidableEq

/-- The scheduler and what it reads and writes. -/
structure TimerScheduler where
  clock : DateTime
  mgr : Manager
  /-- Seconds in the stamp files. -/
  stamps : IndexMap UnitName Int
  managerStart : DateTime
  lastFires : IndexMap UnitName DateTime
  /-- Trigger unit to the timer that fired it. -/
  triggers : IndexMap UnitName UnitName
  phase : Phase

/-- What the event channel yields. -/
inductive Received where
  | stateChanged (unit : UnitName) (state : ActiveState)
  | unitRemoved (unit : UnitName)
  | lagged
  | other
  deriving DecidableEq

/-- A step of the scheduler or of what runs beside it. -/
inductive Action where
  /-- Time passes. -/
  | pass (nanos : Nat)
  /-- Other tasks change the manager. -/
  | manager (m : Manager)
  /-- Another task starts a timer; its stamp file may be written. -/
  | activate (timer : UnitName) (saved : Bool)
  | compute
  /-- The sleep is over. -/
  | wake
  /-- The linked unit is started; the stamp file may be written. -/
  | fire (timer : UnitName) (saved : Bool)
  | refresh
  | shutdown
  | event (e : Received)
  /-- One timer flips back to waiting. -/
  | flip

namespace TimerScheduler

variable (s : TimerScheduler)

/-- `read_last_fire`: seconds out of range count as none. -/
def readLastFire (name : UnitName) : Option DateTime :=
  match s.stamps.get? name with
  | some secs => if (DateTime.ofSec secs).InRange then some (.ofSec secs) else none
  | none => none

/-- The last fire, cached or persisted. -/
def lastFire (name : UnitName) : Option DateTime :=
  match s.lastFires.get? name with
  | some t => some t
  | none => s.readLastFire name

/-- `write_last_fire`, which may fail. -/
def writeLastFire (name : UnitName) (t : DateTime) (saved : Bool) : TimerScheduler :=
  if saved then { s with stamps := s.stamps.insert name t.sec } else s

/-- Keep the earlier deadline, the first of equals. -/
def earlier (best : Option (DateTime × UnitName)) (t : DateTime) (name : UnitName) :
    Option (DateTime × UnitName) :=
  match best with
  | none => some (t, name)
  | some (cur, n) => if t.nanos < cur.nanos then some (t, name) else some (cur, n)

/-- The loop of `compute_next` over the loaded units. -/
def computeLoop : List (UnitName × UnitSpec) → Option (DateTime × UnitName) →
    Except Panic (Option (DateTime × UnitName))
  | [], best => .ok best
  | (name, u) :: rest, best =>
    if name.kind = .timer ∧ s.mgr.isActive name = true then
      match u.kind with
      | .timer t => do
        match ← nextOverall s.clock s.managerStart none none none t (s.lastFire name) with
        | some d => computeLoop rest (earlier best d name)
        | none => computeLoop rest best
      | _ => computeLoop rest best
    else computeLoop rest best

/-- The earliest deadline of all active timers, and its timer. -/
def computeNext : Except Panic (Option (DateTime × UnitName)) :=
  s.computeLoop s.mgr.units.entries none

/-- The linked unit: by default the service of the same name. -/
def linkedUnit (name : UnitName) (t : TimerUnit) : UnitName :=
  t.unit.getD { name with kind := .service }

/-- The definition of a loaded timer. -/
def timerUnit (name : UnitName) : Option TimerUnit :=
  match s.mgr.units.get? name with
  | some u =>
    match u.kind with
    | .timer t => some t
    | _ => none
  | none => none

/-- `stamp_persistent_timer_if_needed`. -/
def stampIfNeeded (name : UnitName) (saved : Bool) : TimerScheduler :=
  match s.timerUnit name with
  | some t =>
    if t.persistent = true ∧ s.readLastFire name = none then s.writeLastFire name s.clock saved
    else s
  | none => s

/-- `start_unit`, with the stamp that a timer leaves. -/
def startUnit (name : UnitName) (saved : Bool) : TimerScheduler :=
  let s' := { s with mgr := (s.mgr.startUnit name).mgr }
  if name.kind = .timer then s'.stampIfNeeded name saved else s'

/-- The timer runs while its linked unit is up, else it waits again. -/
def watch (timer target : UnitName) : TimerScheduler :=
  if s.mgr.isActive target then { s with triggers := s.triggers.insert target timer }
  else { s with mgr := s.mgr.markState timer .active .waiting }

/-- `fire`, under the lock and after it. -/
def fire (timer : UnitName) (fireTime : DateTime) (target : UnitName) (saved : Bool) :
    TimerScheduler :=
  let s' := { s with mgr := s.mgr.markState timer .active .running }
  let fired := (s'.startUnit target saved).watch timer target
  match (s'.mgr.startUnit target).result with
  | .ok _ =>
    { fired with lastFires := fired.lastFires.insert timer fireTime }.writeLastFire timer fireTime
      saved
  | .error _ => fired

/-- `handle_event`, up to the flips. The order of the flips after a lag is left open
in the source. -/
def handleEvent (e : Received) : TimerScheduler :=
  let drop (unit : UnitName) : TimerScheduler :=
    match s.triggers.get? unit with
    | some timer => { s with triggers := s.triggers.erase unit, phase := .flipping [timer] }
    | none => { s with phase := .ready }
  match e with
  | .stateChanged unit state =>
    if state = .active then { s with phase := .ready } else drop unit
  | .unitRemoved unit => drop unit
  | .lagged =>
    let gone := s.triggers.entries.filter fun e => !s.mgr.isActive e.1
    { s with
      triggers := gone.foldl (fun m e => m.erase e.1) s.triggers
      phase := .flipping (gone.map Prod.snd) }
  | .other => { s with phase := .ready }

/-- `flip_to_waiting`: a timer stopped meanwhile stays as it is. -/
def flipToWaiting (timer : UnitName) : TimerScheduler :=
  if s.mgr.isActive timer then { s with mgr := s.mgr.markState timer .active .waiting } else s

/-- One step, if it can be taken. -/
def step : Action → Option TimerScheduler
  | .pass d => some { s with clock := ⟨s.clock.nanos + d⟩ }
  | .manager m => some { s with mgr := m }
  | .activate timer saved => some (s.startUnit timer saved)
  | .compute =>
    match s.phase with
    | .ready =>
      match s.computeNext with
      | .ok next => some { s with phase := .waiting next }
      | .error _ => some { s with phase := .stopped }
    | _ => none
  | .wake =>
    match s.phase with
    | .waiting (some (deadline, name)) =>
      if deadline.nanos ≤ s.clock.nanos then
        match s.timerUnit name with
        | some t => some { s with phase := .firing name deadline (linkedUnit name t) }
        | none => some { s with phase := .ready }
      else none
    | _ => none
  | .fire name saved =>
    match s.phase with
    | .firing timer fireTime target =>
      if name = timer then some { s.fire timer fireTime target saved with phase := .ready } else none
    | _ => none
  | .refresh =>
    match s.phase with
    | .waiting _ => some { s with phase := .ready }
    | _ => none
  | .shutdown =>
    match s.phase with
    | .waiting _ => some { s with phase := .stopped }
    | _ => none
  | .event e =>
    match s.phase with
    | .waiting _ => some (s.handleEvent e)
    | _ => none
  | .flip =>
    match s.phase with
    | .flipping (timer :: rest) => some { s.flipToWaiting timer with phase := .flipping rest }
    | .flipping [] => some { s with phase := .ready }
    | _ => none

end TimerScheduler

end Systeml.Runtime
