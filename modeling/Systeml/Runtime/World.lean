import Systeml.Lib.Run
import Systeml.Runtime.Runner

/-!
# The manager and its background tasks

The daemon as a step relation: requests to the manager, one step of any task in
flight, the exit of a process. A start runs without the manager's lock until it
publishes its result; a stop, a restart and a reload of a service hold it to
their end, and so does `daemon_reload`, one step for each lock it takes on a
runner.

A task whose program is empty has ended. Runners are never freed, since tasks
keep theirs when the manager gets a new one.
-/

namespace Systeml.Runtime

open Systeml.Lib Systeml.Unit Systeml.Deps

abbrev TaskId := Nat

/-- A program in flight. -/
structure Task where
  kind : TaskKind
  unit : UnitName
  runner : RunnerId
  ops : List Op
  deriving DecidableEq

/-- One step of `daemon_reload`. -/
inductive ReloadOp where
  /-- Apply a unit found on disk. -/
  | unit (name : UnitName) (spec : UnitSpec)
  | copyState (new old : RunnerId)
  | copySub (new old : RunnerId)
  | copyPid (new old : RunnerId)
  | moveChild (new old : RunnerId)
  | install (name : UnitName) (spec : UnitSpec) (st : UnitStatus) (new : Option RunnerId)
  deriving DecidableEq

/-- Who holds the lock of the manager. -/
inductive Lock where
  | free
  | task (t : TaskId)
  | reload (ops : List ReloadOp)
  deriving DecidableEq

structure World where
  mgr : Manager
  runners : List Runner
  procs : List Proc := []
  tasks : List Task := []
  lock : Lock := .free
  /-- Calls of `kill` and `killpg` so far. -/
  kills : List Kill := []

/-- What `daemon_reload` finds: the names of the search paths, with what loads. -/
abbrev Disk := List (UnitName × Option UnitSpec)

/-- What happens in a step. -/
inductive Label where
  | startUnit (name : UnitName)
  | stopUnit (name : UnitName)
  | restartUnit (name : UnitName)
  | reloadUnit (name : UnitName)
  /-- The scheduler starts the unit that a timer is linked to. -/
  | fire (timer target : UnitName)
  | daemonReload (disk : Disk)
  /-- One step of the `daemon_reload` in progress. -/
  | reloadStep
  /-- One step of a task. -/
  | task (t : TaskId) (resp : Response)
  /-- A process exits. -/
  | exit (p : ProcId)
  deriving DecidableEq

namespace World

variable (w : World)

/-- Put a program in flight. -/
def spawnTask (kind : TaskKind) (unit : UnitName) (r : RunnerId) : World :=
  match w.runners[r]? with
  | some R => { w with tasks := w.tasks ++ [⟨kind, unit, r, kind.program R.svc⟩] }
  | none => w

/-- Put a program in flight that holds the lock of the manager. -/
def spawnLocked (kind : TaskKind) (unit : UnitName) (r : RunnerId) : World :=
  match w.runners[r]? with
  | some R =>
    { w with
      tasks := w.tasks ++ [⟨kind, unit, r, kind.program R.svc⟩]
      lock := .task w.tasks.length }
  | none => w

/-- The process is gone. -/
def killProc (p : ProcId) : World :=
  { w with procs := w.procs.modify p fun q => { q with alive := false } }

/-- `start_unit`. -/
def startUnit (name : UnitName) : World :=
  let s := w.mgr.startUnit name
  match s.result with
  | .ok (some r) => { w with mgr := s.mgr }.spawnTask (.start s.id) name r
  | _ => { w with mgr := s.mgr }

/-- `run_stop` where there is no runner. -/
def stopPlain (m : Manager) (name : UnitName) : Manager := m.markState name .inactive .dead

/-- The runner that `run_stop` drives. -/
def stopRunner (m : Manager) (name : UnitName) : Option RunnerId :=
  if name.kind = .service then m.services.get? name else none

/-- `stop_unit`. -/
def stopUnit (name : UnitName) : World :=
  let (id, m) := w.mgr.newJob name .stop
  match stopRunner m name with
  | some r => { w with mgr := m }.spawnLocked (.stop id) name r
  | none => { w with mgr := (stopPlain m name).emit (.jobRemoved id name .done) }

/-- `restart_unit`. A service without a runner is stopped, and its start fails. -/
def restartUnit (name : UnitName) : World :=
  let (id, m) := w.mgr.newJob name .restart
  match stopRunner m name with
  | some r => { w with mgr := m }.spawnLocked (.restart id) name r
  | none =>
    let m := stopPlain m name
    if name.kind = .service then { w with mgr := m }
    else { w with mgr := (m.runStart name).emit (.jobRemoved id name .done) }

/-- `reload_unit`. -/
def reloadUnit (name : UnitName) : World :=
  let (id, m) := w.mgr.newJob name .reload
  match m.services.get? name with
  | some r => { w with mgr := m }.spawnLocked (.reload id) name r
  | none => { w with mgr := m.emit (.jobRemoved id name .skipped) }

/-- What the scheduler does under the lock when a timer fires. -/
def fire (timer target : UnitName) : World :=
  let w := { w with mgr := w.mgr.markState timer .active .running }.startUnit target
  if w.mgr.isActive target then w
  else { w with mgr := w.mgr.markState timer .active .waiting }

/-- The units that `daemon_reload` applies. -/
def newUnits (disk : Disk) : IndexMap UnitName UnitSpec :=
  .ofList (disk.filterMap fun e => match e.2 with
    | some spec => if isActivatable spec then some (e.1, spec) else none
    | none => none)

/-- Drop status and runner of a unit no longer present. -/
def dropUnit (m : Manager) (name : UnitName) : Manager :=
  { m with status := m.status.erase name, services := m.services.erase name }.emit
    (.unitRemoved name)

/-- `daemon_reload`, up to applying the units. -/
def daemonReload (disk : Disk) : World :=
  let new := newUnits disk
  let removed := w.mgr.units.keys.filter fun n => !new.contains n
  { w with
    mgr := removed.foldl dropUnit w.mgr
    lock := .reload (new.entries.map fun e => .unit e.1 e.2) }

/-- The status a unit is reloaded with. -/
def reloadedStatus (m : Manager) (name : UnitName) (spec : UnitSpec) : UnitStatus :=
  match m.status.get? name with
  | some st => { st with description := spec.description, load := .loaded }
  | none => { unit := some name, load := .loaded, description := spec.description }

/-- One step of `daemon_reload`, with what is left of it after that step. -/
def reloadOp (rest : List ReloadOp) : ReloadOp → Option World
  | .unit name spec =>
    let st := reloadedStatus w.mgr name spec
    let w := { w with mgr := { w.mgr with status := w.mgr.status.erase name } }
    match spec.kind with
    | .service svc =>
      let new := w.runners.length
      let copies := match w.mgr.services.get? name with
        | some old => [ReloadOp.copyState new old, .copySub new old, .copyPid new old,
          .moveChild new old]
        | none => []
      some { w with
        runners := w.runners ++ [{ unit := name, svc := svc }]
        lock := .reload (copies ++ .install name spec st (some new) :: rest) }
    | _ => some { w with lock := .reload (.install name spec st none :: rest) }
  | .copyState new old =>
    match w.runners[old]? with
    | some o => some { w with
      runners := w.runners.modify new fun n => { n with state := o.state }
      lock := .reload rest }
    | none => none
  | .copySub new old =>
    match w.runners[old]? with
    | some o => some { w with
      runners := w.runners.modify new fun n => { n with sub := o.sub }
      lock := .reload rest }
    | none => none
  | .copyPid new old =>
    match w.runners[old]? with
    | some o => some { w with
      runners := w.runners.modify new fun n => { n with mainPid := o.mainPid }
      lock := .reload rest }
    | none => none
  | .moveChild new old =>
    match w.runners[old]? with
    | some o =>
      if o.childHeld then none
      else some { w with
        runners := (w.runners.modify old fun n => { n with child := none }).modify new
          fun n => { n with child := o.child }
        lock := .reload rest }
    | none => none
  | .install name spec st new =>
    let services := match new with
      | some r => w.mgr.services.insert name r
      | none => w.mgr.services
    some { w with
      mgr := { w.mgr with
        services := services
        units := w.mgr.units.insert name spec
        status := w.mgr.status.insert name st }.emit (.unitNew name)
      lock := .reload rest }

/-- `daemon_reload` goes on, or ends and frees the lock. -/
def reloadStep : Option World :=
  match w.lock with
  | .reload [] => some { w with lock := .free }
  | .reload (op :: rest) => w.reloadOp rest op
  | _ => none

/-- The start that a restart ends with. -/
def respawn (t : Task) : World :=
  match w.mgr.spawnServiceStart t.unit, t.kind with
  | (m, .ok r), .restart id => { w with mgr := m }.spawnTask (.start id) t.unit r
  | (m, _), _ => { w with mgr := m }

/-- The id of the job that a task belongs to. -/
def Task.job : TaskKind → Option JobId
  | .start id | .stop id | .restart id | .reload id => some id
  | .supervise => none

/-- One act of a task. -/
def act (t : Task) : Act → World
  | .spawn pid main =>
    { w with procs := w.procs ++ [⟨pid, t.unit, main, t.kind matches .start _, true⟩] }
  | .kill k => { w with kills := w.kills ++ [k] }
  | .reap p => w.killProc p
  | .mark a s => { w with mgr := w.mgr.markState t.unit a s }
  | .supervise => if w.mgr.selfWeak then w.spawnTask .supervise t.unit t.runner else w
  | .respawn => w.respawn t
  | .jobRemoved o =>
    match Task.job t.kind with
    | some id => { w with mgr := w.mgr.emit (.jobRemoved id t.unit o) }
    | none => w

/-- The lock after a task took a step: free if that was its last. -/
def lockAfter (i : TaskId) (ops : List Op) : Lock :=
  if ops = [] ∧ w.lock = .task i then .free else w.lock

/-- One step of a task. -/
def runTask (i : TaskId) (resp : Response) : Option World :=
  match w.tasks[i]? with
  | none => none
  | some t =>
    match t.ops, w.runners[t.runner]? with
    | op :: rest, some R =>
      match Op.run w.procs (w.lock = .free) t.kind R rest resp op with
      | none => none
      | some reply =>
        let w' := { w with
          runners := w.runners.set t.runner reply.runner
          tasks := w.tasks.set i { t with ops := reply.ops }
          lock := w.lockAfter i reply.ops }
        some (reply.acts.foldl (fun w a => w.act t a) w')
    | _, _ => none

/-- The lock of the manager is free. -/
def ifFree (w' : World) : Option World := if w.lock = .free then some w' else none

/-- One step of the daemon, if it can be taken. -/
def step : Label → Option World
  | .startUnit name => w.ifFree (w.startUnit name)
  | .stopUnit name => w.ifFree (w.stopUnit name)
  | .restartUnit name => w.ifFree (w.restartUnit name)
  | .reloadUnit name => w.ifFree (w.reloadUnit name)
  | .fire timer target => if timer.kind = .timer then w.ifFree (w.fire timer target) else none
  | .daemonReload disk => w.ifFree (w.daemonReload disk)
  | .reloadStep => w.reloadStep
  | .task i resp => w.runTask i resp
  | .exit p => some (w.killProc p)

end World

end Systeml.Runtime
