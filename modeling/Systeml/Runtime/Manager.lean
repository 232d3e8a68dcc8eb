import Systeml.Lib.IndexMap
import Systeml.Deps.Job

/-!
# The manager's registry

Units, their status and their runners, and the part of `start_unit` that runs
under the manager's lock. Starting a service only announces it and hands the work
to a background task (`spawnServiceStart`); every other kind of unit is marked
active at once (`runStart`).
-/

namespace Systeml.Runtime

open Systeml.Lib Systeml.Unit Systeml.Deps

/-- `LoadState` property: where the unit data came from. -/
inductive LoadState where
  | loaded | error | stub | masked | notFound | merged | badSetting
  deriving DecidableEq, Repr

/-- `ActiveState` property: top-level lifecycle. -/
inductive ActiveState where
  | inactive | activating | active | deactivating | failed | reloading | maintenance
  deriving DecidableEq, Repr

/-- The texts that `SubState` takes; `unset` is the empty one of a default
status. -/
inductive SubState where
  | unset | dead | startPre | start | running | failed | stop | reload | waiting | listening | active
  deriving DecidableEq, Repr

/-- Top-level user-visible status. -/
structure UnitStatus where
  unit : Option UnitName := none
  load : LoadState := .stub
  active : ActiveState := .inactive
  sub : SubState := .unset
  description : Str := []
  deriving DecidableEq, Repr

/-- Final outcome of a job. -/
inductive JobOutcome where
  | done | canceled | timeout | failed | dependencyFailed | skipped
  deriving DecidableEq, Repr

/-- One event on the manager's broadcast channel. -/
inductive UnitEvent where
  | unitNew (unit : UnitName)
  | unitRemoved (unit : UnitName)
  | jobNew (id : JobId) (unit : UnitName) (kind : JobType)
  | jobRemoved (id : JobId) (unit : UnitName) (outcome : JobOutcome)
  | stateChanged (unit : UnitName) (state : ActiveState) (sub : SubState)
  deriving DecidableEq, Repr

/-- A runner is known by its place in the heap: the manager and the tasks hold
references to it. -/
abbrev RunnerId := Nat

/-- The registry. `events` is everything sent on the channel, and `selfWeak` says
whether the manager has a handle to itself. -/
structure Manager where
  units : IndexMap UnitName UnitSpec := .empty
  status : IndexMap UnitName UnitStatus := .empty
  services : IndexMap UnitName RunnerId := .empty
  events : List UnitEvent := []
  nextJobId : UInt32 := 1
  selfWeak : Bool := true

/-- Why a request to start a unit fails at once. -/
inductive StartError where
  /-- `no runner for <unit>`. -/
  | noRunner (unit : UnitName)
  /-- `manager self-weak not attached`. -/
  | noSelfWeak
  deriving DecidableEq, Repr

namespace Manager

/-- Send an event. -/
def emit (m : Manager) (e : UnitEvent) : Manager := { m with events := m.events ++ [e] }

/-- Whether a unit is active by its status; one without a status is not. -/
def isActive (m : Manager) (name : UnitName) : Bool :=
  match m.status.get? name with
  | some st => st.active = .active
  | none => false

/-- Update a unit's active and sub state and broadcast the change, which goes out
even where the unit has no status. -/
def markState (m : Manager) (name : UnitName) (state : ActiveState) (sub : SubState) : Manager :=
  { m with status := m.status.modify name fun st => { st with active := state, sub := sub } }.emit
    (.stateChanged name state sub)

/-- Allocate the next job id: a counter that saturates. -/
def allocJobId (m : Manager) : JobId × Manager :=
  (⟨m.nextJobId⟩, { m with
    nextJobId := max (if m.nextJobId = 4294967295 then m.nextJobId else m.nextJobId + 1) 1 })

/-- Announce a job. -/
def newJob (m : Manager) (name : UnitName) (kind : JobType) : JobId × Manager :=
  (m.allocJobId.1, m.allocJobId.2.emit (.jobNew m.allocJobId.1 name kind))

/-- The sub-state that a unit without a runner is started into. -/
def startedSub : UnitKind → SubState
  | .target => .active
  | .timer | .path => .waiting
  | .socket => .listening
  | _ => .running

/-- `run_start` for the kinds of unit without a runner. -/
def runStart (m : Manager) (name : UnitName) : Manager :=
  m.markState name .active (startedSub name.kind)

/-- Announce the start of a service. The runner is the one that the background
task will drive. -/
def spawnServiceStart (m : Manager) (name : UnitName) : Manager × Except StartError RunnerId :=
  match m.services.get? name with
  | none => (m, .error (.noRunner name))
  | some r =>
    (m.markState name .activating .start,
      if m.selfWeak then .ok r else .error .noSelfWeak)

/-- What starting a unit leaves behind. -/
structure Started where
  mgr : Manager
  id : JobId
  /-- The call fails, or succeeds with a background task to spawn or none. -/
  result : Except StartError (Option RunnerId)

/-- `start_unit`, up to the background task. -/
def startUnit (m : Manager) (name : UnitName) : Started :=
  let (id, m) := m.newJob name .start
  if name.kind = .service then
    let (m, r) := m.spawnServiceStart name
    ⟨m, id, r.map some⟩
  else ⟨(m.runStart name).emit (.jobRemoved id name .done), id, .ok none⟩

@[simp] theorem emit_status (m : Manager) (e : UnitEvent) : (m.emit e).status = m.status := rfl

@[simp] theorem emit_units (m : Manager) (e : UnitEvent) : (m.emit e).units = m.units := rfl

@[simp] theorem emit_services (m : Manager) (e : UnitEvent) : (m.emit e).services = m.services :=
  rfl

@[simp] theorem markState_units (m : Manager) (n : UnitName) (a : ActiveState) (s : SubState) :
    (m.markState n a s).units = m.units := rfl

@[simp] theorem markState_services (m : Manager) (n : UnitName) (a : ActiveState) (s : SubState) :
    (m.markState n a s).services = m.services := rfl

@[simp] theorem newJob_fst (m : Manager) (n : UnitName) (k : JobType) :
    (m.newJob n k).1 = m.allocJobId.1 := rfl

@[simp] theorem newJob_units (m : Manager) (n : UnitName) (k : JobType) :
    (m.newJob n k).2.units = m.units := rfl

@[simp] theorem newJob_services (m : Manager) (n : UnitName) (k : JobType) :
    (m.newJob n k).2.services = m.services := rfl

@[simp] theorem newJob_status (m : Manager) (n : UnitName) (k : JobType) :
    (m.newJob n k).2.status = m.status := rfl

/-- The status after a mark: that of the unit marked, and no other. -/
theorem markState_status (m : Manager) (n u : UnitName) (a : ActiveState) (s : SubState) :
    (m.markState n a s).status.get? u =
      if u = n then (m.status.get? u).map fun st => { st with active := a, sub := s }
      else m.status.get? u := by
  show (m.status.modify n _).get? u = _
  rw [IndexMap.get?_modify]

end Manager

end Systeml.Runtime
