import Systeml.Unit.Service
import Systeml.Runtime.Manager
import Systeml.Runtime.Notify

/-!
# The service runner

`start`, `stop`, `reload` and the supervisor of a service as programs of the
steps between which another task can run: one for each lock of a field, each
process spawned or waited for, each call that can fail. `Op.run` is one step of a
program on its runner. What comes from outside (a pid, an exit, a datagram, a
timeout) is the `Response` it is given, and what it does to processes and to the
manager is a list of `Act`s.

A step is one whose deadline, if it computes one, fits the clock; the panic of one that
does not is in `Runtime/Deadline`.

Early returns replace what is left of the program by the end of the call it
belongs to. A spawned main process and its pid are recorded in one step: the lock
of `main_pid` is never held while waiting.
-/

namespace Systeml.Runtime

open Systeml.Lib Systeml.Unit Systeml.Deps

/-- A process is known by when it was spawned; pids come back. -/
abbrev ProcId := Nat

/-- A spawned process. -/
structure Proc where
  pid : Int
  unit : UnitName
  /-- It runs `ExecStart=` and is not waited for by `run_oneshot`. -/
  main : Bool
  /-- A start spawned it, not a stop or a reload. -/
  byStart : Bool
  alive : Bool
  deriving DecidableEq

/-- Signals that `KillSignal=` names. -/
inductive Signal where
  | sigterm | sigkill | sigint | sighup | sigusr1 | sigusr2 | sigquit | sigabrt
  deriving DecidableEq, Repr

/-- `parse_signal_strict`. -/
def parseSignalStrict (name : Str) : Option Signal :=
  if name = "SIGTERM".toList then some .sigterm
  else if name = "SIGKILL".toList then some .sigkill
  else if name = "SIGINT".toList then some .sigint
  else if name = "SIGHUP".toList then some .sighup
  else if name = "SIGUSR1".toList then some .sigusr1
  else if name = "SIGUSR2".toList then some .sigusr2
  else if name = "SIGQUIT".toList then some .sigquit
  else if name = "SIGABRT".toList then some .sigabrt
  else none

/-- Where a signal goes. -/
inductive Target where
  | pid (p : Int)
  | processGroup (p : Int)
  deriving DecidableEq, Repr

/-- The number passed to `kill` or `killpg`. -/
def Target.number : Target → Int
  | pid p | processGroup p => p

/-- A call of `kill` or `killpg`; without a signal it only probes. -/
structure Kill where
  target : Target
  signal : Option Signal
  deriving DecidableEq, Repr

/-- The target of a stop, by `KillMode=`. -/
def killTarget (mode : KillMode) (p : Int) : Option Target :=
  match mode with
  | .process => some (.pid p)
  | .controlGroup | .mixed => some (.processGroup p)
  | .none => none

/-- Supervises one .service unit. -/
structure Runner where
  unit : UnitName
  svc : ServiceUnit
  /-- Tracked main child (if any). -/
  child : Option ProcId := none
  mainPid : Option Int := none
  state : ActiveState := .inactive
  sub : SubState := .dead
  /-- Last `STATUS=` message. -/
  status : Option Str := none
  stopping : Bool := false
  /-- The lock of `child` is held by a stop that waits. -/
  childHeld : Bool := false
  deriving DecidableEq

/-- What becomes of a failed `Exec*=` command. -/
inductive ExecKind where
  /-- `ExecCondition=`: the unit is skipped. -/
  | condition
  /-- `ExecStartPre=` and the command of a oneshot: the unit fails. -/
  | required
  /-- All others: nothing. -/
  | bestEffort
  deriving DecidableEq, Repr

/-- The call that a program belongs to. -/
inductive TaskKind where
  | start (id : JobId)
  | stop (id : JobId)
  | restart (id : JobId)
  | reload (id : JobId)
  | supervise
  deriving DecidableEq

/-- One step of a program. -/
inductive Op where
  | clearStop
  | requestStop
  | setState (a : ActiveState)
  | setSub (s : SubState)
  | setStatus (s : Str)
  | setMainPid (p : Option Int)
  | setChild (c : Option ProcId)
  | resolveEnv
  | bindSocket
  /-- `run_oneshot`. -/
  | exec (cmd : ExecCommand) (k : ExecKind)
  | waitExec (p : ProcId) (cmd : ExecCommand) (k : ExecKind)
  /-- Spawn a main process and record its pid. -/
  | spawnMain (cmd : ExecCommand)
  /-- Spawn the process that forks a daemon. -/
  | spawnForking (cmd : ExecCommand)
  | waitForking (p : ProcId)
  | readPidFile
  /-- Receive datagrams until `READY=1`. -/
  | recv
  -- the end of a start
  | readState (o : JobOutcome)
  | readSub (o : JobOutcome) (a : ActiveState)
  | publish (o : JobOutcome) (a : ActiveState) (s : SubState)
  | jobRemoved (o : JobOutcome)
  -- a stop
  | readPid
  | holdChild (p : Int)
  | waitGone (p : Int)
  | waitKilled (c : ProcId)
  | markDead
  | respawn
  -- the supervisor
  | takeChild
  | waitMain (c : ProcId)
  | readPollPid
  | poll (p : Int)
  | checkStopping (clean : Bool)
  | publishExit (a : ActiveState) (s : SubState)
  deriving DecidableEq

/-- What a step learns from outside. -/
inductive Response where
  | ok
  | err
  | spawned (pid : Int)
  | exited (success : Bool)
  | gone
  | timeout
  | file (text : Str)
  | datagram (buf : List UInt8)
  deriving DecidableEq

/-- What a step does outside of its runner. -/
inductive Act where
  | spawn (pid : Int) (main : Bool)
  | kill (k : Kill)
  /-- Kill a command that timed out and wait for it. -/
  | reap (p : ProcId)
  | mark (a : ActiveState) (s : SubState)
  | supervise
  | respawn
  | jobRemoved (o : JobOutcome)
  deriving DecidableEq

/-! ## Programs -/

/-- The types whose main process is a direct child. -/
def directChild : ServiceType → Bool
  | .simple | .exec | .idle | .notify | .notifyReload => true
  | .forking | .oneshot | .dbus => false

/-- After `start` has returned. -/
def startReturn (o : JobOutcome) : List Op := [.readState o]

/-- `ExecStartPost=`. -/
def startPost (svc : ServiceUnit) : List Op := svc.execStartPost.map (.exec · .bestEffort)

/-- The state of a oneshot that has run. -/
def oneshotState (svc : ServiceUnit) : ActiveState :=
  if svc.remainAfterExit then .active else .inactive

/-- `start_simple`. -/
def startSimple (svc : ServiceUnit) (cmd : ExecCommand) : List Op :=
  [.spawnMain cmd, .setState .active, .setSub .running] ++ startPost svc ++ startReturn .done

/-- `start_oneshot`. -/
def startOneshot (svc : ServiceUnit) (cmd : ExecCommand) : List Op :=
  [.exec cmd .required, .setState (oneshotState svc), .setSub .dead] ++ startPost svc ++
    startReturn .done

/-- `start_forking`. -/
def startForking (svc : ServiceUnit) (cmd : ExecCommand) : List Op :=
  .spawnForking cmd :: (if svc.pidFile.isSome then [.readPidFile] else []) ++
    [.setState .active, .setSub .running] ++ startPost svc ++ startReturn .done

/-- `start_notify`, with the socket bound before. -/
def startNotify (svc : ServiceUnit) (cmd : ExecCommand) : List Op :=
  [.bindSocket, .spawnMain cmd, .recv, .setState .active, .setSub .running] ++ startPost svc ++
    startReturn .done

/-- `start` from `ExecStart=` on. -/
def execStart (svc : ServiceUnit) : List Op :=
  match svc.execStart with
  | [] =>
    if svc.serviceType = .oneshot then
      [.setState (oneshotState svc), .setSub .dead] ++ startReturn .done
    else startReturn .failed
  | cmd :: _ =>
    match svc.serviceType with
    | .oneshot => startOneshot svc cmd
    | .forking => startForking svc cmd
    | .simple | .exec | .idle => startSimple svc cmd
    | .notify | .notifyReload => startNotify svc cmd
    | .dbus => [.setState .failed, .setSub .failed] ++ startReturn .failed

/-- `start`, and the publication of its result. -/
def startOps (svc : ServiceUnit) : List Op :=
  [.clearStop, .setState .activating, .setSub .startPre, .resolveEnv] ++
    svc.execCondition.map (.exec · .condition) ++ svc.execStartPre.map (.exec · .required) ++
    .setSub .start :: execStart svc

/-- `stop`, before its return. -/
def stopOps (svc : ServiceUnit) : List Op :=
  [.requestStop, .setState .deactivating, .setSub .stop, .resolveEnv] ++
    svc.execStop.map (.exec · .bestEffort) ++ .readPid :: svc.execStopPost.map (.exec · .bestEffort) ++
    [.setState .inactive, .setSub .dead, .setMainPid none, .setChild none]

/-- `reload`, before its return. -/
def reloadOps (svc : ServiceUnit) : List Op :=
  [.resolveEnv, .setSub .reload] ++ svc.execReload.map (.exec · .bestEffort) ++ [.setSub .running]

/-- `supervise`. -/
def superviseOps (svc : ServiceUnit) : List Op :=
  match svc.serviceType with
  | .forking => [.readPollPid]
  | .oneshot | .dbus => []
  | _ => [.takeChild]

/-- What a call does after its runner has returned. -/
def TaskKind.returnOps : TaskKind → JobOutcome → List Op
  | .start _, o => startReturn o
  | .stop _, _ => [.markDead, .jobRemoved .done]
  | .restart _, _ => [.markDead, .respawn]
  | .reload _, o => [.jobRemoved o]
  | .supervise, _ => []

/-- The whole program of a call. -/
def TaskKind.program (svc : ServiceUnit) : TaskKind → List Op
  | .start _ => startOps svc
  | .stop id => stopOps svc ++ (TaskKind.stop id).returnOps .done
  | .restart id => stopOps svc ++ (TaskKind.restart id).returnOps .done
  | .reload id => reloadOps svc ++ (TaskKind.reload id).returnOps .done
  | .supervise => superviseOps svc

/-! ## Steps -/

/-- What a step leaves: the runner, the rest of the program and the acts. -/
structure Reply where
  runner : Runner
  ops : List Op
  acts : List Act := []

/-- The kernel may give out the pid. -/
def freshPid (procs : List Proc) (pid : Int) : Bool :=
  0 < pid && procs.all fun q => !q.alive || q.pid != pid

/-- The process has exited. -/
def exited (procs : List Proc) (p : ProcId) : Bool :=
  match procs[p]? with
  | some q => !q.alive
  | none => false

/-- No process spawned here has the pid. -/
def pidGone (procs : List Proc) (pid : Int) : Bool := procs.all fun q => !q.alive || q.pid != pid

/-- `run_oneshot` has a timeout. -/
def hasTimeout (svc : ServiceUnit) : Bool :=
  match svc.timeoutStartSec with
  | some (.finite _) => true
  | some .infinity => false
  | none => svc.serviceType ≠ .oneshot

/-- What a command that exits unsuccessfully does to the start it belongs to. -/
def ExecKind.failure : ExecKind → List Op
  | .condition => [.setState .inactive, .setSub .dead]
  | .required => [.setState .failed, .setSub .failed]
  | .bestEffort => []

/-- What a datagram sets, before the loop goes on or ends. -/
def messageOps (msg : NotifyMessage) : List Op :=
  (match msg.mainPid with
    | some p => [.setMainPid (some p)]
    | none => []) ++
  match msg.status with
    | some s => [.setStatus s]
    | none => []

/-- The state that the exit of a main process leaves. -/
def exitState (clean : Bool) : ActiveState × SubState :=
  if clean then (.inactive, .dead) else (.failed, .failed)

namespace Op

variable (procs : List Proc) (free : Bool) (kind : TaskKind) (r : Runner) (rest : List Op)

/-- `run_oneshot` up to the spawn. An error ends the call, unless it is ignored. -/
def runExec (cmd : ExecCommand) (k : ExecKind) : Response → Option Reply
  | .spawned pid =>
    if freshPid procs pid then
      some ⟨r, .waitExec procs.length cmd k :: rest, [.spawn pid false]⟩
    else none
  | .err => some ⟨r, if k = .bestEffort then rest else kind.returnOps .failed, []⟩
  | _ => none

/-- `run_oneshot` from the spawn on. -/
def runWaitExec (p : ProcId) (cmd : ExecCommand) (k : ExecKind) : Response → Option Reply
  | .exited success =>
    if exited procs p then
      some ⟨r, if success ∨ cmd.flags.ignoreFailure ∨ k = .bestEffort then rest
        else k.failure ++ kind.returnOps .failed, []⟩
    else none
  | .timeout =>
    if hasTimeout r.svc then
      some ⟨r, if k = .bestEffort then rest else kind.returnOps .failed, [.reap p]⟩
    else none
  | .err => some ⟨r, if k = .bestEffort then rest else kind.returnOps .failed, []⟩
  | _ => none

/-- Spawning a main process: its pid is recorded. -/
def runSpawnMain : Response → Option Reply
  | .spawned pid =>
    if freshPid procs pid then
      some ⟨{ r with mainPid := some pid }, .setChild (some procs.length) :: rest,
        [.spawn pid true]⟩
    else none
  | .err => some ⟨r, kind.returnOps .failed, []⟩
  | _ => none

/-- Spawning the process that forks. -/
def runSpawnForking : Response → Option Reply
  | .spawned pid =>
    if freshPid procs pid then some ⟨r, .waitForking procs.length :: rest, [.spawn pid true]⟩
    else none
  | .err => some ⟨r, kind.returnOps .failed, []⟩
  | _ => none

/-- Reading the PID file, again until it holds a pid. -/
def runReadPidFile : Response → Option Reply
  | .file text =>
    match pidOfFile text with
    | some p => some ⟨r, .setMainPid (some p) :: rest, []⟩
    | none => some ⟨r, .readPidFile :: rest, []⟩
  | .timeout =>
    some ⟨r, if r.svc.guessMainPid then rest
      else [.setState .failed, .setSub .failed] ++ kind.returnOps .failed, []⟩
  | _ => none

/-- Receiving one datagram; a failure leaves the state as it is. -/
def runRecv : Response → Option Reply
  | .datagram buf =>
    let msg := NotifyMessage.parse (buf.take 4096)
    some ⟨r, messageOps msg ++ if msg.ready then rest else .recv :: rest, []⟩
  | .err | .timeout => some ⟨r, kind.returnOps .failed, []⟩
  | _ => none

/-- The signal of a stop, if there is a main pid. -/
def runReadPid : Option Reply :=
  match r.mainPid with
  | none => some ⟨r, rest, []⟩
  | some p =>
    match (match r.svc.killSignal with
      | some name => parseSignalStrict name
      | none => some .sigterm) with
    | none => some ⟨r, kind.returnOps .failed, []⟩
    | some sig =>
      some ⟨r, .holdChild p :: rest, match killTarget r.svc.killMode p with
        | some t => [.kill ⟨t, some sig⟩]
        | none => []⟩

/-- The end of the wait of a stop. -/
def released : Runner := { r with childHeld := false }

/-- The wait of a stop: for the child, or by polling the pid. -/
def runWaitGone (p : Int) : Response → Option Reply
  | .exited _ =>
    match r.child with
    | some c => if exited procs c then some ⟨released r, rest, []⟩ else none
    | none => none
  | .err =>
    match r.child with
    | some _ => some ⟨released r, rest, []⟩
    | none => none
  | .gone =>
    match r.child with
    | some _ => none
    | none => if pidGone procs p then some ⟨released r, rest, [.kill ⟨.pid p, none⟩]⟩ else none
  | .timeout =>
    let probes := if r.child.isSome then [] else [Act.kill ⟨.pid p, none⟩]
    if r.svc.sendSigkill then
      let acts := probes ++ match killTarget r.svc.killMode p with
        | some t => [.kill ⟨t, some .sigkill⟩]
        | none => []
      match r.child with
      | some c => some ⟨r, .waitKilled c :: rest, acts⟩
      | none => some ⟨released r, rest, acts⟩
    else some ⟨released r, rest, probes⟩
  | _ => none

/-- Waiting for a child: its exit, or an error of the wait. -/
def runWait (c : ProcId) (resp : Response) (onExit : Bool → Reply) (onErr : Reply) :
    Option Reply :=
  match resp with
  | .exited success => if exited procs c then some (onExit success) else none
  | .err => some onErr
  | _ => none

/-- The supervisor takes the child, or goes by the pid. -/
def runTakeChild : Option Reply :=
  if r.childHeld then none
  else match r.child with
    | some c => some ⟨{ r with child := none }, .waitMain c :: rest, []⟩
    | none => some ⟨r, .readPollPid :: rest, []⟩

/-- What the supervisor does after an exit, unless a stop is in progress. -/
def runCheckStopping (clean : Bool) : Reply :=
  if r.stopping then ⟨r, [], []⟩
  else ⟨r, [.setState (exitState clean).1, .setSub (exitState clean).2, .setMainPid none,
    .publishExit (exitState clean).1 (exitState clean).2], []⟩

/-- The result of a start is published, and a process that is up is supervised. -/
def runPublish (o : JobOutcome) (a : ActiveState) (s : SubState) : Reply :=
  ⟨r, .jobRemoved o :: rest, .mark a s ::
    if a = .active ∧ r.svc.serviceType ≠ .oneshot ∧ r.svc.serviceType ≠ .dbus then [.supervise]
    else []⟩

/-- One step of a program on its runner, if it can be taken. `free` says whether
the lock of the manager is. -/
def run (resp : Response) : Op → Option Reply
  | clearStop => some ⟨{ r with stopping := false }, rest, []⟩
  | requestStop => some ⟨{ r with stopping := true }, rest, []⟩
  | setState a => some ⟨{ r with state := a }, rest, []⟩
  | setSub s => some ⟨{ r with sub := s }, rest, []⟩
  | setStatus s => some ⟨{ r with status := some s }, rest, []⟩
  | setMainPid p => some ⟨{ r with mainPid := p }, rest, []⟩
  | setChild c => if r.childHeld then none else some ⟨{ r with child := c }, rest, []⟩
  | resolveEnv | bindSocket =>
    match resp with
    | .ok => some ⟨r, rest, []⟩
    | .err => some ⟨r, kind.returnOps .failed, []⟩
    | _ => none
  | exec cmd k => runExec procs kind r rest cmd k resp
  | waitExec p cmd k => runWaitExec procs kind r rest p cmd k resp
  | spawnMain _ => runSpawnMain procs kind r rest resp
  | spawnForking _ => runSpawnForking procs kind r rest resp
  | waitForking p => runWait procs p resp (fun _ => ⟨r, rest, []⟩) ⟨r, rest, []⟩
  | readPidFile => runReadPidFile kind r rest resp
  | recv => runRecv kind r rest resp
  | readState o => some ⟨r, .readSub o r.state :: rest, []⟩
  | readSub o a => some ⟨r, .publish o a r.sub :: rest, []⟩
  | publish o a s => if free then some (runPublish r rest o a s) else none
  | jobRemoved o => some ⟨r, rest, [.jobRemoved o]⟩
  | readPid => runReadPid kind r rest
  | holdChild p =>
    if r.childHeld then none else some ⟨{ r with childHeld := true }, .waitGone p :: rest, []⟩
  | waitGone p => runWaitGone procs r rest p resp
  | waitKilled c =>
    runWait procs c resp (fun _ => ⟨released r, rest, []⟩) ⟨released r, rest, []⟩
  | markDead => some ⟨r, rest, [.mark .inactive .dead]⟩
  | respawn => some ⟨r, rest, [.respawn]⟩
  | takeChild => runTakeChild r rest
  | waitMain c =>
    runWait procs c resp (fun success => ⟨r, .checkStopping success :: rest, []⟩)
      ⟨r, .readPollPid :: rest, []⟩
  | readPollPid =>
    match r.mainPid with
    | some p => some ⟨r, .poll p :: rest, []⟩
    | none => some ⟨r, [], []⟩
  | poll p =>
    match resp with
    | .gone =>
      if pidGone procs p then some ⟨r, .checkStopping true :: rest, [.kill ⟨.pid p, none⟩]⟩
      else none
    | _ => none
  | checkStopping clean => some (runCheckStopping r clean)
  | publishExit a s => if free then some ⟨r, rest, [.mark a s]⟩ else none

end Op

end Systeml.Runtime
