import Systeml.Runtime.Runner

/-!
# One start of a service

`ServiceRunner::start` from its call to its return, with everything it meets
outside given as `StartEnv`: which commands come to their exit, whether spawning
works, what datagrams arrive. An early return leaves the runner as it is there.

`start_settles_iff`: the state agrees with the result, and nothing is left
running, exactly on the paths that come to an exit of every command they run and
to the readiness they wait for (`SettlesWhen`).
-/

namespace Systeml.Runtime

open Systeml.Lib Systeml.Unit

/-- How a command run by `run_oneshot` ends. -/
inductive CommandEnd where
  /-- It cannot be built or spawned. -/
  | unspawned
  | exited (success : Bool)
  | waitFailed
  | timedOut
  deriving DecidableEq, Repr

/-- The main process, by its handle and its pid. -/
structure SpawnedChild where
  proc : ProcId
  pid : Int
  deriving DecidableEq, Repr

/-- What a start meets outside. -/
structure StartEnv where
  /-- `resolve_environment` succeeds. -/
  resolves : Bool
  /-- The ends of the `ExecCondition=` commands, -/
  condition : Nat → CommandEnd
  /-- of the `ExecStartPre=` commands -/
  startPre : Nat → CommandEnd
  /-- and of the `ExecStart=` command of a oneshot. -/
  command : CommandEnd
  /-- The notify socket can be bound. -/
  binds : Bool
  /-- The main process of the other types, if it can be built and spawned. -/
  spawned : Option SpawnedChild
  /-- `Instant::now() + timeout` does not overflow. -/
  deadlineFits : Bool
  /-- The datagrams that arrive before the deadline, or before `recv` fails. -/
  datagrams : List (List UInt8)
  recvFails : Bool
  /-- What `read_with_retry` finds in the PID file. -/
  pidFile : Option Int
  /-- What was spawned as the main process still runs when `start` returns. -/
  alive : Bool

/-- Why `start` returns `Err`. -/
inductive RunnerError where
  | environment
  | spawn (program : Str)
  | wait
  | timedOut
  | bind
  | dbus
  deriving DecidableEq, Repr

/-- Outcome of one supervised `start()` cycle. -/
structure StartOutcome where
  /-- Whether we reached `Active`. -/
  active : Bool
  error : Option String := none
  deriving DecidableEq, Repr

/-- What `start` leaves when it returns. -/
structure Started where
  result : Except RunnerError StartOutcome
  runner : Runner
  /-- A main process that this start spawned still runs. -/
  running : Bool := false

namespace Started

/-- `Ok` with what was reached. -/
def ok (r : Runner) (active : Bool) (error : Option String) (running : Bool) : Started :=
  ⟨.ok ⟨active, error⟩, r, running⟩

/-- `Err`, from a `?` or a refusal. -/
def err (e : RunnerError) (r : Runner) (running : Bool) : Started := ⟨.error e, r, running⟩

end Started

/-- The state and the sub-state are set. -/
def Runner.settle (r : Runner) (a : ActiveState) (s : SubState) : Runner :=
  { r with state := a, sub := s }

/-! ## The phases -/

/-- `run_oneshot`: whether the command exits successfully. -/
def runOneshot (cmd : ExecCommand) : CommandEnd → Except RunnerError Bool
  | .unspawned => .error (.spawn cmd.program)
  | .exited success => .ok success
  | .waitFailed => .error .wait
  | .timedOut => .error .timedOut

/-- The loop over `ExecCondition=` or `ExecStartPre=`: whether all commands pass. -/
def runCommands : List ExecCommand → (Nat → CommandEnd) → Except RunnerError Bool
  | [], _ => .ok true
  | cmd :: cmds, ends =>
    match runOneshot cmd (ends 0) with
    | .error e => .error e
    | .ok success =>
      if !success && !cmd.flags.ignoreFailure then .ok false
      else runCommands cmds fun i => ends (i + 1)

/-- The main pid and the status of a datagram are recorded. -/
def Runner.hear (r : Runner) (msg : NotifyMessage) : Runner :=
  { r with mainPid := msg.mainPid.or r.mainPid, status := msg.status.or r.status }

/-- The loop of `start_notify`: the runner after the datagrams, and whether one of
them was `READY=1`. -/
def receive (r : Runner) : List (List UInt8) → Runner × Bool
  | [] => (r, false)
  | buf :: rest =>
    let msg := NotifyMessage.parse (buf.take 4096)
    if msg.ready then (r.hear msg, true) else receive (r.hear msg) rest

/-- A spawned main process is recorded. -/
def Runner.track (r : Runner) (c : SpawnedChild) : Runner :=
  { r with mainPid := some c.pid, child := some c.proc }

/-- `start_simple`. -/
def runStartSimple (r : Runner) (env : StartEnv) (cmd : ExecCommand) : Started :=
  match env.spawned with
  | none => .err (.spawn cmd.program) r false
  | some c => .ok ((r.track c).settle .active .running) true none env.alive

/-- `start_oneshot`. A command that times out is killed; one whose wait fails is
left alone. -/
def runStartOneshot (r : Runner) (env : StartEnv) (cmd : ExecCommand) : Started :=
  match runOneshot cmd env.command with
  | .error e => .err e r (env.command = .waitFailed && env.alive)
  | .ok success =>
    if !success && !cmd.flags.ignoreFailure then
      .ok (r.settle .failed .failed) false (some "oneshot exit") false
    else .ok (r.settle (oneshotState r.svc) .dead) r.svc.remainAfterExit none false

/-- `start_forking`; nothing if it panics. -/
def runStartForking (r : Runner) (env : StartEnv) (cmd : ExecCommand) : Option Started :=
  match env.spawned with
  | none => some (.err (.spawn cmd.program) r false)
  | some _ =>
    if r.svc.pidFile.isNone then
      some (.ok (r.settle .active .running) true none env.alive)
    else if !env.deadlineFits then none
    else
      match env.pidFile with
      | some pid =>
        some (.ok ({ r with mainPid := some pid }.settle .active .running) true none env.alive)
      | none =>
        if !r.svc.guessMainPid then
          some (.ok (r.settle .failed .failed) false
            (some "PIDFile not produced in TimeoutStartSec") env.alive)
        else some (.ok (r.settle .active .running) true none env.alive)

/-- `start_notify`; nothing if it panics. -/
def runStartNotify (r : Runner) (env : StartEnv) (cmd : ExecCommand) : Option Started :=
  match env.spawned with
  | none => some (.err (.spawn cmd.program) r false)
  | some c =>
    if !env.deadlineFits then none
    else
      match receive (r.track c) env.datagrams with
      | (r, true) => some (.ok (r.settle .active .running) true none env.alive)
      | (r, false) => some (.ok r false
          (some (if env.recvFails then "notify recv" else "Timed out waiting for READY=1"))
          env.alive)

/-- `start` from `ExecStart=` on. -/
def runExecStart (r : Runner) (env : StartEnv) : Option Started :=
  match r.svc.execStart with
  | [] =>
    if r.svc.serviceType = .oneshot then
      some (.ok (r.settle (oneshotState r.svc) .dead) r.svc.remainAfterExit none false)
    else some (.ok r false (some "no ExecStart") false)
  | cmd :: _ =>
    match r.svc.serviceType with
    | .oneshot => some (runStartOneshot r env cmd)
    | .forking => runStartForking r env cmd
    | .simple | .exec | .idle => some (runStartSimple r env cmd)
    | .notify | .notifyReload =>
      if !env.binds then some (.err .bind r false) else runStartNotify r env cmd
    | .dbus => some (.err .dbus (r.settle .failed .failed) false)

/-- The runner when a start begins. -/
def Runner.starting (r : Runner) : Runner :=
  { r with stopping := false, state := .activating, sub := .startPre }

@[simp] theorem Runner.starting_svc (r : Runner) : r.starting.svc = r.svc := rfl

/-- Run the start sequence end-to-end; nothing if it panics. The `ExecStartPost=`
commands at its end change nothing, however they end. -/
def start (r : Runner) (env : StartEnv) : Option Started :=
  let r := r.starting
  if !env.resolves then some (.err .environment r false)
  else
    match runCommands r.svc.execCondition env.condition with
    | .error e => some (.err e r false)
    | .ok false => some (.ok (r.settle .inactive .dead) false (some "ExecCondition failed") false)
    | .ok true =>
      match runCommands r.svc.execStartPre env.startPre with
      | .error e => some (.err e r false)
      | .ok false =>
        some (.ok (r.settle .failed .failed) false (some "ExecStartPre failed") false)
      | .ok true => runExecStart { r with sub := .start } env

/-! ## What a start should leave -/

/-- The runner has settled, in agreement with the result, and unless it is up
nothing of this start is left running. -/
structure Settles (s : Started) : Prop where
  rest : s.runner.state = .active ∨ s.runner.state = .inactive ∨ s.runner.state = .failed
  agrees : s.runner.state = .active ↔ ∃ o, s.result = .ok o ∧ o.active = true
  ended : s.runner.state ≠ .active → s.running = false

/-- The commands come to their exits: all of them, and all pass, or up to the first
that does not. -/
inductive Completes : List ExecCommand → (Nat → CommandEnd) → Bool → Prop
  | nil {ends : Nat → CommandEnd} : Completes [] ends true
  | fails {cmd : ExecCommand} {cmds : List ExecCommand} {ends : Nat → CommandEnd}
      (h : ends 0 = .exited false) (hf : cmd.flags.ignoreFailure = false) :
      Completes (cmd :: cmds) ends false
  | passes {cmd : ExecCommand} {cmds : List ExecCommand} {ends : Nat → CommandEnd}
      {success all : Bool} (h : ends 0 = .exited success)
      (hp : success = true ∨ cmd.flags.ignoreFailure = true)
      (hrest : Completes cmds (fun i => ends (i + 1)) all) : Completes (cmd :: cmds) ends all

/-- What `ExecStart=` needs: a process that can be spawned, a oneshot that comes to
its exit, a datagram that says `READY=1`; and no daemon left behind by a missing PID
file. -/
def MainSettles (svc : ServiceUnit) (env : StartEnv) : Prop :=
  match svc.execStart with
  | [] => svc.serviceType = .oneshot
  | _ :: _ =>
    match svc.serviceType with
    | .simple | .exec | .idle => env.spawned.isSome = true
    | .oneshot => ∃ success, env.command = .exited success
    | .forking => env.spawned.isSome = true ∧ (svc.pidFile.isSome = true →
        env.deadlineFits = true → env.pidFile = none → svc.guessMainPid = false →
          env.alive = false)
    | .notify | .notifyReload => env.binds = true ∧ env.spawned.isSome = true ∧
        (env.deadlineFits = true →
          ∃ buf ∈ env.datagrams, (NotifyMessage.parse (buf.take 4096)).ready = true)
    | .dbus => True

/-- The start takes none of the early returns that leave it unsettled. -/
def SettlesWhen (svc : ServiceUnit) (env : StartEnv) : Prop :=
  env.resolves = true ∧ (Completes svc.execCondition env.condition false ∨
    Completes svc.execCondition env.condition true ∧
      (Completes svc.execStartPre env.startPre false ∨
        Completes svc.execStartPre env.startPre true ∧ MainSettles svc env))

/-! ## The phases settle -/

theorem completes_iff : ∀ {cmds : List ExecCommand} {ends : Nat → CommandEnd} {all : Bool},
    Completes cmds ends all ↔ runCommands cmds ends = .ok all := by
  intro cmds
  induction cmds with
  | nil =>
    intro ends all
    constructor
    · intro h
      cases h
      rfl
    · intro h
      obtain rfl := Except.ok.inj h
      exact .nil
  | cons cmd cmds ih =>
    intro ends all
    unfold runCommands
    cases hend : ends 0 with
    | unspawned | waitFailed | timedOut =>
      refine ⟨fun h => ?_, fun h => absurd h (by simp [runOneshot])⟩
      cases h with
      | fails h _ => rw [hend] at h; exact absurd h (by simp)
      | passes h _ _ => rw [hend] at h; exact absurd h (by simp)
    | exited success =>
      simp only [runOneshot]
      by_cases hstop : (!success && !cmd.flags.ignoreFailure) = true
      · rw [if_pos hstop]
        obtain ⟨rfl, hig⟩ : success = false ∧ cmd.flags.ignoreFailure = false := by
          simpa using hstop
        constructor
        · intro h
          cases h with
          | fails _ _ => rfl
          | passes h hp _ =>
            rw [hend] at h
            obtain rfl := CommandEnd.exited.inj h
            simp [hig] at hp
        · intro h
          obtain rfl := Except.ok.inj h
          exact .fails hend hig
      · rw [if_neg hstop, ← ih]
        have hpass : success = true ∨ cmd.flags.ignoreFailure = true := by
          cases success <;> simp_all
        constructor
        · intro h
          cases h with
          | fails h hf =>
            rw [hend] at h
            obtain rfl := CommandEnd.exited.inj h
            simp [hf] at hpass
          | passes _ _ hrest => exact hrest
        · exact fun h => .passes hend hpass h

theorem not_settles_activating {s : Started} (h : s.runner.state = .activating) :
    ¬ Settles s := by
  intro hs
  have := hs.rest
  rw [h] at this
  simp at this

/-- A start that comes up. -/
theorem settles_up {r : Runner} {running : Bool} {error : Option String} :
    Settles (.ok (r.settle .active .running) true error running) :=
  ⟨Or.inl rfl, ⟨fun _ => ⟨_, rfl, rfl⟩, fun _ => rfl⟩, fun h => absurd rfl h⟩

/-- A start that gives up settles if it leaves nothing running. -/
theorem settles_down {r : Runner} {a : ActiveState} {sub : SubState} {error : Option String}
    {running : Bool} (ha : a = .inactive ∨ a = .failed) :
    Settles (.ok (r.settle a sub) false error running) ↔ running = false := by
  constructor
  · intro h
    refine h.ended ?_
    show a ≠ .active
    rcases ha with rfl | rfl <;> simp
  · intro h
    refine ⟨Or.inr ha, ⟨fun hact => ?_, fun ⟨o, ho, hact⟩ => ?_⟩, fun _ => h⟩
    · have hact : a = .active := hact
      rcases ha with rfl | rfl <;> exact absurd hact (by simp)
    · obtain rfl := Except.ok.inj ho
      exact absurd hact (by simp)

theorem settles_oneshot {r : Runner} {svc : ServiceUnit} :
    Settles (.ok (r.settle (oneshotState svc) .dead) svc.remainAfterExit none false) := by
  unfold oneshotState
  cases svc.remainAfterExit with
  | true => exact ⟨Or.inl rfl, ⟨fun _ => ⟨_, rfl, rfl⟩, fun _ => rfl⟩, fun _ => rfl⟩
  | false => exact (settles_down (Or.inl rfl)).mpr rfl

/-- Datagrams leave the state alone, and one that says `READY=1` ends the loop. -/
theorem receive_spec : ∀ (bufs : List (List UInt8)) (r : Runner),
    (receive r bufs).1.state = r.state ∧
      ((receive r bufs).2 = true ↔
        ∃ buf ∈ bufs, (NotifyMessage.parse (buf.take 4096)).ready = true) := by
  intro bufs
  induction bufs with
  | nil =>
    intro r
    exact ⟨rfl, by simp [receive]⟩
  | cons buf bufs ih =>
    intro r
    unfold receive
    obtain ⟨hstate, hready⟩ := ih (r.hear (NotifyMessage.parse (buf.take 4096)))
    by_cases hr : (NotifyMessage.parse (buf.take 4096)).ready = true
    · rw [if_pos hr]
      exact ⟨rfl, iff_of_true rfl ⟨buf, List.mem_cons_self .., hr⟩⟩
    · rw [if_neg hr]
      refine ⟨hstate, hready.trans ?_⟩
      simp [hr]

/-- A start that returns. -/
theorem settles_some {o : Started} : (∀ s, some o = some s → Settles s) ↔ Settles o :=
  ⟨fun h => h o rfl, fun h _ hs => Option.some.inj hs ▸ h⟩

section

variable {r : Runner} {env : StartEnv}

theorem settles_simple (hact : r.state = .activating) (cmd : ExecCommand) :
    Settles (runStartSimple r env cmd) ↔ env.spawned.isSome = true := by
  unfold runStartSimple
  cases env.spawned with
  | none => exact iff_of_false (not_settles_activating hact) (by simp)
  | some c => exact iff_of_true settles_up rfl

theorem settles_startOneshot (hact : r.state = .activating) (cmd : ExecCommand) :
    Settles (runStartOneshot r env cmd) ↔ ∃ success, env.command = .exited success := by
  unfold runStartOneshot
  cases env.command with
  | unspawned | waitFailed | timedOut =>
    exact iff_of_false (not_settles_activating hact) (by simp)
  | exited success =>
    refine iff_of_true ?_ ⟨success, rfl⟩
    simp only [runOneshot]
    split
    · exact (settles_down (Or.inr rfl)).mpr rfl
    · exact settles_oneshot

theorem settles_forking (hact : r.state = .activating) (cmd : ExecCommand) :
    (∀ s, runStartForking r env cmd = some s → Settles s) ↔ env.spawned.isSome = true ∧
      (r.svc.pidFile.isSome = true → env.deadlineFits = true → env.pidFile = none →
        r.svc.guessMainPid = false → env.alive = false) := by
  unfold runStartForking
  cases env.spawned with
  | none =>
    refine iff_of_false (fun h => ?_) (by simp)
    exact not_settles_activating hact (h _ rfl)
  | some c =>
    cases hp : r.svc.pidFile with
    | none => simp [settles_up]
    | some path =>
      cases hd : env.deadlineFits with
      | false => simp
      | true =>
        cases hf : env.pidFile with
        | some pid => simp [settles_up]
        | none =>
          cases hg : r.svc.guessMainPid with
          | true => simp [settles_up]
          | false => simp [settles_down (Or.inr rfl)]

theorem settles_notify (hact : r.state = .activating) (cmd : ExecCommand) :
    (∀ s, runStartNotify r env cmd = some s → Settles s) ↔ env.spawned.isSome = true ∧
      (env.deadlineFits = true →
        ∃ buf ∈ env.datagrams, (NotifyMessage.parse (buf.take 4096)).ready = true) := by
  unfold runStartNotify
  cases env.spawned with
  | none =>
    refine iff_of_false (fun h => ?_) (by simp)
    exact not_settles_activating hact (h _ rfl)
  | some c =>
    cases hd : env.deadlineFits with
    | false => simp
    | true =>
      obtain ⟨hstate, hready⟩ := receive_spec env.datagrams (r.track c)
      rw [← hready]
      cases hrec : receive (r.track c) env.datagrams with
      | mk r' ready =>
        rw [hrec] at hstate
        simp only [Bool.not_true, Bool.false_eq_true, if_false]
        rw [hrec]
        cases ready with
        | true => exact iff_of_true (settles_some.mpr settles_up) (by simp)
        | false =>
          -- the loop has ended without `READY=1`, and the state is what it was
          have hno : ¬ Settles (.ok r' false (some (if env.recvFails then "notify recv" else
              "Timed out waiting for READY=1")) env.alive) :=
            not_settles_activating (hstate.trans hact)
          exact iff_of_false (fun h => hno (settles_some.mp h)) (by simp)

theorem settles_execStart (hact : r.state = .activating) :
    (∀ s, runExecStart r env = some s → Settles s) ↔ MainSettles r.svc env := by
  unfold runExecStart MainSettles
  cases r.svc.execStart with
  | nil =>
    by_cases ho : r.svc.serviceType = .oneshot
    · simp only [if_pos ho]
      exact iff_of_true (settles_some.mpr settles_oneshot) ho
    · simp only [if_neg ho]
      exact iff_of_false (fun h => not_settles_activating hact (settles_some.mp h)) ho
  | cons cmd cmds =>
    cases r.svc.serviceType with
    | oneshot => exact settles_some.trans (settles_startOneshot hact cmd)
    | forking => exact settles_forking hact cmd
    | simple | exec | idle => exact settles_some.trans (settles_simple hact cmd)
    | notify | notifyReload =>
      cases hb : env.binds with
      | false =>
        refine iff_of_false (fun h => ?_) (by simp)
        exact not_settles_activating hact (settles_some.mp h)
      | true =>
        refine (settles_notify hact cmd).trans ?_
        simp
    | dbus =>
      refine iff_of_true (settles_some.mpr ?_) trivial
      refine ⟨Or.inr (Or.inr rfl), ⟨fun h => absurd h (by simp [Started.err, Runner.settle]),
        fun ⟨o, ho, _⟩ => absurd ho (by simp [Started.err])⟩, fun _ => rfl⟩

end

/-- **A start settles the state it reports exactly where it takes no early return
that leaves it `Activating`** (or, of a forking service, leaves its daemon behind). -/
theorem start_settles_iff (r : Runner) (env : StartEnv) :
    (∀ s, start r env = some s → Settles s) ↔ SettlesWhen r.svc env := by
  unfold start SettlesWhen
  simp only [completes_iff]
  cases env.resolves with
  | false =>
    refine iff_of_false (fun h => ?_) (by simp)
    exact not_settles_activating rfl (settles_some.mp h)
  | true =>
    simp only [Bool.not_true, Bool.false_eq_true, if_false, true_and, Runner.starting_svc]
    cases runCommands r.svc.execCondition env.condition with
    | error e =>
      refine iff_of_false (fun h => ?_) (by simp)
      exact not_settles_activating rfl (settles_some.mp h)
    | ok passed =>
      cases passed with
      | false =>
        refine iff_of_true (settles_some.mpr ?_) (Or.inl rfl)
        exact (settles_down (Or.inl rfl)).mpr rfl
      | true =>
        cases runCommands r.svc.execStartPre env.startPre with
        | error e =>
          refine iff_of_false (fun h => ?_) (by simp)
          exact not_settles_activating rfl (settles_some.mp h)
        | ok passed =>
          cases passed with
          | false =>
            refine iff_of_true (settles_some.mpr ?_) (Or.inr ⟨rfl, Or.inl rfl⟩)
            exact (settles_down (Or.inr rfl)).mpr rfl
          | true =>
            refine (settles_execStart rfl).trans ?_
            simp

/-- A `Type=notify` service with one `ExecStart=` line. -/
def notifyRunner : Runner where
  unit := .plain "a".toList .service
  svc := { serviceType := .notify, execStart := [⟨"/bin/a".toList, ["/bin/a".toList], "/bin/a".toList, {}⟩] }

/-- Its process is spawned and never says `READY=1`. -/
def silentEnv : StartEnv where
  resolves := true
  condition := fun _ => .exited true
  startPre := fun _ => .exited true
  command := .exited true
  binds := true
  spawned := some ⟨0, 5⟩
  deadlineFits := true
  datagrams := []
  recvFails := false
  pidFile := none
  alive := true

/-- A start can return with the unit still `Activating` and its process running. -/
theorem not_all_settle : ¬ ∀ (r : Runner) (env : StartEnv) (s : Started),
    start r env = some s → Settles s := by
  intro h
  obtain ⟨s, hs, hact⟩ : ∃ s, start notifyRunner silentEnv = some s ∧
      s.runner.state = .activating := ⟨_, rfl, rfl⟩
  exact not_settles_activating hact (h _ _ s hs)

end Systeml.Runtime
