import Systeml.Lib.Script
import Systeml.Runtime.Replay

/-!
# The order of a service's commands

The commands of a call are a script: a start waits for each `ExecCondition=` and each
`ExecStartPre=` and goes on only if it ended well, begins the main process, and runs each
`ExecStartPost=` however it ends; a stop and a reload run all of theirs. `script` says so
from the service alone. In every run, whatever happens in between, what a task in flight
did so far is what its script allows (`script_run`), and a start or reload reports `Done`
only at the end of it.
-/

namespace Systeml.Runtime

open Systeml.Lib Systeml.Lib.Script Systeml.Unit Systeml.Deps

/-! ## Scripts of calls -/

/-- The first `ExecStart=` command, and what comes after it. -/
def mainScript (svc : ServiceUnit) : List (Item ExecCommand) :=
  let after := svc.execStartPost.map .hook ++ [.report]
  match svc.execStart with
  | [] => if svc.serviceType = .oneshot then [.report] else []
  | cmd :: _ =>
    match svc.serviceType with
    | .oneshot => .gate cmd :: after
    | .dbus => []
    | .simple | .exec | .idle | .forking | .notify | .notifyReload => .launch cmd :: after

/-- The commands of a call, in order. -/
def script (svc : ServiceUnit) : TaskKind → List (Item ExecCommand)
  | .start _ => svc.execCondition.map .gate ++ svc.execStartPre.map .gate ++ mainScript svc
  | .stop _ | .restart _ => svc.execStop.map .hook ++ svc.execStopPost.map .hook
  | .reload _ => svc.execReload.map .hook ++ [.report]
  | .supervise => []

/-- The call reports `Done` only when all has been done. A stop reports it also where it
gave up. -/
def TaskKind.reports : TaskKind → Bool
  | .start _ | .reload _ => true
  | .stop _ | .restart _ | .supervise => false

def ExecKind.item (cmd : ExecCommand) : ExecKind → Item ExecCommand
  | .condition | .required => .gate cmd
  | .bestEffort => .hook cmd

/-- What a step of a program is in its script. -/
def Op.item (kind : TaskKind) : Op → Option (Item ExecCommand)
  | exec cmd k => some (k.item cmd)
  | spawnMain cmd | spawnForking cmd => some (.launch cmd)
  | readState .done | readSub .done _ | publish .done _ _ | jobRemoved .done =>
    if kind.reports then some .report else none
  | _ => none

/-- What a step that is taken does about commands. -/
def Op.event (kind : TaskKind) (resp : Response) : Op → Option (Event ExecCommand)
  | exec cmd _ | spawnMain cmd | spawnForking cmd =>
    match resp with
    | .spawned _ => some (.began cmd)
    | _ => some (.refused cmd)
  | waitExec _ cmd _ =>
    match resp with
    | .exited success => some (.ended cmd (success || cmd.flags.ignoreFailure))
    | _ => some (.ended cmd false)
  | jobRemoved .done => if kind.reports then some .reported else none
  | _ => none

/-- The script of what is left of a program. -/
def itemsOf (kind : TaskKind) (ops : List Op) : List (Item ExecCommand) :=
  ops.filterMap (Op.item kind)

@[simp] theorem itemsOf_nil (kind : TaskKind) : itemsOf kind [] = [] := rfl

@[simp] theorem itemsOf_cons (kind : TaskKind) (o : Op) (ops : List Op) :
    itemsOf kind (o :: ops) = (o.item kind).toList ++ itemsOf kind ops := by
  unfold itemsOf
  rw [List.filterMap_cons]
  cases o.item kind <;> rfl

@[simp] theorem itemsOf_append (kind : TaskKind) (ops ops' : List Op) :
    itemsOf kind (ops ++ ops') = itemsOf kind ops ++ itemsOf kind ops' :=
  List.filterMap_append

theorem itemsOf_exec (kind : TaskKind) (cmds : List ExecCommand) (k : ExecKind) :
    itemsOf kind (cmds.map fun cmd => .exec cmd k) = cmds.map k.item := by
  induction cmds with
  | nil => rfl
  | cons cmd cmds ih =>
    rw [List.map_cons, itemsOf_cons, ih]
    rfl

theorem itemsOf_execStart (id : JobId) (svc : ServiceUnit) :
    itemsOf (.start id) (execStart svc) = mainScript svc := by
  have hpost : ∀ k, itemsOf k (startPost svc) = svc.execStartPost.map .hook :=
    fun k => itemsOf_exec k _ .bestEffort
  unfold execStart mainScript
  cases svc.execStart with
  | nil =>
    by_cases ho : svc.serviceType = .oneshot
    · rw [if_pos ho, if_pos ho]
      rfl
    · rw [if_neg ho, if_neg ho]
      rfl
  | cons cmd cmds =>
    cases svc.serviceType with
    | oneshot =>
      simp only [startOneshot, startReturn, itemsOf_append, hpost]
      rfl
    | forking =>
      unfold startForking
      cases svc.pidFile.isSome <;> simp only [startReturn, itemsOf_append, itemsOf_cons, hpost] <;> rfl
    | simple | exec | idle =>
      simp only [startSimple, startReturn, itemsOf_append, hpost]
      rfl
    | notify | notifyReload =>
      simp only [startNotify, startReturn, itemsOf_append, hpost]
      rfl
    | dbus => rfl

/-- The program of a call has the script of the call. -/
theorem itemsOf_program (svc : ServiceUnit) (kind : TaskKind) :
    itemsOf kind (kind.program svc) = script svc kind := by
  cases kind with
  | start id =>
    simp only [TaskKind.program, startOps, itemsOf_append, itemsOf_cons, itemsOf_exec,
      itemsOf_execStart]
    rfl
  | stop id | restart id =>
    simp only [TaskKind.program, TaskKind.returnOps, stopOps, itemsOf_append, itemsOf_cons, itemsOf_exec]
    simp [Op.item, TaskKind.reports, script]
    rfl
  | reload id =>
    simp only [TaskKind.program, TaskKind.returnOps, reloadOps, itemsOf_append, itemsOf_cons,
      itemsOf_exec]
    simp [Op.item, TaskKind.reports, script]
    exact fun cmd _ => rfl
  | supervise =>
    unfold TaskKind.program superviseOps script
    cases svc.serviceType <;> rfl

/-! ## What a step does to the script -/

/-- The step waits for a command. -/
def Op.isWait : Op → Bool
  | waitExec .. => true
  | _ => false

/-- Nothing of a script is left, and nothing is waited for. -/
structure Over (kind : TaskKind) (ops : List Op) : Prop where
  eq : itemsOf kind ops = []
  idle : ∀ o ∈ ops, o.isWait = false

theorem over_nil (kind : TaskKind) : Over kind [] := ⟨rfl, by simp⟩

theorem over_failed (kind : TaskKind) : Over kind (kind.returnOps .failed) := by
  cases kind <;> exact ⟨rfl, by simp [TaskKind.returnOps, startReturn, Op.isWait]⟩

theorem Over.append {kind : TaskKind} {ops ops' : List Op} (h : Over kind ops)
    (h' : Over kind ops') : Over kind (ops ++ ops') := by
  refine ⟨by rw [itemsOf_append, h.eq, h'.eq]; rfl, fun o ho => ?_⟩
  exact (List.mem_append.mp ho).elim (h.idle o) (h'.idle o)

theorem over_failure (kind : TaskKind) (k : ExecKind) :
    Over kind (k.failure ++ kind.returnOps .failed) := by
  refine Over.append ?_ (over_failed kind)
  cases k <;> exact ⟨rfl, by simp [ExecKind.failure, Op.isWait]⟩

/-- The rest of a program has this script, and waits for nothing. -/
structure Remains (kind : TaskKind) (ops : List Op) (left : List (Item ExecCommand)) : Prop where
  eq : itemsOf kind ops = left
  idle : ∀ o ∈ ops, o.isWait = false

theorem Remains.append {kind : TaskKind} {front ops : List Op} {left : List (Item ExecCommand)}
    (hf : Over kind front) (h : Remains kind ops left) : Remains kind (front ++ ops) left := by
  refine ⟨by rw [itemsOf_append, hf.eq, h.eq]; rfl, fun o ho => ?_⟩
  exact (List.mem_append.mp ho).elim (hf.idle o) (h.idle o)

/-- The step takes its script on. -/
def Op.isCommand : Op → Bool
  | exec .. | waitExec .. | spawnMain _ | spawnForking _ | jobRemoved _ => true
  | _ => false

theorem over_messageOps (kind : TaskKind) (msg : NotifyMessage) : Over kind (messageOps msg) := by
  unfold messageOps
  refine Over.append ?_ ?_ <;> split <;> exact ⟨rfl, by simp [Op.isWait]⟩

namespace Op

variable {procs : List Proc} {free : Bool} {kind : TaskKind} {R : Runner} {rest : List Op}
  {resp : Response} {reply : Reply} {op : Op}

/-- Any other step leaves the script as it is, or gives the whole call up. -/
theorem run_remains (hc : op.isCommand = false) (hrest : ∀ o ∈ rest, o.isWait = false)
    (h : op.run procs free kind R rest resp = some reply) :
    Over kind reply.ops ∨ Remains kind reply.ops (itemsOf kind (op :: rest)) := by
  have hk : Remains kind rest (itemsOf kind rest) := ⟨rfl, hrest⟩
  -- one more step before the rest, with the same part in the script
  have hone : ∀ o o' : Op, o.item kind = o'.item kind → o.isWait = false →
      Remains kind (o :: rest) (itemsOf kind (o' :: rest)) := by
    intro o o' he hw
    refine ⟨by rw [itemsOf_cons, itemsOf_cons, he], fun a ha => ?_⟩
    cases List.mem_cons.mp ha with
    | inl ha => exact ha ▸ hw
    | inr ha => exact hrest a ha
  have hover : ∀ ops : List Op, (∀ o ∈ ops, o.item kind = none ∧ o.isWait = false) →
      Over kind ops := fun ops ho =>
    ⟨List.filterMap_eq_nil_iff.mpr fun o h => (ho o h).1, fun o h => (ho o h).2⟩
  cases op with
  | exec cmd k | waitExec p cmd k | spawnMain cmd | spawnForking cmd | jobRemoved o =>
    exact absurd hc (by simp [isCommand])
  | clearStop | requestStop | setState a | setSub s | setStatus s | setMainPid p | markDead
  | respawn => exact Option.some.inj h ▸ Or.inr hk
  | setChild c =>
    simp only [run] at h
    split at h
    · exact absurd h (by simp)
    · exact Option.some.inj h ▸ Or.inr hk
  | resolveEnv | bindSocket =>
    simp only [run] at h
    split at h
    · exact Option.some.inj h ▸ Or.inr hk
    · exact Option.some.inj h ▸ Or.inl (over_failed kind)
    · exact absurd h (by simp)
  | waitForking p | waitKilled p =>
    obtain ⟨-, -, rfl⟩ | rfl := runWait_cases h <;> exact Or.inr hk
  | readPidFile =>
    cases resp <;> simp only [run, runReadPidFile, reduceCtorEq] at h
    case file text =>
      split at h
      · exact Option.some.inj h ▸ Or.inr (hone _ _ rfl rfl)
      · exact Option.some.inj h ▸ Or.inr (hone _ _ rfl rfl)
    case timeout =>
      obtain rfl := Option.some.inj h
      show Over kind (if R.svc.guessMainPid then rest else _) ∨
        Remains kind (if R.svc.guessMainPid then rest else _) _
      cases R.svc.guessMainPid with
      | true => exact Or.inr hk
      | false => exact Or.inl (over_failure kind .required)
  | recv =>
    cases resp <;> simp only [run, runRecv, reduceCtorEq] at h
    case datagram buf =>
      obtain rfl := Option.some.inj h
      refine Or.inr (Remains.append (over_messageOps kind _) ?_)
      split
      · exact hk
      · exact hone _ _ rfl rfl
    case err | timeout => exact Option.some.inj h ▸ Or.inl (over_failed kind)
  | readState o => exact Option.some.inj h ▸ Or.inr (hone _ _ (by cases o <;> rfl) rfl)
  | readSub o a => exact Option.some.inj h ▸ Or.inr (hone _ _ (by cases o <;> rfl) rfl)
  | publish o a s =>
    simp only [run] at h
    split at h
    · exact Option.some.inj h ▸ Or.inr (hone _ _ (by cases o <;> rfl) rfl)
    · exact absurd h (by simp)
  | readPid =>
    simp only [run, runReadPid] at h
    split at h
    · exact Option.some.inj h ▸ Or.inr hk
    · split at h
      · exact Option.some.inj h ▸ Or.inl (over_failed kind)
      · exact Option.some.inj h ▸ Or.inr (hone _ _ rfl rfl)
  | holdChild p =>
    simp only [run] at h
    split at h
    · exact absurd h (by simp)
    · exact Option.some.inj h ▸ Or.inr (hone _ _ rfl rfl)
  | waitGone p =>
    obtain ⟨acts, -, rfl | ⟨c, rfl⟩⟩ := runWaitGone_cases h
    · exact Or.inr hk
    · exact Or.inr (hone _ _ rfl rfl)
  | takeChild =>
    obtain ⟨c, -, rfl⟩ | ⟨-, rfl⟩ := runTakeChild_cases h <;> exact Or.inr (hone _ _ rfl rfl)
  | waitMain c =>
    obtain ⟨-, -, rfl⟩ | rfl := runWait_cases h <;> exact Or.inr (hone _ _ rfl rfl)
  | readPollPid =>
    simp only [run] at h
    split at h
    · exact Option.some.inj h ▸ Or.inr (hone _ _ rfl rfl)
    · exact Option.some.inj h ▸ Or.inl (over_nil kind)
  | poll p =>
    simp only [run] at h
    split at h
    · split at h
      · exact Option.some.inj h ▸ Or.inr (hone _ _ rfl rfl)
      · exact absurd h (by simp)
    · exact absurd h (by simp)
  | checkStopping clean =>
    obtain rfl := Option.some.inj h
    refine Or.inl (hover _ fun o ho => ?_)
    unfold runCheckStopping at ho
    split at ho
    · exact absurd ho (by simp)
    · simp only [List.mem_cons, List.not_mem_nil, or_false] at ho
      rcases ho with rfl | rfl | rfl | rfl <;> exact ⟨rfl, rfl⟩
  | publishExit a s =>
    simp only [run] at h
    split at h
    · exact Option.some.inj h ▸ Or.inr hk
    · exact absurd h (by simp)

end Op

/-! ## A task follows its script -/

/-- A phase of a script, and the program that is left there. -/
inductive InStep (kind : TaskKind) : List Op → Stage ExecCommand → Prop
  | idle {ops : List Op} {left : List (Item ExecCommand)} (h : Remains kind ops left) :
    InStep kind ops (.idle left)
  | running {rest : List Op} {left : List (Item ExecCommand)} (p : ProcId) (cmd : ExecCommand)
    (k : ExecKind) (h : Remains kind rest left) :
    InStep kind (.waitExec p cmd k :: rest) (.running (k.item cmd) left)
  | spent {ops : List Op} (h : Over kind ops) (p : Stage ExecCommand) : InStep kind ops p

theorem ExecKind.item_what (k : ExecKind) (cmd : ExecCommand) : (k.item cmd).what = some cmd := by
  cases k <;> rfl

theorem ExecKind.item_waits (k : ExecKind) (cmd : ExecCommand) : (k.item cmd).waits = true := by
  cases k <;> rfl

theorem ExecKind.item_optional (k : ExecKind) (cmd : ExecCommand) :
    (k.item cmd).optional = decide (k = .bestEffort) := by
  cases k <;> rfl

theorem Remains.tail {kind : TaskKind} {op : Op} {rest : List Op} {left : List (Item ExecCommand)}
    (h : Remains kind (op :: rest) left) : Remains kind rest (itemsOf kind rest) :=
  ⟨rfl, fun o ho => h.idle o (List.mem_cons_of_mem op ho)⟩

theorem Over.tail {kind : TaskKind} {op : Op} {rest : List Op} (h : Over kind (op :: rest)) :
    op.item kind = none ∧ Over kind rest := by
  have hi := h.eq
  rw [itemsOf_cons, List.append_eq_nil_iff, Option.toList_eq_nil_iff] at hi
  exact ⟨hi.1, hi.2, fun o ho => h.idle o (List.mem_cons_of_mem op ho)⟩

theorem Op.event_of_over {kind : TaskKind} {resp : Response} {op : Op} (hi : op.item kind = none)
    (hw : op.isWait = false) : op.event kind resp = none := by
  cases op with
  | exec cmd k | spawnMain cmd | spawnForking cmd => exact absurd hi (by simp [item])
  | waitExec p cmd k => exact absurd hw (by simp [isWait])
  | jobRemoved o =>
    cases o with
    | done =>
      simp only [item, event] at hi ⊢
      split at hi
      · exact absurd hi (by simp)
      next hr => rw [if_neg hr]
    | _ => rfl
  | _ => rfl

theorem Op.event_of_not_command {kind : TaskKind} {resp : Response} {op : Op}
    (hc : op.isCommand = false) : op.event kind resp = none := by
  cases op with
  | exec cmd k | waitExec p cmd k | spawnMain cmd | spawnForking cmd | jobRemoved o =>
    exact absurd hc (by simp [isCommand])
  | _ => rfl

section Step

variable {procs : List Proc} {free : Bool} {kind : TaskKind} {R : Runner} {rest : List Op}
  {resp : Response} {reply : Reply} {op : Op} {p : Stage ExecCommand}

/-- A step that spawns a command. -/
theorem inStep_exec {cmd : ExecCommand} {k : ExecKind} {left : List (Item ExecCommand)}
    (h : Remains kind rest left)
    (hr : Op.runExec procs kind R rest cmd k resp = some reply) :
    ∃ p', runs Stage.next (.idle (k.item cmd :: left)) ((Op.exec cmd k).event kind resp).toList =
      some p' ∧ InStep kind reply.ops p' := by
  cases resp <;> simp only [Op.runExec, reduceCtorEq] at hr
  case spawned pid =>
    split at hr
    · obtain rfl := Option.some.inj hr
      refine ⟨.running (k.item cmd) left, ?_, .running _ cmd k h⟩
      simp [Op.event, runs, Stage.next, k.item_what, k.item_waits]
    · exact absurd hr (by simp)
  case err =>
    obtain rfl := Option.some.inj hr
    cases k with
    | bestEffort => exact ⟨.idle left, by simp [Op.event, runs, Stage.next, ExecKind.item,
        Item.what, Item.optional], .idle h⟩
    | condition | required => exact ⟨.stopped, by simp [Op.event, runs, Stage.next, ExecKind.item,
        Item.what, Item.optional], .spent (over_failed kind) _⟩

/-- What is left where a command has ended. -/
theorem inStep_ended {q : ProcId} {cmd : ExecCommand} {k : ExecKind} {well : Bool}
    {left : List (Item ExecCommand)} {ops : List Op} (h : Remains kind rest left)
    (hops : Over kind ops) {c : Prop} [Decidable c]
    (hc : c ↔ well = true ∨ k = .bestEffort)
    (hn : (Op.waitExec q cmd k).event kind resp = some (.ended cmd well)) :
    ∃ p', runs Stage.next (.running (k.item cmd) left)
      ((Op.waitExec q cmd k).event kind resp).toList = some p' ∧
      InStep kind (if c then rest else ops) p' := by
  rw [hn]
  by_cases hg : c
  · refine ⟨.idle left, ?_, ?_⟩
    · have hgo : (well || decide (k = .bestEffort)) = true := by simpa using hc.mp hg
      simp [runs, Stage.next, k.item_what, k.item_optional, hgo]
    · rw [if_pos hg]
      exact .idle h
  · refine ⟨.stopped, ?_, ?_⟩
    · have hgo : (well || decide (k = .bestEffort)) = false := by
        have := mt hc.mpr hg
        simpa using this
      simp [runs, Stage.next, k.item_what, k.item_optional, hgo]
    · rw [if_neg hg]
      exact .spent hops _

/-- A step that waits for a command. -/
theorem inStep_wait {q : ProcId} {cmd : ExecCommand} {k : ExecKind}
    {left : List (Item ExecCommand)} (h : Remains kind rest left)
    (hr : Op.runWaitExec procs kind R rest q cmd k resp = some reply) :
    ∃ p', runs Stage.next (.running (k.item cmd) left)
      ((Op.waitExec q cmd k).event kind resp).toList = some p' ∧ InStep kind reply.ops p' := by
  cases resp <;> simp only [Op.runWaitExec, reduceCtorEq] at hr
  case exited success =>
    split at hr
    · obtain rfl := Option.some.inj hr
      exact inStep_ended h (over_failure kind k) (by simp [or_assoc]) rfl
    · exact absurd hr (by simp)
  case timeout =>
    split at hr
    · obtain rfl := Option.some.inj hr
      exact inStep_ended h (over_failed kind) (by simp) rfl
    · exact absurd hr (by simp)
  case err =>
    obtain rfl := Option.some.inj hr
    exact inStep_ended h (over_failed kind) (by simp) rfl

/-- A step that spawns a main process, or what forks it. -/
theorem inStep_spawn {cmd : ExecCommand} {left : List (Item ExecCommand)} {o : Op}
    (h : Remains kind rest left) (ho : o.item kind = none) (hw : o.isWait = false)
    (hc : op = .spawnMain cmd ∨ op = .spawnForking cmd)
    (hr : (∃ pid, resp = .spawned pid ∧ reply.ops = o :: rest) ∨
      (resp = .err ∧ reply.ops = kind.returnOps .failed)) :
    ∃ p', runs Stage.next (.idle (.launch cmd :: left)) (op.event kind resp).toList = some p' ∧
      InStep kind reply.ops p' := by
  obtain ⟨pid, rfl, he⟩ | ⟨rfl, he⟩ := hr
  · refine ⟨.idle left, ?_, ?_⟩
    · rcases hc with rfl | rfl <;> simp [Op.event, runs, Stage.next, Item.what, Item.waits]
    · have hone : Over kind [o] :=
        ⟨by simp [ho], fun a ha => List.mem_singleton.mp ha ▸ hw⟩
      rw [he]
      exact .idle (Remains.append hone h)
  · refine ⟨.stopped, ?_, ?_⟩
    · rcases hc with rfl | rfl <;> simp [Op.event, runs, Stage.next, Item.what, Item.optional]
    · rw [he]
      exact .spent (over_failed kind) _

theorem runSpawnMain_ops (hr : Op.runSpawnMain procs kind R rest resp = some reply) :
    (∃ pid, resp = .spawned pid ∧ reply.ops = .setChild (some procs.length) :: rest) ∨
      (resp = .err ∧ reply.ops = kind.returnOps .failed) := by
  cases resp <;> simp only [Op.runSpawnMain, reduceCtorEq] at hr
  case spawned pid =>
    split at hr
    · exact Option.some.inj hr ▸ Or.inl ⟨pid, rfl, rfl⟩
    · exact absurd hr (by simp)
  case err => exact Option.some.inj hr ▸ Or.inr ⟨rfl, rfl⟩

theorem runSpawnForking_ops (hr : Op.runSpawnForking procs kind R rest resp = some reply) :
    (∃ pid, resp = .spawned pid ∧ reply.ops = .waitForking procs.length :: rest) ∨
      (resp = .err ∧ reply.ops = kind.returnOps .failed) := by
  cases resp <;> simp only [Op.runSpawnForking, reduceCtorEq] at hr
  case spawned pid =>
    split at hr
    · exact Option.some.inj hr ▸ Or.inl ⟨pid, rfl, rfl⟩
    · exact absurd hr (by simp)
  case err => exact Option.some.inj hr ▸ Or.inr ⟨rfl, rfl⟩

/-- A step that closes a job. -/
theorem inStep_jobRemoved {o : JobOutcome} {left : List (Item ExecCommand)}
    (h : Remains kind (.jobRemoved o :: rest) left) :
    ∃ p', runs Stage.next (.idle left) ((Op.jobRemoved o).event kind resp).toList = some p' ∧
      InStep kind rest p' := by
  obtain rfl := h.eq
  rw [itemsOf_cons]
  cases o with
  | done =>
    cases hk : kind.reports with
    | true =>
      refine ⟨.idle (itemsOf kind rest), ?_, .idle h.tail⟩
      simp [Op.event, Op.item, hk, runs, Stage.next]
    | false =>
      refine ⟨.idle (itemsOf kind rest), ?_, .idle h.tail⟩
      simp [Op.event, Op.item, hk]
  | _ => exact ⟨_, rfl, .idle h.tail⟩

/-- **A step follows the script**: what it ran is what the script allows next, and what is
left of the program is what the script has left, or nothing. -/
theorem inStep_step (hf : InStep kind (op :: rest) p)
    (h : op.run procs free kind R rest resp = some reply) :
    ∃ p', runs Stage.next p (op.event kind resp).toList = some p' ∧
      InStep kind reply.ops p' := by
  cases hf with
  | running q cmd k hk => exact inStep_wait hk h
  | spent ho =>
    have hrest := ho.tail
    rw [Op.event_of_over hrest.1 (ho.idle op List.mem_cons_self)]
    refine ⟨p, rfl, .spent ?_ p⟩
    cases hc : op.isCommand with
    | false =>
      rcases Op.run_remains hc hrest.2.idle h with hover | hkeep
      · exact hover
      · exact ⟨hkeep.eq.trans ho.eq, hkeep.idle⟩
    | true =>
      cases op with
      | jobRemoved o =>
        obtain rfl := Option.some.inj h
        exact hrest.2
      | exec cmd k | spawnMain cmd | spawnForking cmd => exact absurd hrest.1 (by simp [Op.item])
      | waitExec q cmd k => exact absurd (ho.idle _ List.mem_cons_self) (by simp [Op.isWait])
      | _ => exact absurd hc (by simp [Op.isCommand])
  | idle hk =>
    cases hc : op.isCommand with
    | false =>
      rw [Op.event_of_not_command hc]
      refine ⟨_, rfl, ?_⟩
      rcases Op.run_remains hc hk.tail.idle h with hover | hkeep
      · exact .spent hover _
      · exact .idle ⟨hkeep.eq.trans hk.eq, hkeep.idle⟩
    | true =>
      cases op with
      | exec cmd k =>
        obtain rfl := hk.eq
        exact inStep_exec hk.tail h
      | spawnMain cmd =>
        obtain rfl := hk.eq
        exact inStep_spawn hk.tail rfl rfl (Or.inl rfl) (runSpawnMain_ops h)
      | spawnForking cmd =>
        obtain rfl := hk.eq
        exact inStep_spawn hk.tail rfl rfl (Or.inr rfl) (runSpawnForking_ops h)
      | jobRemoved o =>
        obtain rfl := Option.some.inj h
        exact inStep_jobRemoved hk
      | waitExec q cmd k => exact absurd (hk.idle _ List.mem_cons_self) (by simp [Op.isWait])
      | _ => exact absurd hc (by simp [Op.isCommand])

/-- A program that has not begun is at the start of its script. -/
theorem inStep_program (svc : ServiceUnit) (kind : TaskKind) :
    InStep kind (kind.program svc) (.idle (script svc kind)) := by
  refine .idle ⟨itemsOf_program svc kind, fun o ho => ?_⟩
  have hi := initials_program svc kind o ho
  cases o with
  | waitExec q cmd k => exact absurd hi (by simp [Op.initial])
  | _ => rfl

end Step

/-! ## Runs -/

namespace World

variable {w w' : World}

/-- What a step ran of a task. -/
def ranIn (w : World) (i : TaskId) : Call → List (Event ExecCommand)
  | .other (.task j resp) =>
    if j = i then
      match w.tasks[i]? with
      | some ⟨kind, _, _, op :: _⟩ => (op.event kind resp).toList
      | _ => []
    else []
  | _ => []

/-- What a run ran of a task. -/
def ranBy (i : TaskId) : World → List Call → List (Event ExecCommand)
  | _, [] => []
  | w, c :: cs => w.ranIn i c ++ match w.call c with
    | some w' => ranBy i w' cs
    | none => []

/-- What a task did is a run of its script, up to what is left of its program. -/
def OnScript (w : World) (t : Option Task) (ns : List (Event ExecCommand)) : Prop :=
  match t with
  | some t => ∃ R p, w.runners[t.runner]? = some R ∧
    runs Stage.next (.idle (script R.svc t.kind)) ns = some p ∧ InStep t.kind t.ops p
  | none => ns = []

/-- So of each task. -/
def Scripted (w : World) (hist : TaskId → List (Event ExecCommand)) : Prop :=
  ∀ i, OnScript w w.tasks[i]? (hist i)

/-- The task is at the start of its program. -/
def Begins (w : World) (t : Task) : Prop :=
  ∃ R : Runner, w.runners[t.runner]? = some R ∧ t.ops = t.kind.program R.svc

theorem Begins.kept {t : Task} (h : Begins w t) (hk : KeepsRunners w w') : Begins w' t := by
  obtain ⟨R, hR, hops⟩ := h
  obtain ⟨R', hR', -, hsvc⟩ := hk t.runner R hR
  exact ⟨R', hR', by rw [hops, hsvc]⟩

theorem Spawns.begins {kind : TaskKind} {u : UnitName} {r : RunnerId} (h : Spawns w w' kind u r)
    (hk : KeepsRunners w w') :
    ∃ new, w'.tasks = w.tasks ++ new ∧ ∀ t ∈ new, Begins w' t := by
  obtain ⟨R, hR, ht⟩ := h
  have hb : Begins w ⟨kind, u, r, kind.program R.svc⟩ := ⟨R, hR, rfl⟩
  exact ⟨_, ht, fun t hm => List.mem_singleton.mp hm ▸ hb.kept hk⟩

/-- Acts put nothing in flight but programs at their start. -/
theorem foldl_act_begins (t : Task) (acts : List Act) (w : World) :
    ∃ new, (acts.foldl (fun w a => w.act t a) w).tasks = w.tasks ++ new ∧
      ∀ t' ∈ new, Begins (acts.foldl (fun w a => w.act t a) w) t' := by
  refine foldl_act_inv (P := fun v => ∃ new, v.tasks = w.tasks ++ new ∧ ∀ t' ∈ new, Begins v t')
    (fun v a _ hv => ?_) ⟨[], (List.append_nil _).symm, by simp⟩
  obtain ⟨new, hnew, hb⟩ := hv
  have hk : KeepsRunners v (v.act t a) := keepsRunners_of_eq (act_runners v t a)
  have hspawn : ∀ {kind u r}, Spawns v (v.act t a) kind u r → ∃ new,
      (v.act t a).tasks = w.tasks ++ new ∧ ∀ t' ∈ new, Begins (v.act t a) t' := by
    intro kind u r hs
    obtain ⟨more, hmore, hb'⟩ := hs.begins hk
    refine ⟨new ++ more, by rw [hmore, hnew, List.append_assoc], fun t' ht' => ?_⟩
    exact (List.mem_append.mp ht').elim (fun hm => (hb t' hm).kept hk) (hb' t')
  rcases act_tasks v t a with he | ⟨-, hs⟩ | ⟨-, _, _, -, -, hs⟩
  · exact ⟨new, he.trans hnew, fun t' ht' => (hb t' ht').kept hk⟩
  · exact hspawn hs
  · exact hspawn hs

theorem step_of_call {l : Label} (hs : w.call (.other l) = some w') : w.step l = some w' := by
  cases l with
  | daemonReload disk => exact absurd hs (by simp [call])
  | _ => exact hs

theorem keepsRunners_call {c : Call} (hs : w.call c = some w') : KeepsRunners w w' := by
  cases c with
  | insertLoaded name lu =>
    obtain ⟨-, rfl⟩ := ifFree_eq hs
    exact keepsRunners_insertLoaded w name lu
  | daemonReload paths => exact keepsRunners_step (l := .daemonReload paths.disk) hs
  | other l => exact keepsRunners_step (step_of_call hs)

/-- A step that is no step of a task only puts programs in flight. -/
theorem begins_step {l : Label} (hl : ∀ i resp, l ≠ .task i resp) (hs : w.step l = some w') :
    ∃ new, w'.tasks = w.tasks ++ new ∧ ∀ t ∈ new, Begins w' t := by
  have hsame : w'.tasks = w.tasks → ∃ new, w'.tasks = w.tasks ++ new ∧ ∀ t ∈ new, Begins w' t :=
    fun he => ⟨[], by rw [he, List.append_nil], by simp⟩
  have hrequest : ∀ {kind n}, l.call w.mgr.allocJobId.1 = some (kind, n) →
      ∃ new, w'.tasks = w.tasks ++ new ∧ ∀ t ∈ new, Begins w' t := by
    intro kind n hcall
    obtain ⟨-, ⟨he, -⟩ | ⟨r, -, hspawn, -⟩⟩ := request_tasks hcall hs
    · exact hsame he
    · exact hspawn.begins (keepsRunners_step hs)
  cases l with
  | startUnit n | stopUnit n | restartUnit n | reloadUnit n | fire timer n => exact hrequest rfl
  | daemonReload disk =>
    obtain ⟨-, rfl⟩ := ifFree_eq hs
    exact hsame rfl
  | reloadStep =>
    obtain ⟨-, rfl⟩ | ⟨op, rest, -, ho⟩ := reloadStep_cases hs
    · exact hsame rfl
    · exact hsame (reloadOp_tasks ho)
  | exit q =>
    obtain rfl := Option.some.inj hs
    exact hsame rfl
  | task i resp => exact absurd rfl (hl i resp)

theorem OnScript.kept {t : Option Task} {ns : List (Event ExecCommand)} (h : OnScript w t ns)
    (hk : KeepsRunners w w') : OnScript w' t ns := by
  cases t with
  | none => exact h
  | some t =>
    obtain ⟨R, p, hR, hrun, hf⟩ := h
    obtain ⟨R', hR', -, hsvc⟩ := hk t.runner R hR
    exact ⟨R', p, hR', by rw [hsvc]; exact hrun, hf⟩

/-- Programs put in flight beside tasks that follow their scripts. -/
theorem scripted_append {hist : TaskId → List (Event ExecCommand)} {ts new : List Task}
    (h : ∀ i, OnScript w ts[i]? (hist i)) (ht : w.tasks = ts ++ new) (hnew : ∀ t ∈ new, Begins w t) :
    Scripted w hist := by
  intro i
  rw [ht]
  by_cases hi : i < ts.length
  · rw [List.getElem?_append_left hi]
    exact h i
  · have hnone := h i
    rw [List.getElem?_eq_none (Nat.le_of_not_lt hi)] at hnone
    have hempty : hist i = [] := hnone
    rw [List.getElem?_append_right (Nat.le_of_not_lt hi), hempty]
    cases hn : new[i - ts.length]? with
    | none => rfl
    | some t =>
      obtain ⟨R, hR, hops⟩ := hnew t (List.mem_of_getElem? hn)
      exact ⟨R, _, hR, rfl, hops ▸ inStep_program R.svc t.kind⟩

theorem scripted_call {c : Call} {hist : TaskId → List (Event ExecCommand)} (h : Scripted w hist)
    (hs : w.call c = some w') : Scripted w' fun i => hist i ++ w.ranIn i c := by
  have hk := keepsRunners_call hs
  -- no task takes a step
  have hquiet : (∀ i, w.ranIn i c = []) →
      (∃ new, w'.tasks = w.tasks ++ new ∧ ∀ t ∈ new, Begins w' t) →
      Scripted w' fun i => hist i ++ w.ranIn i c := by
    rintro hran ⟨new, ht, hnew⟩
    refine scripted_append (fun i => ?_) ht hnew
    rw [hran, List.append_nil]
    exact (h i).kept hk
  cases c with
  | insertLoaded name lu =>
    obtain ⟨-, rfl⟩ := ifFree_eq hs
    exact hquiet (fun i => rfl) ⟨[], by rw [insertLoaded_tasks, List.append_nil], by simp⟩
  | daemonReload paths =>
    exact hquiet (fun i => rfl) (begins_step (l := .daemonReload paths.disk) (by simp) hs)
  | other l =>
    by_cases hl : ∃ i resp, l = .task i resp
    · obtain ⟨i, resp, rfl⟩ := hl
      have htask : w.runTask i resp = some w' := hs
      obtain ⟨t, op, rest, R, reply, ht, hops, hR, hreply, rfl⟩ := runTask_cases htask
      obtain ⟨new, hnew, hb⟩ := foldl_act_begins t reply.acts { w with
        runners := w.runners.set t.runner reply.runner
        tasks := w.tasks.set i { t with ops := reply.ops }
        lock := w.lockAfter i reply.ops }
      refine scripted_append (fun j => ?_) hnew hb
      show OnScript _ (w.tasks.set i { t with ops := reply.ops })[j]? _
      by_cases hij : i = j
      · subst hij
        -- the task goes on in its script
        have hran := (h i).kept hk
        rw [ht] at hran
        obtain ⟨R', p, hR', hrun, hf⟩ := hran
        rw [hops] at hf
        obtain ⟨p', hp', hf'⟩ := inStep_step hf hreply
        have hran : w.ranIn i (.other (.task i resp)) = (op.event t.kind resp).toList := by
          obtain ⟨kind, u, r, ops⟩ := t
          obtain rfl : ops = op :: rest := hops
          simp [ranIn, ht]
        rw [List.getElem?_set_self (List.getElem?_eq_some_iff.mp ht).1, hran]
        exact ⟨R', p', hR', runs_append.mpr ⟨p, hrun, hp'⟩, hf'⟩
      · rw [List.getElem?_set_ne hij]
        have hran : w.ranIn j (.other (.task i resp)) = [] := by
          simp [ranIn, hij]
        rw [hran, List.append_nil]
        exact (h j).kept hk
    · refine hquiet (fun i => ?_) ?_
      · cases l with
        | task j resp => exact absurd ⟨j, resp, rfl⟩ hl
        | _ => rfl
      · exact begins_step (fun i resp he => hl ⟨i, resp, he⟩) (step_of_call hs)

theorem scripted_run : ∀ {cs : List Call} {w w' : World} {hist : TaskId → List (Event ExecCommand)},
    Scripted w hist → runs call w cs = some w' → Scripted w' fun i => hist i ++ ranBy i w cs
  | [], w, w', hist, h, hrun => by
    obtain rfl := Option.some.inj hrun
    simpa only [ranBy, List.append_nil] using h
  | c :: cs, w, w', hist, h, hrun => by
    obtain ⟨v, hv, hrun⟩ := runs_cons.mp hrun
    have hrest := scripted_run (scripted_call h hv) hrun
    simpa only [ranBy, hv, List.append_assoc] using hrest

/-- **Commands run in the order of the unit file**, each at most once and after what it waits
for, whatever else happens: what a task in flight has done is its script up to some phase. -/
theorem script_run {b : Bool} {cs : List Call} (hrun : runs call (newManager b) cs = some w)
    {i : TaskId} {t : Task} (ht : w.tasks[i]? = some t) :
    ∃ R p, w.runners[t.runner]? = some R ∧
      Recounts (script R.svc t.kind) (ranBy i (newManager b) cs) p := by
  have h0 : Scripted (newManager b) fun _ => [] := fun i => rfl
  have hi := scripted_run h0 hrun i
  rw [ht] at hi
  obtain ⟨R, p, hR, hp, -⟩ := hi
  exact ⟨R, p, hR, recounts_of_runs (recounts_nil _) hp⟩

/-- A service with a command before its main process. -/
def gatedService : LoadedUnit serviceName :=
  ⟨{ UnitSpec.empty serviceName with
    kind := .service { execStartPre := [cmd], execStart := [cmd] } }, rfl⟩

/-- It is started: the command runs and ends, and the main process begins. -/
def gatedRun : List Call :=
  [.insertLoaded serviceName gatedService, .other (.startUnit serviceName),
    .other (.task 0 .ok), .other (.task 0 .ok), .other (.task 0 .ok), .other (.task 0 .ok),
    .other (.task 0 (.spawned 5)), .other (.exit 0), .other (.task 0 (.exited true)),
    .other (.task 0 .ok), .other (.task 0 (.spawned 6))]

theorem script_run_gated : ∃ w t, runs call (newManager true) gatedRun = some w ∧
    w.tasks[0]? = some t ∧
    ranBy 0 (newManager true) gatedRun = [.began cmd, .ended cmd true, .began cmd] ∧
    ∃ R p, w.runners[t.runner]? = some R ∧
      Recounts (script R.svc t.kind) (ranBy 0 (newManager true) gatedRun) p := by
  obtain ⟨w, hw⟩ : ∃ w, runs call (newManager true) gatedRun = some w := ⟨_, rfl⟩
  have htask : ((runs call (newManager true) gatedRun).bind fun w => w.tasks[0]?).isSome = true :=
    rfl
  rw [hw] at htask
  obtain ⟨t, ht⟩ := Option.isSome_iff_exists.mp htask
  exact ⟨w, t, hw, ht, rfl, script_run hw ht⟩

end World

end Systeml.Runtime
