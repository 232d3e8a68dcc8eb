import Systeml.Runtime.Frame

/-!
# The shape of a program in flight

A call with a job has its own steps (`Op.isInner`) and ends with one that closes the
job or hands it on (`Op.isLast`): a start, a stop and a reload remove it, a restart
goes on to a start. Early returns cut a program short, but never behind that end:
`Op.run_program` says that each step leaves a program of the same shape, or was the
last one.
-/

namespace Systeml.Runtime

open Systeml.Lib Systeml.Unit Systeml.Deps

/-- The job that the call belongs to. -/
def TaskKind.job : TaskKind → Option JobId
  | .start id | .stop id | .restart id | .reload id => some id
  | .supervise => none

namespace Op

/-! ## Steps of a call -/

/-- The steps that all calls have: commands, and what settles the state. -/
def isCommon : Op → Bool
  | setState _ | setSub _ | resolveEnv | exec .. | waitExec .. => true
  | _ => false

/-- The steps of a start, up to its return. -/
def ofStart : Op → Bool
  | clearStop | setStatus _ | setMainPid (some _) | setChild (some _) | bindSocket | spawnMain _
  | spawnForking _ | waitForking _ | readPidFile | recv => true
  | o => o.isCommon

/-- The steps of a stop, up to what the call does after it. -/
def ofStop : Op → Bool
  | requestStop | setMainPid none | setChild none | readPid | holdChild _ | waitGone _
  | waitKilled _ | markDead => true
  | o => o.isCommon

/-- A step of the call before its end. -/
def isInner (o : Op) : TaskKind → Bool
  | TaskKind.start _ => o.ofStart
  | TaskKind.stop _ | TaskKind.restart _ => o.ofStop
  | TaskKind.reload _ => o.isCommon
  | TaskKind.supervise => false

/-- The end of the call, or a step that goes on to it. -/
def isLast (o : Op) : TaskKind → Bool
  | TaskKind.start _ => match o with
    | readState _ | readSub .. | publish .. | jobRemoved _ => true
    | _ => false
  | TaskKind.stop _ | TaskKind.reload _ => match o with
    | jobRemoved _ => true
    | _ => false
  | TaskKind.restart _ => match o with
    | respawn => true
    | _ => false
  | TaskKind.supervise => false

theorem isInner_of_common {o : Op} (h : o.isCommon = true) {kind : TaskKind}
    (hk : kind.job.isSome = true) : o.isInner kind = true := by
  cases kind with
  | supervise => exact absurd hk (by simp [TaskKind.job])
  | reload id => exact h
  | start id | stop id | restart id =>
    cases o <;> first | rfl | exact absurd h (by simp [isCommon])

end Op

/-- What is left of a call that has not ended. -/
inductive Program (kind : TaskKind) : List Op → Prop
  | last {o : Op} (h : o.isLast kind = true) : Program kind [o]
  | cons {o : Op} {l : List Op} (h : o.isInner kind = true) (hl : Program kind l) :
    Program kind (o :: l)

theorem Program.append {kind : TaskKind} {l : List Op} (hl : Program kind l) :
    ∀ {front : List Op}, (∀ o ∈ front, o.isInner kind = true) → Program kind (front ++ l)
  | [], _ => hl
  | o :: _, h => .cons (h o List.mem_cons_self)
      (hl.append fun o' ho => h o' (List.mem_cons_of_mem o ho))

theorem Program.ne_nil {kind : TaskKind} {l : List Op} (h : Program kind l) : l ≠ [] := by
  cases h <;> simp

/-! ## Whole programs -/

theorem program_returnOps {kind : TaskKind} (h : kind.job.isSome = true) (o : JobOutcome) :
    Program kind (kind.returnOps o) := by
  cases kind with
  | start id => exact .last rfl
  | stop id => exact .cons rfl (.last rfl)
  | restart id => exact .cons rfl (.last rfl)
  | reload id => exact .last rfl
  | supervise => exact absurd h (by simp [TaskKind.job])

/-- The steps are steps of the call before its end. -/
def Inner (kind : TaskKind) (l : List Op) : Prop := ∀ o ∈ l, o.isInner kind = true

theorem Inner.append {kind : TaskKind} {l l' : List Op} (h : Inner kind l) (h' : Inner kind l') :
    Inner kind (l ++ l') := fun o ho => (List.mem_append.mp ho).elim (h o) (h' o)

theorem inner_exec {kind : TaskKind} (h : kind.job.isSome = true) (cmds : List ExecCommand)
    (k : ExecKind) : Inner kind (cmds.map (Op.exec · k)) := by
  intro o ho
  obtain ⟨c, -, rfl⟩ := List.mem_map.mp ho
  exact Op.isInner_of_common rfl h

theorem inner_failure {kind : TaskKind} (h : kind.job.isSome = true) (k : ExecKind) :
    Inner kind k.failure := by
  intro o ho
  refine Op.isInner_of_common ?_ h
  cases k <;> simp only [ExecKind.failure, List.mem_cons, List.not_mem_nil, or_false] at ho
  case condition => cases ho <;> subst o <;> rfl
  case required => cases ho <;> subst o <;> rfl

theorem program_execStart (id : JobId) (svc : ServiceUnit) :
    Program (.start id) (execStart svc) := by
  have hret : ∀ o, Program (.start id) (startReturn o) := fun o => .last rfl
  have hend : ∀ l : List Op, Inner (.start id) l →
      Program (.start id) (l ++ startPost svc ++ startReturn .done) := by
    intro l hl
    exact (hret .done).append (hl.append (inner_exec rfl _ _))
  unfold execStart
  split
  · split
    · exact (hret _).append (by simp [Op.isInner, Op.ofStart, Op.isCommon])
    · exact hret _
  · split
    · exact hend _ (by simp [Inner, Op.isInner, Op.ofStart, Op.isCommon])
    · unfold startForking
      split <;> exact hend _ (by simp [Inner, Op.isInner, Op.ofStart, Op.isCommon])
    · exact hend _ (by simp [Inner, Op.isInner, Op.ofStart, Op.isCommon])
    · exact hend _ (by simp [Inner, Op.isInner, Op.ofStart, Op.isCommon])
    · exact hend _ (by simp [Inner, Op.isInner, Op.ofStart, Op.isCommon])
    · exact hend _ (by simp [Inner, Op.isInner, Op.ofStart, Op.isCommon])
    · exact hend _ (by simp [Inner, Op.isInner, Op.ofStart, Op.isCommon])
    · exact (hret _).append (by simp [Op.isInner, Op.ofStart, Op.isCommon])

theorem inner_stopOps {kind : TaskKind} (hstop : ∀ o : Op, o.isInner kind = o.ofStop)
    (hjob : kind.job.isSome = true) (svc : ServiceUnit) : Inner kind (stopOps svc) := by
  have hinner : ∀ l : List Op, (∀ o ∈ l, o.ofStop = true) → Inner kind l :=
    fun l hl o ho => (hstop o).trans (hl o ho)
  have hpid : Inner kind (.readPid :: svc.execStopPost.map (.exec · .bestEffort)) :=
    (hinner [.readPid] (by simp [Op.ofStop])).append (inner_exec hjob _ _)
  refine ((Inner.append (hinner _ ?_) (inner_exec hjob _ _)).append hpid).append (hinner _ ?_)
  · simp [Op.ofStop, Op.isCommon]
  · simp [Op.ofStop, Op.isCommon]

/-- **A call begins with a program of its shape.** -/
theorem program_program (svc : ServiceUnit) {kind : TaskKind} (h : kind.job.isSome = true) :
    Program kind (kind.program svc) := by
  cases kind with
  | start id =>
    refine Program.append (.cons rfl (program_execStart id svc))
      ((Inner.append ?_ (inner_exec h _ _)).append (inner_exec h _ _))
    simp [Inner, Op.isInner, Op.ofStart, Op.isCommon]
  | stop id => exact (program_returnOps h _).append (inner_stopOps (fun _ => rfl) h svc)
  | restart id => exact (program_returnOps h _).append (inner_stopOps (fun _ => rfl) h svc)
  | reload id =>
    refine (program_returnOps h _).append ((Inner.append ?_ (inner_exec h _ _)).append ?_)
    · simp [Inner, Op.isInner, Op.isCommon]
    · simp [Inner, Op.isInner, Op.isCommon]
  | supervise => exact absurd h (by simp [TaskKind.job])

/-! ## What a step leaves -/

/-- An act that concerns processes, signals and marks, and no job. -/
def Act.isQuiet : Act → Bool
  | spawn .. | kill _ | reap _ | mark .. | supervise => true
  | respawn | jobRemoved _ => false

theorem quiet_of_killsOnly {p : Int} {acts : List Act} (h : Op.KillsOnly p acts) :
    ∀ a ∈ acts, a.isQuiet = true := by
  intro a ha
  obtain ⟨k, rfl, -⟩ := h a ha
  rfl

/-- A step leaves a program, after acts that concern no job. -/
structure Goes (kind : TaskKind) (reply : Reply) : Prop where
  program : Program kind reply.ops
  quiet : ∀ a ∈ reply.acts, a.isQuiet = true

theorem Leaves.program {kind : TaskKind} {rest l : List Op} (hk : kind.job.isSome = true)
    (hrest : Program kind rest) (h : Leaves kind rest l) : Program kind l := by
  cases h with
  | rest => exact hrest
  | ret o => exact program_returnOps hk o
  | fail k o => exact (program_returnOps hk o).append (inner_failure hk k)

namespace Op

variable {procs : List Proc} {free : Bool} {kind : TaskKind} {R : Runner} {rest : List Op}
  {resp : Response} {reply : Reply} {op : Op}

/-- What a step before the end leaves. -/
theorem run_inner (hop : op.isInner kind = true) (hrest : Program kind rest)
    (h : op.run procs free kind R rest resp = some reply) : Goes kind reply := by
  have hk : kind.job.isSome = true := by
    cases kind with
    | supervise => exact absurd hop (by simp [isInner])
    | _ => rfl
  have hleaves : ∀ l, Leaves kind rest l → Program kind l := fun l hl => hl.program hk hrest
  -- a step that only starts have is one of a start
  have hstart : ∀ o o' : Op, o.isInner kind = true → o.ofStop = false → o.isCommon = false →
      o'.ofStart = true → o'.isInner kind = true := by
    intro o o' ho hs hc ho'
    cases kind with
    | start id => exact ho'
    | stop id | restart id => exact absurd (hs.symm.trans ho) (by simp)
    | reload id => exact absurd (hc.symm.trans ho) (by simp)
    | supervise => exact absurd ho (by simp [isInner])
  have hstop : ∀ o o' : Op, o.isInner kind = true → o.ofStart = false → o.isCommon = false →
      o'.ofStop = true → o'.isInner kind = true := by
    intro o o' ho hs hc ho'
    cases kind with
    | stop id | restart id => exact ho'
    | start id => exact absurd (hs.symm.trans ho) (by simp)
    | reload id => exact absurd (hc.symm.trans ho) (by simp)
    | supervise => exact absurd ho (by simp [isInner])
  cases op with
  | clearStop | requestStop | setState a | setSub s | setStatus s | setMainPid p =>
    exact Option.some.inj h ▸ ⟨hrest, by simp⟩
  | setChild c =>
    simp only [run] at h
    split at h
    · exact absurd h (by simp)
    · exact Option.some.inj h ▸ ⟨hrest, by simp⟩
  | resolveEnv | bindSocket =>
    simp only [run] at h
    split at h
    · exact Option.some.inj h ▸ ⟨hrest, by simp⟩
    · exact Option.some.inj h ▸ ⟨program_returnOps hk _, by simp⟩
    · exact absurd h (by simp)
  | exec cmd k =>
    obtain ⟨pid, -, rfl⟩ | ⟨l, hl, rfl⟩ := runExec_cases h
    · exact ⟨.cons (isInner_of_common rfl hk) hrest, by simp [Act.isQuiet]⟩
    · exact ⟨hleaves l hl, by simp⟩
  | waitExec p cmd k =>
    obtain ⟨l, acts, hl, hacts, rfl⟩ := runWaitExec_cases h
    refine ⟨hleaves l hl, ?_⟩
    cases hacts with
    | inl h => simp [h]
    | inr h => simp [h, Act.isQuiet]
  | spawnMain cmd =>
    obtain ⟨pid, -, rfl⟩ | ⟨l, hl, rfl⟩ := runSpawnMain_cases h
    · exact ⟨.cons (hstart _ _ hop rfl rfl rfl) hrest, by simp [Act.isQuiet]⟩
    · exact ⟨hleaves l hl, by simp⟩
  | spawnForking cmd =>
    obtain ⟨pid, -, rfl⟩ | ⟨l, hl, rfl⟩ := runSpawnForking_cases h
    · exact ⟨.cons (hstart _ _ hop rfl rfl rfl) hrest, by simp [Act.isQuiet]⟩
    · exact ⟨hleaves l hl, by simp⟩
  | waitForking p | waitKilled p =>
    obtain ⟨-, -, rfl⟩ | rfl := runWait_cases h <;> exact ⟨hrest, by simp⟩
  | readPidFile =>
    obtain ⟨text, p, -, rfl⟩ | rfl | ⟨l, hl, rfl⟩ := runReadPidFile_cases h
    · exact ⟨.cons (hstart _ _ hop rfl rfl rfl) hrest, by simp⟩
    · exact ⟨.cons hop hrest, by simp⟩
    · exact ⟨hleaves l hl, by simp⟩
  | recv =>
    obtain ⟨buf, l, -, hl, rfl⟩ | ⟨l, hl, rfl⟩ := runRecv_cases h
    · have hl' : Program kind l := by
        cases hl with
        | inl hl => exact hl ▸ hrest
        | inr hl => exact hl ▸ .cons hop hrest
      refine ⟨hl'.append ?_, by simp⟩
      intro o ho
      refine hstart .recv o hop rfl rfl ?_
      simp only [messageOps, List.mem_append] at ho
      cases ho with
      | inl ho =>
        split at ho
        · exact List.mem_singleton.mp ho ▸ rfl
        · exact absurd ho (by simp)
      | inr ho =>
        split at ho
        · exact List.mem_singleton.mp ho ▸ rfl
        · exact absurd ho (by simp)
    · exact ⟨hleaves l hl, by simp⟩
  | readPid =>
    obtain ⟨l, hl, rfl⟩ | ⟨p, acts, -, hacts, rfl⟩ := runReadPid_cases h
    · exact ⟨hleaves l hl, by simp⟩
    · exact ⟨.cons (hstop _ _ hop rfl rfl rfl) hrest, quiet_of_killsOnly hacts⟩
  | holdChild p =>
    simp only [run] at h
    split at h
    · exact absurd h (by simp)
    · exact Option.some.inj h ▸ ⟨.cons (hstop _ _ hop rfl rfl rfl) hrest, by simp⟩
  | waitGone p =>
    obtain ⟨acts, hacts, rfl | ⟨c, rfl⟩⟩ := runWaitGone_cases h
    · exact ⟨hrest, quiet_of_killsOnly hacts⟩
    · exact ⟨.cons (hstop _ _ hop rfl rfl rfl) hrest, quiet_of_killsOnly hacts⟩
  | markDead => exact Option.some.inj h ▸ ⟨hrest, by simp [Act.isQuiet]⟩
  | readState o | readSub o a | publish o a s | jobRemoved o | respawn | takeChild | waitMain c
  | readPollPid | poll p | checkStopping clean | publishExit a s =>
    cases kind <;> exact absurd hop (by simp [isInner, ofStart, ofStop, isCommon])

/-- **What a step of a call leaves**: a program again, unless it was the last one of all,
which closes the job, or starts the unit for a restart. -/
theorem run_program (hprog : Program kind (op :: rest))
    (h : op.run procs free kind R rest resp = some reply) :
    Goes kind reply ∨
      (reply.ops = [] ∧ (∀ id, kind ≠ .restart id) ∧ ∃ o, reply.acts = [.jobRemoved o]) ∨
      (reply.ops = [] ∧ (∃ id, kind = .restart id) ∧ reply.acts = [.respawn]) := by
  cases hprog with
  | cons hop hrest => exact Or.inl (run_inner hop hrest h)
  | last hop =>
    cases kind with
    | supervise => exact absurd hop (by simp [isLast])
    | stop id | reload id =>
      cases op <;> simp only [isLast, reduceCtorEq] at hop
      exact Option.some.inj h ▸ Or.inr (Or.inl ⟨rfl, by simp, _, rfl⟩)
    | restart id =>
      cases op <;> simp only [isLast, reduceCtorEq] at hop
      exact Option.some.inj h ▸ Or.inr (Or.inr ⟨rfl, ⟨id, rfl⟩, rfl⟩)
    | start id =>
      cases op <;> simp only [isLast, reduceCtorEq] at hop
      case readState o => exact Option.some.inj h ▸ Or.inl ⟨.last rfl, by simp⟩
      case readSub o a => exact Option.some.inj h ▸ Or.inl ⟨.last rfl, by simp⟩
      case publish o a s =>
        simp only [run] at h
        split at h
        · refine Option.some.inj h ▸ Or.inl ⟨.last rfl, ?_⟩
          intro act hact
          simp only [runPublish] at hact
          split at hact
          · have hmem : act = .mark a s ∨ act = .supervise := by simpa using hact
            cases hmem with
            | inl he => exact he ▸ rfl
            | inr he => exact he ▸ rfl
          · exact List.mem_singleton.mp hact ▸ rfl
        · exact absurd h (by simp)
      case jobRemoved o =>
        exact Option.some.inj h ▸ Or.inr (Or.inl ⟨rfl, by simp, _, rfl⟩)

end Op

/-! ## Acts -/

/-- Which step does what. -/
inductive Op.Does (free : Bool) : Op → Act → Prop
  | exec (cmd : ExecCommand) (k : ExecKind) (pid : Int) : Does free (.exec cmd k) (.spawn pid false)
  | spawnMain (cmd : ExecCommand) (pid : Int) : Does free (.spawnMain cmd) (.spawn pid true)
  | spawnForking (cmd : ExecCommand) (pid : Int) : Does free (.spawnForking cmd) (.spawn pid true)
  | reap (p : ProcId) (cmd : ExecCommand) (k : ExecKind) : Does free (.waitExec p cmd k) (.reap p)
  | kill (op : Op) (k : Kill) : Does free op (.kill k)
  | publish (o : JobOutcome) (a : ActiveState) (s : SubState) (h : free = true) :
    Does free (.publish o a s) (.mark a s)
  | supervise (o : JobOutcome) (s : SubState) (h : free = true) :
    Does free (.publish o .active s) .supervise
  | markDead : Does free .markDead (.mark .inactive .dead)
  | publishExit (a : ActiveState) (s : SubState) (h : free = true) :
    Does free (.publishExit a s) (.mark a s)
  | jobRemoved (o : JobOutcome) : Does free (.jobRemoved o) (.jobRemoved o)
  | respawn : Does free .respawn .respawn

theorem Op.does_of_killsOnly {p : Int} {free : Bool} {op : Op} {acts : List Act}
    (h : Op.KillsOnly p acts) : ∀ a ∈ acts, Op.Does free op a := by
  intro a ha
  obtain ⟨k, rfl, -⟩ := h a ha
  exact .kill op k

/-- **What a step does outside of its runner.** -/
theorem Op.run_does {procs : List Proc} {free : Bool} {kind : TaskKind} {R : Runner}
    {rest : List Op} {resp : Response} {op : Op} {reply : Reply}
    (h : op.run procs free kind R rest resp = some reply) : ∀ a ∈ reply.acts, op.Does free a := by
  have hnone : reply.acts = [] → ∀ a ∈ reply.acts, op.Does free a := by
    intro he
    rw [he]
    simp
  cases op with
  | clearStop | requestStop | setState a | setSub s | setStatus s | setMainPid p | readState o
  | readSub o a => exact hnone (Option.some.inj h ▸ rfl)
  | setChild c | holdChild p =>
    simp only [run] at h
    split at h
    · exact absurd h (by simp)
    · exact hnone (Option.some.inj h ▸ rfl)
  | resolveEnv | bindSocket =>
    simp only [run] at h
    split at h
    · exact hnone (Option.some.inj h ▸ rfl)
    · exact hnone (Option.some.inj h ▸ rfl)
    · exact absurd h (by simp)
  | exec cmd k =>
    obtain ⟨pid, -, rfl⟩ | ⟨l, -, rfl⟩ := runExec_cases h
    · intro a ha
      exact List.mem_singleton.mp ha ▸ .exec cmd k pid
    · exact hnone rfl
  | waitExec p cmd k =>
    obtain ⟨l, acts, -, hacts, rfl⟩ := runWaitExec_cases h
    cases hacts with
    | inl he => exact hnone he
    | inr he =>
      intro a ha
      obtain rfl : a = .reap p := List.mem_singleton.mp (he ▸ ha)
      exact .reap p cmd k
  | spawnMain cmd =>
    obtain ⟨pid, -, rfl⟩ | ⟨l, -, rfl⟩ := runSpawnMain_cases h
    · intro a ha
      exact List.mem_singleton.mp ha ▸ .spawnMain cmd pid
    · exact hnone rfl
  | spawnForking cmd =>
    obtain ⟨pid, -, rfl⟩ | ⟨l, -, rfl⟩ := runSpawnForking_cases h
    · intro a ha
      exact List.mem_singleton.mp ha ▸ .spawnForking cmd pid
    · exact hnone rfl
  | waitForking p | waitKilled p | waitMain p =>
    obtain ⟨clean, -, rfl⟩ | rfl := runWait_cases h <;> exact hnone rfl
  | readPidFile =>
    obtain ⟨text, p, -, rfl⟩ | rfl | ⟨l, -, rfl⟩ := runReadPidFile_cases h <;> exact hnone rfl
  | recv =>
    obtain ⟨buf, l, -, -, rfl⟩ | ⟨l, -, rfl⟩ := runRecv_cases h <;> exact hnone rfl
  | publish o a s =>
    simp only [run] at h
    split at h
    next hfree =>
      obtain rfl := Option.some.inj h
      intro act hact
      simp only [runPublish, List.mem_cons] at hact
      cases hact with
      | inl he => exact he ▸ .publish o a s hfree
      | inr hact =>
        split at hact
        next ha =>
          obtain ⟨rfl, -⟩ := ha
          exact List.mem_singleton.mp hact ▸ .supervise o s hfree
        next => exact absurd hact (by simp)
    next => exact absurd h (by simp)
  | jobRemoved o =>
    obtain rfl := Option.some.inj h
    intro a ha
    exact List.mem_singleton.mp ha ▸ .jobRemoved o
  | readPid =>
    obtain ⟨l, -, rfl⟩ | ⟨p, acts, -, hacts, rfl⟩ := runReadPid_cases h
    · exact hnone rfl
    · exact does_of_killsOnly hacts
  | waitGone p =>
    obtain ⟨acts, hacts, rfl | ⟨c, rfl⟩⟩ := runWaitGone_cases h
    · exact does_of_killsOnly hacts
    · exact does_of_killsOnly hacts
  | markDead =>
    obtain rfl := Option.some.inj h
    intro a ha
    exact List.mem_singleton.mp ha ▸ .markDead
  | respawn =>
    obtain rfl := Option.some.inj h
    intro a ha
    exact List.mem_singleton.mp ha ▸ .respawn
  | takeChild =>
    obtain ⟨c, -, rfl⟩ | ⟨-, rfl⟩ := runTakeChild_cases h <;> exact hnone rfl
  | readPollPid =>
    simp only [run] at h
    split at h <;> exact hnone (Option.some.inj h ▸ rfl)
  | poll p =>
    simp only [run] at h
    split at h
    · split at h
      · obtain rfl := Option.some.inj h
        intro a ha
        exact List.mem_singleton.mp ha ▸ .kill _ _
      · exact absurd h (by simp)
    · exact absurd h (by simp)
  | checkStopping clean =>
    refine hnone (Option.some.inj h ▸ ?_)
    unfold runCheckStopping
    split <;> rfl
  | publishExit a s =>
    simp only [run] at h
    split at h
    next hfree =>
      obtain rfl := Option.some.inj h
      intro act hact
      exact List.mem_singleton.mp hact ▸ .publishExit a s hfree
    next => exact absurd h (by simp)

/-- **Three steps mark the unit**: the publication of a start, the end of a stop and the
publication of an exit. -/
theorem Op.run_marks {procs : List Proc} {free : Bool} {kind : TaskKind} {R : Runner}
    {rest : List Op} {resp : Response} {op : Op} {reply : Reply} {st : ActiveState} {s : SubState}
    (h : op.run procs free kind R rest resp = some reply) (hm : .mark st s ∈ reply.acts) :
    (∃ o, op = .publish o st s) ∨ (op = .markDead ∧ st = .inactive ∧ s = .dead) ∨
      op = .publishExit st s := by
  cases Op.run_does h _ hm with
  | publish o _ _ _ => exact Or.inl ⟨o, rfl⟩
  | markDead => exact Or.inr (Or.inl ⟨rfl, rfl, rfl⟩)
  | publishExit _ _ _ => exact Or.inr (Or.inr rfl)

/-! ## The supervisor -/

/-- The unit is not running and not on its way to. -/
def ActiveState.atRest : ActiveState → Bool
  | .inactive | .failed => true
  | _ => false

theorem atRest_exitState (clean : Bool) : (exitState clean).1.atRest = true := by
  cases clean <;> rfl

namespace Op

/-- The steps of a supervisor. -/
def ofSupervisor : Op → Bool
  | takeChild | waitMain _ | readPollPid | poll _ | checkStopping _ | setState _ | setSub _
  | setMainPid none => true
  | publishExit a _ => a.atRest
  | _ => false

end Op

/-- What a step of a supervisor leaves: steps of a supervisor, after signals and marks
that put the unit to rest. A request to stop stays as it is. -/
structure Watches (R : Runner) (reply : Reply) : Prop where
  ops : ∀ o ∈ reply.ops, o.ofSupervisor = true
  acts : ∀ a ∈ reply.acts, (∃ k, a = .kill k) ∨ ∃ st s, a = .mark st s ∧ st.atRest = true
  stopping : reply.runner.stopping = R.stopping

theorem ofSupervisor_program (svc : ServiceUnit) :
    ∀ o ∈ TaskKind.supervise.program svc, o.ofSupervisor = true := by
  simp only [TaskKind.program, superviseOps]
  split <;> simp [Op.ofSupervisor]

/-- **A step of a supervisor.** -/
theorem Op.run_supervisor {procs : List Proc} {free : Bool} {kind : TaskKind} {R : Runner}
    {rest : List Op} {resp : Response} {op : Op} {reply : Reply} (hop : op.ofSupervisor = true)
    (hrest : ∀ o ∈ rest, o.ofSupervisor = true)
    (h : op.run procs free kind R rest resp = some reply) : Watches R reply := by
  have hcons : ∀ o : Op, o.ofSupervisor = true → ∀ o' ∈ o :: rest, o'.ofSupervisor = true :=
    fun o ho o' hmem => (List.mem_cons.mp hmem).elim (fun e => e ▸ ho) (hrest o')
  cases op with
  | takeChild =>
    obtain ⟨c, -, rfl⟩ | ⟨-, rfl⟩ := runTakeChild_cases h
    · exact ⟨hcons _ rfl, by simp, rfl⟩
    · exact ⟨hcons _ rfl, by simp, rfl⟩
  | waitMain c =>
    obtain ⟨clean, -, rfl⟩ | rfl := runWait_cases h
    · exact ⟨hcons _ rfl, by simp, rfl⟩
    · exact ⟨hcons _ rfl, by simp, rfl⟩
  | readPollPid =>
    simp only [run] at h
    split at h
    · exact Option.some.inj h ▸ ⟨hcons _ rfl, by simp, rfl⟩
    · exact Option.some.inj h ▸ ⟨by simp, by simp, rfl⟩
  | poll p =>
    simp only [run] at h
    split at h
    · split at h
      · refine Option.some.inj h ▸ ⟨hcons _ rfl, ?_, rfl⟩
        intro a ha
        exact Or.inl ⟨_, List.mem_singleton.mp ha⟩
      · exact absurd h (by simp)
    · exact absurd h (by simp)
  | checkStopping clean =>
    refine Option.some.inj h ▸ ?_
    unfold runCheckStopping
    split
    · exact ⟨by simp, by simp, rfl⟩
    · refine ⟨?_, by simp, rfl⟩
      simp [ofSupervisor, atRest_exitState]
  | setState a | setSub s | setMainPid p => exact Option.some.inj h ▸ ⟨hrest, by simp, rfl⟩
  | publishExit a s =>
    simp only [run] at h
    split at h
    · refine Option.some.inj h ▸ ⟨hrest, ?_, rfl⟩
      intro act hact
      exact Or.inr ⟨a, s, List.mem_singleton.mp hact, hop⟩
    · exact absurd h (by simp)
  | _ => exact absurd hop (by simp [ofSupervisor])

/-! ## What a step writes -/

/-- Where a runner's fields come from after a step, and which states are set later on. -/
structure Writes (op : Op) (R : Runner) (rest : List Op) (reply : Reply) : Prop where
  state : reply.runner.state = R.state ∨ op = .setState reply.runner.state
  mainPid : reply.runner.mainPid = R.mainPid ∨ op = .setMainPid reply.runner.mainPid ∨
    ∃ cmd, op = .spawnMain cmd
  states : ∀ a, .setState a ∈ reply.ops → .setState a ∈ rest ∨ a.atRest = true

theorem Writes.same {op : Op} {R : Runner} {rest l : List Op} {acts : List Act}
    (h : ∀ a, .setState a ∈ l → .setState a ∈ rest ∨ a.atRest = true) :
    Writes op R rest ⟨R, l, acts⟩ := ⟨Or.inl rfl, Or.inl rfl, h⟩

theorem Leaves.states {kind : TaskKind} {rest l : List Op} (h : Leaves kind rest l) :
    ∀ a, .setState a ∈ l → .setState a ∈ rest ∨ a.atRest = true := by
  have hret : ∀ o a, Op.setState a ∉ kind.returnOps o := by
    intro o a
    cases kind <;> simp [TaskKind.returnOps, startReturn]
  intro a ha
  cases h with
  | rest => exact Or.inl ha
  | ret o => exact absurd ha (hret o a)
  | fail k o =>
    cases List.mem_append.mp ha with
    | inl ha =>
      cases k <;> simp [ExecKind.failure] at ha <;> subst ha <;> exact Or.inr rfl
    | inr ha => exact absurd ha (hret o a)

/-- **Only `setState` writes the state, and only `setMainPid` and the spawn of a main
process the pid.** What a step puts in front of its rest sets no state but one at rest. -/
theorem Op.run_writes {procs : List Proc} {free : Bool} {kind : TaskKind} {R : Runner}
    {rest : List Op} {resp : Response} {op : Op} {reply : Reply}
    (h : op.run procs free kind R rest resp = some reply) : Writes op R rest reply := by
  have hrest : ∀ a, .setState a ∈ rest → .setState a ∈ rest ∨ a.atRest = true :=
    fun a ha => Or.inl ha
  have hcons : ∀ o : Op, (∀ a, o ≠ .setState a) →
      ∀ a, .setState a ∈ o :: rest → .setState a ∈ rest ∨ a.atRest = true := by
    intro o ho a ha
    cases List.mem_cons.mp ha with
    | inl he => exact absurd he.symm (ho a)
    | inr ha => exact Or.inl ha
  cases op with
  | clearStop | requestStop | setSub s | setStatus s =>
    exact Option.some.inj h ▸ ⟨Or.inl rfl, Or.inl rfl, hrest⟩
  | setState a => exact Option.some.inj h ▸ ⟨Or.inr rfl, Or.inl rfl, hrest⟩
  | setMainPid p => exact Option.some.inj h ▸ ⟨Or.inl rfl, Or.inr (Or.inl rfl), hrest⟩
  | readState o | readSub o a => exact Option.some.inj h ▸ .same (hcons _ (by simp))
  | jobRemoved o | markDead | respawn => exact Option.some.inj h ▸ .same hrest
  | setChild c =>
    simp only [run] at h
    split at h
    · exact absurd h (by simp)
    · exact Option.some.inj h ▸ ⟨Or.inl rfl, Or.inl rfl, hrest⟩
  | holdChild p =>
    simp only [run] at h
    split at h
    · exact absurd h (by simp)
    · exact Option.some.inj h ▸ ⟨Or.inl rfl, Or.inl rfl, hcons _ (by simp)⟩
  | resolveEnv | bindSocket =>
    simp only [run] at h
    split at h
    · exact Option.some.inj h ▸ .same hrest
    · exact Option.some.inj h ▸ .same (Leaves.ret _).states
    · exact absurd h (by simp)
  | exec cmd k =>
    obtain ⟨pid, -, rfl⟩ | ⟨l, hl, rfl⟩ := runExec_cases h
    · exact .same (hcons _ (by simp))
    · exact .same hl.states
  | waitExec p cmd k =>
    obtain ⟨l, acts, hl, -, rfl⟩ := runWaitExec_cases h
    exact .same hl.states
  | spawnMain cmd =>
    obtain ⟨pid, -, rfl⟩ | ⟨l, hl, rfl⟩ := runSpawnMain_cases h
    · exact ⟨Or.inl rfl, Or.inr (Or.inr ⟨cmd, rfl⟩), hcons _ (by simp)⟩
    · exact .same hl.states
  | spawnForking cmd =>
    obtain ⟨pid, -, rfl⟩ | ⟨l, hl, rfl⟩ := runSpawnForking_cases h
    · exact .same (hcons _ (by simp))
    · exact .same hl.states
  | waitForking p =>
    obtain ⟨-, -, rfl⟩ | rfl := runWait_cases h
    · exact .same hrest
    · exact .same hrest
  | waitKilled p =>
    obtain ⟨-, -, rfl⟩ | rfl := runWait_cases h
    · exact ⟨Or.inl rfl, Or.inl rfl, hrest⟩
    · exact ⟨Or.inl rfl, Or.inl rfl, hrest⟩
  | waitMain p =>
    obtain ⟨-, -, rfl⟩ | rfl := runWait_cases h
    · exact .same (hcons _ (by simp))
    · exact .same (hcons _ (by simp))
  | readPidFile =>
    obtain ⟨text, p, -, rfl⟩ | rfl | ⟨l, hl, rfl⟩ := runReadPidFile_cases h
    · exact .same (hcons _ (by simp))
    · exact .same (hcons _ (by simp))
    · exact .same hl.states
  | recv =>
    obtain ⟨buf, l, -, hl, rfl⟩ | ⟨l, hl, rfl⟩ := runRecv_cases h
    · refine .same ?_
      intro a ha
      cases List.mem_append.mp ha with
      | inl ha =>
        simp only [messageOps, List.mem_append] at ha
        cases ha with
        | inl ha => split at ha <;> simp at ha
        | inr ha => split at ha <;> simp at ha
      | inr ha =>
        cases hl with
        | inl hl => exact Or.inl (hl ▸ ha)
        | inr hl => exact hcons _ (by simp) a (hl ▸ ha)
    · exact .same hl.states
  | publish o a s =>
    simp only [run] at h
    split at h
    · exact Option.some.inj h ▸ .same (hcons _ (by simp))
    · exact absurd h (by simp)
  | publishExit a s =>
    simp only [run] at h
    split at h
    · exact Option.some.inj h ▸ .same hrest
    · exact absurd h (by simp)
  | readPid =>
    obtain ⟨l, hl, rfl⟩ | ⟨p, acts, -, -, rfl⟩ := runReadPid_cases h
    · exact .same hl.states
    · exact .same (hcons _ (by simp))
  | waitGone p =>
    obtain ⟨acts, -, rfl | ⟨c, rfl⟩⟩ := runWaitGone_cases h
    · exact ⟨Or.inl rfl, Or.inl rfl, hrest⟩
    · exact .same (hcons _ (by simp))
  | takeChild =>
    obtain ⟨c, -, rfl⟩ | ⟨-, rfl⟩ := runTakeChild_cases h
    · exact ⟨Or.inl rfl, Or.inl rfl, hcons _ (by simp)⟩
    · exact .same (hcons _ (by simp))
  | readPollPid =>
    simp only [run] at h
    split at h
    · exact Option.some.inj h ▸ .same (hcons _ (by simp))
    · exact Option.some.inj h ▸ .same (by simp)
  | poll p =>
    simp only [run] at h
    split at h
    · split at h
      · exact Option.some.inj h ▸ .same (hcons _ (by simp))
      · exact absurd h (by simp)
    · exact absurd h (by simp)
  | checkStopping clean =>
    refine Option.some.inj h ▸ ?_
    unfold runCheckStopping
    split
    · exact .same (by simp)
    · refine .same ?_
      intro a ha
      obtain rfl : a = (exitState clean).1 := by simpa using ha
      exact Or.inr (atRest_exitState clean)

/-- **A call goes on with its rest, or to its return.** -/
theorem Op.run_tail {procs : List Proc} {free : Bool} {kind : TaskKind} {R : Runner}
    {rest : List Op} {resp : Response} {op : Op} {reply : Reply} (hop : op.isInner kind = true)
    (h : op.run procs free kind R rest resp = some reply) :
    rest <:+ reply.ops ∨ ∃ o, kind.returnOps o <:+ reply.ops := by
  have hleaves : ∀ l, Leaves kind rest l → rest <:+ l ∨ ∃ o, kind.returnOps o <:+ l := by
    intro l hl
    cases hl with
    | rest => exact Or.inl List.suffix_rfl
    | ret o => exact Or.inr ⟨o, List.suffix_rfl⟩
    | fail k o => exact Or.inr ⟨o, List.suffix_append _ _⟩
  have hkeeps : ∀ l : List Op, l = rest ∨ (∃ o, l = o :: rest) → rest <:+ l := by
    intro l hl
    obtain rfl | ⟨o, rfl⟩ := hl
    · exact List.suffix_rfl
    · exact List.suffix_cons _ _
  cases op with
  | clearStop | requestStop | setState a | setSub s | setStatus s | setMainPid p | markDead =>
    exact Or.inl (Option.some.inj h ▸ List.suffix_rfl)
  | setChild c =>
    simp only [run] at h
    split at h
    · exact absurd h (by simp)
    · exact Or.inl (Option.some.inj h ▸ List.suffix_rfl)
  | holdChild p =>
    simp only [run] at h
    split at h
    · exact absurd h (by simp)
    · exact Or.inl (Option.some.inj h ▸ List.suffix_cons _ _)
  | resolveEnv | bindSocket =>
    simp only [run] at h
    split at h
    · exact Or.inl (Option.some.inj h ▸ List.suffix_rfl)
    · obtain rfl := Option.some.inj h
      exact Or.inr ⟨_, List.suffix_rfl⟩
    · exact absurd h (by simp)
  | exec cmd k =>
    obtain ⟨pid, -, rfl⟩ | ⟨l, hl, rfl⟩ := runExec_cases h
    · exact Or.inl (List.suffix_cons _ _)
    · exact hleaves l hl
  | waitExec p cmd k =>
    obtain ⟨l, acts, hl, -, rfl⟩ := runWaitExec_cases h
    exact hleaves l hl
  | spawnMain cmd =>
    obtain ⟨pid, -, rfl⟩ | ⟨l, hl, rfl⟩ := runSpawnMain_cases h
    · exact Or.inl (List.suffix_cons _ _)
    · exact hleaves l hl
  | spawnForking cmd =>
    obtain ⟨pid, -, rfl⟩ | ⟨l, hl, rfl⟩ := runSpawnForking_cases h
    · exact Or.inl (List.suffix_cons _ _)
    · exact hleaves l hl
  | waitForking p | waitKilled p =>
    obtain ⟨-, -, rfl⟩ | rfl := runWait_cases h
    · exact Or.inl List.suffix_rfl
    · exact Or.inl List.suffix_rfl
  | readPidFile =>
    obtain ⟨text, p, -, rfl⟩ | rfl | ⟨l, hl, rfl⟩ := runReadPidFile_cases h
    · exact Or.inl (List.suffix_cons _ _)
    · exact Or.inl (List.suffix_cons _ _)
    · exact hleaves l hl
  | recv =>
    obtain ⟨buf, l, -, hl, rfl⟩ | ⟨l, hl, rfl⟩ := runRecv_cases h
    · refine Or.inl ((hkeeps l ?_).trans (List.suffix_append _ _))
      exact hl.imp_right fun he => ⟨_, he⟩
    · exact hleaves l hl
  | readPid =>
    obtain ⟨l, hl, rfl⟩ | ⟨p, acts, -, -, rfl⟩ := runReadPid_cases h
    · exact hleaves l hl
    · exact Or.inl (List.suffix_cons _ _)
  | waitGone p =>
    obtain ⟨acts, -, rfl | ⟨c, rfl⟩⟩ := runWaitGone_cases h
    · exact Or.inl List.suffix_rfl
    · exact Or.inl (List.suffix_cons _ _)
  | readState o | readSub o a | publish o a s | jobRemoved o | respawn | takeChild | waitMain c
  | readPollPid | poll p | checkStopping clean | publishExit a s =>
    cases kind <;> exact absurd hop (by simp [isInner, ofStart, ofStop, isCommon])

/-! ## Every state -/

namespace World

variable {w w' : World}

/-- Calls with a job are in the middle of their program, or at its end. -/
def Shaped (w : World) : Prop :=
  ∀ t ∈ w.tasks, t.kind.job.isSome = true → t.ops = [] ∨ Program t.kind t.ops

theorem shaped_step {l : Label} (h : Shaped w) (hs : w.step l = some w') : Shaped w' := by
  refine forall_tasks_step ?_ ?_ h hs
  · intro kind u r svc hk
    exact Or.inr (program_program svc hk)
  · intro i resp t op rest R reply _ _ hops _ hreply ht hk
    cases ht hk with
    | inl hnil =>
      rw [hops] at hnil
      exact absurd hnil (by simp)
    | inr hprog =>
      rw [hops] at hprog
      obtain hgo | ⟨hnil, -⟩ | ⟨hnil, -⟩ := Op.run_program hprog hreply
      · exact Or.inr hgo.program
      · exact Or.inl hnil
      · exact Or.inl hnil

/-- Supervisors take steps of supervisors. -/
def Supervised (w : World) : Prop :=
  ∀ t ∈ w.tasks, t.kind = .supervise → ∀ o ∈ t.ops, o.ofSupervisor = true

theorem supervised_step {l : Label} (h : Supervised w) (hs : w.step l = some w') :
    Supervised w' := by
  refine forall_tasks_step ?_ ?_ h hs
  · intro kind v r svc hk
    obtain rfl : kind = .supervise := hk
    exact ofSupervisor_program svc
  · intro i resp t op rest R reply _ _ hops _ hreply ht hk
    have hall := ht hk
    rw [hops] at hall
    exact (Op.run_supervisor (hall op List.mem_cons_self)
      (fun o ho => hall o (List.mem_cons_of_mem op ho)) hreply).ops

end World

end Systeml.Runtime
