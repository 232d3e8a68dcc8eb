import Systeml.Runtime.Minds

/-!
# Steps around the main process

A start keeps to its main process once it has recorded the handle: what is left of it may
write the pid that a datagram names, and nothing else of it (`Op.run_keeps`). A stop
leaves the process alone until it has seen it gone or gives up waiting (`run_tends`).
-/

namespace Systeml.Runtime

open Systeml.Lib Systeml.Unit Systeml.Deps

namespace Op

/-- A step of a call before its return that has nothing to do with the main process. -/
def isPlain : Op → Bool
  | clearStop | requestStop | setState _ | setSub _ | setStatus _ | resolveEnv | bindSocket
  | exec .. | waitExec .. => true
  | _ => false

/-- A step of the return of a call. -/
def isClosing : Op → Bool
  | readState _ | readSub .. | publish .. | jobRemoved _ | markDead | respawn => true
  | _ => false

/-- The step spawns a main process, or keeps the handle of one. -/
def records : Op → Bool
  | spawnMain _ | spawnForking _ | setChild (some _) => true
  | _ => false

/-- The step writes no handle, and no pid but such a one. -/
def Keeps (ok : Int → Prop) : Op → Prop
  | recv => True
  | setMainPid (some p) => ok p
  | o => o.isPlain = true ∨ o.isClosing = true

theorem keeps_of_plain {ok : Int → Prop} {o : Op} (h : o.isPlain = true) : o.Keeps ok := by
  cases o with
  | recv | setMainPid p => exact absurd h (by simp [isPlain])
  | _ => exact Or.inl h

theorem keeps_of_closing {ok : Int → Prop} {o : Op} (h : o.isClosing = true) : o.Keeps ok := by
  cases o with
  | recv | setMainPid p => exact absurd h (by simp [isClosing])
  | _ => exact Or.inr h

theorem Keeps.not_records {ok : Int → Prop} {o : Op} (h : o.Keeps ok) : o.records = false := by
  cases o with
  | spawnMain c | spawnForking c | setChild c =>
    exact absurd h (by simp [Keeps, isPlain, isClosing])
  | _ => rfl

end Op

theorem closing_returnOps (kind : TaskKind) (o : JobOutcome) :
    ∀ x ∈ kind.returnOps o, x.isClosing = true := by
  cases kind <;> simp [TaskKind.returnOps, startReturn, Op.isClosing]

theorem plain_failure (k : ExecKind) : ∀ x ∈ k.failure, x.isPlain = true := by
  cases k <;> simp [ExecKind.failure, Op.isPlain]

theorem plain_exec (cmds : List ExecCommand) (k : ExecKind) :
    ∀ x ∈ cmds.map (Op.exec · k), x.isPlain = true := by
  intro x hx
  obtain ⟨c, -, rfl⟩ := List.mem_map.mp hx
  rfl

/-- What a plain step leaves: the rest, perhaps after another plain step, or the end of its
call. Neither pid nor handle is written. -/
structure Plainly (R : Runner) (rest : List Op) (reply : Reply) : Prop where
  mainPid : reply.runner.mainPid = R.mainPid
  child : reply.runner.child = R.child
  ops : (∃ front, (∀ o ∈ front, o.isPlain = true) ∧ reply.ops = front ++ rest) ∨
    ∀ o ∈ reply.ops, o.isPlain = true ∨ o.isClosing = true

namespace Op

variable {procs : List Proc} {free : Bool} {kind : TaskKind} {R : Runner} {rest : List Op}
  {resp : Response} {reply : Reply} {op : Op} {m : ProcId} {p : Int}

theorem run_plain (hop : op.isPlain = true) (h : op.run procs free kind R rest resp = some reply) :
    Plainly R rest reply := by
  have hrest : ∀ {R' : Runner} {acts : List Act}, R'.mainPid = R.mainPid → R'.child = R.child →
      Plainly R rest ⟨R', rest, acts⟩ :=
    fun hp hc => ⟨hp, hc, Or.inl ⟨[], by simp, rfl⟩⟩
  have hreturn : ∀ o, Plainly R rest ⟨R, kind.returnOps o, []⟩ :=
    fun o => ⟨rfl, rfl, Or.inr fun x hx => Or.inr (closing_returnOps kind o x hx)⟩
  have hleaves : ∀ l acts, Leaves kind rest l → Plainly R rest ⟨R, l, acts⟩ := by
    intro l acts hl
    cases hl with
    | rest => exact hrest rfl rfl
    | ret o => exact ⟨rfl, rfl, (hreturn o).ops⟩
    | fail k o =>
      refine ⟨rfl, rfl, Or.inr fun x hx => ?_⟩
      cases List.mem_append.mp hx with
      | inl hx => exact Or.inl (plain_failure k x hx)
      | inr hx => exact Or.inr (closing_returnOps kind o x hx)
  cases op with
  | clearStop | requestStop | setState a | setSub s | setStatus s =>
    exact Option.some.inj h ▸ hrest rfl rfl
  | resolveEnv | bindSocket =>
    simp only [run] at h
    split at h
    · exact Option.some.inj h ▸ hrest rfl rfl
    · exact Option.some.inj h ▸ hreturn .failed
    · exact absurd h (by simp)
  | exec cmd k =>
    obtain ⟨pid, -, rfl⟩ | ⟨l, hl, rfl⟩ := runExec_cases h
    · exact ⟨rfl, rfl, Or.inl ⟨[.waitExec procs.length cmd k], by simp [isPlain], rfl⟩⟩
    · exact hleaves l _ hl
  | waitExec c cmd k =>
    obtain ⟨l, acts, hl, -, rfl⟩ := runWaitExec_cases h
    exact hleaves l acts hl
  | _ => exact absurd hop (by simp [isPlain])

theorem run_closing (hop : op.isClosing = true)
    (h : op.run procs free kind R rest resp = some reply) :
    reply.runner = R ∧ (reply.ops = rest ∨ ∃ o, o.isClosing = true ∧ reply.ops = o :: rest) := by
  cases op with
  | readState o => exact Option.some.inj h ▸ ⟨rfl, Or.inr ⟨_, rfl, rfl⟩⟩
  | readSub o a => exact Option.some.inj h ▸ ⟨rfl, Or.inr ⟨_, rfl, rfl⟩⟩
  | publish o a s =>
    simp only [run] at h
    split at h
    · exact Option.some.inj h ▸ ⟨rfl, Or.inr ⟨_, rfl, rfl⟩⟩
    · exact absurd h (by simp)
  | jobRemoved o => exact Option.some.inj h ▸ ⟨rfl, Or.inl rfl⟩
  | markDead => exact Option.some.inj h ▸ ⟨rfl, Or.inl rfl⟩
  | respawn => exact Option.some.inj h ▸ ⟨rfl, Or.inl rfl⟩
  | _ => exact absurd hop (by simp [isClosing])


/-- What is left of a start after it has recorded its process. -/
structure Keeping (ok : Int → Prop) (R : Runner) (reply : Reply) : Prop where
  ops : ∀ o ∈ reply.ops, o.Keeps ok
  child : reply.runner.child = R.child
  mainPid : reply.runner.mainPid = R.mainPid ∨ ∃ p, ok p ∧ reply.runner.mainPid = some p

/-- **A start keeps to its process**, if the datagrams do. -/
theorem run_keeps {ok : Int → Prop} (hop : ∀ o ∈ op :: rest, o.Keeps ok)
    (hmsg : ∀ buf p, op = .recv → resp = .datagram buf →
      (NotifyMessage.parse (buf.take 4096)).mainPid = some p → ok p)
    (h : op.run procs free kind R rest resp = some reply) : Keeping ok R reply := by
  have hrest : ∀ o ∈ rest, o.Keeps ok := fun o ho => hop o (List.mem_cons_of_mem op ho)
  have hcons : ∀ o : Op, o.Keeps ok → ∀ x ∈ o :: rest, x.Keeps ok :=
    fun o ho x hx => (List.mem_cons.mp hx).elim (fun e => e ▸ ho) (hrest x)
  have hself := hop op List.mem_cons_self
  have hplain : op.isPlain = true → Keeping ok R reply := by
    intro hp
    obtain ⟨hpid, hchild, ⟨front, hfront, he⟩ | hall⟩ := run_plain hp h
    · refine ⟨fun o ho => ?_, hchild, Or.inl hpid⟩
      rw [he] at ho
      cases List.mem_append.mp ho with
      | inl ho => exact keeps_of_plain (hfront o ho)
      | inr ho => exact hrest o ho
    · exact ⟨fun o ho => (hall o ho).elim keeps_of_plain keeps_of_closing, hchild, Or.inl hpid⟩
  have hclosing : op.isClosing = true → Keeping ok R reply := by
    intro hc
    obtain ⟨hR, he | ⟨o, ho, he⟩⟩ := run_closing hc h
    · exact ⟨he ▸ hrest, hR ▸ rfl, Or.inl (hR ▸ rfl)⟩
    · exact ⟨he ▸ hcons o (keeps_of_closing ho), hR ▸ rfl, Or.inl (hR ▸ rfl)⟩
  cases op with
  | recv =>
    cases resp <;> simp only [run, runRecv, reduceCtorEq] at h
    case datagram buf =>
      obtain rfl := Option.some.inj h
      refine ⟨fun o ho => ?_, rfl, Or.inl rfl⟩
      cases List.mem_append.mp ho with
      | inl ho =>
        unfold messageOps at ho
        cases List.mem_append.mp ho with
        | inl ho =>
          split at ho
          next p hp =>
            obtain rfl := List.mem_singleton.mp ho
            exact hmsg buf p rfl rfl hp
          next => exact absurd ho (by simp)
        | inr ho =>
          split at ho
          · obtain rfl := List.mem_singleton.mp ho
            exact keeps_of_plain rfl
          · exact absurd ho (by simp)
      | inr ho =>
        split at ho
        · exact hrest o ho
        · exact hcons .recv trivial o ho
    case err | timeout =>
      exact Option.some.inj h ▸
        ⟨fun o ho => keeps_of_closing (closing_returnOps kind _ o ho), rfl, Or.inl rfl⟩
  | setMainPid q =>
    cases q with
    | none => exact absurd hself (by simp [Keeps, isPlain, isClosing])
    | some q =>
      exact Option.some.inj h ▸ ⟨hrest, rfl, Or.inr ⟨q, hself, rfl⟩⟩
  | clearStop | requestStop | setState _ | setSub _ | setStatus _ | resolveEnv | bindSocket
  | exec _ _ | waitExec _ _ _ => exact hplain rfl
  | readState _ | readSub _ _ | publish _ _ _ | jobRemoved _ | markDead | respawn =>
    exact hclosing rfl
  | _ => exact absurd hself (by simp [Keeps, isPlain, isClosing])

end Op

/-! ## Tasks beside a process that is there -/

/-- The wait of a stop ends here, and not because it has seen the process gone. -/
def givesUp (R : Runner) (resp : Response) : Op → Bool
  | .waitGone _ => match resp with
    | .timeout => !(R.svc.sendSigkill && R.child.isSome)
    | .err => true
    | _ => false
  | .waitKilled _ => match resp with
    | .err => true
    | _ => false
  | _ => false

/-- The task leaves the main process alone until it has seen it gone: it minds it, is what
is left of a start, or a stop that still waits. -/
inductive Tends (m : ProcId) (p : Int) (kind : TaskKind) : List Op → Prop
  | minds (ops : List Op) (h : Minds m p kind ops) : Tends m p kind ops
  | keeps (ops : List Op) (h : ∀ o ∈ ops, o.Keeps (· = p)) : Tends m p kind ops
  | reads (l l' : List Op) (h : ∀ o ∈ l, o.isPlain = true) : Tends m p kind (l ++ .readPid :: l')
  | holds (l : List Op) : Tends m p kind (.holdChild p :: l)
  | waits (l : List Op) : Tends m p kind (.waitGone p :: l)
  | killed (l : List Op) : Tends m p kind (.waitKilled m :: l)

/-- **A task that tends to the process** goes on so, or has seen it gone. -/
theorem Op.run_tends {procs : List Proc} {free : Bool} {kind : TaskKind} {R : Runner}
    {rest : List Op} {resp : Response} {reply : Reply} {op : Op} {m : ProcId} {p : Int}
    (ht : Tends m p kind (op :: rest)) (hR : R.Holds m p)
    (hmsg : ∀ buf q, op = .recv → resp = .datagram buf →
      (NotifyMessage.parse (buf.take 4096)).mainPid = some q → q = p)
    (hwait : givesUp R resp op = false)
    (h : op.run procs free kind R rest resp = some reply) :
    (reply.runner.Holds m p ∧ Tends m p kind reply.ops) ∨ exited procs m = true ∨
      pidGone procs p = true := by
  generalize hops : op :: rest = ops at ht
  cases ht with
  | minds _ hm =>
    subst hops
    exact (run_minds hm hR h).imp_left fun hs => ⟨hs.holds, .minds _ hs.minds⟩
  | keeps _ hk =>
    subst hops
    obtain ⟨hkeep, hchild, hpid⟩ := run_keeps hk hmsg h
    refine Or.inl ⟨⟨?_, hchild.symm ▸ hR.child⟩, .keeps _ hkeep⟩
    obtain he | ⟨q, rfl, he⟩ := hpid
    · exact he.trans hR.mainPid
    · exact he
  | reads l l' hl =>
    cases l with
    | cons o l =>
      obtain ⟨rfl, rfl⟩ := List.cons.inj hops
      have hl' : ∀ x ∈ l, x.isPlain = true := fun x hx => hl x (List.mem_cons_of_mem op hx)
      obtain ⟨hpid, hchild, ⟨front, hfront, he⟩ | hall⟩ := run_plain (hl op List.mem_cons_self) h
      · refine Or.inl ⟨⟨hpid.trans hR.mainPid, hchild.symm ▸ hR.child⟩, ?_⟩
        rw [he]
        show Tends m p kind (front ++ (l ++ .readPid :: l'))
        rw [← List.append_assoc]
        refine .reads _ l' fun x hx => ?_
        exact (List.mem_append.mp hx).elim (hfront x) (hl' x)
      · exact Or.inl ⟨⟨hpid.trans hR.mainPid, hchild.symm ▸ hR.child⟩,
          .keeps _ fun o ho => (hall o ho).elim keeps_of_plain keeps_of_closing⟩
    | nil =>
      obtain ⟨rfl, rfl⟩ := List.cons.inj hops
      simp only [run, runReadPid, hR.mainPid] at h
      split at h
      · exact Option.some.inj h ▸
          Or.inl ⟨hR, .keeps _ fun o ho => keeps_of_closing (closing_returnOps kind _ o ho)⟩
      · exact Option.some.inj h ▸ Or.inl ⟨hR, .holds _⟩
  | holds l =>
    obtain ⟨rfl, rfl⟩ := List.cons.inj hops
    simp only [run] at h
    split at h
    · exact absurd h (by simp)
    · exact Option.some.inj h ▸ Or.inl ⟨⟨hR.mainPid, hR.child⟩, .waits _⟩
  | waits l =>
    obtain ⟨rfl, rfl⟩ := List.cons.inj hops
    cases resp <;> simp only [run, runWaitGone, reduceCtorEq] at h
    case exited success =>
      split at h
      next c hc =>
        obtain rfl := hR.child c hc
        split at h
        next he => exact Or.inr (Or.inl he)
        next => exact absurd h (by simp)
      next => exact absurd h (by simp)
    case err => exact absurd hwait (by simp [givesUp])
    case gone =>
      split at h
      · exact absurd h (by simp)
      · split at h
        next hgone => exact Or.inr (Or.inr hgone)
        next => exact absurd h (by simp)
    case timeout =>
      have hgo : R.svc.sendSigkill = true ∧ R.child.isSome = true := by
        simpa [givesUp] using hwait
      obtain ⟨c, hc⟩ := Option.isSome_iff_exists.mp hgo.2
      simp only [hgo.1, if_true, hc] at h
      obtain rfl := hR.child c hc
      exact Option.some.inj h ▸ Or.inl ⟨hR, .killed _⟩
  | killed l =>
    obtain ⟨rfl, rfl⟩ := List.cons.inj hops
    cases resp <;> simp only [run, runWait, reduceCtorEq] at h
    case exited success =>
      split at h
      next he => exact Or.inr (Or.inl he)
      next => exact absurd h (by simp)
    case err => exact absurd hwait (by simp [givesUp])

/-! ## Programs -/

theorem Op.Keeps.imp {ok ok' : Int → Prop} {o : Op} (h : o.Keeps ok) (himp : ∀ p, ok p → ok' p) :
    o.Keeps ok' := by
  cases o with
  | setMainPid p =>
    cases p with
    | none => exact h
    | some p => exact himp p h
  | _ => exact h

/-- Steps up to the spawn of a main process, and what keeps to it. -/
def SpawnsOnce (ops : List Op) : Prop :=
  ∃ l cmd l', ops = l ++ .spawnMain cmd :: l' ∧ (∀ o ∈ l, o.isPlain = true) ∧
    ∀ o ∈ l', o.Keeps fun _ => False

theorem SpawnsOnce.append {l ops : List Op} (h : SpawnsOnce ops) (hl : ∀ o ∈ l, o.isPlain = true) :
    SpawnsOnce (l ++ ops) := by
  obtain ⟨front, cmd, l', rfl, hfront, hl'⟩ := h
  refine ⟨l ++ front, cmd, l', (List.append_assoc _ _ _).symm, fun o ho => ?_, hl'⟩
  exact (List.mem_append.mp ho).elim (hl o) (hfront o)

theorem execStart_spawnsOnce {svc : ServiceUnit} (hd : directChild svc.serviceType = true) :
    SpawnsOnce (execStart svc) ∨ ∀ o ∈ execStart svc, o.Keeps fun _ => False := by
  have hreturn : ∀ o, ∀ x ∈ startReturn o, x.Keeps fun _ => False := by
    intro o x hx
    obtain rfl := List.mem_singleton.mp hx
    exact Op.keeps_of_closing rfl
  have hend : ∀ l : List Op, (∀ o ∈ l, o.Keeps fun _ => False) →
      ∀ o ∈ l ++ startPost svc ++ startReturn .done, o.Keeps fun _ => False := by
    intro l hl o ho
    obtain ho | ho := List.mem_append.mp ho
    · obtain ho | ho := List.mem_append.mp ho
      · exact hl o ho
      · exact Op.keeps_of_plain (plain_exec _ _ o ho)
    · exact hreturn .done o ho
  unfold execStart
  split
  · rw [if_neg]
    · exact Or.inr (hreturn .failed)
    · intro ht
      rw [ht] at hd
      exact absurd hd (by simp [directChild])
  next cmd _ _ =>
    cases ht : svc.serviceType with
    | simple | exec | idle =>
      exact Or.inl ⟨[], cmd, _, rfl, by simp, hend [.setState .active, .setSub .running]
        (by simp [Op.Keeps, Op.isPlain])⟩
    | notify | notifyReload =>
      exact Or.inl ⟨[.bindSocket], cmd, _, rfl, by simp [Op.isPlain],
        hend [.recv, .setState .active, .setSub .running] (by simp [Op.Keeps, Op.isPlain])⟩
    | forking | oneshot | dbus =>
      rw [ht] at hd
      exact absurd hd (by simp [directChild])

/-- **A start spawns one main process at most.** -/
theorem startOps_spawnsOnce {svc : ServiceUnit} (hd : directChild svc.serviceType = true) :
    SpawnsOnce (startOps svc) ∨ ∀ o ∈ startOps svc, o.Keeps fun _ => False := by
  have hfront : ∀ o ∈ [Op.clearStop, .setState .activating, .setSub .startPre, .resolveEnv] ++
      svc.execCondition.map (.exec · .condition) ++ svc.execStartPre.map (.exec · .required) ++
      [.setSub .start], o.isPlain = true := by
    intro o ho
    obtain ho | ho := List.mem_append.mp ho
    · obtain ho | ho := List.mem_append.mp ho
      · obtain ho | ho := List.mem_append.mp ho
        · simp only [List.mem_cons, List.not_mem_nil, or_false] at ho
          obtain rfl | rfl | rfl | rfl := ho <;> rfl
        · exact plain_exec _ _ o ho
      · exact plain_exec _ _ o ho
    · obtain rfl := List.mem_singleton.mp ho
      rfl
  have he : startOps svc = ([Op.clearStop, .setState .activating, .setSub .startPre, .resolveEnv] ++
      svc.execCondition.map (.exec · .condition) ++ svc.execStartPre.map (.exec · .required) ++
      [.setSub .start]) ++ execStart svc := by
    simp [startOps]
  rw [he]
  cases execStart_spawnsOnce hd with
  | inl h => exact Or.inl (h.append hfront)
  | inr h =>
    refine Or.inr fun o ho => ?_
    exact (List.mem_append.mp ho).elim (fun ho => Op.keeps_of_plain (hfront o ho)) (h o)

/-- A call under the lock tends to the main process from its beginning. -/
theorem tends_program {kind : TaskKind} (hk : kind.isLocked = true) (svc : ServiceUnit)
    (m : ProcId) (p : Int) : Tends m p kind (kind.program svc) := by
  have hstop : ∀ l : List Op, Tends m p kind (stopOps svc ++ l) := by
    intro l
    have he : stopOps svc ++ l =
        ([Op.requestStop, .setState .deactivating, .setSub .stop, .resolveEnv] ++
        svc.execStop.map (.exec · .bestEffort)) ++ .readPid ::
        (svc.execStopPost.map (.exec · .bestEffort) ++
          [.setState .inactive, .setSub .dead, .setMainPid none, .setChild none] ++ l) := by
      simp [stopOps]
    rw [he]
    refine .reads _ _ fun o ho => ?_
    obtain ho | ho := List.mem_append.mp ho
    · simp only [List.mem_cons, List.not_mem_nil, or_false] at ho
      obtain rfl | rfl | rfl | rfl := ho <;> rfl
    · exact plain_exec _ _ o ho
  cases kind with
  | stop id | restart id => exact hstop _
  | reload id =>
    refine .keeps _ fun o ho => ?_
    simp only [TaskKind.program, TaskKind.returnOps, reloadOps] at ho
    obtain ho | ho := List.mem_append.mp ho
    · obtain ho | ho := List.mem_append.mp ho
      · obtain ho | ho := List.mem_append.mp ho
        · simp only [List.mem_cons, List.not_mem_nil, or_false] at ho
          obtain rfl | rfl := ho <;> exact Op.keeps_of_plain rfl
        · exact Op.keeps_of_plain (plain_exec _ _ o ho)
      · obtain rfl := List.mem_singleton.mp ho
        exact Op.keeps_of_plain rfl
    · obtain rfl := List.mem_singleton.mp ho
      exact Op.keeps_of_closing rfl
  | start id | supervise => exact absurd hk (by simp [TaskKind.isLocked])

end Systeml.Runtime
