import Systeml.Runtime.Runner

/-!
# What one step of a program can do

One inversion lemma for each step that depends on what comes from outside, and
for programs which steps they are made of. What a step leaves of its program is
the rest, or the return of its call (`Leaves`), after steps of its own.
-/

namespace Systeml.Runtime

open Systeml.Lib Systeml.Unit Systeml.Deps

/-! ## Programs -/

/-- The step carries nothing that another one learned. -/
def Op.initial : Op → Bool
  | .setMainPid (some _) | .setChild (some _) | .setStatus _ | .waitExec .. | .waitForking _
  | .readSub .. | .publish .. | .holdChild _ | .waitGone _ | .waitKilled _ | .waitMain _ | .poll _
  | .checkStopping _ | .publishExit .. => false
  | _ => true

/-- All steps of a program are such. -/
def Initials (ops : List Op) : Prop := ∀ o ∈ ops, o.initial = true

theorem initials_exec (cmds : List ExecCommand) (k : ExecKind) :
    Initials (cmds.map fun cmd => .exec cmd k) := by
  intro o ho
  obtain ⟨c, -, rfl⟩ := List.mem_map.mp ho
  rfl

theorem Initials.append {l l' : List Op} (h : Initials l) (h' : Initials l') : Initials (l ++ l') :=
  fun o ho => (List.mem_append.mp ho).elim (h o) (h' o)

theorem Initials.cons {a : Op} {l : List Op} (h : a.initial = true) (h' : Initials l) :
    Initials (a :: l) := fun o ho => (List.mem_cons.mp ho).elim (fun e => e ▸ h) (h' o)

theorem initials_returnOps (kind : TaskKind) (o : JobOutcome) : Initials (kind.returnOps o) := by
  cases kind <;> simp [Initials, TaskKind.returnOps, startReturn, Op.initial]

theorem initials_failure (k : ExecKind) : Initials k.failure := by
  cases k <;> simp [Initials, ExecKind.failure, Op.initial]

theorem initials_execStart (svc : ServiceUnit) : Initials (execStart svc) := by
  have hret : ∀ o, Initials (startReturn o) := fun o => by simp [Initials, startReturn, Op.initial]
  have hend : ∀ l, Initials l → Initials (l ++ startPost svc ++ startReturn .done) := fun l hl =>
    (hl.append (initials_exec _ _)).append (hret _)
  unfold execStart
  split
  · split
    · exact Initials.append (by simp [Initials, Op.initial]) (hret _)
    · exact hret _
  · split
    · exact hend _ (by simp [Initials, Op.initial])
    · unfold startForking
      split <;> exact hend _ (by simp [Initials, Op.initial])
    · exact hend _ (by simp [Initials, Op.initial])
    · exact hend _ (by simp [Initials, Op.initial])
    · exact hend _ (by simp [Initials, Op.initial])
    · exact hend _ (by simp [Initials, Op.initial])
    · exact hend _ (by simp [Initials, Op.initial])
    · exact Initials.append (by simp [Initials, Op.initial]) (hret _)

theorem initials_stopOps (svc : ServiceUnit) : Initials (stopOps svc) := by
  refine Initials.append (Initials.append (Initials.append ?_ (initials_exec _ _))
    (Initials.cons rfl (initials_exec _ _))) ?_ <;> simp [Initials, Op.initial]

/-- A program begins with such steps only. -/
theorem initials_program (svc : ServiceUnit) (kind : TaskKind) : Initials (kind.program svc) := by
  cases kind with
  | start id =>
    refine Initials.append (Initials.append (Initials.append ?_ (initials_exec _ _))
      (initials_exec _ _)) (Initials.cons rfl (initials_execStart svc))
    simp [Initials, Op.initial]
  | stop id => exact (initials_stopOps svc).append (initials_returnOps _ _)
  | restart id => exact (initials_stopOps svc).append (initials_returnOps _ _)
  | reload id =>
    refine Initials.append (Initials.append (Initials.append ?_ (initials_exec _ _)) ?_)
      (initials_returnOps _ _) <;> simp [Initials, Op.initial]
  | supervise =>
    simp only [TaskKind.program, superviseOps]
    split <;> simp [Initials, Op.initial]

/-! ## Steps -/

/-- What is left: the rest of the program, or the end of its call after steps that
only settle the state. -/
inductive Leaves (kind : TaskKind) (rest : List Op) : List Op → Prop
  | rest : Leaves kind rest rest
  | ret (o : JobOutcome) : Leaves kind rest (kind.returnOps o)
  | fail (k : ExecKind) (o : JobOutcome) : Leaves kind rest (k.failure ++ kind.returnOps o)

theorem Leaves.ite {kind : TaskKind} {rest l l' : List Op} {c : Prop} [Decidable c]
    (h : Leaves kind rest l) (h' : Leaves kind rest l') : Leaves kind rest (if c then l else l') := by
  split
  · exact h
  · exact h'

theorem Leaves.mem {kind : TaskKind} {rest l : List Op} (h : Leaves kind rest l) {o : Op}
    (ho : o ∈ l) : o ∈ rest ∨ o.initial = true := by
  cases h with
  | rest => exact Or.inl ho
  | ret out => exact Or.inr (initials_returnOps kind out o ho)
  | fail k out => exact Or.inr ((initials_failure k).append (initials_returnOps kind out) o ho)

namespace Op

variable {procs : List Proc} {free : Bool} {kind : TaskKind} {r : Runner} {rest : List Op}
  {resp : Response} {reply : Reply}

theorem runExec_cases {cmd : ExecCommand} {k : ExecKind}
    (h : runExec procs kind r rest cmd k resp = some reply) :
    (∃ pid, freshPid procs pid = true ∧
      reply = ⟨r, .waitExec procs.length cmd k :: rest, [.spawn pid false]⟩) ∨
    ∃ l, Leaves kind rest l ∧ reply = ⟨r, l, []⟩ := by
  cases resp <;> simp only [runExec, reduceCtorEq] at h
  case spawned pid =>
    split at h
    next hf => exact Or.inl ⟨pid, hf, (Option.some.inj h).symm⟩
    next => exact absurd h (by simp)
  case err => exact Or.inr ⟨_, Leaves.ite .rest (.ret _), (Option.some.inj h).symm⟩

theorem runWaitExec_cases {p : ProcId} {cmd : ExecCommand} {k : ExecKind}
    (h : runWaitExec procs kind r rest p cmd k resp = some reply) :
    ∃ l acts, Leaves kind rest l ∧ (acts = [] ∨ acts = [.reap p]) ∧ reply = ⟨r, l, acts⟩ := by
  cases resp <;> simp only [runWaitExec, reduceCtorEq] at h
  case exited success =>
    split at h
    · exact ⟨_, _, Leaves.ite .rest (.fail k _), Or.inl rfl, (Option.some.inj h).symm⟩
    · exact absurd h (by simp)
  case timeout =>
    split at h
    · exact ⟨_, _, Leaves.ite .rest (.ret _), Or.inr rfl, (Option.some.inj h).symm⟩
    · exact absurd h (by simp)
  case err => exact ⟨_, _, Leaves.ite .rest (.ret _), Or.inl rfl, (Option.some.inj h).symm⟩

theorem runSpawnMain_cases (h : runSpawnMain procs kind r rest resp = some reply) :
    (∃ pid, freshPid procs pid = true ∧ reply = ⟨{ r with mainPid := some pid },
      .setChild (some procs.length) :: rest, [.spawn pid true]⟩) ∨
    ∃ l, Leaves kind rest l ∧ reply = ⟨r, l, []⟩ := by
  cases resp <;> simp only [runSpawnMain, reduceCtorEq] at h
  case spawned pid =>
    split at h
    next hf => exact Or.inl ⟨pid, hf, (Option.some.inj h).symm⟩
    next => exact absurd h (by simp)
  case err => exact Or.inr ⟨_, .ret _, (Option.some.inj h).symm⟩

theorem runSpawnForking_cases (h : runSpawnForking procs kind r rest resp = some reply) :
    (∃ pid, freshPid procs pid = true ∧
      reply = ⟨r, .waitForking procs.length :: rest, [.spawn pid true]⟩) ∨
    ∃ l, Leaves kind rest l ∧ reply = ⟨r, l, []⟩ := by
  cases resp <;> simp only [runSpawnForking, reduceCtorEq] at h
  case spawned pid =>
    split at h
    next hf => exact Or.inl ⟨pid, hf, (Option.some.inj h).symm⟩
    next => exact absurd h (by simp)
  case err => exact Or.inr ⟨_, .ret _, (Option.some.inj h).symm⟩

theorem runReadPidFile_cases (h : runReadPidFile kind r rest resp = some reply) :
    (∃ text p, pidOfFile text = some p ∧ reply = ⟨r, .setMainPid (some p) :: rest, []⟩) ∨
    reply = ⟨r, .readPidFile :: rest, []⟩ ∨ ∃ l, Leaves kind rest l ∧ reply = ⟨r, l, []⟩ := by
  cases resp <;> simp only [runReadPidFile, reduceCtorEq] at h
  case file text =>
    split at h
    next p hp => exact Or.inl ⟨text, p, hp, (Option.some.inj h).symm⟩
    next => exact Or.inr (Or.inl (Option.some.inj h).symm)
  case timeout =>
    exact Or.inr (Or.inr ⟨_, Leaves.ite .rest (.fail .required .failed), (Option.some.inj h).symm⟩)

theorem runRecv_cases (h : runRecv kind r rest resp = some reply) :
    (∃ buf l, resp = .datagram buf ∧ (l = rest ∨ l = .recv :: rest) ∧
      reply = ⟨r, messageOps (NotifyMessage.parse (buf.take 4096)) ++ l, []⟩) ∨
    ∃ l, Leaves kind rest l ∧ reply = ⟨r, l, []⟩ := by
  cases resp <;> simp only [runRecv, reduceCtorEq] at h
  case datagram buf =>
    refine Or.inl ⟨buf, _, rfl, ?_, (Option.some.inj h).symm⟩
    split
    · exact Or.inl rfl
    · exact Or.inr rfl
  case err => exact Or.inr ⟨_, .ret _, (Option.some.inj h).symm⟩
  case timeout => exact Or.inr ⟨_, .ret _, (Option.some.inj h).symm⟩

theorem killTarget_number {mode : KillMode} {p : Int} {t : Target} (h : killTarget mode p = some t) :
    t.number = p := by
  cases mode <;> simp only [killTarget, Option.some.injEq, reduceCtorEq] at h <;> subst h <;> rfl

/-- The acts signal nothing but `p`. -/
def KillsOnly (p : Int) (acts : List Act) : Prop :=
  ∀ a ∈ acts, ∃ k : Kill, a = .kill k ∧ k.target.number = p

theorem killsOnly_nil (p : Int) : KillsOnly p [] := fun _ h => absurd h (by simp)

theorem killsOnly_target (mode : KillMode) (p : Int) (sig : Option Signal) :
    KillsOnly p (match killTarget mode p with
      | some t => [.kill ⟨t, sig⟩]
      | none => []) := by
  intro a ha
  split at ha
  next t ht => exact ⟨_, List.mem_singleton.mp ha, killTarget_number ht⟩
  next => exact absurd ha (by simp)

theorem KillsOnly.append {p : Int} {l l' : List Act} (h : KillsOnly p l) (h' : KillsOnly p l') :
    KillsOnly p (l ++ l') := fun a ha => (List.mem_append.mp ha).elim (h a) (h' a)

theorem killsOnly_probe (p : Int) : KillsOnly p [.kill ⟨.pid p, none⟩] := fun _ ha =>
  ⟨_, List.mem_singleton.mp ha, rfl⟩

theorem runReadPid_cases (h : runReadPid kind r rest = some reply) :
    (∃ l, Leaves kind rest l ∧ reply = ⟨r, l, []⟩) ∨
    ∃ p acts, r.mainPid = some p ∧ KillsOnly p acts ∧ reply = ⟨r, .holdChild p :: rest, acts⟩ := by
  unfold runReadPid at h
  split at h
  next => exact Or.inl ⟨_, .rest, (Option.some.inj h).symm⟩
  next p hp =>
    split at h
    · exact Or.inl ⟨_, .ret _, (Option.some.inj h).symm⟩
    · exact Or.inr ⟨p, _, hp, killsOnly_target _ _ _, (Option.some.inj h).symm⟩

theorem runWaitGone_cases {p : Int} (h : runWaitGone procs r rest p resp = some reply) :
    ∃ acts, KillsOnly p acts ∧
      (reply = ⟨released r, rest, acts⟩ ∨ ∃ c, reply = ⟨r, .waitKilled c :: rest, acts⟩) := by
  cases resp <;> simp only [runWaitGone, reduceCtorEq] at h
  case exited success =>
    split at h
    · split at h
      · exact ⟨_, killsOnly_nil p, Or.inl (Option.some.inj h).symm⟩
      · exact absurd h (by simp)
    · exact absurd h (by simp)
  case err =>
    split at h
    · exact ⟨_, killsOnly_nil p, Or.inl (Option.some.inj h).symm⟩
    · exact absurd h (by simp)
  case gone =>
    split at h
    · exact absurd h (by simp)
    · split at h
      · exact ⟨_, killsOnly_probe p, Or.inl (Option.some.inj h).symm⟩
      · exact absurd h (by simp)
  case timeout =>
    have hprobes : KillsOnly p (if r.child.isSome then [] else [Act.kill ⟨.pid p, none⟩]) := by
      split
      · exact killsOnly_nil p
      · exact killsOnly_probe p
    have hkill := hprobes.append (killsOnly_target r.svc.killMode p (some .sigkill))
    split at h
    · split at h
      next c hc => exact ⟨_, hkill, Or.inr ⟨c, (Option.some.inj h).symm⟩⟩
      next => exact ⟨_, hkill, Or.inl (Option.some.inj h).symm⟩
    · exact ⟨_, hprobes, Or.inl (Option.some.inj h).symm⟩

theorem runWait_cases {c : ProcId} {onExit : Bool → Reply} {onErr : Reply}
    (h : runWait procs c resp onExit onErr = some reply) :
    (∃ success, exited procs c = true ∧ reply = onExit success) ∨ reply = onErr := by
  cases resp <;> simp only [runWait, reduceCtorEq] at h
  case exited success =>
    split at h
    next he => exact Or.inl ⟨success, he, (Option.some.inj h).symm⟩
    next => exact absurd h (by simp)
  case err => exact Or.inr (Option.some.inj h).symm

theorem runTakeChild_cases (h : runTakeChild r rest = some reply) :
    (∃ c, r.child = some c ∧ reply = ⟨{ r with child := none }, .waitMain c :: rest, []⟩) ∨
    (r.child = none ∧ reply = ⟨r, .readPollPid :: rest, []⟩) := by
  unfold runTakeChild at h
  split at h
  · exact absurd h (by simp)
  · split at h
    next c hc => exact Or.inl ⟨c, hc, (Option.some.inj h).symm⟩
    next hc => exact Or.inr ⟨hc, (Option.some.inj h).symm⟩

end Op

end Systeml.Runtime
