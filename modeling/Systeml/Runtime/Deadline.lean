import Systeml.Runtime.Wired

/-!
# Deadlines that do not fit

A start that waits for its readiness and a stop that polls a pid add a timeout to the
clock, and that sum panics where its seconds do not fit an `i64`: always, where the
timeout is `infinity` (`not_instantFits_infinity`). The task is then over where it stands,
and the locks it holds are free. A step of `World.step` is one whose deadline fits;
`World.stepAt` has both.
-/

namespace Systeml.Runtime

open Systeml.Lib Systeml.Unit Systeml.Deps

/-- `Instant + Duration`, in nanoseconds, does not panic. -/
def instantFits (now d : Nat) : Bool := (now + d) / nanosPerSec < 2 ^ 63

/-- `TimeoutStartSec=`, where a start waits for its readiness. -/
def startTimeout (svc : ServiceUnit) : Nat :=
  match svc.timeoutStartSec with
  | some d => d.asStd
  | none => 90 * nanosPerSec

/-- `TimeoutStopSec=`. -/
def stopTimeout (svc : ServiceUnit) : Nat :=
  match svc.timeoutStopSec with
  | some d => d.asStd
  | none => 90 * nanosPerSec

/-- What the step adds to the clock at its end: that of a start which goes on to wait for
datagrams or for the PID file, and that of a stop which finds no child. -/
def Op.timeout (r : Runner) (rest : List Op) : Op → Option Nat
  | setChild _ =>
    match rest with
    | recv :: _ => some (startTimeout r.svc)
    | _ => none
  | waitForking _ =>
    match rest with
    | readPidFile :: _ => some (startTimeout r.svc)
    | _ => none
  | holdChild _ => if r.child = none then some (stopTimeout r.svc) else none
  | _ => none

namespace Op

variable {procs : List Proc} {free : Bool} {kind : TaskKind} {r : Runner} {rest : List Op}
  {resp : Response} {reply : Reply} {op : Op} {d : Nat}

/-- The steps at whose end a deadline is computed. -/
theorem timeout_cases (h : op.timeout r rest = some d) :
    (∃ c l, op = setChild c ∧ rest = recv :: l) ∨
      (∃ p l, op = waitForking p ∧ rest = readPidFile :: l) ∨
      ∃ p, op = holdChild p ∧ r.child = none := by
  unfold timeout at h
  split at h
  next c =>
    split at h
    next l => exact .inl ⟨c, l, rfl, rfl⟩
    next => exact absurd h (by simp)
  next p =>
    split at h
    next l => exact .inr (.inl ⟨p, l, rfl, rfl⟩)
    next => exact absurd h (by simp)
  next p =>
    split at h
    next hchild => exact .inr (.inr ⟨p, rfl, hchild⟩)
    next => exact absurd h (by simp)
  next => exact absurd h (by simp)

/-- Nothing but the runner changes in such a step, and the task has more to do. -/
theorem run_timeout (h : op.timeout r rest = some d)
    (hrun : op.run procs free kind r rest resp = some reply) :
    reply.acts = [] ∧ reply.ops ≠ [] := by
  obtain ⟨c, l, rfl, rfl⟩ | ⟨p, l, rfl, rfl⟩ | ⟨p, rfl, -⟩ := timeout_cases h
  · simp only [run] at hrun
    split at hrun
    next => exact absurd hrun (by simp)
    next => exact Option.some.inj hrun ▸ ⟨rfl, by simp⟩
  · cases resp <;> simp only [run, runWait, reduceCtorEq] at hrun
    case exited success =>
      split at hrun
      next => exact Option.some.inj hrun ▸ ⟨rfl, by simp⟩
      next => exact absurd hrun (by simp)
    case err => exact Option.some.inj hrun ▸ ⟨rfl, by simp⟩
  · simp only [run] at hrun
    split at hrun
    next => exact absurd hrun (by simp)
    next => exact Option.some.inj hrun ▸ ⟨rfl, by simp⟩

end Op

theorem not_instantFits_infinity (now : Nat) :
    instantFits now SdDuration.infinity.asStd = false := by
  apply decide_eq_false
  simp only [SdDuration.asStd, SdDuration.maxNanos, nanosPerSec]
  omega

namespace World

variable (w : World)

/-- The deadline that the next step of the task computes fits, if it computes one. -/
def deadlineFits (now : Nat) (i : TaskId) : Bool :=
  match w.tasks[i]? with
  | none => true
  | some t =>
    match t.ops, w.runners[t.runner]? with
    | op :: rest, some r => (op.timeout r rest).all (instantFits now)
    | _, _ => true

/-- The task panics: nothing is left of it, and it holds nothing any more. -/
def crash (i : TaskId) : World :=
  match w.tasks[i]? with
  | none => w
  | some t =>
    { w with
      runners :=
        match t.ops with
        | .waitGone _ :: _ => w.runners.modify t.runner Op.released
        | _ => w.runners
      tasks := w.tasks.set i { t with ops := [] }
      lock := w.lockAfter i [] }

/-- One step of the daemon at a reading of its clock. -/
def stepAt : Nat × Label → Option World
  | (now, .task i resp) =>
    (w.runTask i resp).map fun w' => if w.deadlineFits now i then w' else w'.crash i
  | (_, l) => w.step l

variable {w} {w' : World}

/-- A task that panics had a step before it that computes a deadline. -/
theorem timeout_of_not_fits {now : Nat} {i : TaskId} {t : Task} {op : Op} {rest : List Op}
    {R : Runner} (h : w.deadlineFits now i = false) (ht : w.tasks[i]? = some t)
    (hops : t.ops = op :: rest) (hR : w.runners[t.runner]? = some R) :
    ∃ d, op.timeout R rest = some d ∧ instantFits now d = false := by
  unfold deadlineFits at h
  rw [ht] at h
  simp only [hops, hR] at h
  cases hd : op.timeout R rest with
  | none => simp [hd] at h
  | some d => exact ⟨d, rfl, by simpa [hd] using h⟩

/-- Without a panic it is a step as ever. -/
theorem stepAt_cases {now : Nat} {l : Label} (h : w.stepAt (now, l) = some w') :
    w.step l = some w' ∨ ∃ i resp v, l = .task i resp ∧ w.deadlineFits now i = false ∧
      w.runTask i resp = some v ∧ w' = v.crash i := by
  cases l with
  | task i resp =>
    obtain ⟨v, hv, rfl⟩ := Option.map_eq_some_iff.mp h
    cases hfits : w.deadlineFits now i with
    | true => exact .inl hv
    | false => exact .inr ⟨i, resp, v, rfl, hfits, hv, rfl⟩
  | startUnit n | stopUnit n | restartUnit n | reloadUnit n | fire timer n | daemonReload disk
  | reloadStep | exit p => exact .inl h

/-! ## What a panic leaves -/

theorem keepsRunners_crash (w : World) (i : TaskId) : KeepsRunners w (w.crash i) := by
  unfold crash
  split
  next => exact KeepsRunners.refl w
  next t ht =>
    split
    next => exact keepsRunners_modify (w := w) (m := w.mgr) (l := w.lock) fun R => ⟨rfl, rfl⟩
    next => exact keepsRunners_of_eq rfl

/-- A panic leaves the tasks as they are, but for the one that it ends. -/
theorem forall_tasks_crash {P : Task → Prop} (hend : ∀ t, P t → P { t with ops := [] })
    (h : ∀ t ∈ w.tasks, P t) (i : TaskId) : ∀ t ∈ (w.crash i).tasks, P t := by
  unfold crash
  split
  next => exact h
  next t ht => exact forall_mem_set h (hend t (h t (List.mem_of_getElem? ht)))

theorem sound_crash (h : Sound w) (i : TaskId) : Sound (w.crash i) := by
  refine ⟨?_, ?_, ?_⟩
  · have hkeep := keepsRunners_crash w i
    unfold crash at hkeep ⊢
    split at hkeep
    next => exact h.wired
    next t ht => exact wired_set h.wired ht (fun hne => absurd rfl hne) hkeep
  · exact forall_tasks_crash (P := fun t => t.kind.job.isSome = true → t.ops = [] ∨ _)
      (fun t _ _ => .inl rfl) h.shaped i
  · exact forall_tasks_crash (P := fun t => t.kind = .supervise → ∀ o ∈ t.ops, o.ofSupervisor = true)
      (fun t _ _ => by simp) h.supervised i

theorem sound_stepAt {l : Nat × Label} (h : Sound w) (hs : w.stepAt l = some w') : Sound w' := by
  obtain ⟨now, l⟩ := l
  obtain hs | ⟨i, resp, v, rfl, -, hv, rfl⟩ := stepAt_cases hs
  · exact sound_step h hs
  · exact sound_crash (sound_step (l := .task i resp) h hv) i

end World

end Systeml.Runtime
