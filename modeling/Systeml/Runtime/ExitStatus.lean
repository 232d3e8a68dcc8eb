import Systeml.Runtime.Restart

/-!
# The two readings of an exit

What `classify_exit` and the supervisor make of a wait status, against
`SuccessExitStatus=`. The classifier looks at the listed codes and not at the
listed signals; the supervisor looks at neither. So both agree with the list
exactly on the statuses whose success it does not decide
(`exitReadings_agree_iff`).

A signal is listed by its name. What the number of a signal is called depends on
the platform, so the naming is a parameter.
-/

namespace Systeml.Runtime

open Systeml.Lib Systeml.Unit

/-- A wait status that counts as success: exit code 0, a listed code, or a signal
listed by its name. -/
def Succeeds (signalName : Nat → Str) (svc : ServiceUnit) : WaitStatus → Prop
  | .exited code => code = 0 ∨ .code code ∈ svc.successExitStatus
  | .signaled signal _ => .signal (signalName signal) ∈ svc.successExitStatus

instance (signalName : Nat → Str) (svc : ServiceUnit) (status : WaitStatus) :
    Decidable (Succeeds signalName svc status) :=
  match status with
  | .exited code => inferInstanceAs (Decidable (code = 0 ∨ .code code ∈ svc.successExitStatus))
  | .signaled signal _ =>
    inferInstanceAs (Decidable (.signal (signalName signal) ∈ svc.successExitStatus))

/-! ## The supervisor -/

/-- What the supervisor makes of the end of a process. -/
inductive ExitObservation where
  | clean
  | failed
  | noChild
  deriving DecidableEq, Repr

/-- `wait_direct_child`, once the child has ended with a status. -/
def waitDirectChild (status : WaitStatus) : ExitObservation :=
  if status.success then .clean
  else
    match status with
    | .exited _ | .signaled .. => .failed

/-- `supervise` from the observation on: the runner, and what is published. -/
def supervise (r : Runner) (exit : ExitObservation) :
    Runner × Option (ActiveState × SubState) :=
  if r.stopping then (r, none)
  else
    match exit with
    | .clean => ({ r with state := .inactive, sub := .dead, mainPid := none },
        some (.inactive, .dead))
    | .failed => ({ r with state := .failed, sub := .failed, mainPid := none },
        some (.failed, .failed))
    | .noChild => (r, none)

/-- The supervisor of the world goes the same way: after the exit of its child it
settles what `supervise` publishes, or ends. -/
theorem waitMain_supervise {procs : List Proc} {c : ProcId} {status : WaitStatus} (r : Runner)
    (free : Bool) (h : exited procs c = true) :
    Op.run procs free .supervise r [] (.exited status.success) (.waitMain c) =
        some ⟨r, [.checkStopping status.success], []⟩ ∧
      Op.runCheckStopping r status.success =
        ⟨r, match (supervise r (waitDirectChild status)).2 with
          | some (a, s) => [.setState a, .setSub s, .setMainPid none, .publishExit a s]
          | none => [], []⟩ := by
  constructor
  · show (if exited procs c then _ else none) = _
    rw [if_pos h]
  · unfold Op.runCheckStopping supervise waitDirectChild
    cases r.stopping with
    | true => rfl
    | false =>
      cases hs : status.success with
      | true => rfl
      | false => cases status <;> rfl

/-! ## Agreement -/

/-- Both readings agree with the list. -/
structure ReadingsAgree (signalName : Nat → Str) (r : Runner) (status : WaitStatus) : Prop where
  classified : classifyExit status r.svc = .exitedSuccess ↔ Succeeds signalName r.svc status
  dead : (supervise r (waitDirectChild status)).2 = some (.inactive, .dead) ↔
    Succeeds signalName r.svc status
  failed : (supervise r (waitDirectChild status)).2 = some (.failed, .failed) ↔
    ¬ Succeeds signalName r.svc status

theorem classifyExit_success {status : WaitStatus} {svc : ServiceUnit} :
    classifyExit status svc = .exitedSuccess ↔
      ∃ code, status = .exited code ∧ (code = 0 ∨ .code code ∈ svc.successExitStatus) := by
  cases status with
  | exited code =>
    unfold classifyExit
    by_cases h : code = 0 ∨ .code code ∈ svc.successExitStatus
    · simp [h]
    · simp [h]
  | signaled signal core => cases core <;> simp [classifyExit]

/-- The supervisor publishes `dead` after exit code 0 and `failed` else. -/
theorem supervise_published {r : Runner} (hrun : r.stopping = false) (status : WaitStatus) :
    (supervise r (waitDirectChild status)).2 =
      if status = .exited 0 then some (.inactive, .dead) else some (.failed, .failed) := by
  unfold supervise waitDirectChild
  rw [hrun]
  cases status with
  | exited code =>
    by_cases h : code = 0
    · simp [WaitStatus.success, h]
    · simp [WaitStatus.success, h]
  | signaled signal core => simp [WaitStatus.success]

/-- **The readings agree exactly where the list does not decide**: where the
status is exit code 0 or no success. -/
theorem exitReadings_agree_iff (signalName : Nat → Str) (r : Runner) (hrun : r.stopping = false)
    (status : WaitStatus) :
    ReadingsAgree signalName r status ↔
      (Succeeds signalName r.svc status → status = .exited 0) := by
  have hpub := supervise_published hrun status
  constructor
  · intro h hs
    have hdead := h.dead.mpr hs
    rw [hpub] at hdead
    by_contra hne
    rw [if_neg hne] at hdead
    exact absurd hdead (by simp)
  · intro h
    by_cases hz : status = .exited 0
    · have hs : Succeeds signalName r.svc status := by
        rw [hz]
        exact Or.inl rfl
      rw [if_pos hz] at hpub
      refine ⟨iff_of_true ?_ hs, iff_of_true hpub hs, iff_of_false ?_ (fun hno => hno hs)⟩
      · exact classifyExit_success.mpr ⟨0, hz, Or.inl rfl⟩
      · rw [hpub]
        simp
    · have hs : ¬ Succeeds signalName r.svc status := fun hs => hz (h hs)
      rw [if_neg hz] at hpub
      refine ⟨iff_of_false ?_ hs, iff_of_false ?_ hs, iff_of_true hpub hs⟩
      · intro hc
        obtain ⟨code, rfl, hcode⟩ := classifyExit_success.mp hc
        exact hs hcode
      · rw [hpub]
        simp

/-- A service with `SuccessExitStatus=SIGTERM`. -/
def sigtermRunner : Runner where
  unit := .plain "a".toList .service
  svc := { successExitStatus := [.signal "SIGTERM".toList] }

/-- Signal 15 is `SIGTERM`. -/
def sigtermName : Nat → Str := fun n => if n = 15 then "SIGTERM".toList else []

theorem exitReadings_agree_iff_code :
    ReadingsAgree sigtermName sigtermRunner (.exited 0) ↔
      (Succeeds sigtermName sigtermRunner.svc (.exited 0) → WaitStatus.exited 0 = .exited 0) :=
  exitReadings_agree_iff sigtermName sigtermRunner rfl (.exited 0)

/-- A listed signal is no success to either. -/
theorem not_all_readings_agree : ¬ ∀ (signalName : Nat → Str) (r : Runner) (status : WaitStatus),
    r.stopping = false → ReadingsAgree signalName r status := by
  intro h
  have hs : Succeeds sigtermName sigtermRunner.svc (.signaled 15 false) := by decide
  have hc := (h sigtermName sigtermRunner (.signaled 15 false) rfl).classified.mpr hs
  exact absurd hc (by decide)

end Systeml.Runtime
