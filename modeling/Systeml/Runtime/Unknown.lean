import Systeml.Runtime.Registry

/-!
# Requests for unknown units

A unit that is not in `units` has no runner (`services_get?_unknown`). Only the start of a
service asks for one before anything is announced; a stop and a restart mark the unit
first, a reload skips it, and the other kinds of unit are marked active
(`failsCleanly_iff`).
-/

namespace Systeml.Runtime

open Systeml.Lib Systeml.Unit Systeml.Deps

/-- A request about one unit. -/
inductive UnitRequest where
  | start | stop | restart | reload
  deriving DecidableEq, Repr

/-- The step that the request is. -/
def UnitRequest.label (name : UnitName) : UnitRequest → Label
  | .start => .startUnit name
  | .stop => .stopUnit name
  | .restart => .restartUnit name
  | .reload => .reloadUnit name

/-- The event tells of a state. -/
def UnitEvent.isState : UnitEvent → Bool
  | .stateChanged .. => true
  | _ => false

namespace World

variable {w w' : World} {name : UnitName}

/-- What a request returns at once; a stop, a restart or a reload that drives a runner
returns at the end of its task. -/
def answer (w : World) (name : UnitName) : UnitRequest → Option (Except StartError JobId)
  | .start =>
    let s := w.mgr.startUnit name
    some (s.result.map fun _ => s.id)
  | .stop =>
    let (id, m) := w.mgr.newJob name .stop
    match stopRunner m name with
    | some _ => none
    | none => some (.ok id)
  | .restart =>
    let (id, m) := w.mgr.newJob name .restart
    match stopRunner m name with
    | some _ => none
    | none =>
      if name.kind = .service then
        some (((stopPlain m name).spawnServiceStart name).2.map fun _ => id)
      else some (.ok id)
  | .reload =>
    let (id, m) := w.mgr.newJob name .reload
    match m.services.get? name with
    | some _ => none
    | none => some (.ok id)

/-- The request fails, changes nothing that the manager knows, and tells of no state. -/
structure FailsCleanly (w : World) (name : UnitName) (op : UnitRequest) (w' : World) : Prop where
  fails : ∃ e, w.answer name op = some (.error e)
  units : w'.mgr.units = w.mgr.units
  status : w'.mgr.status = w.mgr.status
  services : w'.mgr.services = w.mgr.services
  silent : ∃ new, w'.mgr.events = w.mgr.events ++ new ∧ ∀ e ∈ new, e.isState = false

/-! ## Runners of unknown units -/

/-- A new manager, before or after it was given its handle. -/
def newManager (selfWeak : Bool) : World := { mgr := { selfWeak }, runners := [] }

/-- In every state of the manager a unit that is not in `units` has no runner. -/
theorem services_get?_unknown {b : Bool} {cs : List Call}
    (hrun : runs call (newManager b) cs = some w) (hunknown : name ∉ w.mgr.units.keys) :
    w.mgr.services.get? name = none := by
  have hreg : Registered w :=
    runs_inv (fun _ _ _ h _ hs => registered_call h hs)
      (fun u hu => absurd hu (by simp [newManager]))
      (Along.of_labels (p := fun _ => True) fun _ _ => trivial) hrun
  exact IndexMap.get?_eq_none.mpr fun hname => hunknown (hreg name (Or.inr hname))

/-! ## The requests -/

/-- Without a runner, the start of a service is announced as a job and fails. -/
theorem failsCleanly_start (hnone : w.mgr.services.get? name = none) (hk : name.kind = .service) :
    FailsCleanly w name .start (w.startUnit name) := by
  have hstart : w.mgr.startUnit name =
      ⟨(w.mgr.newJob name .start).2, w.mgr.allocJobId.1, .error (.noRunner name)⟩ := by
    simp only [Manager.startUnit, if_pos hk, Manager.spawnServiceStart, Manager.newJob_services,
      hnone]
    rfl
  have hmgr : (w.startUnit name).mgr = (w.mgr.newJob name .start).2 := by
    unfold startUnit
    rw [hstart]
  refine ⟨⟨.noRunner name, ?_⟩, ?_, ?_, ?_, [.jobNew w.mgr.allocJobId.1 name .start], ?_,
    by simp [UnitEvent.isState]⟩
  · simp only [answer, hstart, Except.map]
  · rw [hmgr, Manager.newJob_units]
  · rw [hmgr, Manager.newJob_status]
  · rw [hmgr, Manager.newJob_services]
  · rw [hmgr]
    rfl

/-- A restart without a runner tells that the unit is dead. -/
theorem restartUnit_events (hnone : w.mgr.services.get? name = none) (hk : name.kind = .service) :
    (w.restartUnit name).mgr.events = w.mgr.events ++
      [.jobNew w.mgr.allocJobId.1 name .restart, .stateChanged name .inactive .dead] := by
  have hrunner : stopRunner (w.mgr.newJob name .restart).2 name = none := by
    rw [stopRunner, if_pos hk, Manager.newJob_services, hnone]
  simp only [restartUnit, hrunner, if_pos hk]
  show (w.mgr.events ++ [.jobNew _ name .restart]) ++ [.stateChanged name .inactive .dead] = _
  rw [List.append_assoc]
  rfl

/-- **A request for an unknown unit fails cleanly** exactly when it starts a service. -/
theorem failsCleanly_iff {b : Bool} {cs : List Call} (hrun : runs call (newManager b) cs = some w)
    (hunknown : name ∉ w.mgr.units.keys) {op : UnitRequest}
    (hs : w.call (.other (op.label name)) = some w') :
    FailsCleanly w name op w' ↔ op = .start ∧ name.kind = .service := by
  have hnone := services_get?_unknown hrun hunknown
  have hrunner : ∀ k, stopRunner (w.mgr.newJob name k).2 name = none := by
    intro k
    unfold stopRunner
    split
    · rw [Manager.newJob_services, hnone]
    · rfl
  cases op with
  | start =>
    obtain ⟨-, rfl⟩ := ifFree_eq hs
    by_cases hk : name.kind = .service
    · exact iff_of_true (failsCleanly_start hnone hk) ⟨rfl, hk⟩
    · refine iff_of_false (fun h => ?_) fun h => hk h.2
      obtain ⟨e, he⟩ := h.fails
      simp [answer, Manager.startUnit, hk, Except.map] at he
  | stop =>
    refine iff_of_false (fun h => ?_) (by simp)
    obtain ⟨e, he⟩ := h.fails
    simp [answer, hrunner] at he
  | restart =>
    obtain ⟨-, rfl⟩ := ifFree_eq hs
    refine iff_of_false (fun h => ?_) (by simp)
    by_cases hk : name.kind = .service
    · -- it fails, but only after the mark of `run_stop`
      obtain ⟨new, hnew, hsilent⟩ := h.silent
      rw [restartUnit_events hnone hk] at hnew
      obtain rfl := List.append_cancel_left hnew
      have hdead := hsilent (.stateChanged name .inactive .dead) (by simp)
      exact absurd hdead (by simp [UnitEvent.isState])
    · obtain ⟨e, he⟩ := h.fails
      simp [answer, hrunner, hk] at he
  | reload =>
    refine iff_of_false (fun h => ?_) (by simp)
    obtain ⟨e, he⟩ := h.fails
    simp [answer, hnone] at he

theorem failsCleanly_iff_service :
    ∃ w', (newManager true).call (.other (.startUnit serviceName)) = some w' ∧
      FailsCleanly (newManager true) serviceName .start w' := by
  obtain ⟨w', hs⟩ : ∃ w', (newManager true).call (.other (.startUnit serviceName)) = some w' :=
    ⟨_, rfl⟩
  have hrun : runs call (newManager true) [] = some (newManager true) := rfl
  have hiff := failsCleanly_iff hrun (by simp [newManager])
    (show (newManager true).call (.other (UnitRequest.start.label serviceName)) = some w' from hs)
  exact ⟨w', hs, hiff.mpr ⟨rfl, rfl⟩⟩

/-- A stop of an unknown unit succeeds. -/
theorem not_failsCleanly : ¬ ∀ (b : Bool) (cs : List Call) (w w' : World) (name : UnitName)
    (op : UnitRequest), runs call (newManager b) cs = some w → name ∉ w.mgr.units.keys →
      w.call (.other (op.label name)) = some w' → FailsCleanly w name op w' := by
  intro h
  obtain ⟨w', hs⟩ : ∃ w', (newManager true).call (.other (.stopUnit serviceName)) = some w' :=
    ⟨_, rfl⟩
  obtain ⟨e, he⟩ := (h true [] (newManager true) w' serviceName .stop rfl (by simp [newManager])
    hs).fails
  have hok : (newManager true).answer serviceName .stop = some (.ok ⟨1⟩) := rfl
  rw [hok] at he
  cases Option.some.inj he

end World

end Systeml.Runtime
