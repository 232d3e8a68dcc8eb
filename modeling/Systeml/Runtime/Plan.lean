import Systeml.Deps.Alone
import Systeml.Runtime.Steps

/-!
# A start and the plan for it

The transaction engine plans a start from the graph of the loaded units and the
manager's own states. `start_unit` does not ask it: whatever the plan, a service
gets a task if it has a runner, and every other unit is marked active
(`performed_startUnit`).

`executesPlan_iff`: a start carries out its plan exactly when there is nothing to
the plan but the start itself.
-/

namespace Systeml.Runtime

open Systeml.Lib Systeml.Unit Systeml.Deps

/-- The manager as the transaction builder sees it. -/
def Manager.view (m : Manager) (existing : List Job) : ManagerView where
  isLoaded := m.units.contains
  isActive := m.isActive
  allowIsolate := fun n => match m.units.get? n with
    | some u => u.allowIsolate
    | none => false
  existingJobs := existing

/-- The jobs of a transaction that are not `Nop`, as units and kinds. -/
def plan (t : Transaction) : List (UnitName × JobType) :=
  (t.jobs.filter (·.kind != .nop)).map Job.pair

/-- A unit without a runner is started or stopped by a change of its state. -/
def changeJob : UnitEvent → Option (UnitName × JobType)
  | .stateChanged n .active _ => if n.kind = .service then none else some (n, .start)
  | .stateChanged n .inactive _ => if n.kind = .service then none else some (n, .stop)
  | _ => none

/-- A service is started or stopped by a task. -/
def taskJob (t : Task) : Option (UnitName × JobType) :=
  match t.kind with
  | .start _ => some (t.unit, .start)
  | .stop _ => some (t.unit, .stop)
  | .restart _ => some (t.unit, .restart)
  | .reload _ | .supervise => none

namespace World

variable {w w' : World} {u : UnitName} {mode : JobMode}

/-- What the manager started and stopped between two states. -/
def performed (w w' : World) : List (UnitName × JobType) :=
  (w'.mgr.events.drop w.mgr.events.length).filterMap changeJob ++
    (w'.tasks.drop w.tasks.length).filterMap taskJob

/-- A start of the unit can go ahead: if it is a service, it has a runner and the
manager has a handle to itself. -/
def Startable (w : World) (u : UnitName) : Prop :=
  u.kind = .service → w.mgr.selfWeak = true ∧
    ∃ r R, w.mgr.services.get? u = some r ∧ w.runners[r]? = some R

/-- The step performs the jobs of the transaction that are not `Nop`, in order. -/
def ExecutesPlan (w w' : World) (t : Transaction) : Prop := performed w w' = plan t

/-! ## What a start performs -/

theorem performed_of_manager (m : Manager) (es : List UnitEvent)
    (h : m.events = w.mgr.events ++ es) :
    performed w { w with mgr := m } = es.filterMap changeJob := by
  unfold performed
  rw [h, List.drop_left, List.drop_length, List.filterMap_nil, List.append_nil]

theorem performed_spawnTask {m : Manager} {es : List UnitEvent}
    (h : m.events = w.mgr.events ++ es) (hno : es.filterMap changeJob = []) (id : JobId)
    {r : RunnerId} {R : Runner} (hr : w.runners[r]? = some R) :
    performed w (({ w with mgr := m } : World).spawnTask (.start id) u r) = [(u, .start)] := by
  unfold performed spawnTask
  simp only [hr]
  rw [h, List.drop_left, List.drop_left, hno]
  rfl

/-- **A start performs the start of the unit**, if it can go ahead, and nothing
else in any case. -/
theorem performed_startUnit (w : World) (u : UnitName) :
    (Startable w u → performed w (w.startUnit u) = [(u, .start)]) ∧
      (¬ Startable w u → performed w (w.startUnit u) = []) := by
  by_cases hk : u.kind = .service
  · cases hs : w.mgr.services.get? u with
    | none =>
      have hno : ¬ Startable w u := by
        intro h
        obtain ⟨-, r, R, hr, -⟩ := h hk
        rw [hs] at hr
        exact absurd hr (by simp)
      refine ⟨fun h => absurd h hno, fun _ => ?_⟩
      simp only [startUnit, Manager.startUnit, if_pos hk, Manager.spawnServiceStart,
        Manager.newJob_services, hs, Except.map]
      exact performed_of_manager _ [.jobNew w.mgr.allocJobId.1 u .start] rfl
    | some r =>
      have hevents : ((w.mgr.newJob u .start).2.markState u .activating .start).events =
          w.mgr.events ++ [.jobNew w.mgr.allocJobId.1 u .start, .stateChanged u .activating .start] :=
        List.append_assoc _ _ _
      have hweak : (w.mgr.newJob u .start).2.selfWeak = w.mgr.selfWeak := rfl
      simp only [startUnit, Manager.startUnit, if_pos hk, Manager.spawnServiceStart,
        Manager.newJob_services, hs, hweak]
      cases hself : w.mgr.selfWeak with
      | false =>
        have hno : ¬ Startable w u := fun h => by
          rw [(h hk).1] at hself
          exact absurd hself (by simp)
        exact ⟨fun h => absurd h hno, fun _ => performed_of_manager _ _ hevents⟩
      | true =>
        cases hR : w.runners[r]? with
        | none =>
          have hno : ¬ Startable w u := by
            intro h
            obtain ⟨-, r', R, hr, hR'⟩ := h hk
            obtain rfl := Option.some.inj (hs.symm.trans hr)
            rw [hR] at hR'
            exact absurd hR' (by simp)
          refine ⟨fun h => absurd h hno, fun _ => ?_⟩
          simp only [if_true, Except.map, spawnTask, hR]
          exact performed_of_manager _ _ hevents
        | some R =>
          have hyes : Startable w u := fun _ => ⟨hself, r, R, hs, hR⟩
          refine ⟨fun _ => ?_, fun h => absurd hyes h⟩
          simp only [if_true, Except.map]
          exact performed_spawnTask hevents rfl _ hR
  · refine ⟨fun _ => ?_, fun h => absurd (fun hs => absurd hs hk) h⟩
    simp only [startUnit, Manager.startUnit, if_neg hk]
    refine (performed_of_manager _ [.jobNew w.mgr.allocJobId.1 u .start,
      .stateChanged u .active (Manager.startedSub u.kind),
      .jobRemoved w.mgr.allocJobId.1 u .done] ?_).trans ?_
    · simp [Manager.emit, Manager.runStart, Manager.markState, Manager.newJob, Manager.allocJobId]
    · have hchange : changeJob (.stateChanged u .active (Manager.startedSub u.kind)) =
          some (u, .start) := if_neg hk
      rw [List.filterMap_cons_none rfl, List.filterMap_cons_some hchange,
        List.filterMap_cons_none rfl, List.filterMap_nil]

theorem plan_eq_pairs {t : Transaction} (h : ∀ j ∈ t.jobs, j.kind ≠ .nop) :
    plan t = t.jobs.map Job.pair := by
  unfold plan
  rw [List.filter_eq_self.mpr]
  intro j hj
  simpa using h j hj

/-- **A start executes its plan, exactly** when it can go ahead and pulls nothing
in. -/
theorem executesPlan_iff {existing : List Job} {alloc alloc' : JobIdAlloc} {t : Transaction}
    (h : Transaction.build (DepGraph.build w.mgr.units) (w.mgr.view existing) alloc u .start mode =
      .ok (t, alloc')) (hs : w.step (.startUnit u) = some w') :
    ExecutesPlan w w' t ↔
      Startable w u ∧ PullsNothing (DepGraph.build w.mgr.units) (w.mgr.view existing) u mode := by
  obtain ⟨-, rfl⟩ := ifFree_eq hs
  obtain ⟨hyes, hno⟩ := performed_startUnit w u
  unfold ExecutesPlan
  rw [plan_eq_pairs (jobs_ne_nop h), ← build_alone_iff h]
  by_cases hst : Startable w u
  · rw [hyes hst]
    exact ⟨fun he => ⟨hst, he.symm⟩, fun he => he.2.symm⟩
  · rw [hno hst]
    refine ⟨fun he => absurd he ?_, fun he => absurd he.1 hst⟩
    -- the plan of a start is never empty: it has a job for the unit
    intro he
    obtain ⟨hva, -, -⟩ | hb := build_ok h
    · exact absurd hva (by simp)
    obtain ⟨vis, hvis, -⟩ := root_carried hb.asked
    have hmem := (hb.kinds u _).mpr ⟨vis, hvis, rfl⟩
    rw [← he] at hmem
    exact absurd hmem (by simp)

/-! ## A target

`t.target` wants `s.service`. Its start marks it active and leaves the service as
it is. -/

/-- The target of the example. -/
def targetName : UnitName := .plain "t".toList .target

/-- A daemon with the target and the service that it wants. -/
def wanting : World where
  mgr := {
    units := .ofList [(targetName, { UnitSpec.empty targetName with
        deps := { wants := [serviceName] } }), (serviceName, .empty serviceName)]
    status := .ofList [(targetName, { unit := some targetName, load := .loaded, sub := .dead }),
      (serviceName, { unit := some serviceName, load := .loaded, sub := .dead })]
    services := .ofList [(serviceName, 0)] }
  runners := [{ unit := serviceName, svc := {} }]

/-- What `Transaction.build` returns for `start t.target`. -/
def wantingPlan : Transaction where
  jobs := [⟨⟨1⟩, targetName, .start, .replace⟩, ⟨⟨2⟩, serviceName, .start, .replace⟩]

theorem wanting_build : Transaction.build (DepGraph.build wanting.mgr.units)
    (wanting.mgr.view []) .new targetName .start .replace = .ok (wantingPlan, ⟨3⟩) := rfl

theorem executesPlan_iff_wanting : ∃ w', wanting.step (.startUnit targetName) = some w' ∧
    (ExecutesPlan wanting w' wantingPlan ↔ Startable wanting targetName ∧
      PullsNothing (DepGraph.build wanting.mgr.units) (wanting.mgr.view []) targetName
        .replace) :=
  ⟨_, rfl, executesPlan_iff wanting_build rfl⟩

/-- A start does not always execute its plan. -/
theorem not_all_executesPlan : ¬ ∀ (w w' : World) (u : UnitName) (mode : JobMode)
    (existing : List Job) (alloc alloc' : JobIdAlloc) (t : Transaction),
    Transaction.build (DepGraph.build w.mgr.units) (w.mgr.view existing) alloc u .start mode =
      .ok (t, alloc') → w.step (.startUnit u) = some w' → ExecutesPlan w w' t := by
  intro h
  have hex : performed wanting (wanting.startUnit targetName) = plan wantingPlan :=
    h wanting _ targetName .replace [] .new _ wantingPlan wanting_build rfl
  exact absurd hex (by decide)

end World

end Systeml.Runtime
