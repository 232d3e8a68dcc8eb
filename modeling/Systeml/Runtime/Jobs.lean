import Systeml.Lib.Balance
import Systeml.Runtime.Deadline
import Systeml.Runtime.Plan
import Systeml.Runtime.Rest

/-!
# Every announced job is closed

`JobNew` is sent by the request, `JobRemoved` by the request or at the end of a task
that owes it. The ledger of a job id is what was announced and neither closed nor is
owed by a task. Steps of tasks keep it; a request does, unless it is for the start of
a service that cannot be started: the `?` that returns the error leaves the job
announced and nobody to close it (`ledger_step`). A task that panics leaves its job so
too (`ledger_stepAt`).

So the jobs of a run are closed if every unit that it is to start can be started and no
deadline overflows, and once all its tasks have ended only then (`jobsClosed_iff`).
-/

namespace Systeml.Runtime

open Systeml.Lib Systeml.Unit Systeml.Deps

/-- What an event does to the jobs with the id that are open. -/
def UnitEvent.delta (id : JobId) : UnitEvent → Int
  | .jobNew i _ _ => if i = id then 1 else 0
  | .jobRemoved i _ _ => if i = id then -1 else 0
  | .stateChanged .. | .unitNew _ | .unitRemoved _ => 0

/-- The task is to close the job. A restart leaves that to the start it goes on to,
which it cannot put in flight without a handle to the manager. -/
def Task.owes (selfWeak : Bool) (id : JobId) (t : Task) : Bool :=
  t.kind.job = some id && !t.ops.isEmpty && (selfWeak || !(t.kind matches .restart _))

namespace World

variable {w w' : World} {id : JobId}

/-- `JobNew` minus `JobRemoved`. -/
def openJobs (w : World) (id : JobId) : Int := net (UnitEvent.delta id) w.mgr.events

/-- The tasks that are to close the job. -/
def owed (w : World) (id : JobId) : Nat := w.tasks.countP (Task.owes w.mgr.selfWeak id)

/-- Jobs that are open and that no task is to close. -/
def ledger (w : World) (id : JobId) : Int := w.openJobs id - w.owed id

/-- The start that the step asks for, if it does, can go ahead. -/
def CanStart (w : World) : Label → Prop
  | .startUnit u | .restartUnit u | .fire _ u => Startable w u
  | _ => True

/-- The step can go ahead: the start that it asks for, if it does, and the task that takes
it, whose deadline fits. -/
def GoesAhead (w : World) : Nat × Label → Prop
  | (now, .task i _) => w.deadlineFits now i = true
  | (_, l) => w.CanStart l

/-- The ledger moves by `d`, and no job is closed before it was announced. -/
structure Books (id : JobId) (d : Int) (w w' : World) : Prop where
  ledger : w'.ledger id = w.ledger id + d
  ordered : 0 ≤ w.ledger id → 0 ≤ w'.ledger id →
    NeverNegative (UnitEvent.delta id) w.mgr.events →
    NeverNegative (UnitEvent.delta id) w'.mgr.events

theorem Books.refl (id : JobId) (w : World) : Books id 0 w w :=
  ⟨(Int.add_zero _).symm, fun _ _ h => h⟩

theorem Books.trans {v : World} {d d' : Int} (h : Books id d w w') (h' : Books id d' w' v)
    (hd : 0 ≤ d ∨ d' ≤ 0) : Books id (d + d') w v := by
  have hl := h.ledger
  have hl' := h'.ledger
  refine ⟨by omega, ?_⟩
  intro h0 h2 hord
  -- between the two the ledger is not negative either
  have h1 : 0 ≤ w'.ledger id := by omega
  exact h'.ordered h1 h2 (h.ordered h0 h1 hord)

theorem Books.then_zero {v : World} {d : Int} (h : Books id d w w') (h' : Books id 0 w' v) :
    Books id d w v := by
  have hsum := h.trans h' (Or.inr (Int.le_refl 0))
  rw [Int.add_zero] at hsum
  exact hsum

/-! ## Single changes -/

/-- One event is sent. -/
theorem books_event {e : UnitEvent} (ht : w'.tasks = w.tasks)
    (hself : w'.mgr.selfWeak = w.mgr.selfWeak) (he : w'.mgr.events = w.mgr.events ++ [e]) :
    Books id (e.delta id) w w' := by
  have howed : w'.owed id = w.owed id := by
    unfold owed
    rw [hself, ht]
  have hopen : w'.openJobs id = w.openJobs id + e.delta id := by
    unfold openJobs
    rw [he, net_append, net_singleton]
  refine ⟨?_, ?_⟩
  · unfold ledger
    omega
  · intro _ h0 hord
    rw [he]
    refine hord.snoc ?_
    have hle : 0 ≤ w'.openJobs id := by
      unfold ledger at h0
      omega
    exact he ▸ hle

/-- Neither events nor tasks change. -/
theorem books_same (ht : w'.tasks = w.tasks) (hself : w'.mgr.selfWeak = w.mgr.selfWeak)
    (he : w'.mgr.events = w.mgr.events) : Books id 0 w w' := by
  refine ⟨?_, fun _ _ h => he ▸ h⟩
  unfold ledger openJobs owed
  rw [ht, hself, he, Int.add_zero]

theorem books_mark (w : World) (u : UnitName) (a : ActiveState) (s : SubState) :
    Books id 0 w { w with mgr := w.mgr.markState u a s } :=
  books_event (e := .stateChanged u a s) rfl rfl rfl

theorem books_newJob (w : World) (u : UnitName) (k : JobType) :
    Books id (if w.mgr.allocJobId.1 = id then 1 else 0) w
      { w with mgr := (w.mgr.newJob u k).2 } :=
  books_event (e := .jobNew w.mgr.allocJobId.1 u k) rfl rfl rfl

theorem books_removed (w : World) (i : JobId) (u : UnitName) (o : JobOutcome) :
    Books id (if i = id then -1 else 0) w { w with mgr := w.mgr.emit (.jobRemoved i u o) } :=
  books_event (e := .jobRemoved i u o) rfl rfl rfl

/-- Only the tasks change. -/
theorem books_tasks {d : Int} (he : w'.mgr = w.mgr) (hd : (w'.owed id : Int) + d = w.owed id) :
    Books id d w w' := by
  refine ⟨?_, fun _ _ h => he ▸ h⟩
  have hopen : w'.openJobs id = w.openJobs id := by
    unfold openJobs
    rw [he]
  unfold ledger
  omega

variable (id) in
/-- A task is put in flight. -/
theorem books_append {t : Task} (he : w'.mgr = w.mgr) (ht : w'.tasks = w.tasks ++ [t]) :
    Books id (-(if t.owes w.mgr.selfWeak id then 1 else 0)) w w' := by
  refine books_tasks he ?_
  unfold owed
  rw [ht, he, countP_append_singleton]
  omega

theorem owes_program {svc : ServiceUnit} {kind : TaskKind} {u : UnitName} {r : RunnerId}
    {self : Bool} (hk : kind.job.isSome = true) :
    Task.owes self id ⟨kind, u, r, kind.program svc⟩ = true ↔
      kind.job = some id ∧ (self = true ∨ ∀ i, kind ≠ .restart i) := by
  have hne : (kind.program svc).isEmpty = false := by
    cases hp : kind.program svc with
    | nil => exact absurd hp (program_program svc hk).ne_nil
    | cons o l => rfl
  unfold Task.owes
  rw [hne]
  cases kind <;> cases self <;> simp

theorem spawns_spawnTask {r : RunnerId} {u : UnitName} (h : HasRunner w r u) (k : TaskKind) :
    Spawns w (w.spawnTask k u r) k u r := by
  obtain ⟨R, hR, -⟩ := h
  refine ⟨R, hR, ?_⟩
  simp only [spawnTask, hR]

theorem spawns_spawnLocked {r : RunnerId} {u : UnitName} (h : HasRunner w r u) (k : TaskKind) :
    Spawns w (w.spawnLocked k u r) k u r := by
  obtain ⟨R, hR, -⟩ := h
  refine ⟨R, hR, ?_⟩
  simp only [spawnLocked, hR]

variable (id) in
/-- The program of a call is put in flight: it owes the job, unless it is a restart
that cannot go on. -/
theorem books_spawns {kind : TaskKind} {u : UnitName} {r : RunnerId} {i : JobId}
    (he : w'.mgr = w.mgr) (h : Spawns w w' kind u r) (hk : kind.job = some i) :
    ((w.mgr.selfWeak = true ∨ ∀ j, kind ≠ .restart j) →
      Books id (-(if i = id then 1 else 0)) w w') ∧
    (w.mgr.selfWeak = false → (∃ j, kind = .restart j) → Books id 0 w w') := by
  obtain ⟨R, -, hts⟩ := h
  have hb := books_append id he hts
  have howes : Task.owes w.mgr.selfWeak id ⟨kind, u, r, kind.program R.svc⟩ = true ↔
      some i = some id ∧ (w.mgr.selfWeak = true ∨ ∀ j, kind ≠ .restart j) :=
    hk ▸ owes_program (by rw [hk]; rfl)
  refine ⟨?_, ?_⟩
  · intro hself
    have hiff : (Task.owes w.mgr.selfWeak id ⟨kind, u, r, kind.program R.svc⟩ = true) = (i = id) :=
      propext ⟨fun h => Option.some.inj (howes.mp h).1, fun h => howes.mpr ⟨h ▸ rfl, hself⟩⟩
    simpa only [hiff] using hb
  · intro hself ⟨j, hj⟩
    have hno : ¬ Task.owes w.mgr.selfWeak id ⟨kind, u, r, kind.program R.svc⟩ = true := by
      intro h
      cases (howes.mp h).2 with
      | inl ht =>
        rw [hself] at ht
        exact absurd ht (by simp)
      | inr hne => exact hne j hj
    rw [if_neg hno] at hb
    exact hb

theorem books_supervisor {u : UnitName} {r : RunnerId} (he : w'.mgr = w.mgr)
    (h : Spawns w w' .supervise u r) : Books id 0 w w' := by
  obtain ⟨R, -, hts⟩ := h
  have hb := books_append id he hts
  rw [if_neg (by simp [Task.owes, TaskKind.job])] at hb
  exact hb

/-! ## Requests -/

/-- The job that the next request announces, if it has the id. -/
def opened (w : World) (id : JobId) : Int := if w.mgr.allocJobId.1 = id then 1 else 0

theorem opened_nonneg (w : World) (id : JobId) : 0 ≤ w.opened id := by
  unfold opened
  split <;> omega

/-- A job was announced, and a call that owes it is put in flight. -/
theorem books_job_spawned {m : Manager} {kind : TaskKind} {u : UnitName} {r : RunnerId}
    {v : World} (hb : Books id (w.opened id) w { w with mgr := m }) (hv : v.mgr = m)
    (hs : Spawns { w with mgr := m } v kind u r) (hk : kind.job = some w.mgr.allocJobId.1)
    (hself : m.selfWeak = true ∨ ∀ j, kind ≠ .restart j) : Books id 0 w v := by
  have hspawn := (books_spawns id (w := { w with mgr := m }) hv hs hk).1 hself
  have hsum : w.opened id + -(if w.mgr.allocJobId.1 = id then 1 else 0 : Int) = 0 := by
    unfold opened
    omega
  exact hsum ▸ hb.trans hspawn (Or.inl (opened_nonneg w id))

/-- A job was announced, and is closed at once. -/
theorem books_job_removed {m : Manager} (hb : Books id (w.opened id) w { w with mgr := m })
    (u : UnitName) (o : JobOutcome) :
    Books id 0 w { w with mgr := m.emit (.jobRemoved w.mgr.allocJobId.1 u o) } := by
  have hend := hb.trans (books_removed _ w.mgr.allocJobId.1 u o) (Or.inl (opened_nonneg w id))
  have hsum : w.opened id + (if w.mgr.allocJobId.1 = id then -1 else 0 : Int) = 0 := by
    unfold opened
    split <;> omega
  exact hsum ▸ hend

variable (id) in
/-- **A start settles its job**, or leaves it to a task, if the unit can be started;
else the job stays open. -/
theorem books_startUnit (h : Wired w) (u : UnitName) :
    (Startable w u → Books id 0 w (w.startUnit u)) ∧
      (¬ Startable w u → Books id (w.opened id) w (w.startUnit u)) := by
  have hjob : Books id (w.opened id) w { w with mgr := (w.mgr.newJob u .start).2 } :=
    books_newJob w u .start
  by_cases hk : u.kind = .service
  · cases hs : w.mgr.services.get? u with
    | none =>
      have hno : ¬ Startable w u := by
        intro hst
        obtain ⟨-, r, R, hr, -⟩ := hst hk
        rw [hs] at hr
        exact absurd hr (by simp)
      refine ⟨fun hst => absurd hst hno, fun _ => ?_⟩
      simp only [startUnit, Manager.startUnit, if_pos hk, Manager.spawnServiceStart,
        Manager.newJob_services, hs, Except.map]
      exact hjob
    | some r =>
      have hweak : (w.mgr.newJob u .start).2.selfWeak = w.mgr.selfWeak := rfl
      have hmark : Books id (w.opened id) w
          { w with mgr := (w.mgr.newJob u .start).2.markState u .activating .start } :=
        hjob.then_zero (books_mark _ u .activating .start)
      simp only [startUnit, Manager.startUnit, if_pos hk, Manager.spawnServiceStart,
        Manager.newJob_services, hs, hweak]
      cases hself : w.mgr.selfWeak with
      | false =>
        have hno : ¬ Startable w u := by
          intro hst
          rw [(hst hk).1] at hself
          exact absurd hself (by simp)
        exact ⟨fun hst => absurd hst hno, fun _ => hmark⟩
      | true =>
        obtain ⟨R, hR, hu⟩ := h.services u r hs
        refine ⟨fun _ => ?_, fun hno => absurd (fun _ => ⟨hself, r, R, hs, hR⟩) hno⟩
        have hrunner : HasRunner { w with
            mgr := (w.mgr.newJob u .start).2.markState u .activating .start } r u := ⟨R, hR, hu⟩
        exact books_job_spawned hmark (spawnTask_mgr _ (.start w.mgr.allocJobId.1) u r)
          (spawns_spawnTask hrunner _) rfl (Or.inr (by simp))
  · refine ⟨fun _ => ?_, fun hno => absurd (fun hs => absurd hs hk) hno⟩
    simp only [startUnit, Manager.startUnit, if_neg hk]
    exact books_job_removed (hjob.then_zero (books_mark _ u .active _)) u .done

/-- **A request keeps the ledger**, unless it is for a start that cannot go ahead: that
leaves the job it announced open. -/
theorem books_request {l : Label} {kind : TaskKind} {u : UnitName} (h : Wired w)
    (hl : l.call w.mgr.allocJobId.1 = some (kind, u)) (hs : w.step l = some w') :
    (CanStart w l → Books id 0 w w') ∧ (¬ CanStart w l → Books id (w.opened id) w w') := by
  cases l with
  | startUnit name =>
    obtain ⟨-, rfl⟩ := ifFree_eq hs
    exact books_startUnit id h name
  | stopUnit name =>
    obtain ⟨-, rfl⟩ := ifFree_eq hs
    refine ⟨fun _ => ?_, fun hno => absurd trivial hno⟩
    have hjob : Books id (w.opened id) w { w with mgr := (w.mgr.newJob name .stop).2 } :=
      books_newJob w name .stop
    simp only [stopUnit]
    split
    next r hr =>
      have hrunner : HasRunner { w with mgr := (w.mgr.newJob name .stop).2 } r name :=
        h.services name r (stopRunner_some hr)
      exact books_job_spawned hjob (spawnLocked_mgr _ _ _ _) (spawns_spawnLocked hrunner _) rfl
        (Or.inr (by simp))
    next => exact books_job_removed (hjob.then_zero (books_mark _ name .inactive .dead)) name .done
  | restartUnit name =>
    obtain ⟨-, rfl⟩ := ifFree_eq hs
    have hjob : Books id (w.opened id) w { w with mgr := (w.mgr.newJob name .restart).2 } :=
      books_newJob w name .restart
    simp only [restartUnit]
    split
    next r hr =>
      have hserv : w.mgr.services.get? name = some r := stopRunner_some hr
      obtain ⟨R, hR, hu⟩ := h.services name r hserv
      have hrunner : HasRunner { w with mgr := (w.mgr.newJob name .restart).2 } r name :=
        ⟨R, hR, hu⟩
      have hsp := spawns_spawnLocked hrunner (.restart w.mgr.allocJobId.1)
      cases hself : w.mgr.selfWeak with
      | true =>
        refine ⟨fun _ => ?_, fun hno => absurd (fun _ => ⟨hself, r, R, hserv, hR⟩) hno⟩
        exact books_job_spawned hjob (spawnLocked_mgr _ _ _ _) hsp rfl (Or.inl hself)
      | false =>
        have hk : name.kind = .service := by
          by_contra hk
          simp only [stopRunner, if_neg hk, reduceCtorEq] at hr
        refine ⟨fun hst => ?_, fun _ => ?_⟩
        · rw [(hst hk).1] at hself
          exact absurd hself (by simp)
        · exact hjob.then_zero ((books_spawns id (spawnLocked_mgr _ _ _ _) hsp rfl).2 hself ⟨_, rfl⟩)
    next hr =>
      have hstop := hjob.then_zero (books_mark _ name .inactive .dead)
      by_cases hk : name.kind = .service
      · rw [if_pos hk]
        refine ⟨fun hst => ?_, fun _ => hstop⟩
        -- there is no runner
        obtain ⟨-, r, R, hserv, -⟩ := hst hk
        have hnone : w.mgr.services.get? name = none := by
          have hr' : stopRunner w.mgr name = none := hr
          simpa only [stopRunner, if_pos hk] using hr'
        rw [hnone] at hserv
        exact absurd hserv (by simp)
      · rw [if_neg hk]
        refine ⟨fun _ => ?_, fun hno => absurd (fun hs => absurd hs hk) hno⟩
        exact books_job_removed (hstop.then_zero (books_mark _ name .active _)) name .done
  | reloadUnit name =>
    obtain ⟨-, rfl⟩ := ifFree_eq hs
    refine ⟨fun _ => ?_, fun hno => absurd trivial hno⟩
    have hjob : Books id (w.opened id) w { w with mgr := (w.mgr.newJob name .reload).2 } :=
      books_newJob w name .reload
    simp only [reloadUnit]
    split
    next r hr =>
      have hrunner : HasRunner { w with mgr := (w.mgr.newJob name .reload).2 } r name :=
        h.services name r hr
      exact books_job_spawned hjob (spawnLocked_mgr _ _ _ _) (spawns_spawnLocked hrunner _) rfl
        (Or.inr (by simp))
    next => exact books_job_removed hjob name .skipped
  | fire timer target =>
    simp only [step] at hs
    split at hs
    · obtain ⟨-, rfl⟩ := ifFree_eq hs
      have hrun : Books id 0 w { w with mgr := w.mgr.markState timer .active .running } :=
        books_mark w timer .active .running
      have hwired : Wired { w with mgr := w.mgr.markState timer .active .running } :=
        ⟨h.services, h.installs, h.tasks, h.held⟩
      obtain ⟨hyes, hno⟩ := books_startUnit id hwired target
      -- putting the timer back to waiting is no event of a job
      have hfire : ∀ d, Books id d w (({ w with
            mgr := w.mgr.markState timer .active .running } : World).startUnit target) →
          Books id d w (w.fire timer target) := by
        intro d hb
        simp only [fire]
        split
        · exact hb
        · exact hb.then_zero (books_mark _ timer .active .waiting)
      have hzero : ∀ d : Int, 0 + d = d := Int.zero_add
      refine ⟨fun hst => hfire 0 (hrun.then_zero (hyes hst)), fun hst => hfire _ ?_⟩
      exact hzero (w.opened id) ▸ hrun.trans (hno hst) (Or.inl (Int.le_refl 0))
    · exact absurd hs (by simp)
  | daemonReload disk | reloadStep | task i resp | exit p =>
    exact absurd hl (by simp [Label.call])

/-! ## Tasks and reloads -/

theorem books_quiet {t : Task} (ht : HasRunner w t.runner t.unit) {a : Act}
    (ha : a.isQuiet = true) : Books id 0 w (w.act t a) := by
  cases a with
  | spawn pid main | kill k | reap p => exact books_same rfl rfl rfl
  | mark a s => exact books_mark w t.unit a s
  | supervise =>
    simp only [act]
    split
    · exact books_supervisor (spawnTask_mgr _ _ _ _) (spawns_spawnTask ht _)
    · exact Books.refl id w
  | respawn | jobRemoved o => exact absurd ha (by simp [Act.isQuiet])

/-- A supervisor has no job, whatever it does. -/
theorem books_act_supervisor {t : Task} (ht : HasRunner w t.runner t.unit)
    (hk : t.kind = .supervise) (a : Act) : Books id 0 w (w.act t a) := by
  cases a with
  | spawn pid main | kill k | reap p | mark a s | supervise => exact books_quiet ht rfl
  | respawn =>
    simp only [act, respawn, Manager.spawnServiceStart, hk]
    cases w.mgr.services.get? t.unit with
    | none => exact Books.refl id w
    | some r => exact books_mark w t.unit .activating .start
  | jobRemoved o =>
    simp only [act, hk, Task.job]
    exact Books.refl id w

theorem books_foldl {t : Task} {acts : List Act} (ht : HasRunner w t.runner t.unit)
    (h : ∀ v a, a ∈ acts → HasRunner v t.runner t.unit → Books id 0 v (v.act t a)) :
    Books id 0 w (acts.foldl (fun w a => w.act t a) w) :=
  (foldl_act_inv (P := fun v => Books id 0 w v ∧ HasRunner v t.runner t.unit)
    (fun v a ha hv => ⟨hv.1.then_zero (h v a ha hv.2),
      hv.2.kept (keepsRunners_of_eq (act_runners v t a))⟩) ⟨Books.refl id w, ht⟩).1

variable (id) in
/-- The start that a restart goes on to owes the job in its place. -/
theorem books_respawn {t : Task} {i : JobId} (ht : HasRunner w t.runner t.unit)
    (hk : t.kind = .restart i) (hserv : w.mgr.services.get? t.unit = some t.runner) :
    (w.mgr.selfWeak = true → Books id (-(if i = id then 1 else 0)) w (w.act t .respawn)) ∧
      (w.mgr.selfWeak = false → Books id 0 w (w.act t .respawn)) := by
  have hmark : Books id 0 w { w with mgr := w.mgr.markState t.unit .activating .start } :=
    books_mark w t.unit .activating .start
  simp only [act, respawn, Manager.spawnServiceStart, hserv, hk]
  refine ⟨fun hself => ?_, fun hself => ?_⟩
  · simp only [hself, if_true]
    have hrunner : HasRunner { w with mgr := w.mgr.markState t.unit .activating .start } t.runner
        t.unit := ht
    have hspawn := (books_spawns id (spawnTask_mgr _ _ _ _)
      (spawns_spawnTask hrunner (.start i)) rfl).1 (Or.inr (by simp))
    have hsum := hmark.trans hspawn (Or.inl (Int.le_refl 0))
    rw [Int.zero_add] at hsum
    exact hsum
  · simp only [hself]
    exact hmark

/-- A task takes a step: what it owes after it may be less than before. -/
theorem books_set {i : TaskId} {t t' : Task} {rs : List Runner} {l : Lock} {d : Int}
    (ht : w.tasks[i]? = some t) (hd : (if t.owes w.mgr.selfWeak id then 1 else 0) =
      d + (if t'.owes w.mgr.selfWeak id then 1 else 0 : Int)) :
    Books id d w { w with runners := rs, tasks := w.tasks.set i t', lock := l } := by
  have hset := countP_set_of_getElem? (p := Task.owes w.mgr.selfWeak id) ht t'
  refine books_tasks rfl ?_
  show ((w.tasks.set i t').countP (Task.owes w.mgr.selfWeak id) : Int) + d
    = w.tasks.countP (Task.owes w.mgr.selfWeak id)
  omega

theorem owes_of_ne_nil {self : Bool} {t : Task} (h : t.ops ≠ []) : t.owes self id =
    (decide (t.kind.job = some id) && (self || !(t.kind matches .restart _))) := by
  unfold Task.owes
  cases hops : t.ops with
  | nil => exact absurd hops h
  | cons o l => simp

theorem owes_nil {self : Bool} {t : Task} (h : t.ops = []) : t.owes self id = false := by
  unfold Task.owes
  rw [h]
  simp

/-- **A step of a task keeps the ledger.** -/
theorem books_task {i : TaskId} {resp : Response} (h : Wired w) (hshape : Shaped w)
    (hs : w.runTask i resp = some w') : Books id 0 w w' := by
  obtain ⟨t, op, rest, R, reply, ht, hops, hR, hreply, rfl⟩ := runTask_cases hs
  have hmem := List.mem_of_getElem? ht
  have hne : t.ops ≠ [] := by
    rw [hops]
    simp
  let v : World := { w with
    runners := w.runners.set t.runner reply.runner
    tasks := w.tasks.set i { t with ops := reply.ops }
    lock := w.lockAfter i reply.ops }
  have hrunner : HasRunner v t.runner t.unit :=
    (h.tasks t hmem).kept (keepsRunners_set hR (Op.run_sameUnit hreply))
  cases hk : t.kind.job with
  | none =>
    have hsup : t.kind = .supervise := by
      cases hkind : t.kind with
      | supervise => rfl
      | start j | stop j | restart j | reload j =>
        rw [hkind] at hk
        exact absurd hk (by simp [TaskKind.job])
    refine Books.then_zero (books_set ht ?_)
      (books_foldl hrunner fun x a _ hx => books_act_supervisor hx hsup a)
    simp [Task.owes, hk]
  | some j =>
    have hprog : Program t.kind (op :: rest) := by
      cases hshape t hmem (by rw [hk]; rfl) with
      | inl hnil => exact absurd hnil hne
      | inr hprog => exact hops ▸ hprog
    obtain hgo | ⟨hnil, hkind, o, hacts⟩ | ⟨hnil, ⟨j', hkind⟩, hacts⟩ := Op.run_program hprog hreply
    · -- it still owes its job, if it did
      refine Books.then_zero (books_set ht ?_)
        (books_foldl hrunner fun x a ha hx => books_quiet hx (hgo.quiet a ha))
      rw [owes_of_ne_nil hne, owes_of_ne_nil (t := { t with ops := reply.ops }) hgo.program.ne_nil,
        Int.zero_add]
    · -- the end closes it
      rw [hacts]
      have hother : (t.kind matches .restart _) = false := by
        cases hkind' : t.kind with
        | restart j' => exact absurd hkind' (hkind j')
        | start j' | stop j' | reload j' | supervise => rfl
      have hd : Books id (if j = id then 1 else 0) w v := by
        refine books_set ht ?_
        rw [owes_of_ne_nil hne, owes_nil (t := { t with ops := reply.ops }) hnil, hk, hother]
        simp
      have hjob : Task.job t.kind = some j := by
        cases hkind' : t.kind <;> rw [hkind'] at hk <;> exact hk
      have hend : Books id (if j = id then -1 else 0) v (v.act t (.jobRemoved o)) := by
        simp only [act, hjob]
        exact books_removed v j t.unit o
      have hsum : (if j = id then 1 else 0 : Int) + (if j = id then -1 else 0) = 0 := by
        split <;> omega
      exact hsum ▸ hd.trans hend (Or.inl (by split <;> omega))
    · -- or hands it on: the lock kept the runner in `services`
      rw [hacts]
      obtain rfl : j' = j := by
        rw [hkind] at hk
        exact Option.some.inj hk
      have hheld := (h.held i t ht (by rw [hkind]; rfl) hne).2
      obtain ⟨hyes, hno⟩ := books_respawn id hrunner hkind hheld
      cases hself : w.mgr.selfWeak with
      | true =>
        have hd : Books id (if j' = id then 1 else 0) w v := by
          refine books_set ht ?_
          rw [owes_of_ne_nil hne, owes_nil (t := { t with ops := reply.ops }) hnil, hk, hself]
          simp
        have hsum : (if j' = id then 1 else 0 : Int) + -(if j' = id then 1 else 0) = 0 := by omega
        exact hsum ▸ hd.trans (hyes hself) (Or.inl (by split <;> omega))
      | false =>
        refine Books.then_zero (books_set ht ?_) (hno hself)
        rw [owes_of_ne_nil hne, owes_nil (t := { t with ops := reply.ops }) hnil, hself, hkind]
        simp

theorem books_drops : ∀ (l : List UnitName) (w : World),
    Books id 0 w { w with mgr := l.foldl dropUnit w.mgr }
  | [], w => Books.refl id w
  | n :: l, w => by
    have hdrop : Books id 0 w { w with mgr := dropUnit w.mgr n } :=
      books_event (e := .unitRemoved n) rfl rfl rfl
    exact hdrop.then_zero (books_drops l _)

theorem books_reloadOp {rest : List ReloadOp} {op : ReloadOp} (hs : w.reloadOp rest op = some w') :
    Books id 0 w w' := by
  have htasks := reloadOp_tasks hs
  obtain ⟨n, spec, copies, st, new, -, -, -, hmgr, -⟩ | ⟨-, hmgr, -⟩ | ⟨n, spec, st, new, -, hmgr, -⟩ :=
    reloadOp_cases hs
  · exact books_same htasks (by rw [hmgr]) (by rw [hmgr])
  · exact books_same htasks (by rw [hmgr]) (by rw [hmgr])
  · exact books_event (e := .unitNew n) htasks (by rw [hmgr]; rfl) (by rw [hmgr]; rfl)

variable (id) in
/-- **What a step does to the ledger**: nothing, unless it asks for a start that cannot
go ahead. -/
theorem ledger_step {l : Label} (h : Wired w) (hshape : Shaped w) (hs : w.step l = some w') :
    (CanStart w l → Books id 0 w w') ∧ (¬ CanStart w l → Books id (w.opened id) w w') := by
  cases l with
  | startUnit u | stopUnit u | restartUnit u | reloadUnit u | fire timer u =>
    exact books_request h rfl hs
  | task i resp => exact ⟨fun _ => books_task h hshape hs, fun hno => absurd trivial hno⟩
  | exit p =>
    obtain rfl := Option.some.inj hs
    exact ⟨fun _ => books_same rfl rfl rfl, fun hno => absurd trivial hno⟩
  | daemonReload disk =>
    obtain ⟨-, rfl⟩ := ifFree_eq hs
    refine ⟨fun _ => ?_, fun hno => absurd trivial hno⟩
    exact (books_drops (gone w disk) w).then_zero (books_same rfl rfl rfl)
  | reloadStep =>
    refine ⟨fun _ => ?_, fun hno => absurd trivial hno⟩
    obtain ⟨-, rfl⟩ | ⟨op, rest, -, ho⟩ := reloadStep_cases hs
    · exact books_same rfl rfl rfl
    · exact books_reloadOp ho

/-- No step closes a job that nobody owes. -/
theorem ledger_step_le {l : Label} (h : Sound w) (hs : w.step l = some w') (id : JobId) :
    w.ledger id ≤ w'.ledger id := by
  obtain ⟨hyes, hno⟩ := ledger_step id h.wired h.shaped hs
  by_cases hcan : CanStart w l
  · rw [(hyes hcan).ledger]
    omega
  · have hopen := opened_nonneg w id
    rw [(hno hcan).ledger]
    omega

/-! ## Panics -/

variable (id) in
/-- A task that panics owes its job no more. -/
theorem books_crash {i : TaskId} {t : Task} (ht : w.tasks[i]? = some t) :
    Books id (if t.owes w.mgr.selfWeak id then 1 else 0) w (w.crash i) := by
  unfold crash
  rw [ht]
  refine books_set ht ?_
  rw [owes_nil (t := { t with ops := [] }) rfl]
  simp

variable (id) in
/-- **What a step does to the ledger at a reading of the clock**: nothing, if it can go
ahead, and it never closes what nobody owes. -/
theorem ledger_stepAt {l : Nat × Label} (h : Sound w) (hs : w.stepAt l = some w') :
    ∃ d : Int, 0 ≤ d ∧ (GoesAhead w l → d = 0) ∧ Books id d w w' := by
  obtain ⟨now, l⟩ := l
  obtain hs | ⟨i, resp, v, rfl, hfits, hv, rfl⟩ := stepAt_cases hs
  · obtain ⟨hyes, hno⟩ := ledger_step id h.wired h.shaped hs
    by_cases hcan : CanStart w l
    · exact ⟨0, Int.le_refl 0, fun _ => rfl, hyes hcan⟩
    · refine ⟨w.opened id, opened_nonneg w id, fun hgo => absurd ?_ hcan, hno hcan⟩
      cases l <;> first | exact hgo | trivial
  · have hbooks : Books id 0 w v := books_task h.wired h.shaped hv
    have hpanics : ∀ d : Int, GoesAhead w (now, .task i resp) → d = 0 := by
      intro d hgo
      have hfits' : w.deadlineFits now i = true := hgo
      rw [hfits] at hfits'
      exact absurd hfits' (by simp)
    cases ht : v.tasks[i]? with
    | none =>
      refine ⟨0, Int.le_refl 0, hpanics 0, ?_⟩
      unfold crash
      rw [ht]
      exact hbooks
    | some t =>
      have hcrash := hbooks.trans (books_crash id ht) (.inl (Int.le_refl 0))
      exact ⟨_, by split <;> omega, hpanics _, hcrash⟩

/-- What panics is a call with a job, which is not over. -/
theorem crash_owes {i : TaskId} {now : Nat} {resp : Response} {v : World} (h : Sound w)
    (hfits : w.deadlineFits now i = false) (hv : w.runTask i resp = some v) :
    v.mgr = w.mgr ∧ ∃ t j, v.tasks[i]? = some t ∧ t.ops ≠ [] ∧ t.kind.job = some j ∧
      ∃ t₀ ∈ w.tasks, t₀.kind = t.kind ∧ t₀.ops ≠ [] := by
  obtain ⟨t, op, rest, R, reply, ht, hops, hR, hreply, rfl⟩ := runTask_cases hv
  have hmem := List.mem_of_getElem? ht
  obtain ⟨d, htimeout, -⟩ := timeout_of_not_fits hfits ht hops hR
  have hjob : t.kind.job.isSome = true := by
    cases hk : t.kind with
    | supervise =>
      -- a supervisor computes none
      have hsup := h.supervised t hmem hk op (by simp [hops])
      obtain ⟨c, l, rfl, -⟩ | ⟨p, l, rfl, -⟩ | ⟨p, rfl, -⟩ := Op.timeout_cases htimeout
      all_goals exact absurd hsup (by simp [Op.ofSupervisor])
    | start j | stop j | restart j | reload j => rfl
  obtain ⟨j, hj⟩ := Option.isSome_iff_exists.mp hjob
  obtain ⟨hacts, hne⟩ := Op.run_timeout htimeout hreply
  rw [hacts]
  refine ⟨rfl, { t with ops := reply.ops }, j, ?_, hne, hj, t, hmem, rfl, by simp [hops]⟩
  exact List.getElem?_set_self (List.getElem?_eq_some_iff.mp ht).1

/-- No restart is in flight that cannot go on to its start. -/
def RestartsGoOn (w : World) : Prop := w.mgr.selfWeak = false → ∀ u, Idle TaskKind.isRestart u w

theorem foldl_dropUnit_selfWeak (l : List UnitName) (m : Manager) :
    (l.foldl dropUnit m).selfWeak = m.selfWeak :=
  List.foldlRecOn (motive := fun m' : Manager => m'.selfWeak = m.selfWeak) _ _ rfl
    fun _ h _ _ => h

theorem step_selfWeak {l : Label} (hs : w.step l = some w') :
    w'.mgr.selfWeak = w.mgr.selfWeak := by
  cases l with
  | daemonReload disk =>
    obtain ⟨-, rfl⟩ := ifFree_eq hs
    exact foldl_dropUnit_selfWeak _ _
  | reloadStep =>
    obtain ⟨-, rfl⟩ | ⟨op, rest, -, ho⟩ := reloadStep_cases hs
    · rfl
    · obtain ⟨_, _, _, _, _, -, -, -, hm, -⟩ | ⟨-, hm, -⟩ | ⟨_, _, _, _, -, hm, -⟩ :=
        reloadOp_cases ho
      all_goals rw [hm]
      all_goals rfl
  | startUnit n | stopUnit n | restartUnit n | reloadUnit n | fire timer n | task i resp | exit p =>
    exact (sameRegistry_step hs (by simp) (by simp)).selfWeak

theorem restartsGoOn_stepAt {l : Nat × Label} (h : RestartsGoOn w) (hgo : GoesAhead w l)
    (hs : w.stepAt l = some w') : RestartsGoOn w' := by
  obtain ⟨now, l⟩ := l
  obtain hs | ⟨i, resp, v, rfl, hfits, -, -⟩ := stepAt_cases hs
  · intro hself u
    rw [step_selfWeak hs] at hself
    by_cases hasks : l.asks TaskKind.isRestart u
    · -- a restart of what is no service
      obtain ⟨id, kind, hcall, hkind⟩ := hasks
      cases l with
      | restartUnit n =>
        have hstart : Startable w n := hgo
        have hn : n.kind ≠ .service := by
          intro hk
          rw [(hstart hk).1] at hself
          exact absurd hself (by simp)
        obtain ⟨-, rfl⟩ := ifFree_eq hs
        have htasks : (w.restartUnit n).tasks = w.tasks := by
          simp [restartUnit, stopRunner, hn]
        exact (staysIdle_same (h hself u) htasks).idle
      | startUnit n | stopUnit n | reloadUnit n | fire timer n =>
        obtain ⟨rfl, -⟩ := Prod.mk.inj (Option.some.inj hcall)
        exact absurd hkind (by simp [TaskKind.isRestart])
      | daemonReload disk | reloadStep | task i resp | exit p =>
        exact absurd hcall (by simp [Label.call])
    · exact (staysIdle_step onRequest_isRestart (h hself u) hasks hs).idle
  · have hfits' : w.deadlineFits now i = true := hgo
    rw [hfits] at hfits'
    exact absurd hfits' (by simp)

/-- **A step that does not go ahead leaves a job open.** -/
theorem ledger_lost {l : Nat × Label} (h : Sound w) (hrestarts : RestartsGoOn w)
    (hno : ¬ GoesAhead w l) (hs : w.stepAt l = some w') :
    ∃ id, w'.ledger id = w.ledger id + 1 := by
  obtain ⟨now, l⟩ := l
  by_cases hl : ∃ i resp, l = .task i resp
  · obtain ⟨i, resp, rfl⟩ := hl
    have hfits : w.deadlineFits now i = false := Bool.eq_false_iff.mpr hno
    obtain ⟨v, hv, rfl⟩ := Option.map_eq_some_iff.mp hs
    rw [hfits]
    obtain ⟨hmgr, t, j, ht, hne, hj, t₀, hmem, hkind, hne₀⟩ := crash_owes h hfits hv
    refine ⟨j, ?_⟩
    have howes : t.owes v.mgr.selfWeak j = true := by
      rw [owes_of_ne_nil hne, hj, hmgr]
      cases hself : w.mgr.selfWeak with
      | true => simp
      | false =>
        -- a restart would have to have a handle
        cases hk : t.kind with
        | restart j' =>
          have hidle := hrestarts hself t₀.unit t₀ hmem
            (Task.isCall_iff.mpr ⟨rfl, by rw [hkind, hk]; rfl⟩)
          exact absurd hidle hne₀
        | start j' | stop j' | reload j' | supervise => simp
    have hbooks := (books_task h.wired h.shaped hv : Books j 0 w v).ledger
    have hcrash := (books_crash j ht).ledger
    rw [if_pos howes] at hcrash
    show (v.crash i).ledger j = _
    omega
  · obtain hs | ⟨i, resp, v, rfl, -⟩ := stepAt_cases hs
    · refine ⟨w.mgr.allocJobId.1, ?_⟩
      have hcan : ¬ CanStart w l := by
        cases l <;> first | exact hno | exact absurd ⟨_, _, rfl⟩ hl
      have hledger := ((ledger_step w.mgr.allocJobId.1 h.wired h.shaped hs).2 hcan).ledger
      unfold opened at hledger
      rwa [if_pos rfl] at hledger
    · exact absurd ⟨i, resp, rfl⟩ hl

/-! ## Runs -/

/-- Nothing is in flight and no event was sent yet. The manager is in any state in which
each service has a runner. -/
structure Quiet (w : World) : Prop where
  services : ∀ u r, w.mgr.services.get? u = some r → HasRunner w r u
  tasks : w.tasks = []
  lock : w.lock = .free
  events : w.mgr.events = []

/-- What the jobs of a run are to satisfy. -/
structure JobsClosed (w : World) (ls : List (Nat × Label)) : Prop where
  /-- Once the tasks of a job have ended, it was removed as often as it was announced, -/
  closed : ∀ pre x id, pre <+: ls → runs stepAt w pre = some x →
    (∀ t ∈ x.tasks, t.kind.job = some id → t.ops = []) → x.openJobs id = 0
  /-- and never before. -/
  ordered : ∀ pre x id, pre <+: ls → runs stepAt w pre = some x →
    NeverNegative (UnitEvent.delta id) x.mgr.events
  /-- A start that fails leaves the status of the unit as it was. -/
  unchanged : ∀ pre x y now u e, pre ++ [(now, .startUnit u)] <+: ls →
    runs stepAt w pre = some x → x.stepAt (now, .startUnit u) = some y →
    (x.mgr.startUnit u).result = .error e → y.mgr.status.get? u = x.mgr.status.get? u

theorem Quiet.sound (h : w.Quiet) : Sound w := sound_of_idle h.services h.tasks h.lock

/-- What holds as long as every step can go ahead. -/
structure Closing (w : World) : Prop where
  sound : Sound w
  ledger : ∀ id, w.ledger id = 0
  ordered : ∀ id, NeverNegative (UnitEvent.delta id) w.mgr.events

theorem Quiet.closing (h : w.Quiet) : Closing w where
  sound := h.sound
  ledger := by
    intro id
    unfold ledger openJobs owed
    rw [h.events, h.tasks]
    rfl
  ordered := by
    intro id
    rw [h.events]
    exact neverNegative_nil

theorem Quiet.restartsGoOn (h : w.Quiet) : RestartsGoOn w := by
  intro _ u t ht
  rw [h.tasks] at ht
  exact absurd ht List.not_mem_nil

theorem closing_stepAt {l : Nat × Label} (h : Closing w) (hgo : GoesAhead w l)
    (hs : w.stepAt l = some w') : Closing w' := by
  have hbooks : ∀ id, Books id 0 w w' := by
    intro id
    obtain ⟨d, -, hzero, hb⟩ := ledger_stepAt id h.sound hs
    exact hzero hgo ▸ hb
  have hledger : ∀ id, w'.ledger id = 0 := fun id => by
    rw [(hbooks id).ledger, h.ledger id, Int.add_zero]
  refine ⟨sound_stepAt h.sound hs, hledger, ?_⟩
  intro id
  exact (hbooks id).ordered (by rw [h.ledger id]) (by rw [hledger id]) (h.ordered id)

theorem owed_eq_zero (h : ∀ t ∈ w.tasks, t.kind.job = some id → t.ops = []) : w.owed id = 0 := by
  unfold owed
  rw [List.countP_eq_zero]
  intro t ht
  by_cases hk : t.kind.job = some id
  · rw [owes_nil (h t ht hk)]
    simp
  · simp [Task.owes, hk]

/-- A start that fails at once could not go ahead. -/
theorem not_startable_of_error {u : UnitName} {e : StartError}
    (h : (w.mgr.startUnit u).result = .error e) : ¬ Startable w u := by
  intro hst
  simp only [Manager.startUnit] at h
  split at h
  next hk =>
    obtain ⟨hself, r, R, hr, -⟩ := hst hk
    have hweak : (w.mgr.newJob u .start).2.selfWeak = true := hself
    simp only [Manager.spawnServiceStart, Manager.newJob_services, hr, hweak] at h
    exact absurd h (by simp [Except.map])
  next => exact absurd h (by simp)

/-- If every step can go ahead, the jobs are closed. -/
theorem jobsClosed_of_goesAhead {ls : List (Nat × Label)} (hw : w.Quiet)
    (hok : Along stepAt GoesAhead w ls) : JobsClosed w ls := by
  have hclosing : ∀ pre x, pre <+: ls → runs stepAt w pre = some x → Closing x := by
    intro pre x hpre hx
    obtain ⟨rest, rfl⟩ := hpre
    exact runs_inv (fun _ _ _ hi ho hs => closing_stepAt hi ho hs) hw.closing hok.append.1 hx
  refine ⟨?_, ?_, ?_⟩
  · intro pre x id hpre hx hend
    have hledger := (hclosing pre x hpre hx).ledger id
    unfold ledger at hledger
    rw [owed_eq_zero hend] at hledger
    omega
  · intro pre x id hpre hx
    exact (hclosing pre x hpre hx).ordered id
  · intro pre x y now u e hpre hx hy herr
    obtain ⟨rest, rfl⟩ := hpre
    have hcan : Startable x u := (hok.append.1.append.2 x hx).1
    exact absurd hcan (not_startable_of_error herr)

/-- No run closes a job that nobody owes. -/
theorem ledger_mono {id : JobId} {ls : List (Nat × Label)} {v : World} (h : Sound w)
    (hrun : runs stepAt w ls = some v) : w.ledger id ≤ v.ledger id := by
  have hinv := runs_inv (f := stepAt) (P := fun x : World => Sound x ∧ w.ledger id ≤ x.ledger id)
    (A := fun _ _ => True) ?_ ⟨h, Int.le_refl _⟩ (Along.of_labels fun _ _ => trivial) hrun
  · exact hinv.2
  · intro x l y hx _ hs
    obtain ⟨d, hd, -, hb⟩ := ledger_stepAt id hx.1 hs
    have hledger := hb.ledger
    exact ⟨sound_stepAt hx.1 hs, by omega⟩

/-- If all jobs are closed in the end, every step could go ahead. -/
theorem goesAhead_of_closed {v : World} (hend : ∀ id, v.ledger id = 0) :
    ∀ {ls : List (Nat × Label)} {w : World}, Sound w → RestartsGoOn w → (∀ id, 0 ≤ w.ledger id) →
    runs stepAt w ls = some v → Along stepAt GoesAhead w ls
  | [], _, _, _, _, _ => trivial
  | l :: ls, w, hw, hrestarts, h0, hrun => by
    obtain ⟨w', hs, hrun⟩ := runs_cons.mp hrun
    have hw' := sound_stepAt hw hs
    have hgo : GoesAhead w l := by
      by_contra hno
      obtain ⟨id, hlost⟩ := ledger_lost hw hrestarts hno hs
      have h1 := h0 id
      have h2 : w'.ledger id ≤ _ := ledger_mono hw' hrun
      rw [hend id] at h2
      omega
    have h0' : ∀ id, 0 ≤ w'.ledger id := by
      intro id
      obtain ⟨d, hd, -, hb⟩ := ledger_stepAt id hw hs
      have hledger := hb.ledger
      have := h0 id
      omega
    refine ⟨hgo, ?_⟩
    intro x hx
    obtain rfl := Option.some.inj (hs.symm.trans hx)
    exact goesAhead_of_closed hend hw' (restartsGoOn_stepAt hrestarts hgo hs) h0' hrun

/-- **The jobs of a run are closed** if every start that it asks for can go ahead and
every deadline fits, and when all its jobs have ended only then. -/
theorem jobsClosed_iff {v : World} {ls : List (Nat × Label)} (hw : w.Quiet)
    (hrun : runs stepAt w ls = some v) :
    (Along stepAt GoesAhead w ls → JobsClosed w ls) ∧
      ((∀ t ∈ v.tasks, t.kind.job.isSome = true → t.ops = []) → JobsClosed w ls →
        Along stepAt GoesAhead w ls) := by
  refine ⟨jobsClosed_of_goesAhead hw, ?_⟩
  intro hdone hclosed
  have hended : ∀ id, ∀ t ∈ v.tasks, t.kind.job = some id → t.ops = [] := by
    intro id t ht hk
    exact hdone t ht (by rw [hk]; rfl)
  refine goesAhead_of_closed ?_ hw.sound hw.restartsGoOn (fun id => by rw [hw.closing.ledger id])
    hrun
  intro id
  unfold ledger
  rw [owed_eq_zero (hended id), hclosed.closed ls v id List.prefix_rfl hrun (hended id)]
  rfl

/-! ## A unit without a runner -/

theorem quiet_single (svc : ServiceUnit) : (single svc).Quiet :=
  ⟨(booted_single svc).services, rfl, rfl, rfl⟩

/-- A notify service. -/
def notifying (timeout : Option SdDuration) : World :=
  single { serviceType := .notify, execStart := [cmd], timeoutStartSec := timeout }

/-- A start of it, up to the wait for its readiness. -/
def waitRun : List (Nat × Label) :=
  (0, .startUnit serviceName) :: ([.ok, .ok, .ok, .ok, .ok, .ok, .spawned 7, .ok].map fun resp =>
    (0, .task 0 resp))

/-- The start, to the end of its job. -/
def startRun : List (Nat × Label) :=
  waitRun ++ ([.datagram (ascii "READY=1"), .ok, .ok, .ok, .ok, .ok, .ok].map fun resp =>
    (0, .task 0 resp))

theorem jobsClosed_iff_startRun : ∃ v, runs stepAt (notifying none) startRun = some v ∧
    ((Along stepAt GoesAhead (notifying none) startRun → JobsClosed (notifying none) startRun) ∧
      ((∀ t ∈ v.tasks, t.kind.job.isSome = true → t.ops = []) →
        JobsClosed (notifying none) startRun →
          Along stepAt GoesAhead (notifying none) startRun)) := by
  obtain ⟨v, hv⟩ : ∃ v, runs stepAt (notifying none) startRun = some v := ⟨_, rfl⟩
  exact ⟨v, hv, jobsClosed_iff (quiet_single _) hv⟩

-- with a timeout that does not fit the start is over before it waits
example : (runs stepAt (notifying (some .infinity)) waitRun).map
    (fun w => (w.openJobs ⟨1⟩, w.tasks.map Task.ops)) = some (1, [[]]) := by decide

/-- The start of a unit that the manager does not know announces a job, and fails. -/
theorem not_all_jobsClosed : ¬ ∀ (w v : World) (ls : List (Nat × Label)), w.Quiet →
    runs stepAt w ls = some v → JobsClosed w ls := by
  intro h
  have hquiet : fresh.Quiet := by
    refine ⟨?_, rfl, rfl, rfl⟩
    intro u r hr
    exact absurd hr (by simp [fresh])
  have hrun : runs stepAt fresh [(0, .startUnit serviceName)] =
      some (fresh.startUnit serviceName) := rfl
  have hclosed := (h _ _ _ hquiet hrun).closed _ _ ⟨1⟩ List.prefix_rfl hrun (fun t ht => by
    have hnone : (fresh.startUnit serviceName).tasks = [] := rfl
    rw [hnone] at ht
    exact absurd ht (by simp))
  have hone : (fresh.startUnit serviceName).openJobs ⟨1⟩ = 1 := rfl
  rw [hone] at hclosed
  exact absurd hclosed (by decide)

end World

end Systeml.Runtime
