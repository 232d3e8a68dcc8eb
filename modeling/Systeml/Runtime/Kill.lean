import Systeml.Unit.ServiceSection
import Systeml.Runtime.StopPhase

/-!
# What a stop does to the main process

The main process of a service is one that the manager spawned, or a daemon that such a
process left behind and whose pid a start was told (`PIDFile=`, `MAINPID=`). The child of
the runner is then another process, or there is none, and a signal to the group of the pid
goes nowhere if the daemon leads no group.

`SendSIGKILL=` is off unless the section turns it on, and a stop that cannot read its
environment publishes its end without a signal. `stopKills_iff` says when the process is
gone at that point, whatever it does.
-/

namespace Systeml.Runtime

open Systeml.Lib Systeml.Unit Systeml.Deps

namespace World

variable {w w' : World} {u : UnitName} {i : TaskId} {r : RunnerId} {R : Runner} {m : ProcId} {p : Int}
  {svc : ServiceUnit} {env leads : Bool}

/-- The service has a live main process, whose pid its runner has recorded. No call is in
flight that could change that, and what else there is of the runner is beside a stop. -/
structure Tracks (w : World) (u : UnitName) (r : RunnerId) (R : Runner) (m : ProcId) (p : Int) :
    Prop where
  service : u.kind = .service
  free : w.lock = .free
  installed : w.mgr.services.get? u = some r
  runner : w.runners[r]? = some R
  mainPid : R.mainPid = some p
  held : R.childHeld = false
  process : ∃ q, w.procs[m]? = some q ∧ q.pid = p ∧ q.alive = true
  handle : ∀ c, R.child = some c → c < w.procs.length
  tasks : ∀ t ∈ w.tasks, t.runner = r → Aside t.kind t.ops
  waits : ∀ t ∈ w.tasks, t.runner = r → ∀ c, .waitMain c ∈ t.ops → c < w.procs.length
  calls : ∀ t ∈ w.tasks, t.kind.isLocked = true → t.ops = []

/-- The step that a task is about to take. -/
def nextOp (w : World) (i : TaskId) : Option Op := (w.tasks[i]?).bind (·.ops.head?)

/-- What the stop learns: whether its environment resolves, and that waiting for a child
fails only where the child is gone. -/
structure Answers (env : Bool) (i : TaskId) (w : World) (l : Nat × Label) : Prop where
  environment : ∀ resp, l.2 = .task i resp → w.nextOp i = some .resolveEnv →
    (resp = .ok ↔ env = true)
  wait : ∀ p, l.2 = .task i .err → w.nextOp i = some (.waitGone p) →
    ∀ t R c, w.tasks[i]? = some t → w.runners[t.runner]? = some R → R.child = some c →
      exited w.procs c = true
  killed : ∀ c, l.2 = .task i .err → w.nextOp i = some (.waitKilled c) → exited w.procs c = true

/-- From `w` the unit was asked to stop, and the stop has just published its end. -/
def StopPublished (env : Bool) (w : World) (u : UnitName) (w' : World) : Prop :=
  ∃ w₁ w₂ ls now resp, w.step (.stopUnit u) = some w₁ ∧ runs stepAt w₁ ls = some w₂ ∧
    Along stepAt (Answers env w.tasks.length) w₁ ls ∧
    w₂.nextOp w.tasks.length = some .markDead ∧
    w₂.stepAt (now, .task w.tasks.length resp) = some w'

/-- `SIGKILL` has reached the process with the pid since there were `n` calls of `kill`. -/
def Killed (leads : Bool) (n : Nat) (p : Int) (w : World) : Prop :=
  ∃ k ∈ w.kills.drop n, k.signal = some .sigkill ∧ k.Hits leads p

/-- **Stop really kills.** Whatever the main process does, it is gone when the stop has
published its end, where a `SIGKILL` that reaches it ends it. -/
def StopKills (env leads : Bool) (w : World) (u : UnitName) (m : ProcId) (p : Int) : Prop :=
  ∀ w', StopPublished env w u w' → (Killed leads w.kills.length p w' → ¬ w'.Lives m) → ¬ w'.Lives m

/-- The process is gone at the end of a stop: the stop finds its pid, and either sends it
`SIGKILL` at once, or waits for it to end. -/
structure Deadly (first last : Prop) (leads : Bool) (w : World) (r : RunnerId) (R : Runner)
    (m : ProcId) (p : Int) : Prop where
  guarded : Guarded w.tasks r R m p
  ends : first ∧ Reaches R.svc leads ∨ Finishes w.tasks r R m leads last

/-- The stop holds the lock, and does not end before its main process does. -/
structure Stopping (i : TaskId) (u : UnitName) (r : RunnerId) (m : ProcId) (p : Int) (leads : Bool)
    (svc : ServiceUnit) (w : World) : Prop where
  lock : w.lock = .task i
  task : ∃ id R ops, w.tasks[i]? = some ⟨.stop id, u, r, ops⟩ ∧ w.runners[r]? = some R ∧
    R.svc = svc ∧ StopPhase (w.tasks.eraseIdx i) r m p leads R ops
  beside : ∀ t ∈ w.tasks.eraseIdx i, t.runner = r → Aside t.kind t.ops
  calls : ∀ t ∈ w.tasks.eraseIdx i, t.kind.isLocked = true → t.ops = []

/-! ## The tasks beside it -/

theorem mem_eraseIdx {ts : List Task} {j : TaskId} {t : Task} (ht : ts[j]? = some t) (hj : j ≠ i) :
    t ∈ ts.eraseIdx i :=
  List.mem_eraseIdx_iff_getElem?.mpr ⟨j, hj, ht⟩

theorem mem_eraseIdx_set {ts : List Task} {j : TaskId} {s t : Task}
    (h : t ∈ (ts.set j s).eraseIdx i) : t = s ∧ j ≠ i ∨ t ∈ ts.eraseIdx i := by
  obtain ⟨k, hk, ht⟩ := List.mem_eraseIdx_iff_getElem?.mp h
  by_cases hj : j = k
  · subst hj
    obtain ⟨hlt, he⟩ := List.getElem?_eq_some_iff.mp ht
    rw [List.getElem_set_self] at he
    exact .inl ⟨he.symm, hk⟩
  · rw [List.getElem?_set_ne hj] at ht
    exact .inr (mem_eraseIdx ht hk)

/-- While the lock is held, a task that is no restart puts nothing in flight. -/
theorem busy_tasks {procs : List Proc} {t : Task} {op : Op} {rest : List Op} {resp : Response}
    {reply : Reply} (hk : ∀ id, t.kind ≠ .restart id)
    (h : op.run procs false t.kind R rest resp = some reply) (w : World) :
    (reply.acts.foldl (fun w a => w.act t a) w).tasks = w.tasks := by
  refine foldl_act_inv (P := fun v => v.tasks = w.tasks) (fun v a ha hv => ?_) rfl
  obtain he | ⟨rfl, -⟩ | ⟨-, id, _, hr, -⟩ := act_tasks v t a
  · exact he.trans hv
  · cases Op.run_does h _ ha with
    | supervise o s hfree => exact absurd hfree (by simp)
  · exact absurd hr (hk id)

theorem lockAfter_ne {j : TaskId} {ops : List Op} (h : w.lock = .task i) (hj : j ≠ i) :
    w.lockAfter j ops = .task i := by
  unfold lockAfter
  rw [h, if_neg]
  exact fun hc => hj (Lock.task.inj hc.2).symm

/-- What is of another runner makes no difference. -/
theorem Stopping.foreign {j : TaskId} {s : Task} (h : Stopping i u r m p leads svc w) (hj : j ≠ i)
    (hlock : w'.lock = w.lock) (hR : w'.runners[r]? = w.runners[r]?)
    (htasks : w'.tasks = w.tasks.set j s) (hs : s.runner ≠ r)
    (hcall : s.kind.isLocked = true → s.ops = []) : Stopping i u r m p leads svc w' := by
  obtain ⟨id, R, ops, ht, hRr, hsvc, hphase⟩ := h.task
  have hold : ∀ t ∈ w'.tasks.eraseIdx i, t.runner = r → t ∈ w.tasks.eraseIdx i := by
    intro t ht hr
    obtain ⟨rfl, -⟩ | hold := mem_eraseIdx_set (htasks ▸ ht)
    · exact absurd hr hs
    · exact hold
  refine ⟨hlock.trans h.lock, ⟨id, R, ops, ?_, hR.trans hRr, hsvc, hphase.mono hold⟩, ?_, ?_⟩
  · rw [htasks]
    exact (List.getElem?_set_ne hj).trans ht
  · exact fun t ht hr => h.beside t (hold t ht hr) hr
  · intro t ht hl
    obtain ⟨rfl, -⟩ | hold := mem_eraseIdx_set (htasks ▸ ht)
    · exact hcall hl
    · exact h.calls t hold hl

/-- A step of another task. -/
theorem stopping_other {j : TaskId} {resp : Response} {q : Proc} (hj : j ≠ i)
    (hq : w.procs[m]? = some q) (hpid : q.pid = p) (h : Stopping i u r m p leads svc w)
    (hs : w.step (.task j resp) = some w') : Stopping i u r m p leads svc w' ∨ ¬ w'.Lives m := by
  obtain ⟨id, R, ops, ht, hR, hsvc, hphase⟩ := h.task
  have hages := ages_step hs
  obtain ⟨t, op, rest, Q, reply, htj, hops, hQ, hreply, rfl⟩ := runTask_cases hs
  have hmem := mem_eraseIdx htj hj
  have hcall : t.kind.isLocked = false := by
    by_contra hl
    have hnil := h.calls t hmem (by simpa using hl)
    exact absurd (hops.symm.trans hnil) (by simp)
  have hbusy : decide (w.lock = .free) = false := by
    rw [h.lock]
    rfl
  rw [hbusy] at hreply
  have htasks := busy_tasks (fun id he => by simp [he, TaskKind.isLocked] at hcall) hreply { w with
    runners := w.runners.set t.runner reply.runner
    tasks := w.tasks.set j { t with ops := reply.ops }
    lock := w.lockAfter j reply.ops }
  have hlock : w.lockAfter j reply.ops = .task i := lockAfter_ne h.lock hj
  by_cases hr : t.runner = r
  · rw [hr] at hQ
    obtain rfl := Option.some.inj (hR.symm.trans hQ)
    have haside := hops ▸ h.beside t hmem hr
    have hb : Beside (w.tasks.eraseIdx i)
        ((w.tasks.set j { t with ops := reply.ops }).eraseIdx i) t op reply :=
      ⟨hmem, hops ▸ List.mem_cons_self, fun s hs' => (mem_eraseIdx_set hs').imp_left And.left⟩
    obtain hphase | hexit | hgone := hphase.beside hb hr hops haside hreply
    · have hside := Op.run_aside haside hreply
      refine .inl ⟨?_, ⟨id, reply.runner, ops, ?_, ?_, hside.svc.trans hsvc, ?_⟩, ?_, ?_⟩
      · rw [foldl_act_lock]
        exact hlock
      · rw [htasks]
        exact (List.getElem?_set_ne hj).trans ht
      · rw [foldl_act_runners, hr]
        exact List.getElem?_set_self (List.getElem?_eq_some_iff.mp hR).1
      · rw [htasks]
        exact hphase
      · rw [htasks]
        intro s hs' hsr
        obtain ⟨rfl, -⟩ | hold := mem_eraseIdx_set hs'
        · exact hside.aside
        · exact h.beside s hold hsr
      · rw [htasks]
        intro s hs' hl
        obtain ⟨rfl, -⟩ | hold := mem_eraseIdx_set hs'
        · exact absurd (hcall.symm.trans hl) (by simp)
        · exact h.calls s hold hl
    · exact .inr fun hl => not_lives_of_exited hexit (hages.lives hq hl)
    · exact .inr fun hl => not_lives_of_pidGone hgone hq hpid (hages.lives hq hl)
  · refine .inl (h.foreign hj ?_ ?_ htasks hr fun hl => absurd (hcall.symm.trans hl) (by simp))
    · rw [foldl_act_lock, hlock, h.lock]
    · rw [foldl_act_runners]
      exact List.getElem?_set_ne hr

/-! ## The steps of the stop -/

/-- The signal of an act. -/
def actKills : Act → List Kill
  | .kill k => [k]
  | _ => []

theorem act_kills_eq (w : World) (t : Task) (a : Act) :
    (w.act t a).kills = w.kills ++ actKills a := by
  cases a with
  | kill k => rfl
  | spawn _ _ | reap _ | mark _ _ | supervise | respawn | jobRemoved _ =>
    refine (List.append_nil _).symm ▸ ?_
    obtain he | ⟨k, he, -⟩ := act_kills w t _
    · exact he
    · exact absurd he (by simp)

theorem foldl_act_kills (t : Task) (acts : List Act) : ∀ w : World,
    (acts.foldl (fun w a => w.act t a) w).kills = w.kills ++ acts.flatMap actKills := by
  induction acts with
  | nil => simp
  | cons a acts ih =>
    intro w
    show (acts.foldl _ (w.act t a)).kills = _
    rw [ih, act_kills_eq, List.flatMap_cons, List.append_assoc]

theorem killed_of_acts {t : Task} {acts : List Act} {n : Nat} (h : SendsSigkill leads p acts)
    (hn : w.kills.length = n) : Killed leads n p (acts.foldl (fun w a => w.act t a) w) := by
  obtain ⟨k, hk, hsig, hnum⟩ := h
  refine ⟨k, ?_, hsig, hnum⟩
  rw [foldl_act_kills, ← hn, List.drop_left]
  exact List.mem_flatMap.mpr ⟨_, hk, List.mem_singleton.mpr rfl⟩

theorem Killed.mono {n n' : Nat} (h : Killed leads n' p w) (hn : n ≤ n') : Killed leads n p w := by
  obtain ⟨k, hk, hp⟩ := h
  refine ⟨k, ?_, hp⟩
  rw [← Nat.add_sub_cancel' hn, ← List.drop_drop] at hk
  exact List.mem_of_mem_drop hk

theorem Killed.ages {n : Nat} (h : Killed leads n p w) (ha : Ages w w') : Killed leads n p w' := by
  obtain ⟨k, hk, hp⟩ := h
  refine ⟨k, ?_, hp⟩
  obtain ⟨l, hl⟩ := ha.kills
  rw [← hl, List.drop_append]
  exact List.mem_append_left _ hk

/-- Nothing is left of the task. -/
def Over (i : TaskId) (w : World) : Prop := ∃ t, w.tasks[i]? = some t ∧ t.ops = []

theorem over_crash {t : Task} (ht : w.tasks[i]? = some t) : Over i (w.crash i) := by
  unfold crash
  rw [ht]
  exact ⟨_, List.getElem?_set_self (List.getElem?_eq_some_iff.mp ht).1, rfl⟩

theorem instantFits_mono {now d : Nat} (h : instantFits 0 d = false) : instantFits now d = false := by
  simp only [instantFits, decide_eq_false_iff_not, Nat.not_lt, Nat.zero_add] at h ⊢
  exact Nat.le_trans h (Nat.div_le_div_right (Nat.le_add_left d now))

/-- A step of the stop. -/
theorem stopping_own {resp : Response} {q : Proc} {now : Nat} (hcan : Stoppable svc)
    (hq : w.procs[m]? = some q) (hpid : q.pid = p) (h : Stopping i u r m p leads svc w)
    (ha : Answers true i w (now, .task i resp)) (hs : w.step (.task i resp) = some w')
    (hfits : w.deadlineFits now i = true) :
    Stopping i u r m p leads svc w' ∨ ¬ w'.Lives m ∨ Killed leads w.kills.length p w' := by
  obtain ⟨id, R, ops, ht, hR, rfl, hphase⟩ := h.task
  have hages := ages_step hs
  obtain ⟨t, op, rest, Q, reply, ht', hops, hQ, hreply, rfl⟩ := runTask_cases hs
  obtain rfl := Option.some.inj (ht.symm.trans ht')
  obtain rfl : ops = op :: rest := hops
  obtain rfl := Option.some.inj (hR.symm.trans hQ)
  have hbusy : decide (w.lock = .free) = false := by
    rw [h.lock]
    rfl
  rw [hbusy] at hreply
  have hnext : w.nextOp i = some op := by
    unfold nextOp
    rw [ht]
    rfl
  have hstep := hphase.step hcan (fun he => (ha.environment resp rfl (he ▸ hnext)).mpr rfl)
    (fun he hr c hc => ha.wait p (hr ▸ rfl) (he ▸ hnext) _ _ c ht hR hc)
    (fun he hr => ha.killed m (hr ▸ rfl) (he ▸ hnext)) hreply
  obtain ⟨hsvc, hphase⟩ | hexit | hgone | hkill | ⟨d, hd, hover⟩ := hstep
  · have htasks := busy_tasks (t := ⟨.stop id, u, r, op :: rest⟩) (by simp) hreply { w with
      runners := w.runners.set r reply.runner
      tasks := w.tasks.set i ⟨.stop id, u, r, reply.ops⟩
      lock := w.lockAfter i reply.ops }
    have hold : (w.tasks.set i ⟨.stop id, u, r, reply.ops⟩).eraseIdx i = w.tasks.eraseIdx i :=
      List.eraseIdx_set_eq
    refine .inl ⟨?_, ⟨id, reply.runner, reply.ops, ?_, ?_, hsvc, ?_⟩, ?_, ?_⟩
    · rw [foldl_act_lock]
      show w.lockAfter i reply.ops = _
      unfold lockAfter
      rw [if_neg fun hc => hphase.ne_nil hc.1, h.lock]
    · rw [htasks]
      exact List.getElem?_set_self (List.getElem?_eq_some_iff.mp ht).1
    · rw [foldl_act_runners]
      exact List.getElem?_set_self (List.getElem?_eq_some_iff.mp hR).1
    · rw [htasks, hold]
      exact hphase
    · rw [htasks, hold]
      exact h.beside
    · rw [htasks, hold]
      exact h.calls
  · exact .inr (.inl fun hl => not_lives_of_exited hexit (hages.lives hq hl))
  · exact .inr (.inl fun hl => not_lives_of_pidGone hgone hq hpid (hages.lives hq hl))
  · exact .inr (.inr (killed_of_acts hkill rfl))
  · -- the deadline fits, and does not
    unfold deadlineFits at hfits
    simp only [ht, hR, hd, Option.all_some, instantFits_mono hover] at hfits
    exact absurd hfits (by simp)

/-- A panic of another task is one of another runner. -/
theorem stopping_crash {j : TaskId} {resp : Response} {now : Nat} (hj : j ≠ i)
    (h : Stopping i u r m p leads svc w) (hs : w.step (.task j resp) = some w')
    (hfits : w.deadlineFits now j = false) (h' : Stopping i u r m p leads svc w') :
    Stopping i u r m p leads svc (w'.crash j) := by
  obtain ⟨t, op, rest, Q, reply, htj, hops, hQ, hreply, hw'⟩ := runTask_cases hs
  obtain ⟨d, hd, -⟩ := timeout_of_not_fits hfits htj hops hQ
  have hmem := mem_eraseIdx htj hj
  have hr : t.runner ≠ r := fun hr =>
    absurd ((hops ▸ h.beside t hmem hr).timeout_eq_none.symm.trans hd) (by simp)
  have hcall : t.kind.isLocked = false := by
    by_contra hl
    have hnil := h.calls t hmem (by simpa using hl)
    exact absurd (hops.symm.trans hnil) (by simp)
  have hbusy : decide (w.lock = .free) = false := by
    rw [h.lock]
    rfl
  rw [hbusy] at hreply
  have htj' : w'.tasks[j]? = some { t with ops := reply.ops } := by
    rw [hw', busy_tasks (fun id he => by simp [he, TaskKind.isLocked] at hcall) hreply]
    exact List.getElem?_set_self (List.getElem?_eq_some_iff.mp htj).1
  refine h'.foreign (s := { t with ops := [] }) hj ?_ ?_ ?_ hr fun _ => rfl
  · simp only [crash, htj']
    exact (lockAfter_ne h'.lock hj).trans h'.lock.symm
  · simp only [crash, htj']
    split
    · exact List.getElem?_modify_ne _ _ hr
    · rfl
  · simp only [crash, htj']

/-- A task that is over stays so. -/
theorem over_stepAt {l : Nat × Label} (h : Over i w) (hs : w.stepAt l = some w') : Over i w' := by
  obtain ⟨t, ht, hops⟩ := h
  obtain ⟨now, l⟩ := l
  have hne : ∀ {v resp}, l = .task i resp → w.step l ≠ some v := by
    rintro v resp rfl hv
    obtain ⟨s, op, rest, Q, reply, hsi, hcons, -⟩ := runTask_cases hv
    obtain rfl := Option.some.inj (ht.symm.trans hsi)
    exact absurd (hops.symm.trans hcons) (by simp)
  obtain hs | ⟨j, resp, v, rfl, -, hv, rfl⟩ := stepAt_cases hs
  · exact ⟨t, task_stays ht (fun resp he => hne he hs) hs, hops⟩
  · have hj : j ≠ i := by
      rintro rfl
      exact hne rfl hv
    have hstay : v.tasks[i]? = some t :=
      task_stays (l := .task j resp) ht (fun resp' he => hj (Label.task.inj he).1) hv
    refine ⟨t, ?_, hops⟩
    unfold crash
    split
    · exact hstay
    · exact (List.getElem?_set_ne hj).trans hstay

/-! ## From the request to the publication -/

theorem ages_crash (w : World) (i : TaskId) : Ages w (w.crash i) := by
  unfold crash
  split <;> exact .of_eq rfl rfl

theorem ages_stepAt {l : Nat × Label} (hs : w.stepAt l = some w') : Ages w w' := by
  obtain ⟨now, l⟩ := l
  obtain hs | ⟨j, resp, v, rfl, -, hv, rfl⟩ := stepAt_cases hs
  · exact ages_step hs
  · exact (ages_step (l := .task j resp) hv).trans (ages_crash v j)

/-- What the run of a stop comes to: the process is gone or was sent `SIGKILL`, or the stop
is on its way, or it panicked. -/
structure Doomed (n : Nat) (i : TaskId) (u : UnitName) (r : RunnerId) (m : ProcId) (p : Int)
    (leads : Bool) (svc : ServiceUnit) (w : World) : Prop where
  process : ∃ q, w.procs[m]? = some q ∧ q.pid = p
  kills : n ≤ w.kills.length
  fate : ¬ w.Lives m ∨ Killed leads n p w ∨ Stopping i u r m p leads svc w ∨ Over i w

/-- **While a stop is on its way**, nothing makes it lose its main process. -/
theorem stopping_stepAt {l : Nat × Label} {q : Proc} (hcan : Stoppable svc)
    (hq : w.procs[m]? = some q) (hpid : q.pid = p) (h : Stopping i u r m p leads svc w)
    (ha : Answers true i w l) (hs : w.stepAt l = some w') :
    ¬ w'.Lives m ∨ Killed leads w.kills.length p w' ∨ Stopping i u r m p leads svc w' ∨ Over i w' := by
  have hbusy : ∀ v : World, w.ifFree v ≠ some w' := by
    intro v hv
    have hfree := (ifFree_eq hv).1
    rw [h.lock] at hfree
    exact absurd hfree (by simp)
  obtain ⟨now, l⟩ := l
  cases l with
  | startUnit n | stopUnit n | restartUnit n | reloadUnit n | daemonReload disk =>
    exact absurd hs (hbusy _)
  | fire timer n =>
    simp only [stepAt, step] at hs
    split at hs
    · exact absurd hs (hbusy _)
    · exact absurd hs (by simp)
  | reloadStep =>
    simp only [stepAt, step, reloadStep, h.lock] at hs
    exact absurd hs (by simp)
  | exit c =>
    obtain rfl := Option.some.inj hs
    exact .inr (.inr (.inl ⟨h.lock, h.task, h.beside, h.calls⟩))
  | task j resp =>
    obtain ⟨v, hv, rfl⟩ := Option.map_eq_some_iff.mp hs
    cases hfits : w.deadlineFits now j with
    | true =>
      by_cases hj : j = i
      · subst hj
        obtain hstop | hdead | hkill := stopping_own hcan hq hpid h ha hv hfits
        · exact .inr (.inr (.inl hstop))
        · exact .inl hdead
        · exact .inr (.inl hkill)
      · obtain hstop | hdead := stopping_other hj hq hpid h hv
        · exact .inr (.inr (.inl hstop))
        · exact .inl hdead
    | false =>
      by_cases hj : j = i
      · subst hj
        -- the stop panics
        obtain ⟨t, op, rest, Q, reply, htj, hops, hQ, hreply, rfl⟩ := runTask_cases hv
        obtain ⟨d, hd, -⟩ := timeout_of_not_fits hfits htj hops hQ
        rw [(Op.run_timeout hd hreply).1]
        exact .inr (.inr (.inr (over_crash
          (List.getElem?_set_self (List.getElem?_eq_some_iff.mp htj).1))))
      · obtain hstop | hdead := stopping_other hj hq hpid h hv
        · exact .inr (.inr (.inl (stopping_crash hj h hv hfits hstop)))
        · obtain ⟨q', hq', -⟩ := (ages_step (l := .task j resp) hv).procs m q hq
          exact .inl fun hl => hdead ((ages_crash v j).lives hq' hl)

theorem doomed_stepAt {n : Nat} {l : Nat × Label} (hcan : Stoppable svc)
    (h : Doomed n i u r m p leads svc w) (ha : Answers true i w l) (hs : w.stepAt l = some w') :
    Doomed n i u r m p leads svc w' := by
  have hages := ages_stepAt hs
  obtain ⟨q, hq, hpid⟩ := h.process
  refine ⟨?_, Nat.le_trans h.kills hages.kills.length_le, ?_⟩
  · obtain ⟨q', hq', he⟩ := hages.procs m q hq
    refine ⟨q', hq', ?_⟩
    cases he with
    | inl he => exact he ▸ hpid
    | inr he => exact he ▸ hpid
  · obtain hdead | hkill | hstop | hover := h.fate
    · exact .inl fun hl => hdead (hages.lives hq hl)
    · exact .inr (.inl (hkill.ages hages))
    · exact (stopping_stepAt hcan hq hpid hstop ha hs).imp_right
        (Or.imp_left fun hkill => hkill.mono h.kills)
    · exact .inr (.inr (.inr (over_stepAt hover hs)))

/-- The world while the unit is being stopped, as far as the stop alone has brought it. -/
def stopWorld (w : World) (u : UnitName) (r : RunnerId) (R : Runner) (ops : List Op)
    (ks : List Kill) : World :=
  { w with
    mgr := (w.mgr.newJob u .stop).2
    runners := w.runners.set r R
    tasks := w.tasks ++ [⟨.stop (w.mgr.newJob u .stop).1, u, r, ops⟩]
    lock := .task w.tasks.length
    kills := w.kills ++ ks }

/-- What a stop does once it has read the pid. -/
def afterKill (svc : ServiceUnit) : List Op :=
  svc.execStopPost.map (.exec · .bestEffort) ++
    [.setState .inactive, .setSub .dead, .setMainPid none, .setChild none, .markDead, .jobRemoved .done]

theorem stop_program (svc : ServiceUnit) (id : JobId) : (TaskKind.stop id).program svc =
    [.requestStop, .setState .deactivating, .setSub .stop, .resolveEnv] ++
      (svc.execStop.map (.exec · .bestEffort) ++ .readPid :: afterKill svc) := by
  simp [TaskKind.program, stopOps, TaskKind.returnOps, afterKill]

theorem Tracks.step_stopUnit (h : w.Tracks u r R m p) : w.step (.stopUnit u) =
    some (stopWorld w u r R ((TaskKind.stop (w.mgr.newJob u .stop).1).program R.svc) []) := by
  have hrunner : stopRunner (w.mgr.newJob u .stop).2 u = some r := by
    unfold stopRunner
    rw [if_pos h.service]
    exact h.installed
  have hset : w.runners.set r R = w.runners := by
    obtain ⟨hlt, rfl⟩ := List.getElem?_eq_some_iff.mp h.runner
    exact List.set_getElem_self hlt
  simp only [step, ifFree, h.free, if_true, stopUnit, hrunner, spawnLocked, h.runner, stopWorld,
    hset, List.append_nil]

theorem Tracks.stopping {w₁ : World} (h : w.Tracks u r R m p)
    (hd : Deadly (R.svc.killSignal = some "SIGKILL".toList) (R.svc.sendSigkill = true) leads w r R m p)
    (hs : w.step (.stopUnit u) = some w₁) : Stopping w.tasks.length u r m p leads R.svc w₁ := by
  obtain rfl := Option.some.inj (h.step_stopUnit.symm.trans hs)
  have hothers : (stopWorld w u r R ((TaskKind.stop (w.mgr.newJob u .stop).1).program R.svc)
      []).tasks.eraseIdx w.tasks.length = w.tasks := by
    show (w.tasks ++ [_]).eraseIdx w.tasks.length = _
    rw [List.eraseIdx_append_of_length_le (Nat.le_refl _), Nat.sub_self]
    exact List.append_nil _
  refine ⟨rfl, ⟨_, R, _, List.getElem?_concat_length, ?_, rfl, ?_⟩, ?_, ?_⟩
  · exact List.getElem?_set_self (List.getElem?_eq_some_iff.mp h.runner).1
  · rw [hothers, stop_program, ← List.append_assoc]
    refine .begins _ _ ?_ h.mainPid hd.guarded hd.ends
    intro o ho
    cases List.mem_append.mp ho with
    | inl ho =>
      simp only [List.mem_cons, List.not_mem_nil, or_false] at ho
      obtain rfl | rfl | rfl | rfl := ho <;> rfl
    | inr ho =>
      obtain ⟨c, -, rfl⟩ := List.mem_map.mp ho
      rfl
  · rw [hothers]
    exact h.tasks
  · rw [hothers]
    exact h.calls

/-- **A stop that is deadly kills.** -/
theorem stopKills_of_deadly (hcan : Stoppable R.svc) (h : w.Tracks u r R m p)
    (hd : Deadly (R.svc.killSignal = some "SIGKILL".toList) (R.svc.sendSigkill = true) leads w r R m p) :
    w.StopKills true leads u m p := by
  intro w' ⟨w₁, w₂, ls, now, resp, hreq, hrun, halong, hnext, hpub⟩ hlaw
  obtain ⟨q, hq, hpid, -⟩ := h.process
  have hstart : Doomed w.kills.length w.tasks.length u r m p leads R.svc w₁ := by
    have hages := ages_step hreq
    have heq := Option.some.inj (h.step_stopUnit.symm.trans hreq)
    refine ⟨⟨q, heq ▸ hq, hpid⟩, hages.kills.length_le, .inr (.inr (.inl (h.stopping hd hreq)))⟩
  have hend := runs_inv (fun _ _ _ hx ha hs => doomed_stepAt hcan hx ha hs) hstart halong hrun
  obtain ⟨q', hq', -⟩ := hend.process
  have hages := ages_stepAt hpub
  obtain hdead | hkill | hstop | hover := hend.fate
  · exact fun hl => hdead (hages.lives hq' hl)
  · exact hlaw (hkill.ages hages)
  · -- a stop on its way is not at its end
    obtain ⟨id, R', ops, ht, -, -, hphase⟩ := hstop.task
    unfold nextOp at hnext
    rw [ht] at hnext
    cases ops with
    | nil => exact absurd rfl hphase.ne_nil
    | cons o l =>
      obtain rfl := Option.some.inj hnext
      exact absurd rfl hphase.head_ne
  · -- neither is one that panicked
    obtain ⟨t, ht, hops⟩ := hover
    unfold nextOp at hnext
    rw [ht] at hnext
    simp [hops] at hnext

end World

end Systeml.Runtime
