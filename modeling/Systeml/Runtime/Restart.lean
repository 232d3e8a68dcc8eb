import Systeml.Runtime.Rest

/-!
# The restart policy

`should_restart` decides by the outcome that `classify_exit` finds whether a service
whose main process has ended is to start again. The supervisor does not ask: it settles
the unit and ends, whatever `Restart=` says (`settling_step`). So the policy is honoured
exactly where it wants no restart (`restartHonoured_iff`).
-/

namespace Systeml.Unit

/-- What happened to a child process, for restart decisions. -/
inductive ProcessOutcome where
  /-- `exit(0)`, or a code in `SuccessExitStatus=`. -/
  | exitedSuccess
  | exitedNonZero
  | signaled
  | watchdog
  | coreDumped
  deriving DecidableEq, Repr

/-- Should we restart given an outcome? -/
def Restart.shouldRestart : Restart → ProcessOutcome → Bool
  | .no, _ => false
  | .always, _ => true
  | .onSuccess, .exitedSuccess => true
  | .onFailure, .exitedNonZero | .onFailure, .signaled | .onFailure, .watchdog
  | .onFailure, .coreDumped => true
  | .onAbnormal, .signaled | .onAbnormal, .watchdog | .onAbnormal, .coreDumped => true
  | .onWatchdog, .watchdog => true
  | .onAbort, .signaled | .onAbort, .coreDumped => true
  | _, _ => false

/-- How a process ended: the status that waiting for it returns. -/
inductive WaitStatus where
  | exited (code : UInt8)
  | signaled (signal : Nat) (coreDumped : Bool)
  deriving DecidableEq, Repr

/-- `ExitStatus::success`. -/
def WaitStatus.success : WaitStatus → Bool
  | exited code => code = 0
  | signaled .. => false

/-- Convert a wait status into an outcome, by `SuccessExitStatus=`. -/
def classifyExit (status : WaitStatus) (svc : ServiceUnit) : ProcessOutcome :=
  match status with
  | .exited code =>
    if code = 0 ∨ .code code ∈ svc.successExitStatus then .exitedSuccess else .exitedNonZero
  | .signaled _ core => if core then .coreDumped else .signaled

end Systeml.Unit

namespace Systeml.Runtime

open Systeml.Lib Systeml.Unit Systeml.Deps

namespace World

variable {w w' : World} {u : UnitName} {i : TaskId} {r : RunnerId} {R : Runner}

/-! ## What other steps leave to a supervisor -/

/-- A reload copies no request to stop. -/
theorem reloadOp_stopping {rest : List ReloadOp} {op : ReloadOp} (hR : w.runners[r]? = some R)
    (hs : w.reloadOp rest op = some w') :
    ∃ R' : Runner, w'.runners[r]? = some R' ∧ R'.stopping = R.stopping := by
  cases op with
  | unit n spec =>
    simp only [reloadOp] at hs
    split at hs
    · obtain rfl := Option.some.inj hs
      exact ⟨R, List.getElem?_append_left (List.getElem?_eq_some_iff.mp hR).1 ▸ hR, rfl⟩
    · obtain rfl := Option.some.inj hs
      exact ⟨R, hR, rfl⟩
  | copyState new old | copySub new old | copyPid new old =>
    simp only [reloadOp] at hs
    split at hs
    · obtain rfl := Option.some.inj hs
      refine ⟨_, getElem?_modify_some hR, ?_⟩
      split <;> rfl
    · exact absurd hs (by simp)
  | moveChild new old =>
    simp only [reloadOp] at hs
    split at hs
    · split at hs
      · exact absurd hs (by simp)
      · obtain rfl := Option.some.inj hs
        refine ⟨_, getElem?_modify_some (getElem?_modify_some hR), ?_⟩
        split <;> split <;> rfl
    · exact absurd hs (by simp)
  | install n spec st new =>
    obtain rfl := Option.some.inj hs
    exact ⟨R, hR, rfl⟩

/-- No step requests a stop of a unit without a call in flight. -/
theorem stopping_step {l : Label} (hw : Sound w) (hidle : Idle TaskKind.asked u w)
    (hR : w.runners[r]? = some R) (hu : R.unit = u) (hs : w.step l = some w') :
    ∃ R' : Runner, w'.runners[r]? = some R' ∧ R'.stopping = R.stopping := by
  by_cases hl : l = .reloadStep
  · subst hl
    obtain ⟨-, rfl⟩ | ⟨op, rest, -, ho⟩ := reloadStep_cases hs
    · exact ⟨R, hR, rfl⟩
    · exact reloadOp_stopping hR ho
  by_cases ht : ∃ j resp, l = .task j resp
  · obtain ⟨j, resp, rfl⟩ := ht
    obtain ⟨t, op, rest, Q, reply, ht, hops, hQ, hreply, rfl⟩ := runTask_cases hs
    rw [foldl_act_runners]
    show ∃ R' : Runner, (w.runners.set t.runner reply.runner)[r]? = some R' ∧ _
    by_cases hr : t.runner = r
    · subst hr
      obtain rfl := Option.some.inj (hR.symm.trans hQ)
      have hmem := List.mem_of_getElem? ht
      -- the task is one of the unit, so a supervisor
      obtain ⟨Q, hQ', hunit⟩ := hw.wired.tasks t hmem
      obtain rfl := Option.some.inj (hR.symm.trans hQ')
      have hkind : t.kind = .supervise := by
        have hasked : t.kind.asked = false := by
          by_contra hk
          have hnil := hidle t hmem (Task.isCall_iff.mpr ⟨hunit.symm.trans hu, by simpa using hk⟩)
          rw [hops] at hnil
          exact absurd hnil (by simp)
        cases hk : t.kind with
        | supervise => rfl
        | start id | stop id | restart id | reload id =>
          rw [hk] at hasked
          exact absurd hasked (by simp [TaskKind.asked])
      have hall := hw.supervised t hmem hkind
      rw [hops] at hall
      have hwatch := Op.run_supervisor (hall op List.mem_cons_self)
        (fun o ho => hall o (List.mem_cons_of_mem op ho)) hreply
      exact ⟨_, List.getElem?_set_self (List.getElem?_eq_some_iff.mp hR).1, hwatch.stopping⟩
    · exact ⟨R, (List.getElem?_set_ne hr).trans hR, rfl⟩
  by_cases he : ∃ q, l = .exit q
  · obtain ⟨q, rfl⟩ := he
    obtain rfl := Option.some.inj hs
    exact ⟨R, hR, rfl⟩
  · have hheap := request_sameHeap hs hl (fun j resp h => ht ⟨j, resp, h⟩) fun q h => he ⟨q, h⟩
    exact ⟨R, hheap.runners ▸ hR, rfl⟩

/-! ## After the exit -/

/-- What the supervisor does once it found that no stop is in progress. -/
def settleOps (clean : Bool) : List Op :=
  [.setState (exitState clean).1, .setSub (exitState clean).2, .setMainPid none,
    .publishExit (exitState clean).1 (exitState clean).2]

/-- How far the supervisor of a unit is after an exit: it is to look whether a stop is
requested, which is not so; it settles the unit; or it has ended, and the unit is at
rest. -/
inductive Phase (clean : Bool) (w : World) (u : UnitName) (r : RunnerId) : List Op → Prop
  | looks (R : Runner) (hR : w.runners[r]? = some R) (hno : R.stopping = false) :
    Phase clean w u r [.checkStopping clean]
  | settles (ops : List Op) (hne : ops ≠ []) (hops : ops <:+ settleOps clean) : Phase clean w u r ops
  | ended (h : Settled u w) : Phase clean w u r []

structure Settling (clean : Bool) (i : TaskId) (u : UnitName) (w : World) : Prop where
  sound : Sound w
  idle : Idle TaskKind.asked u w
  task : ∃ r ops, w.tasks[i]? = some ⟨.supervise, u, r, ops⟩ ∧ Phase clean w u r ops

theorem idle_starts (h : Idle TaskKind.asked u w) : Idle TaskKind.starts u w := by
  intro t ht hc
  obtain ⟨hu, hk⟩ := Task.isCall_iff.mp hc
  refine h t ht (Task.isCall_iff.mpr ⟨hu, ?_⟩)
  cases hkind : t.kind with
  | supervise =>
    rw [hkind] at hk
    exact absurd hk (by simp [TaskKind.starts])
  | start id | stop id | restart id | reload id => rfl

theorem not_asks_starts {l : Label} (h : ¬ l.asks TaskKind.asked u) : ¬ l.asks TaskKind.starts u := by
  intro ⟨id, kind, hcall, hk⟩
  refine h ⟨id, kind, hcall, ?_⟩
  cases kind with
  | supervise => exact absurd hk (by simp [TaskKind.starts])
  | start id | stop id | restart id | reload id => rfl

/-- The steps that settle the unit, one by one. -/
theorem settleOps_suffix {clean : Bool} {op : Op} {rest : List Op}
    (h : op :: rest <:+ settleOps clean) : rest <:+ settleOps clean ∧
      (rest = [] → op = .publishExit (exitState clean).1 (exitState clean).2) ∧
      (rest ≠ [] → ∀ procs free kind R resp, ∃ R', Op.run procs free kind R rest resp op =
        some ⟨R', rest, []⟩) := by
  refine ⟨(List.suffix_cons op rest).trans h, ?_⟩
  simp only [settleOps, List.suffix_cons_iff, List.suffix_nil, List.cons.injEq, reduceCtorEq,
    or_false] at h
  obtain ⟨rfl, rfl⟩ | ⟨rfl, rfl⟩ | ⟨rfl, rfl⟩ | ⟨rfl, rfl⟩ := h
  · exact ⟨by simp, fun _ _ _ _ _ _ => ⟨_, rfl⟩⟩
  · exact ⟨by simp, fun _ _ _ _ _ _ => ⟨_, rfl⟩⟩
  · exact ⟨by simp, fun _ _ _ _ _ _ => ⟨_, rfl⟩⟩
  · exact ⟨fun _ => rfl, fun h => absurd rfl h⟩

theorem settled_of_marked {m : Manager} {v : World} {a : ActiveState} {s : SubState}
    (ha : a.atRest = true) (hv : v.mgr = m.markState u a s) (hfree : v.reloading = none) :
    Settled u v := by
  refine ⟨?_, ?_⟩
  · intro st hst
    rw [hv, Manager.markState_status, if_pos rfl] at hst
    obtain ⟨st', -, rfl⟩ := Option.map_eq_some_iff.mp hst
    exact ha
  · intro ops hops
    rw [hfree] at hops
    exact absurd hops (by simp)

/-- **The supervisor goes on to settle the unit**, and the other steps leave it alone. -/
theorem settling_step {clean : Bool} {l : Label} (hk : u.kind = .service)
    (h : Settling clean i u w) (hl : ¬ l.asks TaskKind.asked u) (hs : w.step l = some w') :
    Settling clean i u w' := by
  have hsound := sound_step h.sound hs
  have hidle := (staysIdle_step onRequest_asked h.idle hl hs).idle
  obtain ⟨r, ops, ht, hphase⟩ := h.task
  refine ⟨hsound, hidle, r, ?_⟩
  by_cases hown : ∃ resp, l = .task i resp
  · obtain ⟨resp, rfl⟩ := hown
    have hre := reloading_step hs (by simp) (by simp)
    obtain ⟨t, op, rest, Q, reply, ht', hops, hQ, hreply, rfl⟩ := runTask_cases hs
    obtain rfl := Option.some.inj (ht.symm.trans ht')
    obtain rfl : ops = op :: rest := hops
    have hnew : (w.tasks.set i ⟨.supervise, u, r, reply.ops⟩)[i]? =
        some ⟨.supervise, u, r, reply.ops⟩ :=
      List.getElem?_set_self (List.getElem?_eq_some_iff.mp ht).1
    cases hphase with
    | looks R hR hno =>
      obtain rfl := Option.some.inj (hR.symm.trans hQ)
      have hgo : reply = ⟨R, settleOps clean, []⟩ := by
        have hcheck : some (Op.runCheckStopping R clean) = some reply := hreply
        unfold Op.runCheckStopping at hcheck
        rw [hno] at hcheck
        exact (Option.some.inj hcheck).symm
      subst hgo
      exact ⟨_, hnew, .settles _ (by simp [settleOps]) List.suffix_rfl⟩
    | settles _ hne hsuf =>
      obtain ⟨hrest, hlast, hinner⟩ := settleOps_suffix hsuf
      by_cases hnil : rest = []
      · obtain rfl := hlast hnil
        subst hnil
        simp only [Op.run] at hreply
        split at hreply
        next hfree =>
          obtain rfl := Option.some.inj hreply
          refine ⟨[], hnew, .ended (settled_of_marked (atRest_exitState clean) rfl ?_)⟩
          rw [hre]
          exact reloading_of_free (by simpa using hfree)
        next => exact absurd hreply (by simp)
      · obtain ⟨R', hrun⟩ := hinner hnil w.procs (w.lock = .free) .supervise Q resp
        obtain rfl := Option.some.inj (hrun.symm.trans hreply)
        exact ⟨rest, hnew, .settles rest hnil hrest⟩
  · refine ⟨ops, task_stays ht (fun resp he => hown ⟨resp, he⟩) hs, ?_⟩
    cases hphase with
    | looks R hR hno =>
      obtain ⟨Q, hQ, hu⟩ := h.sound.wired.tasks _ (List.mem_of_getElem? ht)
      obtain rfl := Option.some.inj (hR.symm.trans hQ)
      obtain ⟨R', hR', hsame⟩ := stopping_step h.sound h.idle hR hu hs
      exact .looks R' hR' (hsame.trans hno)
    | settles _ hne hsuf => exact .settles _ hne hsuf
    | ended hrest =>
      exact .ended (settled_step hk h.sound (idle_starts h.idle) hrest (not_asks_starts hl) hs)

/-- The task has ended. -/
def Ended (w : World) (i : TaskId) : Prop := ∃ t, w.tasks[i]? = some t ∧ t.ops = []

theorem settles_ends {clean : Bool} : ∀ {ops : List Op} {w : World} {R : Runner},
    ops <:+ settleOps clean → w.tasks[i]? = some ⟨.supervise, u, r, ops⟩ →
    w.runners[r]? = some R → w.lock = .free →
    ∃ ks x, (∀ l ∈ ks, l = .task i .ok) ∧ runs step w ks = some x ∧ x.Ended i
  | [], w, _, _, ht, _, _ => ⟨[], w, by simp, rfl, _, ht, rfl⟩
  | op :: rest, w, R, hsuf, ht, hR, hfree => by
    obtain ⟨hrest, hlast, hinner⟩ := settleOps_suffix hsuf
    have hlt := (List.getElem?_eq_some_iff.mp ht).1
    have hnew : (w.tasks.set i ⟨.supervise, u, r, rest⟩)[i]? = some ⟨.supervise, u, r, rest⟩ :=
      List.getElem?_set_self hlt
    by_cases hnil : rest = []
    · -- the last step needs the lock, and is the end
      obtain rfl := hlast hnil
      subst hnil
      let v : World := { w with
        mgr := w.mgr.markState u (exitState clean).1 (exitState clean).2
        runners := w.runners.set r R
        tasks := w.tasks.set i ⟨.supervise, u, r, []⟩
        lock := w.lockAfter i [] }
      have hstep : w.step (.task i .ok) = some v := by
        simp only [step, runTask, ht, hR, Op.run, hfree, decide_true, if_true]
        rfl
      exact ⟨[.task i .ok], v, by simp, runs_cons.mpr ⟨v, hstep, rfl⟩, _, hnew, rfl⟩
    · obtain ⟨R', hrun⟩ := hinner hnil w.procs (w.lock = .free) .supervise R .ok
      let v : World := { w with
        runners := w.runners.set r R'
        tasks := w.tasks.set i ⟨.supervise, u, r, rest⟩
        lock := w.lockAfter i rest }
      have hstep : w.step (.task i .ok) = some v := by
        simp only [step, runTask, ht, hR, hrun]
        rfl
      have hlock : v.lock = .free := by
        show w.lockAfter i rest = .free
        unfold lockAfter
        rw [if_neg fun hc => hnil hc.1, hfree]
      have hrunner : v.runners[r]? = some R' :=
        List.getElem?_set_self (List.getElem?_eq_some_iff.mp hR).1
      obtain ⟨ks, x, hks, hx, hend⟩ := settles_ends hrest hnew hrunner hlock
      exact ⟨.task i .ok :: ks, x, by simpa using hks, runs_cons.mpr ⟨v, hstep, hx⟩, hend⟩

/-- With the lock free, the supervisor can go on to its end by itself. -/
theorem settling_ends {clean : Bool} (h : Settling clean i u w) (hfree : w.lock = .free) :
    ∃ ks x, (∀ l ∈ ks, l = .task i .ok) ∧ runs step w ks = some x ∧ x.Ended i := by
  obtain ⟨r, ops, ht, hphase⟩ := h.task
  obtain ⟨R, hR, -⟩ := h.sound.wired.tasks _ (List.mem_of_getElem? ht)
  cases hphase with
  | ended _ => exact ⟨[], w, by simp, rfl, _, ht, rfl⟩
  | settles _ _ hsuf => exact settles_ends hsuf ht hR hfree
  | looks Q hQ hno =>
    obtain rfl := Option.some.inj (hR.symm.trans hQ)
    let v : World := { w with
      runners := w.runners.set r R
      tasks := w.tasks.set i ⟨.supervise, u, r, settleOps clean⟩
      lock := w.lockAfter i (settleOps clean) }
    have hstep : w.step (.task i .ok) = some v := by
      simp only [step, runTask, ht, hR, Op.run, Op.runCheckStopping, hno]
      rfl
    have hlock : v.lock = .free := by
      show w.lockAfter i (settleOps clean) = .free
      unfold lockAfter
      rw [if_neg (by simp [settleOps]), hfree]
    obtain ⟨ks, x, hks, hx, hend⟩ := settles_ends (w := v) List.suffix_rfl
      (List.getElem?_set_self (List.getElem?_eq_some_iff.mp ht).1)
      (List.getElem?_set_self (List.getElem?_eq_some_iff.mp hR).1) hlock
    exact ⟨.task i .ok :: ks, x, by simpa using hks, runs_cons.mpr ⟨v, hstep, hx⟩, hend⟩

/-! ## The policy -/

/-- The supervisor `i` of the service learns that the main process ended, with this
status, while no stop was requested and no call for the service is in flight. Where it
waits for a child it gets the status itself; else it finds the pid gone. -/
structure Observes (w w' : World) (i : TaskId) (u : UnitName) (R : Runner) (status : WaitStatus) :
    Prop where
  service : u.kind = .service
  idle : Idle TaskKind.asked u w
  running : R.stopping = false
  step : ∃ r resp op, w.tasks[i]? = some ⟨.supervise, u, r, [op]⟩ ∧ w.runners[r]? = some R ∧
    w.step (.task i resp) = some w' ∧
    ((∃ c, op = .waitMain c ∧ resp = .exited status.success) ∨ ∃ p, op = .poll p ∧ resp = .gone)

/-- A run without a request for the unit. -/
def Unasked (u : UnitName) (ls : List Label) : Prop := ∀ l ∈ ls, ¬ l.asks TaskKind.asked u

/-- The unit settles: it is not started again, the supervisor can end as soon as the lock
is free, and then the unit is inactive or failed for good. -/
structure Settles (w : World) (i : TaskId) (u : UnitName) : Prop where
  noStart : ∀ ls v, Unasked u ls → runs step w ls = some v →
    v.calls TaskKind.starts u = w.calls TaskKind.starts u
  ends : ∀ ls v, Unasked u ls → runs step w ls = some v → v.lock = .free →
    ∃ ks x, (∀ l ∈ ks, l = .task i .ok) ∧ runs step v ks = some x ∧ x.Ended i
  atRest : ∀ ls v, Unasked u ls → runs step w ls = some v → v.Ended i →
    ∀ st, v.mgr.status.get? u = some st → st.active.atRest = true

/-- `Restart=` is honoured after the exit: if the policy says so the unit can come to be
started again, without a request; else it settles. -/
structure RestartHonoured (w : World) (i : TaskId) (u : UnitName) (svc : ServiceUnit)
    (status : WaitStatus) : Prop where
  restarts : svc.restart.shouldRestart (classifyExit status svc) = true →
    ∃ ls v, Unasked u ls ∧ runs step w ls = some v ∧
      w.calls TaskKind.starts u < v.calls TaskKind.starts u
  settles : svc.restart.shouldRestart (classifyExit status svc) = false → Settles w i u

theorem Observes.settling {status : WaitStatus} (h : Observes w w' i u R status) (hw : Sound w) :
    ∃ clean, Settling clean i u w' := by
  obtain ⟨r, resp, op, ht, hR, hs, hop⟩ := h.step
  have hno : ¬ (Label.task i resp).asks TaskKind.asked u := by
    intro ⟨_, _, hcall, _⟩
    exact absurd hcall (by simp [Label.call])
  -- the next step looks whether a stop is requested
  have hnext : ∃ (clean : Bool) (acts : List Act), w' = acts.foldl (fun w a => w.act ⟨.supervise, u, r, [op]⟩ a) { w with
      runners := w.runners.set r R
      tasks := w.tasks.set i ⟨.supervise, u, r, [.checkStopping clean]⟩
      lock := w.lockAfter i [.checkStopping clean] } ∧ ∀ a ∈ acts, ∃ k, a = .kill k := by
    obtain ⟨t, op', rest, Q, reply, ht', hops, hQ, hreply, rfl⟩ := runTask_cases hs
    obtain rfl := Option.some.inj (ht.symm.trans ht')
    obtain ⟨rfl, rfl⟩ := List.cons.inj hops
    obtain rfl := Option.some.inj (hR.symm.trans hQ)
    obtain ⟨c, rfl, rfl⟩ | ⟨p, rfl, rfl⟩ := hop
    · simp only [Op.run, Op.runWait] at hreply
      split at hreply
      · obtain rfl := Option.some.inj hreply
        exact ⟨status.success, [], rfl, by simp⟩
      · exact absurd hreply (by simp)
    · simp only [Op.run] at hreply
      split at hreply
      · obtain rfl := Option.some.inj hreply
        exact ⟨true, _, rfl, by simp⟩
      · exact absurd hreply (by simp)
  obtain ⟨clean, acts, rfl, hkills⟩ := hnext
  refine ⟨clean, sound_step hw hs, (staysIdle_step onRequest_asked h.idle hno hs).idle, r, _, ?_,
    .looks R ?_ h.running⟩
  · refine foldl_act_inv (P := fun v => v.tasks[i]? = some ⟨.supervise, u, r, [.checkStopping clean]⟩)
      (fun v a ha hv => ?_) (List.getElem?_set_self (List.getElem?_eq_some_iff.mp ht).1)
    obtain ⟨k, rfl⟩ := hkills a ha
    exact hv
  · rw [foldl_act_runners]
    exact List.getElem?_set_self (List.getElem?_eq_some_iff.mp hR).1

theorem settling_run {clean : Bool} {ls : List Label} {v : World} (hk : u.kind = .service)
    (h : Settling clean i u w) (hls : Unasked u ls) (hrun : runs step w ls = some v) :
    Settling clean i u v :=
  runs_inv (A := fun _ l => ¬ l.asks TaskKind.asked u)
    (fun _ _ _ hx hl hs => settling_step hk hx hl hs) h
    (Along.of_labels fun l hl => hls l hl) hrun

/-- No call is made in a run without a request. -/
theorem calls_run {ls : List Label} {v : World} (h : Idle TaskKind.asked u w) (hls : Unasked u ls)
    (hrun : runs step w ls = some v) :
    v.calls TaskKind.starts u = w.calls TaskKind.starts u := by
  have hinv := runs_inv (f := step) (A := fun _ l => ¬ l.asks TaskKind.asked u)
    (P := fun x => Idle TaskKind.asked u x ∧
      x.calls TaskKind.starts u = w.calls TaskKind.starts u) ?_ ⟨h, rfl⟩
    (Along.of_labels fun l hl => hls l hl) hrun
  · exact hinv.2
  · intro x l y hx hl hs
    refine ⟨(staysIdle_step onRequest_asked hx.1 hl hs).idle, ?_⟩
    have hcalls := (staysIdle_step onRequest_starts (idle_starts hx.1) (not_asks_starts hl) hs).calls
    exact hcalls.trans hx.2

/-- The supervisor settles the unit, whatever the policy says. -/
theorem Observes.settles {status : WaitStatus} (h : Observes w w' i u R status) (hw : Sound w) :
    Settles w' i u := by
  obtain ⟨clean, hset⟩ := h.settling hw
  refine ⟨?_, ?_, ?_⟩
  · intro ls v hls hrun
    exact calls_run hset.idle hls hrun
  · intro ls v hls hrun hfree
    exact settling_ends (settling_run h.service hset hls hrun) hfree
  · intro ls v hls hrun ⟨t, ht, hend⟩ st hst
    obtain ⟨r, ops, ht', hphase⟩ := (settling_run h.service hset hls hrun).task
    obtain rfl := Option.some.inj (ht.symm.trans ht')
    cases hphase with
    | looks Q hQ hno => exact absurd hend (by simp)
    | settles _ hne _ => exact absurd hend hne
    | ended hrest => exact hrest.status st hst

/-- **`Restart=` is honoured exactly where it wants no restart.** -/
theorem restartHonoured_iff {w₀ : World} {ls : List Label} {status : WaitStatus} (hw : w₀.Booted)
    (hrun : runs step w₀ ls = some w) (hobs : Observes w w' i u R status) :
    RestartHonoured w' i u R.svc status ↔
      R.svc.restart.shouldRestart (classifyExit status R.svc) = false := by
  have hsound := sound_run hw.sound hrun
  refine ⟨?_, ?_⟩
  · intro h
    by_contra hyes
    obtain ⟨ks, v, hks, hv, hlt⟩ := h.restarts (by simpa using hyes)
    obtain ⟨clean, hset⟩ := hobs.settling hsound
    rw [calls_run hset.idle hks hv] at hlt
    exact absurd hlt (Nat.lt_irrefl _)
  · intro hno
    refine ⟨fun hyes => ?_, fun _ => hobs.settles hsound⟩
    rw [hno] at hyes
    exact absurd hyes (by simp)

/-! ## A service that is to restart on failure -/

/-- A simple service with `Restart=on-failure`. -/
def failingService : ServiceUnit := { execStart := [cmd], restart := .onFailure }

/-- It is started, comes up with the pid 5, and its process exits. -/
def exitRun : List Label :=
  [.startUnit serviceName, .task 0 .ok, .task 0 .ok, .task 0 .ok, .task 0 .ok, .task 0 .ok,
    .task 0 (.spawned 5), .task 0 .ok, .task 0 .ok, .task 0 .ok, .task 0 .ok, .task 0 .ok,
    .task 0 .ok, .task 0 .ok, .task 1 .ok, .exit 0]

/-- The start, at its end, and the supervisor, which waits for the process. -/
def exitTasks : List Task :=
  [⟨.start ⟨1⟩, serviceName, 0, []⟩, ⟨.supervise, serviceName, 0, [.waitMain 0]⟩]

def exitRunner : Runner :=
  { unit := serviceName, svc := failingService, mainPid := some 5, state := .active, sub := .running }

theorem observes_exitRun {c : UInt8} (hnext : ((runs step (single failingService) exitRun).bind
      fun w => w.step (.task 1 (.exited (WaitStatus.exited c).success))).isSome = true) :
    ∃ w w', runs step (single failingService) exitRun = some w ∧
      Observes w w' 1 serviceName exitRunner (.exited c) := by
  obtain ⟨w, hw⟩ : ∃ w, runs step (single failingService) exitRun = some w := ⟨_, rfl⟩
  have htasks : (runs step (single failingService) exitRun).map tasks = some exitTasks := rfl
  have hrunners : (runs step (single failingService) exitRun).map runners = some [exitRunner] := rfl
  rw [hw] at htasks hrunners hnext
  obtain ⟨w', hw'⟩ := Option.isSome_iff_exists.mp hnext
  have ht : w.tasks = exitTasks := Option.some.inj htasks
  have hr : w.runners = [exitRunner] := Option.some.inj hrunners
  refine ⟨w, w', hw, rfl, ?_, rfl, 0, _, .waitMain 0, ?_, ?_, hw', Or.inl ⟨0, rfl, rfl⟩⟩
  · intro t hmem hcall
    rw [ht] at hmem
    cases List.mem_cons.mp hmem with
    | inl he => exact he ▸ rfl
    | inr he =>
      rw [List.mem_singleton.mp he] at hcall
      exact absurd hcall (by decide)
  · rw [ht]
    rfl
  · rw [hr]
    rfl

theorem restartHonoured_iff_exitRun : ∃ w w',
    runs step (single failingService) exitRun = some w ∧
      (RestartHonoured w' 1 serviceName failingService (.exited 0) ↔
        failingService.restart.shouldRestart (classifyExit (.exited 0) failingService) = false) := by
  obtain ⟨w, w', hw, hobs⟩ := observes_exitRun (c := 0) rfl
  exact ⟨w, w', hw, restartHonoured_iff (booted_single _) hw hobs⟩

/-- A failure restarts nothing. -/
theorem not_all_restartHonoured : ¬ ∀ (w₀ w w' : World) (ls : List Label) (i : TaskId)
    (u : UnitName) (R : Runner) (status : WaitStatus), w₀.Booted → runs step w₀ ls = some w →
    Observes w w' i u R status → RestartHonoured w' i u R.svc status := by
  intro h
  obtain ⟨w, w', hw, hobs⟩ := observes_exitRun (c := 1) rfl
  have hbooted := booted_single failingService
  have hon := h _ w w' exitRun 1 serviceName exitRunner (.exited 1) hbooted hw hobs
  obtain ⟨ks, v, hks, hv, hlt⟩ := hon.restarts rfl
  obtain ⟨clean, hset⟩ := hobs.settling (sound_run hbooted.sound hw)
  rw [calls_run hset.idle hks hv] at hlt
  exact absurd hlt (Nat.lt_irrefl _)

end World

end Systeml.Runtime
