import Systeml.Runtime.Exit
import Systeml.Runtime.Final
import Systeml.Runtime.MainOps

/-!
# At most one main process

A start spawns a main process and records its pid and its handle, whatever the runner
recorded before, and every supervisor clears the pid when its own process has ended. So
the unit must be at rest when it is started. Then it has one main process at most, and the
runner in `services` has its pid (`tracked_run`).
-/

namespace Systeml.Runtime

open Systeml.Lib Systeml.Unit Systeml.Deps

namespace World

variable {w w' : World} {u : UnitName} {r : RunnerId} {l : Label} {i : TaskId} {m : ProcId}
  {q : Proc}

/-- A main process of the unit that is there. -/
structure MainOf (w : World) (u : UnitName) (m : ProcId) (q : Proc) : Prop where
  proc : w.procs[m]? = some q
  unit : q.unit = u
  main : q.main = true
  alive : q.alive = true

def NoMain (u : UnitName) (w : World) : Prop := ∀ m q, ¬ MainOf w u m q

/-- **At most one main process**, and its pid is that of the runner in `services`. -/
def Tracked (u : UnitName) (w : World) : Prop :=
  ∀ m q, MainOf w u m q → (∀ m' q', MainOf w u m' q' → m' = m) ∧
    ∃ r R, w.mgr.services.get? u = some r ∧ w.runners[r]? = some R ∧ R.mainPid = some q.pid

/-- No other task of the unit is in flight. -/
def Alone (u : UnitName) (i : TaskId) (w : World) : Prop :=
  ∀ j t, w.tasks[j]? = some t → j ≠ i → t.unit = u → t.ops = []

/-- What the unit asks of a step. It is started at rest only, and not stopped in the middle
of a start. A stop does not give up on the main process, and a datagram names no other. -/
structure Orderly (u : UnitName) (w : World) (l : Label) : Prop where
  reload : ∀ disk, l ≠ .daemonReload disk
  start : l.asks TaskKind.isStart u → (∀ t ∈ w.tasks, t.unit = u → t.ops = []) ∧ NoMain u w
  respawn : ∀ i resp t rest, l = .task i resp → w.tasks[i]? = some t → t.unit = u →
    t.ops = .respawn :: rest → Alone u i w ∧ NoMain u w
  locked : l.asks TaskKind.isLocked u → ∀ t ∈ w.tasks, t.unit = u → ∀ o ∈ t.ops, o.records = false
  wait : ∀ i resp t op rest R, l = .task i resp → w.tasks[i]? = some t → t.unit = u →
    t.ops = op :: rest → w.runners[t.runner]? = some R → givesUp R resp op = true → NoMain u w
  names : ∀ i buf t rest R p, l = .task i (.datagram buf) → w.tasks[i]? = some t → t.unit = u →
    t.ops = .recv :: rest → w.runners[t.runner]? = some R →
    (NotifyMessage.parse (buf.take 4096)).mainPid = some p → R.mainPid = some p

/-! ## Processes -/

theorem mainOf_of_procs (h : MainOf w' u m q) (hp : w'.procs = w.procs) : MainOf w u m q :=
  ⟨hp ▸ h.proc, h.unit, h.main, h.alive⟩

theorem mainOf_killProc {p : ProcId} (h : MainOf (w.killProc p) u m q) : MainOf w u m q := by
  have hget : (w.killProc p).procs[m]? = (w.procs[m]?).map
      fun q => if p = m then { q with alive := false } else q := by
    unfold killProc
    rw [List.getElem?_modify]
    rfl
  obtain ⟨s, hs, he⟩ := Option.map_eq_some_iff.mp (hget.symm.trans h.proc)
  split at he
  · subst he
    exact absurd h.alive (by simp)
  · subst he
    exact ⟨hs, h.unit, h.main, h.alive⟩

/-- Only the spawn of a main process adds one. -/
theorem mainOf_act {t : Task} {a : Act} (h : MainOf (w.act t a) u m q) :
    MainOf w u m q ∨ (a = .spawn q.pid true ∧ t.unit = u ∧ m = w.procs.length) := by
  have hsame : (w.act t a).procs = w.procs → MainOf w u m q := mainOf_of_procs h
  cases a with
  | spawn pid main =>
    obtain hold | ⟨hm, rfl⟩ := getElem?_append_singleton h.proc
    · exact Or.inl ⟨hold, h.unit, h.main, h.alive⟩
    · obtain rfl : main = true := h.main
      exact Or.inr ⟨rfl, h.unit, hm⟩
  | reap p => exact Or.inl (mainOf_killProc h)
  | kill k | mark a s => exact Or.inl (hsame rfl)
  | supervise =>
    refine Or.inl (hsame ?_)
    simp only [act]
    split
    · exact (sameHeap_spawnTask _ _ _ _).procs
    · rfl
  | respawn =>
    refine Or.inl (hsame ?_)
    simp only [act, World.respawn]
    split
    · exact (sameHeap_spawnTask _ _ _ _).procs
    · rfl
  | jobRemoved o =>
    refine Or.inl (hsame ?_)
    simp only [act]
    split <;> rfl

theorem mainOf_foldl_act {t : Task} {acts : List Act}
    (hno : t.unit = u → ∀ pid, .spawn pid true ∉ acts)
    (h : MainOf (acts.foldl (fun w a => w.act t a) w) u m q) : MainOf w u m q := by
  refine foldl_act_inv (P := fun v => MainOf v u m q → MainOf w u m q) (fun v a ha hv hm => ?_) id h
  obtain hm | ⟨rfl, hu, -⟩ := mainOf_act hm
  · exact hv hm
  · exact absurd ha (hno hu _)

theorem MainOf.lives (h : MainOf w u m q) : w.Lives m := ⟨q, h.proc, h.alive⟩

/-! ## The phases of a unit -/

/-- What is left of its starts keeps to a process. -/
def StartsKeep (u : UnitName) (w : World) : Prop :=
  ∀ (j : TaskId) (t : Task), w.tasks[j]? = some t → t.unit = u → t.kind.isStart = true →
    ∀ o ∈ t.ops, o.Keeps fun _ => True

/-- The process is the only one, its runner has recorded it, and all tasks tend to it. -/
structure Tended (u : UnitName) (r : RunnerId) (m : ProcId) (p : Int) (w : World) : Prop where
  only : ∀ m' q', MainOf w u m' q' → m' = m
  runner : ∃ R, w.runners[r]? = some R ∧ R.Holds m p
  tasks : ∀ (j : TaskId) (t : Task), w.tasks[j]? = some t → t.unit = u → Tends m p t.kind t.ops

/-- Where the unit is: a start is about to spawn the main process, has spawned it and not
kept its handle yet, or every task leaves the process alone, if there is one. -/
inductive MainPhase (u : UnitName) (r : RunnerId) (w : World) : Prop
  | starting (i : TaskId) (id : JobId) (l l' : List Op) (cmd : ExecCommand)
    (task : w.tasks[i]? = some ⟨.start id, u, r, l ++ .spawnMain cmd :: l'⟩)
    (before : ∀ o ∈ l, o.isPlain = true) (after : ∀ o ∈ l', o.Keeps fun _ => False)
    (alone : Alone u i w) (none : NoMain u w)
  | spawned (i : TaskId) (id : JobId) (m : ProcId) (q : Proc) (R : Runner) (l : List Op)
    (task : w.tasks[i]? = some ⟨.start id, u, r, .setChild (some m) :: l⟩)
    (after : ∀ o ∈ l, o.Keeps fun _ => False) (alone : Alone u i w)
    (proc : w.procs[m]? = some q) (runner : w.runners[r]? = some R)
    (mainPid : R.mainPid = some q.pid) (only : ∀ m' q', MainOf w u m' q' → m' = m)
  | settled (starts : StartsKeep u w) (main : ∀ m q, MainOf w u m q → Tended u r m q.pid w)

/-- The invariant of a unit with one runner. -/
structure OneMain (u : UnitName) (r : RunnerId) (w : World) : Prop where
  sound : Sound w
  reloading : w.reloading = none
  service : w.mgr.services.get? u = some r
  direct : ∃ R, w.runners[r]? = some R ∧ directChild R.svc.serviceType = true
  own : ∀ t ∈ w.tasks, t.unit = u → t.runner = r
  phase : MainPhase u r w

theorem OneMain.tracked (h : OneMain u r w) : Tracked u w := by
  intro m q hm
  cases h.phase with
  | starting i id l l' cmd task before after alone none => exact absurd hm (none m q)
  | spawned i id m₀ q₀ R l task after alone proc runner mainPid only =>
    obtain rfl := only m q hm
    obtain rfl := Option.some.inj (proc.symm.trans hm.proc)
    exact ⟨only, r, R, h.service, runner, mainPid⟩
  | settled starts main =>
    obtain ⟨hunique, ⟨R, hR, hholds⟩, -⟩ := main m q hm
    exact ⟨hunique, r, R, h.service, hR, hholds.mainPid⟩

/-- The tasks of the unit stay. -/
structure SameTasks (u : UnitName) (w w' : World) : Prop where
  old : ∀ (j : TaskId) (t : Task), w'.tasks[j]? = some t → t.unit = u → w.tasks[j]? = some t
  kept : ∀ (j : TaskId) (t : Task), w.tasks[j]? = some t → t.unit = u → w'.tasks[j]? = some t

theorem SameTasks.of_eq (h : w'.tasks = w.tasks) : SameTasks u w w' :=
  ⟨fun _ _ ht _ => h ▸ ht, fun _ _ ht _ => h ▸ ht⟩

theorem SameTasks.trans {v : World} (h : SameTasks u w w') (h' : SameTasks u w' v) :
    SameTasks u w v :=
  ⟨fun j t ht hu => h.old j t (h'.old j t ht hu) hu,
    fun j t ht hu => h'.kept j t (h.kept j t ht hu) hu⟩

/-- A task of another unit comes. -/
theorem SameTasks.append {t : Task} (ht : t.unit ≠ u) (h : w'.tasks = w.tasks ++ [t]) :
    SameTasks u w w' := by
  refine ⟨fun j s hj hu => ?_, fun j s hj _ => ?_⟩
  · rw [h] at hj
    obtain hold | ⟨-, rfl⟩ := getElem?_append_singleton hj
    · exact hold
    · exact absurd hu ht
  · rw [h]
    exact (List.getElem?_append_left (List.getElem?_eq_some_iff.mp hj).1).trans hj

/-- The step has nothing to do with the unit: its tasks and its runner stay, and of its
processes none is new. -/
structure Apart (u : UnitName) (r : RunnerId) (w w' : World) : Prop where
  tasks : SameTasks u w w'
  runner : w'.runners[r]? = w.runners[r]?
  mains : ∀ m q, MainOf w' u m q → MainOf w u m q
  procs : ∀ (m : ProcId) (q : Proc), w.procs[m]? = some q →
    ∃ q' : Proc, w'.procs[m]? = some q' ∧ q'.pid = q.pid

theorem MainPhase.apart (h : MainPhase u r w) (ha : Apart u r w w') : MainPhase u r w' := by
  have halone : ∀ i, Alone u i w → Alone u i w' :=
    fun i hi j t ht hj hu => hi j t (ha.tasks.old j t ht hu) hj hu
  cases h with
  | starting i id l l' cmd task before after alone none =>
    exact .starting i id l l' cmd (ha.tasks.kept _ _ task rfl) before after (halone i alone)
      fun m q hm => none m q (ha.mains m q hm)
  | spawned i id m q R l task after alone proc runner mainPid only =>
    obtain ⟨q', hq', hpid⟩ := ha.procs m q proc
    exact .spawned i id m q' R l (ha.tasks.kept _ _ task rfl) after (halone i alone) hq'
      (ha.runner.trans runner) (hpid.symm ▸ mainPid) fun m' q' hm => only m' q' (ha.mains m' q' hm)
  | settled starts main =>
    refine .settled (fun j t ht hu => starts j t (ha.tasks.old j t ht hu) hu) fun m q hm => ?_
    obtain ⟨hunique, ⟨R, hR, hholds⟩, htends⟩ := main m q (ha.mains m q hm)
    exact ⟨fun m' q' hm' => hunique m' q' (ha.mains m' q' hm'), ⟨R, ha.runner.trans hR, hholds⟩,
      fun j t ht hu => htends j t (ha.tasks.old j t ht hu) hu⟩

theorem OneMain.apart (h : OneMain u r w) (hs : w.step l = some w')
    (hd : ∀ disk, l ≠ .daemonReload disk) (hr : l ≠ .reloadStep) (ha : Apart u r w w') :
    OneMain u r w' := by
  obtain ⟨R, hR, hdirect⟩ := h.direct
  refine ⟨sound_step h.sound hs, (reloading_step hs hd hr).trans h.reloading, ?_,
    ⟨R, ha.runner.trans hR, hdirect⟩, ?_, h.phase.apart ha⟩
  · exact (sameRegistry_step hs hd hr).services ▸ h.service
  · intro t ht hu
    obtain ⟨j, hj⟩ := List.getElem?_of_mem ht
    exact h.own t (List.mem_of_getElem? (ha.tasks.old j t hj hu)) hu

theorem Ages.pid (h : Ages w w') (hq : w.procs[m]? = some q) :
    ∃ q' : Proc, w'.procs[m]? = some q' ∧ q'.pid = q.pid := by
  obtain ⟨q', hq', rfl | rfl⟩ := h.procs m q hq
  · exact ⟨_, hq', rfl⟩
  · exact ⟨_, hq', rfl⟩

/-- A request for another unit, -/
theorem apart_request {kind : TaskKind} {n : UnitName} (hn : n ≠ u)
    (hcall : l.call w.mgr.allocJobId.1 = some (kind, n)) (hs : w.step l = some w') :
    Apart u r w w' := by
  have hheap : SameHeap w w' := by
    refine request_sameHeap hs ?_ ?_ ?_
    · rintro rfl
      exact absurd hcall (by simp [Label.call])
    · rintro i resp rfl
      exact absurd hcall (by simp [Label.call])
    · rintro p rfl
      exact absurd hcall (by simp [Label.call])
  refine ⟨?_, by rw [hheap.runners], fun m q hm => mainOf_of_procs hm hheap.procs,
    fun m q hq => ⟨q, hheap.procs.symm ▸ hq, rfl⟩⟩
  obtain ⟨-, ⟨he, -⟩ | ⟨q, -, ⟨R, -, he⟩, -⟩⟩ := request_tasks hcall hs
  · exact .of_eq he
  · exact .append hn he

/-- the exit of a process, -/
theorem apart_exit {p : ProcId} : Apart u r w (w.killProc p) :=
  ⟨.of_eq rfl, rfl, fun _ _ h => mainOf_killProc h,
    fun _ _ hq => (ages_killProc w p).pid hq⟩

/-- and a step of another unit's task. -/
theorem apart_task (h : OneMain u r w) {resp : Response} {t : Task} (ht : w.tasks[i]? = some t)
    (hu : t.unit ≠ u) (hs : w.step (.task i resp) = some w') : Apart u r w w' := by
  have hages := ages_step hs
  obtain ⟨R, hR, -⟩ := h.direct
  have hr : t.runner ≠ r := by
    rintro rfl
    refine hu (unit_eq h.sound.wired (List.mem_of_getElem? ht) ?_)
    exact h.sound.wired.services u _ h.service
  obtain ⟨t', op, rest, Q, reply, ht', -, -, -, rfl⟩ := runTask_cases hs
  obtain rfl := Option.some.inj (ht.symm.trans ht')
  have hacts : ∀ v : World, SameTasks u w v → ∀ a : Act, SameTasks u w (v.act t a) := by
    intro v hv a
    obtain he | ⟨-, R, -, he⟩ | ⟨-, id, q, -, -, R, -, he⟩ := act_tasks v t a
    · exact hv.trans (.of_eq he)
    · exact hv.trans (.append (t := ⟨.supervise, t.unit, t.runner, _⟩) hu he)
    · exact hv.trans (.append (t := ⟨.start id, t.unit, q, _⟩) hu he)
  have hset : SameTasks u w { w with
      runners := w.runners.set t.runner reply.runner
      tasks := w.tasks.set i { t with ops := reply.ops }
      lock := w.lockAfter i reply.ops } := by
    refine ⟨fun j s hj hsu => ?_, fun j s hj hsu => ?_⟩
    · by_cases hij : i = j
      · subst hij
        obtain rfl := Option.some.inj
          ((List.getElem?_set_self (List.getElem?_eq_some_iff.mp ht).1).symm.trans hj)
        exact absurd hsu hu
      · exact (List.getElem?_set_ne hij).symm.trans hj
    · have hij : i ≠ j := by
        rintro rfl
        exact hu (Option.some.inj (ht.symm.trans hj) ▸ hsu)
      exact (List.getElem?_set_ne hij).trans hj
  refine ⟨foldl_act_inv (fun v a _ hv => hacts v hv a) hset, ?_, fun m q hm => ?_,
    fun m q hq => hages.pid hq⟩
  · rw [foldl_act_runners]
    exact List.getElem?_set_ne hr
  · exact mainOf_of_procs (mainOf_foldl_act (fun he => absurd he hu) hm) rfl

/-! ## A start -/

/-- **A start of a unit at rest** is about to spawn its main process, or has none. -/
theorem phase_of_start {ts : List Task} {id : JobId} {svc : ServiceUnit}
    (hd : directChild svc.serviceType = true)
    (hts : w.tasks = ts ++ [⟨.start id, u, r, (TaskKind.start id).program svc⟩])
    (hrest : ∀ t ∈ ts, t.unit = u → t.ops = []) (hno : NoMain u w) : MainPhase u r w := by
  have hold : ∀ (j : TaskId) (t : Task), w.tasks[j]? = some t → t.unit = u → t.ops = [] ∨
      (j = ts.length ∧ t = ⟨.start id, u, r, (TaskKind.start id).program svc⟩) := by
    intro j t ht hu
    rw [hts] at ht
    obtain ht | he := getElem?_append_singleton ht
    · exact Or.inl (hrest t (List.mem_of_getElem? ht) hu)
    · exact Or.inr he
  have hnew : w.tasks[ts.length]? = some ⟨.start id, u, r, startOps svc⟩ := by
    rw [hts]
    exact List.getElem?_concat_length
  cases startOps_spawnsOnce hd with
  | inl h =>
    obtain ⟨l, cmd, l', he, hl, hl'⟩ := h
    refine .starting ts.length id l l' cmd (he ▸ hnew) hl hl' ?_ hno
    intro j t ht hj hu
    exact (hold j t ht hu).resolve_right fun h => hj h.1
  | inr h =>
    refine .settled (fun j t ht hu _ o ho => ?_) fun m q hm => absurd hm (hno m q)
    obtain hnil | ⟨-, rfl⟩ := hold j t ht hu
    · rw [hnil] at ho
      exact absurd ho (by simp)
    · exact (h o ho).imp fun _ hf => hf.elim

/-- **A request for the unit.** -/
theorem OneMain.request (h : OneMain u r w) {kind : TaskKind}
    (hcall : l.call w.mgr.allocJobId.1 = some (kind, u)) (hok : Orderly u w l)
    (hs : w.step l = some w') : OneMain u r w' := by
  obtain ⟨R, hR, hdirect⟩ := h.direct
  have hne : l ≠ .reloadStep ∧ (∀ i resp, l ≠ .task i resp) ∧ ∀ p, l ≠ .exit p := by
    cases l <;> simp [Label.call] at hcall ⊢
  have hheap := request_sameHeap hs hne.1 hne.2.1 hne.2.2
  have hreg := sameRegistry_step hs hok.reload hne.1
  have hserv : w'.mgr.services.get? u = some r := hreg.services ▸ h.service
  have hR' : w'.runners[r]? = some R := hheap.runners.symm ▸ hR
  have hmains : ∀ m q, MainOf w' u m q → MainOf w u m q :=
    fun m q hm => mainOf_of_procs hm hheap.procs
  obtain ⟨-, ⟨he, -⟩ | ⟨r', hr', ⟨Q, hQ, he⟩, -⟩⟩ := request_tasks hcall hs
  · refine h.apart hs hok.reload hne.1 ⟨.of_eq he, by rw [hheap.runners], hmains, ?_⟩
    exact fun m q hq => ⟨q, hheap.procs.symm ▸ hq, rfl⟩
  obtain rfl := Option.some.inj (hr'.symm.trans h.service)
  obtain rfl := Option.some.inj (hQ.symm.trans hR)
  refine ⟨sound_step h.sound hs, (reloading_step hs hok.reload hne.1).trans h.reloading, hserv,
    ⟨Q, hR', hdirect⟩, ?_, ?_⟩
  · intro t ht hu
    rw [he] at ht
    obtain ht | ht := List.mem_append.mp ht
    · exact h.own t ht hu
    · exact List.mem_singleton.mp ht ▸ rfl
  have hlocked : kind.isLocked = true → MainPhase u r' w' := by
    intro hk
    have hquiet := hok.locked ⟨_, kind, hcall, hk⟩
    cases h.phase with
    | starting i id l₁ l₂ cmd task before after alone none =>
      have hno := hquiet _ (List.mem_of_getElem? task) rfl (.spawnMain cmd) (by simp)
      exact absurd hno (by simp [Op.records])
    | spawned i id m q R l₁ task after alone proc runner mainPid only =>
      have hno := hquiet _ (List.mem_of_getElem? task) rfl (.setChild (some m)) (by simp)
      exact absurd hno (by simp [Op.records])
    | settled starts main =>
      have hold : ∀ (j : TaskId) (t : Task), w'.tasks[j]? = some t → w.tasks[j]? = some t ∨
          t = ⟨kind, u, r', kind.program Q.svc⟩ := by
        intro j t ht
        rw [he] at ht
        exact (getElem?_append_singleton ht).imp_right And.right
      refine .settled (fun j t ht hu hstart => ?_) fun m q hm => ?_
      · obtain ht | rfl := hold j t ht
        · exact starts j t ht hu hstart
        · have hstart' : kind.isStart = true := hstart
          cases kind <;> simp [TaskKind.isLocked, TaskKind.isStart] at hk hstart'
      · obtain ⟨hunique, ⟨N, hN, hholds⟩, htends⟩ := main m q (hmains m q hm)
        refine ⟨fun m' q' hm' => hunique m' q' (hmains m' q' hm'),
          ⟨N, hheap.runners.symm ▸ hN, hholds⟩, fun j t ht hu => ?_⟩
        obtain ht | rfl := hold j t ht
        · exact htends j t ht hu
        · exact tends_program hk Q.svc m q.pid
  cases hkind : kind with
  | stop id | restart id | reload id => exact hlocked (hkind ▸ rfl)
  | start id =>
    subst hkind
    obtain ⟨hrest, hno⟩ := hok.start ⟨_, _, hcall, rfl⟩
    exact phase_of_start hdirect he hrest fun m q hm => hno m q (hmains m q hm)
  | supervise =>
    subst hkind
    cases l <;> simp [Label.call] at hcall

/-! ## A step of a task of the unit -/

/-- What such a step leaves, unless it ends a restart. -/
structure Taken (u : UnitName) (r : RunnerId) (i : TaskId) (t : Task) (reply : Reply)
    (w w' : World) : Prop where
  task : w'.tasks[i]? = some { t with ops := reply.ops }
  others : ∀ (j : TaskId) (s : Task), w'.tasks[j]? = some s → s.unit = u → j ≠ i →
    w.tasks[j]? = some s ∨ .supervise ∈ reply.acts ∧
      ∃ svc, s = ⟨.supervise, u, r, TaskKind.supervise.program svc⟩
  runner : w'.runners[r]? = some reply.runner
  mains : (∀ pid, .spawn pid true ∉ reply.acts) → ∀ m q, MainOf w' u m q → MainOf w u m q

theorem taken_task {t : Task} {resp : Response} {op : Op} {rest : List Op} {R : Runner}
    {reply : Reply} (ht : w.tasks[i]? = some t) (hu : t.unit = u) (hr : t.runner = r)
    (hops : t.ops = op :: rest) (hR : w.runners[t.runner]? = some R) (hne : op ≠ .respawn)
    (hreply : op.run w.procs (w.lock = .free) t.kind R rest resp = some reply) :
    Taken u r i t reply w (reply.acts.foldl (fun w a => w.act t a) { w with
      runners := w.runners.set t.runner reply.runner
      tasks := w.tasks.set i { t with ops := reply.ops }
      lock := w.lockAfter i reply.ops }) := by
  have hlt := (List.getElem?_eq_some_iff.mp ht).1
  have hacts : ∀ a ∈ reply.acts, a ≠ .respawn := by
    rintro a ha rfl
    cases Op.run_does hreply _ ha with
    | respawn => exact hne rfl
  have htasks := foldl_act_inv (t := t) (P := fun v : World =>
      v.tasks[i]? = some { t with ops := reply.ops } ∧
      ∀ (j : TaskId) (s : Task), v.tasks[j]? = some s → s.unit = u → j ≠ i →
        w.tasks[j]? = some s ∨ .supervise ∈ reply.acts ∧
          ∃ svc, s = ⟨.supervise, u, r, TaskKind.supervise.program svc⟩)
    (fun v a (ha : a ∈ reply.acts) hv => ?_) (w := { w with
      runners := w.runners.set t.runner reply.runner
      tasks := w.tasks.set i { t with ops := reply.ops }
      lock := w.lockAfter i reply.ops }) ⟨List.getElem?_set_self hlt, fun j s hj _ hij =>
        Or.inl ((List.getElem?_set_ne hij.symm).symm.trans hj)⟩
  · refine ⟨htasks.1, htasks.2, ?_, fun hno m q hm => ?_⟩
    · rw [foldl_act_runners, ← hr]
      exact List.getElem?_set_self (List.getElem?_eq_some_iff.mp hR).1
    · exact mainOf_of_procs (mainOf_foldl_act (fun _ => hno) hm) rfl
  · obtain he | ⟨rfl, Q, -, he⟩ | ⟨rfl, -⟩ := act_tasks v t a
    · rw [he]
      exact hv
    · rw [he]
      refine ⟨(List.getElem?_append_left (List.getElem?_eq_some_iff.mp hv.1).1).trans hv.1, ?_⟩
      intro j s hj hsu hij
      obtain hold | ⟨-, rfl⟩ := getElem?_append_singleton hj
      · exact hv.2 j s hold hsu hij
      · exact Or.inr ⟨ha, Q.svc, by rw [hu, hr]⟩
    · exact absurd rfl (hacts _ ha)

/-- Only spawners spawn main processes. -/
theorem no_main_spawn {procs : List Proc} {free : Bool} {kind : TaskKind} {R : Runner}
    {rest : List Op} {resp : Response} {op : Op} {reply : Reply} (hop : op.records = false)
    (hreply : op.run procs free kind R rest resp = some reply) :
    ∀ pid, .spawn pid true ∉ reply.acts := by
  intro pid ha
  cases Op.run_does hreply _ ha with
  | spawnMain cmd _ | spawnForking cmd _ => exact absurd hop (by simp [Op.records])

/-- A task that is no start spawns none. -/
theorem not_records_of_kind (hw : Sound w) {t : Task} {op : Op} {rest : List Op} (ht : t ∈ w.tasks)
    (hops : t.ops = op :: rest) (hk : t.kind.isStart = false) : op.records = false := by
  have hne : t.ops ≠ [] := by
    rw [hops]
    simp
  have hprog : t.kind.job.isSome = true → Program t.kind (op :: rest) :=
    fun hj => hops ▸ (hw.shaped t ht hj).resolve_left hne
  cases hkind : t.kind with
  | start id =>
    rw [hkind] at hk
    exact absurd hk (by simp [TaskKind.isStart])
  | supervise =>
    have hsup := hw.supervised t ht hkind op (hops ▸ List.mem_cons_self)
    cases op <;> first | rfl | exact absurd hsup (by simp [Op.ofSupervisor])
  | stop id | restart id | reload id =>
    rw [hkind] at hprog
    cases hprog rfl with
    | last hlast => cases op <;> first | rfl | exact absurd hlast (by simp [Op.isLast])
    | cons hinner _ =>
      cases op with
      | spawnMain c | spawnForking c =>
        exact absurd hinner (by simp [Op.isInner, Op.ofStop, Op.isCommon])
      | setChild c =>
        cases c with
        | none => rfl
        | some c => exact absurd hinner (by simp [Op.isInner, Op.ofStop, Op.isCommon])
      | _ => rfl

variable {t : Task} {reply : Reply}

theorem Taken.alone (h : Taken u r i t reply w w') (halone : Alone u i w)
    (hno : .supervise ∉ reply.acts) : Alone u i w' := by
  intro j s hj hij hu
  obtain hold | ⟨ha, -⟩ := h.others j s hj hu hij
  · exact halone j s hold hij hu
  · exact absurd ha hno

/-- No process, and what is left of the starts keeps to the one there was. -/
theorem settled_of_none (hno : NoMain u w) (hstarts : StartsKeep u w) : MainPhase u r w :=
  .settled hstarts fun m q hm => absurd hm (hno m q)

/-- The start that is alone keeps to its process. -/
theorem Taken.starts (h : Taken u r i t reply w w') (halone : Alone u i w)
    (hops : ∀ o ∈ reply.ops, o.Keeps fun _ => True) : StartsKeep u w' := by
  intro j s hj hu hk
  by_cases hij : j = i
  · subst hij
    obtain rfl := Option.some.inj (h.task.symm.trans hj)
    exact hops
  · obtain hold | ⟨-, svc, rfl⟩ := h.others j s hj hu hij
    · rw [halone j s hold hij hu]
      simp
    · exact absurd hk (by simp [TaskKind.isStart])

/-- Nobody is supervised before the end of a start. -/
theorem no_supervise {procs : List Proc} {free : Bool} {kind : TaskKind} {R : Runner}
    {rest : List Op} {resp : Response} {op : Op}
    (hop : op.isPlain = true ∨ op.records = true)
    (hreply : op.run procs free kind R rest resp = some reply) : .supervise ∉ reply.acts := by
  intro ha
  cases Op.run_does hreply _ ha with
  | supervise o s _ => exact absurd hop (by simp [Op.isPlain, Op.records])

/-- A start that is about to spawn its main process, -/
theorem MainPhase.starting_task {id : JobId} {l l' rest : List Op} {cmd : ExecCommand}
    {resp : Response} {op : Op} {R : Runner} (ht : t.kind = .start id) (hu : t.unit = u) (hr : t.runner = r)
    (hops : op :: rest = l ++ .spawnMain cmd :: l') (hl : ∀ o ∈ l, o.isPlain = true)
    (hl' : ∀ o ∈ l', o.Keeps fun _ => False) (halone : Alone u i w) (hnone : NoMain u w)
    (htaken : Taken u r i t reply w w')
    (hprocs : ∀ pid, reply.acts = [.spawn pid true] →
      w'.procs = w.procs ++ [⟨pid, u, true, true, true⟩])
    (hreply : op.run w.procs (w.lock = .free) t.kind R rest resp = some reply) :
    MainPhase u r w' := by
  have hkeeps : ∀ o : Op, (o.Keeps fun _ => False) → o.Keeps fun _ => True :=
    fun o ho => ho.imp fun _ hf => hf.elim
  cases l with
  | nil =>
    obtain ⟨rfl, rfl⟩ := List.cons.inj hops
    obtain ⟨pid, -, rfl⟩ | ⟨l, hleaves, rfl⟩ := Op.runSpawnMain_cases hreply
    · -- the process is there, and its handle still to be kept
      have hp := hprocs pid rfl
      refine .spawned i id w.procs.length ⟨pid, u, true, true, true⟩ _ rest ?_ hl'
        (htaken.alone halone (by simp)) (hp ▸ List.getElem?_concat_length) htaken.runner rfl ?_
      · rw [htaken.task, ht, hu, hr]
      · intro m' q' hm
        have hproc := hm.proc
        rw [hp] at hproc
        obtain hold | ⟨he, -⟩ := getElem?_append_singleton hproc
        · exact absurd ⟨hold, hm.unit, hm.main, hm.alive⟩ (hnone m' q')
        · exact he
    · have hno : NoMain u w' := fun m q hm => hnone m q (htaken.mains (by simp) m q hm)
      refine settled_of_none hno (htaken.starts halone fun o ho => ?_)
      cases hleaves with
      | rest => exact hkeeps o (hl' o ho)
      | ret out => exact Op.keeps_of_closing (closing_returnOps _ _ o ho)
      | fail k out =>
        obtain ho | ho := List.mem_append.mp ho
        · exact Op.keeps_of_plain (plain_failure k o ho)
        · exact Op.keeps_of_closing (closing_returnOps _ _ o ho)
  | cons o l =>
    obtain ⟨rfl, rfl⟩ := List.cons.inj hops
    have hplain := hl op List.mem_cons_self
    have hkeep : op.Keeps fun _ => True := Op.keeps_of_plain hplain
    have hrec := hkeep.not_records
    have hno : NoMain u w' :=
      fun m q hm => hnone m q (htaken.mains (no_main_spawn hrec hreply) m q hm)
    obtain ⟨-, -, ⟨front, hfront, he⟩ | hall⟩ := Op.run_plain hplain hreply
    · refine .starting i id (front ++ l) l' cmd ?_ (fun x hx => ?_) hl'
        (htaken.alone halone (no_supervise (Or.inl hplain) hreply)) hno
      · rw [htaken.task, he, ht, hu, hr, List.append_assoc]
        rfl
      · exact (List.mem_append.mp hx).elim (hfront x) fun hx => hl x (List.mem_cons_of_mem op hx)
    · exact settled_of_none hno (htaken.starts halone fun o ho =>
        (hall o ho).elim Op.keeps_of_plain Op.keeps_of_closing)

/-- and one that keeps its handle. -/
theorem MainPhase.spawned_task {l rest : List Op} {resp : Response} {op : Op} {R : Runner}
    (hops : op :: rest = .setChild (some m) :: l) (hl : ∀ o ∈ l, o.Keeps fun _ => False)
    (halone : Alone u i w) (hq : w.procs[m]? = some q) (hpid : R.mainPid = some q.pid)
    (honly : ∀ m' q', MainOf w u m' q' → m' = m) (htaken : Taken u r i t reply w w')
    (hreply : op.run w.procs (w.lock = .free) t.kind R rest resp = some reply) :
    MainPhase u r w' := by
  obtain ⟨rfl, rfl⟩ := List.cons.inj hops
  simp only [Op.run] at hreply
  split at hreply
  · exact absurd hreply (by simp)
  obtain rfl := Option.some.inj hreply
  have hmains := htaken.mains (by simp)
  refine .settled (htaken.starts halone fun o ho => (hl o ho).imp fun _ hf => hf.elim)
    fun m' q' hm => ?_
  obtain rfl := honly m' q' (hmains m' q' hm)
  obtain rfl := Option.some.inj (hq.symm.trans (hmains m' q' hm).proc)
  refine ⟨fun m'' q'' hm'' => honly m'' q'' (hmains m'' q'' hm''),
    ⟨_, htaken.runner, hpid, fun c hc => (Option.some.inj hc).symm⟩, fun j s hj hu => ?_⟩
  by_cases hij : j = i
  · subst hij
    obtain rfl := Option.some.inj (htaken.task.symm.trans hj)
    exact .keeps _ fun o ho => (hl o ho).imp fun _ hf => hf.elim
  · obtain hold | ⟨-, svc, rfl⟩ := htaken.others j s hj hu hij
    · rw [halone j s hold hij hu]
      exact .minds _ (.ended _)
    · exact .minds _ (minds_program _ _ svc)

/-- **A step beside a process that is recorded**, or with none there. -/
theorem MainPhase.settled_task {rest : List Op} {resp : Response} {op : Op} {R : Runner}
    (hw : Sound w) (ht : w.tasks[i]? = some t) (hu : t.unit = u) (hops : t.ops = op :: rest)
    (hr : t.runner = r) (hR : w.runners[t.runner]? = some R)
    (hstarts : StartsKeep u w) (hmain : ∀ m q, MainOf w u m q → Tended u r m q.pid w)
    (hok : Orderly u w (.task i resp)) (htaken : Taken u r i t reply w w')
    (hreply : op.run w.procs (w.lock = .free) t.kind R rest resp = some reply) :
    MainPhase u r w' := by
  have hmem := List.mem_of_getElem? ht
  have hkeep : t.kind.isStart = true → ∀ o ∈ op :: rest, o.Keeps fun _ => True :=
    fun hk => hops ▸ hstarts i t ht hu hk
  have hrec : op.records = false := by
    cases hk : t.kind.isStart with
    | true => exact (hkeep hk op List.mem_cons_self).not_records
    | false => exact not_records_of_kind hw hmem hops hk
  have hmains := htaken.mains (no_main_spawn hrec hreply)
  refine .settled (fun j s hj hsu hk => ?_) fun m q hm => ?_
  · by_cases hij : j = i
    · subst hij
      obtain rfl := Option.some.inj (htaken.task.symm.trans hj)
      exact (Op.run_keeps (hkeep hk) (fun _ _ _ _ _ => trivial) hreply).ops
    · obtain hold | ⟨-, svc, rfl⟩ := htaken.others j s hj hsu hij
      · exact hstarts j s hold hsu hk
      · exact absurd hk (by simp [TaskKind.isStart])
  · have hm₀ := hmains m q hm
    obtain ⟨hunique, ⟨Q, hQ, hholds⟩, htends⟩ := hmain m q hm₀
    obtain rfl := Option.some.inj ((hr ▸ hR : w.runners[r]? = some R).symm.trans hQ)
    have hwait : givesUp R resp op = false := by
      by_contra hgive
      exact hok.wait i resp t op rest R rfl ht hu hops hR (by simpa using hgive) m q hm₀
    have hmsg : ∀ buf p, op = .recv → resp = .datagram buf →
        (NotifyMessage.parse (buf.take 4096)).mainPid = some p → p = q.pid := by
      rintro buf p rfl rfl hp
      have hnamed := hok.names i buf t rest R p rfl ht hu hops hR hp
      exact Option.some.inj (hnamed.symm.trans hholds.mainPid)
    obtain ⟨hholds', htends'⟩ | hgone | hgone :=
      Op.run_tends (hops ▸ htends i t ht hu) hholds hmsg hwait hreply
    · refine ⟨fun m' q' hm' => hunique m' q' (hmains m' q' hm'), ⟨_, htaken.runner, hholds'⟩,
        fun j s hj hsu => ?_⟩
      by_cases hij : j = i
      · subst hij
        obtain rfl := Option.some.inj (htaken.task.symm.trans hj)
        exact htends'
      · obtain hold | ⟨-, svc, rfl⟩ := htaken.others j s hj hsu hij
        · exact htends j s hold hsu
        · exact .minds _ (minds_program _ _ svc)
    · exact absurd hm₀.lives (not_lives_of_exited hgone)
    · exact absurd hm₀.lives (not_lives_of_pidGone hgone hm₀.proc rfl)

/-- Only a restart ends so. -/
theorem restart_of_respawn (hw : Sound w) {rest : List Op} (ht : t ∈ w.tasks)
    (hops : t.ops = .respawn :: rest) : t.kind.isRestart = true ∧ rest = [] := by
  have hprog : t.kind.job.isSome = true → t.kind.isRestart = true ∧ rest = [] := by
    intro hj
    obtain hnil | hp := hw.shaped t ht hj
    · exact absurd (hops.symm.trans hnil) (by simp)
    rw [hops] at hp
    cases hp with
    | last hlast => cases hk : t.kind <;> simp [hk, Op.isLast, TaskKind.isRestart] at hlast ⊢
    | cons hinner _ =>
      cases hk : t.kind <;> simp [hk, Op.isInner, Op.ofStart, Op.ofStop, Op.isCommon] at hinner
  cases hk : t.kind with
  | supervise =>
    have hsup := hw.supervised t ht hk .respawn (hops ▸ List.mem_cons_self)
    exact absurd hsup (by simp [Op.ofSupervisor])
  | start id | stop id | restart id | reload id => exact hk ▸ hprog (by rw [hk]; rfl)

/-- **The end of a restart** starts the unit. -/
theorem OneMain.respawn (h : OneMain u r w) {resp : Response} {rest : List Op}
    (ht : w.tasks[i]? = some t) (hu : t.unit = u) (hops : t.ops = .respawn :: rest)
    (hok : Orderly u w (.task i resp)) (hs : w.step (.task i resp) = some w') :
    OneMain u r w' := by
  have hmem := List.mem_of_getElem? ht
  obtain ⟨halone, hno⟩ := hok.respawn i resp t rest rfl ht hu hops
  obtain ⟨R, hR, hdirect⟩ := h.direct
  obtain ⟨t', op, rest', Q, reply, ht', hops', hQ, hreply, hw'⟩ := runTask_cases hs
  obtain rfl := Option.some.inj (ht.symm.trans ht')
  obtain ⟨rfl, rfl⟩ := List.cons.inj (hops.symm.trans hops')
  have hr := h.own t hmem hu
  obtain rfl := Option.some.inj (hR.symm.trans (hr ▸ hQ))
  obtain ⟨-, hnil⟩ := restart_of_respawn h.sound hmem hops
  subst hnil
  obtain rfl := Option.some.inj hreply
  obtain ⟨v, hv⟩ : ∃ v : World, v = { w with
      runners := w.runners.set t.runner R
      tasks := w.tasks.set i { t with ops := [] }
      lock := w.lockAfter i [] } := ⟨_, rfl⟩
  have hact : w' = v.act t .respawn := hv ▸ hw'
  have hrest : ∀ s ∈ v.tasks, s.unit = u → s.ops = [] := by
    intro s hmem' hsu
    obtain ⟨j, hj⟩ := List.getElem?_of_mem hmem'
    rw [hv] at hj
    by_cases hij : i = j
    · subst hij
      obtain rfl := Option.some.inj
        ((List.getElem?_set_self (List.getElem?_eq_some_iff.mp ht).1).symm.trans hj)
      rfl
    · exact halone j s ((List.getElem?_set_ne hij).symm.trans hj) (Ne.symm hij) hsu
  have hown : ∀ s ∈ v.tasks, s.unit = u → s.runner = r := by
    rw [hv]
    exact forall_mem_set (P := fun s : Task => s.unit = u → s.runner = r) h.own fun _ => hr
  have hRv : v.runners[r]? = some R := by
    rw [hv, ← hr]
    exact List.getElem?_set_self (List.getElem?_eq_some_iff.mp hQ).1
  have hRw' : w'.runners[r]? = some R := by rw [hact, act_runners, hRv]
  have hno' : NoMain u w' := by
    intro m q hm
    rw [hact] at hm
    obtain hm | ⟨he, -⟩ := mainOf_act hm
    · exact hno m q (mainOf_of_procs hm (hv ▸ rfl))
    · exact absurd he (by simp)
  have hserv : v.mgr.services.get? u = some r := hv ▸ h.service
  suffices hphase : (∀ s ∈ w'.tasks, s.unit = u → s.runner = r) ∧ MainPhase u r w' from
    ⟨sound_step h.sound hs, (reloading_step hs (by simp) (by simp)).trans h.reloading,
      (sameRegistry_step hs (by simp) (by simp)).services ▸ h.service, ⟨R, hRw', hdirect⟩,
      hphase.1, hphase.2⟩
  obtain he | ⟨he, -⟩ | ⟨-, id, r', -, hr', Q, hQ', he⟩ := act_tasks v t .respawn
  · rw [← hact] at he
    refine ⟨he ▸ hown, settled_of_none hno' fun j s hj hsu _ => ?_⟩
    rw [he] at hj
    rw [hrest s (List.mem_of_getElem? hj) hsu]
    simp
  · exact absurd he (by simp)
  · rw [hu] at hr' he
    obtain rfl := Option.some.inj (hr'.symm.trans hserv)
    obtain rfl := Option.some.inj (hQ'.symm.trans hRv)
    rw [← hact] at he
    refine ⟨?_, phase_of_start hdirect he hrest hno'⟩
    intro s hs' hsu
    rw [he] at hs'
    obtain hs' | hs' := List.mem_append.mp hs'
    · exact hown s hs' hsu
    · exact List.mem_singleton.mp hs' ▸ rfl

/-- **A step of a task of the unit.** -/
theorem OneMain.task (h : OneMain u r w) {resp : Response} (ht : w.tasks[i]? = some t)
    (hu : t.unit = u) (hok : Orderly u w (.task i resp)) (hs : w.step (.task i resp) = some w') :
    OneMain u r w' := by
  have hmem := List.mem_of_getElem? ht
  have hr := h.own t hmem hu
  have hsound := sound_step h.sound hs
  have hre := (reloading_step hs (by simp) (by simp)).trans h.reloading
  have hserv := (sameRegistry_step hs (by simp) (by simp)).services ▸ h.service
  have hs₀ := hs
  obtain ⟨t', op, rest, R, reply, ht', hops, hR, hreply, rfl⟩ := runTask_cases hs
  obtain rfl := Option.some.inj (ht.symm.trans ht')
  by_cases hop : op = .respawn
  · subst hop
    exact h.respawn ht hu hops hok hs₀
  have htaken := taken_task (w := w) ht hu hr hops hR hop hreply
  have hne : t.ops ≠ [] := by
    rw [hops]
    simp
  refine ⟨hsound, hre, hserv, ?_, ?_, ?_⟩
  · obtain ⟨Q, hQ, hdirect⟩ := h.direct
    obtain rfl := Option.some.inj ((hr ▸ hR : w.runners[r]? = some R).symm.trans hQ)
    exact ⟨_, htaken.runner, (Op.run_sameUnit hreply).2.symm ▸ hdirect⟩
  · intro s hmem' hsu
    obtain ⟨j, hj⟩ := List.getElem?_of_mem hmem'
    by_cases hij : j = i
    · subst hij
      obtain rfl := Option.some.inj (htaken.task.symm.trans hj)
      exact hr
    · obtain hold | ⟨-, svc, rfl⟩ := htaken.others j s hj hsu hij
      · exact h.own s (List.mem_of_getElem? hold) hsu
      · rfl
  · cases h.phase with
    | starting j id l l' cmd task before after alone none =>
      obtain rfl : i = j := by
        by_contra hij
        exact hne (alone i t ht hij hu)
      obtain rfl := Option.some.inj (ht.symm.trans task)
      refine MainPhase.starting_task rfl rfl rfl hops.symm before after alone none htaken ?_ hreply
      intro pid hacts
      rw [hacts]
      rfl
    | spawned j id m q Q l task after alone proc runner mainPid only =>
      obtain rfl : i = j := by
        by_contra hij
        exact hne (alone i t ht hij hu)
      obtain rfl := Option.some.inj (ht.symm.trans task)
      obtain rfl := Option.some.inj (hR.symm.trans runner)
      exact MainPhase.spawned_task hops.symm after alone proc mainPid only htaken hreply
    | settled starts main =>
      exact MainPhase.settled_task h.sound ht hu hops hr hR starts main hok htaken hreply

/-- **Every orderly step** keeps the unit at one main process. -/
theorem OneMain.step (h : OneMain u r w) (hok : Orderly u w l) (hs : w.step l = some w') :
    OneMain u r w' := by
  have hrequest : ∀ {kind n}, l.call w.mgr.allocJobId.1 = some (kind, n) → l ≠ .reloadStep →
      OneMain u r w' := by
    intro kind n hcall hr
    by_cases hn : n = u
    · subst hn
      exact h.request hcall hok hs
    · exact h.apart hs hok.reload hr (apart_request hn hcall hs)
  cases l with
  | startUnit n | stopUnit n | restartUnit n | reloadUnit n | fire timer n =>
    exact hrequest rfl (by simp)
  | daemonReload disk => exact absurd rfl (hok.reload disk)
  | reloadStep =>
    have hre := h.reloading
    obtain ⟨hlock, -⟩ | ⟨op, rest, hlock, -⟩ := reloadStep_cases hs
    · exact absurd ((reloading_of_lock hlock).symm.trans hre) (by simp)
    · exact absurd ((reloading_of_lock hlock).symm.trans hre) (by simp)
  | exit p =>
    have hs₀ := hs
    obtain rfl := Option.some.inj hs
    exact h.apart hs₀ (by simp) (by simp) apart_exit
  | task i resp =>
    obtain ⟨t, -, -, -, -, ht, -⟩ := runTask_cases hs
    by_cases hu : t.unit = u
    · exact h.task ht hu hok hs
    · exact h.apart hs (by simp) (by simp) (apart_task h ht hu hs)

theorem Booted.oneMain (h : w.Booted) {R : Runner} (hserv : w.mgr.services.get? u = some r)
    (hR : w.runners[r]? = some R) (hd : directChild R.svc.serviceType = true) : OneMain u r w := by
  refine ⟨h.sound, reloading_of_free h.lock, hserv, ⟨R, hR, hd⟩, ?_, ?_⟩
  · intro t ht
    rw [h.tasks] at ht
    exact absurd ht (by simp)
  · refine settled_of_none (fun m q hm => ?_) fun j t ht => ?_
    · have hproc := hm.proc
      rw [h.procs] at hproc
      exact absurd hproc (by simp)
    · rw [h.tasks] at ht
      exact absurd ht (by simp)

/-- **A unit has one main process at most**, and its runner the pid, in every state of an
orderly run. -/
theorem tracked_run {w₀ : World} {ls : List Label} {R : Runner} (hb : w₀.Booted)
    (hserv : w₀.mgr.services.get? u = some r) (hR : w₀.runners[r]? = some R)
    (hd : directChild R.svc.serviceType = true) (hok : Along step (Orderly u) w₀ ls)
    (hrun : runs step w₀ ls = some w) : Tracked u w :=
  (runs_inv (P := OneMain u r) (fun _ _ _ hx hl hs => hx.step hl hs)
    (hb.oneMain hserv hR hd) hok hrun).tracked

/-! ## A unit that is started twice -/

/-- A step of a task asks for nothing, if there is no restart and no bad news. -/
theorem orderly_task (hw : Sound w) (hidle : Idle TaskKind.isRestart u w) {resp : Response}
    (hresp : resp = .ok ∨ ∃ pid, resp = .spawned pid) : Orderly u w (.task i resp) := by
  have hcalls : ∀ p, ¬ Label.asks p u (.task i resp) := by
    rintro p ⟨_, _, hcall, -⟩
    exact absurd hcall (by simp [Label.call])
  refine ⟨by simp, fun ha => absurd ha (hcalls _), ?_, fun ha => absurd ha (hcalls _), ?_, ?_⟩
  · intro j _ t rest _ ht hu hops
    have hmem := List.mem_of_getElem? ht
    obtain ⟨hk, -⟩ := restart_of_respawn hw hmem hops
    exact absurd (hops.symm.trans (hidle t hmem (Task.isCall_iff.mpr ⟨hu, hk⟩))) (by simp)
  · intro j resp' t op rest R he _ _ _ _ hgive
    obtain ⟨-, rfl⟩ := Label.task.inj he
    obtain rfl | ⟨pid, rfl⟩ := hresp <;> cases op <;> exact absurd hgive (by simp [givesUp])
  · intro j buf t rest R p he
    obtain ⟨-, rfl⟩ := Label.task.inj he
    obtain he | ⟨pid, he⟩ := hresp <;> exact absurd he (by simp)

theorem tracked_runningRun : ∃ w, runs step (single { execStart := [cmd] }) runningRun = some w ∧
    Tracked serviceName w := by
  obtain ⟨w, hw, -⟩ := up_runningRun
  refine ⟨w, hw, tracked_run (booted_single _) rfl rfl rfl ?_ hw⟩
  have hw₀ := hw
  obtain ⟨w₁, hs, -⟩ := runs_cons.mp hw₀
  have hboot : Orderly serviceName (single { execStart := [cmd] }) (.startUnit serviceName) := by
    refine ⟨by simp, fun _ => ⟨by simp [single], fun m q hm => absurd hm.proc (by simp [single])⟩,
      by simp, ?_, by simp, by simp⟩
    rintro ⟨_, _, hcall, hk⟩
    obtain ⟨rfl, -⟩ := Prod.mk.inj (Option.some.inj hcall)
    exact absurd hk (by simp [TaskKind.isLocked])
  have hsound : Sound (single { execStart := [cmd] }) := (booted_single _).sound
  have hidle : Idle TaskKind.isRestart serviceName w₁ := by
    refine (staysIdle_step onRequest_isRestart (by simp [Idle, single]) ?_ hs).idle
    rintro ⟨_, _, hcall, hk⟩
    obtain ⟨rfl, -⟩ := Prod.mk.inj (Option.some.inj hcall)
    exact absurd hk (by simp [TaskKind.isRestart])
  refine Along.cons hboot hs (Along.of_inv
    (P := fun w => Sound w ∧ Idle TaskKind.isRestart serviceName w)
    (A := fun _ l => ∃ i resp, l = .task i resp ∧ (resp = .ok ∨ ∃ pid, resp = .spawned pid)) ?_ ?_
    ⟨sound_step hsound hs, hidle⟩ (Along.of_labels ?_))
  · rintro v l v' ⟨hv, hvidle⟩ ⟨i, resp, rfl, -⟩ hs
    refine ⟨sound_step hv hs, (staysIdle_step onRequest_isRestart hvidle ?_ hs).idle⟩
    rintro ⟨_, _, hcall, -⟩
    exact absurd hcall (by simp [Label.call])
  · rintro v l ⟨hv, hvidle⟩ ⟨i, resp, rfl, hresp⟩
    exact orderly_task hv hvidle hresp
  · simp

/-- A second start spawns a second process, while the first one is there. -/
theorem not_all_tracked : ¬ ∀ (w₀ w : World) (ls : List Label) (u : UnitName) (r : RunnerId)
    (R : Runner), w₀.Booted → w₀.mgr.services.get? u = some r → w₀.runners[r]? = some R →
    directChild R.svc.serviceType = true → (∀ disk, .daemonReload disk ∉ ls) →
    runs step w₀ ls = some w → Tracked u w := by
  intro h
  have hrun : (runs step (single { execStart := [cmd] }) (runningRun ++ .startUnit serviceName ::
      List.replicate 5 (.task 2 .ok) ++ [.task 2 (.spawned 6)])).map procs =
      some [⟨5, serviceName, true, true, true⟩, ⟨6, serviceName, true, true, true⟩] := rfl
  obtain ⟨w, hw, hprocs⟩ := Option.map_eq_some_iff.mp hrun
  have hmain : ∀ m q, w.procs[m]? = some q → q ∈ w.procs → MainOf w serviceName m q := by
    intro m q hq hmem
    rw [hprocs] at hmem
    simp only [List.mem_cons, List.not_mem_nil, or_false] at hmem
    obtain rfl | rfl := hmem <;> exact ⟨hq, rfl, rfl, rfl⟩
  have htracked := h _ w _ serviceName 0 _ (booted_single { execStart := [cmd] }) rfl rfl rfl
    (by simp [runningRun]) hw
  have hfirst : w.procs[0]? = some ⟨5, serviceName, true, true, true⟩ := by rw [hprocs]; rfl
  have hsecond : w.procs[1]? = some ⟨6, serviceName, true, true, true⟩ := by rw [hprocs]; rfl
  have hone := (htracked 0 _ (hmain 0 _ hfirst (List.mem_of_getElem? hfirst))).1 1 _
    (hmain 1 _ hsecond (List.mem_of_getElem? hsecond))
  exact absurd hone (by simp)

end World

end Systeml.Runtime
