import Systeml.Runtime.Registry
import Systeml.Runtime.Shape

/-!
# Runners and the tasks that drive them

What a step puts in flight (`request_tasks`, `act_tasks`), and what holds between the
manager, its runners and the tasks in every state: each service and each task has a
runner of its unit, and a stop, a restart or a reload in flight holds the lock of the
manager, so that the runner it drives is the one in `services` (`wired_step`).
-/

namespace Systeml.Runtime

open Systeml.Lib Systeml.Unit Systeml.Deps

/-- The call holds the lock of the manager to its end. -/
def TaskKind.isLocked : TaskKind → Bool
  | .stop _ | .restart _ | .reload _ => true
  | .start _ | .supervise => false

/-- The call that a request asks for, and the unit it is for. -/
def Label.call (id : JobId) : Label → Option (TaskKind × UnitName)
  | .startUnit u | .fire _ u => some (.start id, u)
  | .stopUnit u => some (.stop id, u)
  | .restartUnit u => some (.restart id, u)
  | .reloadUnit u => some (.reload id, u)
  | .daemonReload _ | .reloadStep | .task .. | .exit _ => none

namespace World

variable {w w' : World}

/-- The runner is there, and for the unit. -/
def HasRunner (w : World) (r : RunnerId) (u : UnitName) : Prop :=
  ∃ R : Runner, w.runners[r]? = some R ∧ R.unit = u

theorem HasRunner.kept {r : RunnerId} {u : UnitName} (h : HasRunner w r u)
    (hk : KeepsRunners w w') : HasRunner w' r u := by
  obtain ⟨R, hR, hu⟩ := h
  obtain ⟨R', hR', hu', -⟩ := hk r R hR
  exact ⟨R', hR', hu'.trans hu⟩

/-! ## What is put in flight -/

/-- Nothing was put in flight, or the program of this call on a runner. -/
def Spawns (w w' : World) (kind : TaskKind) (u : UnitName) (r : RunnerId) : Prop :=
  ∃ R : Runner, w.runners[r]? = some R ∧ w'.tasks = w.tasks ++ [⟨kind, u, r, kind.program R.svc⟩]

theorem spawnTask_tasks (w : World) (k : TaskKind) (u : UnitName) (r : RunnerId) :
    (w.spawnTask k u r).tasks = w.tasks ∨ Spawns w (w.spawnTask k u r) k u r := by
  unfold Spawns spawnTask
  cases h : w.runners[r]? with
  | none => exact Or.inl rfl
  | some R => exact Or.inr ⟨R, rfl, rfl⟩

theorem spawnLocked_tasks (w : World) (k : TaskKind) (u : UnitName) (r : RunnerId)
    (hl : w.lock = .free) :
    ((w.spawnLocked k u r).tasks = w.tasks ∧ (w.spawnLocked k u r).lock = .free) ∨
      (Spawns w (w.spawnLocked k u r) k u r ∧
        (w.spawnLocked k u r).lock = .task w.tasks.length) := by
  unfold Spawns spawnLocked
  cases h : w.runners[r]? with
  | none => exact Or.inl ⟨rfl, hl⟩
  | some R => exact Or.inr ⟨⟨R, rfl, rfl⟩, rfl⟩

theorem stopRunner_some {m : Manager} {u : UnitName} {r : RunnerId}
    (h : stopRunner m u = some r) : m.services.get? u = some r := by
  unfold stopRunner at h
  split at h
  · exact h
  · exact absurd h (by simp)

theorem startUnit_tasks (w : World) (u : UnitName) :
    (w.startUnit u).tasks = w.tasks ∨ ∃ r, w.mgr.services.get? u = some r ∧
      Spawns w (w.startUnit u) (.start w.mgr.allocJobId.1) u r := by
  simp only [startUnit, Manager.startUnit]
  by_cases hk : u.kind = .service
  · simp only [if_pos hk, Manager.spawnServiceStart, Manager.newJob_services]
    cases hs : w.mgr.services.get? u with
    | none => exact Or.inl rfl
    | some r =>
      have hweak : (w.mgr.newJob u .start).2.selfWeak = w.mgr.selfWeak := rfl
      simp only [hweak]
      cases w.mgr.selfWeak with
      | false => exact Or.inl rfl
      | true =>
        cases spawnTask_tasks
            { w with mgr := (w.mgr.newJob u .start).2.markState u .activating .start }
            (.start w.mgr.allocJobId.1) u r with
        | inl h => exact Or.inl h
        | inr h => exact Or.inr ⟨r, rfl, h⟩
  · rw [if_neg hk]
    exact Or.inl rfl

/-- **What a request puts in flight**: at most the call it asks for, on the runner of
the unit. -/
theorem request_tasks {l : Label} {kind : TaskKind} {u : UnitName}
    (hl : l.call w.mgr.allocJobId.1 = some (kind, u)) (hs : w.step l = some w') :
    w.lock = .free ∧ ((w'.tasks = w.tasks ∧ w'.lock = .free) ∨
      ∃ r, w.mgr.services.get? u = some r ∧ Spawns w w' kind u r ∧
        w'.lock = if kind.isLocked then .task w.tasks.length else .free) := by
  -- a call under the lock, on the runner that the manager finds
  have hlocked : ∀ (m : Manager) (k : TaskKind) (r : RunnerId), w.lock = .free →
      k.isLocked = true → w.mgr.services.get? u = some r → kind = k →
      (((({ w with mgr := m } : World).spawnLocked k u r).tasks = w.tasks ∧
        (({ w with mgr := m } : World).spawnLocked k u r).lock = .free) ∨
      ∃ q, w.mgr.services.get? u = some q ∧
        Spawns w (({ w with mgr := m } : World).spawnLocked k u r) kind u q ∧
        (({ w with mgr := m } : World).spawnLocked k u r).lock =
          if kind.isLocked then .task w.tasks.length else .free) := by
    intro m k r hfree hk hr hkind
    subst hkind
    cases spawnLocked_tasks { w with mgr := m } kind u r hfree with
    | inl h => exact Or.inl h
    | inr h => exact Or.inr ⟨r, hr, h.1, (if_pos hk).symm ▸ h.2⟩
  cases l with
  | startUnit name =>
    obtain ⟨rfl, rfl⟩ := Prod.mk.inj (Option.some.inj hl)
    obtain ⟨hfree, rfl⟩ := ifFree_eq hs
    refine ⟨hfree, ?_⟩
    have hlock := (startUnit_lock w name).trans hfree
    cases startUnit_tasks w name with
    | inl h => exact Or.inl ⟨h, hlock⟩
    | inr h =>
      obtain ⟨r, hr, h⟩ := h
      exact Or.inr ⟨r, hr, h, hlock⟩
  | fire timer target =>
    obtain ⟨rfl, rfl⟩ := Prod.mk.inj (Option.some.inj hl)
    simp only [step] at hs
    split at hs
    · obtain ⟨hfree, rfl⟩ := ifFree_eq hs
      refine ⟨hfree, ?_⟩
      have hlock := (startUnit_lock { w with mgr := w.mgr.markState timer .active .running }
        target).trans hfree
      have hstart := startUnit_tasks { w with mgr := w.mgr.markState timer .active .running } target
      have hfire : (w.fire timer target).tasks =
          (({ w with mgr := w.mgr.markState timer .active .running } : World).startUnit
            target).tasks ∧ (w.fire timer target).lock =
          (({ w with mgr := w.mgr.markState timer .active .running } : World).startUnit
            target).lock := by
        simp only [fire]
        split <;> exact ⟨rfl, rfl⟩
      unfold Spawns
      rw [hfire.1, hfire.2]
      cases hstart with
      | inl h => exact Or.inl ⟨h, hlock⟩
      | inr h =>
        obtain ⟨r, hr, h⟩ := h
        exact Or.inr ⟨r, hr, h, hlock⟩
    · exact absurd hs (by simp)
  | stopUnit name =>
    obtain ⟨rfl, rfl⟩ := Prod.mk.inj (Option.some.inj hl)
    obtain ⟨hfree, rfl⟩ := ifFree_eq hs
    refine ⟨hfree, ?_⟩
    simp only [stopUnit, Manager.newJob_fst]
    split
    next r hr => exact hlocked (w.mgr.newJob name .stop).2 _ r hfree rfl (stopRunner_some hr) rfl
    next => exact Or.inl ⟨rfl, hfree⟩
  | restartUnit name =>
    obtain ⟨rfl, rfl⟩ := Prod.mk.inj (Option.some.inj hl)
    obtain ⟨hfree, rfl⟩ := ifFree_eq hs
    refine ⟨hfree, ?_⟩
    simp only [restartUnit, Manager.newJob_fst]
    split
    next r hr =>
      exact hlocked (w.mgr.newJob name .restart).2 _ r hfree rfl (stopRunner_some hr) rfl
    next => split <;> exact Or.inl ⟨rfl, hfree⟩
  | reloadUnit name =>
    obtain ⟨rfl, rfl⟩ := Prod.mk.inj (Option.some.inj hl)
    obtain ⟨hfree, rfl⟩ := ifFree_eq hs
    refine ⟨hfree, ?_⟩
    simp only [reloadUnit, Manager.newJob_fst]
    split
    next r hr => exact hlocked (w.mgr.newJob name .reload).2 _ r hfree rfl hr rfl
    next => exact Or.inl ⟨rfl, hfree⟩
  | daemonReload disk | reloadStep | task i resp | exit p =>
    exact absurd hl (by simp [Label.call])

theorem respawn_tasks (w : World) (t : Task) :
    (w.respawn t).tasks = w.tasks ∨ ∃ id r, t.kind = .restart id ∧
      w.mgr.services.get? t.unit = some r ∧ Spawns w (w.respawn t) (.start id) t.unit r := by
  unfold respawn Manager.spawnServiceStart
  cases hs : w.mgr.services.get? t.unit with
  | none => exact Or.inl rfl
  | some r =>
    cases hweak : w.mgr.selfWeak with
    | false => exact Or.inl rfl
    | true =>
      cases hk : t.kind with
      | restart id =>
        cases spawnTask_tasks { w with mgr := w.mgr.markState t.unit .activating .start }
            (.start id) t.unit r with
        | inl h => exact Or.inl h
        | inr h => exact Or.inr ⟨id, r, rfl, rfl, h⟩
      | start id | stop id | reload id | supervise => exact Or.inl rfl

/-- **What an act puts in flight**: a supervisor, or the start of a restart. -/
theorem act_tasks (w : World) (t : Task) (a : Act) :
    (w.act t a).tasks = w.tasks ∨
      (a = .supervise ∧ Spawns w (w.act t a) .supervise t.unit t.runner) ∨
      (a = .respawn ∧ ∃ id r, t.kind = .restart id ∧ w.mgr.services.get? t.unit = some r ∧
        Spawns w (w.act t a) (.start id) t.unit r) := by
  cases a with
  | spawn pid main | kill k | reap p | mark a s => exact Or.inl rfl
  | supervise =>
    simp only [act]
    split
    · cases spawnTask_tasks w .supervise t.unit t.runner with
      | inl h => exact Or.inl h
      | inr h => exact Or.inr (Or.inl ⟨trivial, h⟩)
    · exact Or.inl rfl
  | respawn =>
    cases respawn_tasks w t with
    | inl h => exact Or.inl h
    | inr h => exact Or.inr (Or.inr ⟨rfl, h⟩)
  | jobRemoved o =>
    simp only [act]
    split <;> exact Or.inl rfl

/-- A task changes by its own steps only. -/
theorem task_stays {i : TaskId} {l : Label} {t : Task} (ht : w.tasks[i]? = some t)
    (hl : ∀ resp, l ≠ .task i resp) (hs : w.step l = some w') : w'.tasks[i]? = some t := by
  have happend : ∀ (ts : List Task) (s : Task), ts[i]? = some t → (ts ++ [s])[i]? = some t :=
    fun ts s h => List.getElem?_append_left (List.getElem?_eq_some_iff.mp h).1 ▸ h
  have hrequest : ∀ {kind n}, l.call w.mgr.allocJobId.1 = some (kind, n) →
      w'.tasks[i]? = some t := by
    intro kind n hcall
    obtain ⟨-, ⟨he, -⟩ | ⟨_, -, ⟨_, -, he⟩, -⟩⟩ := request_tasks hcall hs
    · exact he ▸ ht
    · exact he ▸ happend _ _ ht
  cases l with
  | startUnit n | stopUnit n | restartUnit n | reloadUnit n | fire timer n => exact hrequest rfl
  | daemonReload disk =>
    obtain ⟨-, rfl⟩ := ifFree_eq hs
    exact ht
  | reloadStep =>
    obtain ⟨-, rfl⟩ | ⟨op, rest, -, ho⟩ := reloadStep_cases hs
    · exact ht
    · exact reloadOp_tasks ho ▸ ht
  | exit q =>
    obtain rfl := Option.some.inj hs
    exact ht
  | task j resp =>
    obtain ⟨s, op, rest, _, reply, -, -, -, -, rfl⟩ := runTask_cases hs
    have hj : j ≠ i := fun he => hl resp (he ▸ rfl)
    refine foldl_act_inv (P := fun v => v.tasks[i]? = some t) (fun v a _ hv => ?_)
      ((List.getElem?_set_ne hj).trans ht)
    obtain he | ⟨-, _, -, he⟩ | ⟨-, _, _, -, -, _, -, he⟩ := act_tasks v s a
    · exact he ▸ hv
    · exact he ▸ happend _ _ hv
    · exact he ▸ happend _ _ hv

/-! ## The invariant -/

/-- Services, tasks and what a reload has still to install have a runner of their unit,
and calls that hold the lock drive the runner in `services`. -/
structure Wired (w : World) : Prop where
  services : ∀ u r, w.mgr.services.get? u = some r → HasRunner w r u
  installs : ∀ ops, w.reloading = some ops → ∀ u spec st r,
    ReloadOp.install u spec st (some r) ∈ ops → HasRunner w r u
  tasks : ∀ t ∈ w.tasks, HasRunner w t.runner t.unit
  held : ∀ i t, w.tasks[i]? = some t → t.kind.isLocked = true → t.ops ≠ [] →
    w.lock = .task i ∧ w.mgr.services.get? t.unit = some t.runner

/-- With nothing in flight it is enough that each service has its runner. -/
theorem wired_of_idle (hserv : ∀ u r, w.mgr.services.get? u = some r → HasRunner w r u)
    (htasks : w.tasks = []) (hlock : w.lock = .free) : Wired w where
  services := hserv
  installs := by
    intro ops hops
    rw [reloading_of_free hlock] at hops
    exact absurd hops (by simp)
  tasks := by
    rw [htasks]
    simp
  held := by
    intro i t ht
    rw [htasks] at ht
    exact absurd ht (by simp)

/-- With the lock free, no call that holds it is in flight. -/
theorem Wired.ended_of_free (h : Wired w) (hl : w.lock = .free) {i : TaskId} {t : Task}
    (ht : w.tasks[i]? = some t) (hk : t.kind.isLocked = true) : t.ops = [] := by
  by_contra hne
  have hlock := (h.held i t ht hk hne).1
  rw [hl] at hlock
  exact absurd hlock (by simp)

theorem Wired.ended_of_reloading (h : Wired w) {ops : List ReloadOp} (hl : w.reloading = some ops)
    {i : TaskId} {t : Task} (ht : w.tasks[i]? = some t) (hk : t.kind.isLocked = true) :
    t.ops = [] := by
  by_contra hne
  have hlock := (h.held i t ht hk hne).1
  rw [lock_of_reloading hl] at hlock
  exact absurd hlock (by simp)

/-- A task that was appended, or one from before. -/
theorem getElem?_append_singleton {α : Type} {l : List α} {a b : α} {i : Nat}
    (h : (l ++ [a])[i]? = some b) : l[i]? = some b ∨ (i = l.length ∧ b = a) := by
  rcases Nat.lt_or_ge i l.length with hi | hi
  · exact Or.inl (List.getElem?_append_left hi ▸ h)
  · rw [List.getElem?_append_right hi] at h
    obtain ⟨hlt, he⟩ := List.getElem?_eq_some_iff.mp h
    have hi' : i - l.length = 0 := by simpa using hlt
    refine Or.inr ⟨by omega, ?_⟩
    simp only [hi', List.getElem_cons_zero] at he
    exact he.symm

theorem wired_request {l : Label} {kind : TaskKind} {u : UnitName} (h : Wired w)
    (hl : l.call w.mgr.allocJobId.1 = some (kind, u)) (hs : w.step l = some w') : Wired w' := by
  have hreq : (∀ disk, l ≠ .daemonReload disk) ∧ l ≠ .reloadStep := by
    cases l <;> simp [Label.call] at hl ⊢
  have hkeep := keepsRunners_step hs
  have hreg := sameRegistry_step hs hreq.1 hreq.2
  have hre := reloading_step hs hreq.1 hreq.2
  obtain ⟨hfree, htasks⟩ := request_tasks hl hs
  refine ⟨?_, ?_, ?_, ?_⟩
  · intro v r hv
    exact (h.services v r (hreg.services ▸ hv)).kept hkeep
  · intro ops hops
    rw [hre, reloading_of_free hfree] at hops
    exact absurd hops (by simp)
  · intro t ht
    cases htasks with
    | inl hsame => exact (h.tasks t (hsame.1 ▸ ht)).kept hkeep
    | inr hnew =>
      obtain ⟨r, hr, ⟨R, hR, hts⟩, -⟩ := hnew
      rw [hts] at ht
      cases List.mem_append.mp ht with
      | inl ht => exact (h.tasks t ht).kept hkeep
      | inr ht => exact List.mem_singleton.mp ht ▸ (h.services u r hr).kept hkeep
  · intro i t ht hk hne
    cases htasks with
    | inl hsame => exact absurd (h.ended_of_free hfree (hsame.1 ▸ ht) hk) hne
    | inr hnew =>
      obtain ⟨r, hr, ⟨R, hR, hts⟩, hlock⟩ := hnew
      rw [hts] at ht
      cases getElem?_append_singleton ht with
      | inl ht => exact absurd (h.ended_of_free hfree ht hk) hne
      | inr he =>
        obtain ⟨rfl, rfl⟩ := he
        rw [if_pos hk] at hlock
        exact ⟨hlock, hreg.services.symm ▸ hr⟩

theorem wired_act {t : Task} (ht : HasRunner w t.runner t.unit) (h : Wired w) (a : Act) :
    Wired (w.act t a) := by
  have hreg := sameRegistry_act w t a
  have hlock := act_lock w t a
  have hkeep : KeepsRunners w (w.act t a) := keepsRunners_of_eq (act_runners w t a)
  -- what an act puts in flight does not hold the lock
  have htasks : (w.act t a).tasks = w.tasks ∨ ∃ t', HasRunner w t'.runner t'.unit ∧
      t'.kind.isLocked = false ∧ (w.act t a).tasks = w.tasks ++ [t'] := by
    cases act_tasks w t a with
    | inl h => exact Or.inl h
    | inr h' =>
      obtain ⟨-, R, -, hts⟩ | ⟨-, id, r, -, hr, R, -, hts⟩ := h'
      · exact Or.inr ⟨⟨.supervise, t.unit, t.runner, _⟩, ht, rfl, hts⟩
      · exact Or.inr ⟨_, h.services t.unit r hr, rfl, hts⟩
  refine ⟨?_, ?_, ?_, ?_⟩
  · intro v r hv
    exact (h.services v r (hreg.services ▸ hv)).kept hkeep
  · intro ops hops v spec st r hmem
    unfold reloading at hops
    rw [hlock] at hops
    exact (h.installs ops hops v spec st r hmem).kept hkeep
  · intro t' ht'
    cases htasks with
    | inl hsame => exact (h.tasks t' (hsame ▸ ht')).kept hkeep
    | inr hnew =>
      obtain ⟨s, hs, -, hts⟩ := hnew
      rw [hts] at ht'
      cases List.mem_append.mp ht' with
      | inl ht' => exact (h.tasks t' ht').kept hkeep
      | inr ht' => exact List.mem_singleton.mp ht' ▸ hs.kept hkeep
  · intro i t' ht' hk hne
    rw [hlock, hreg.services]
    cases htasks with
    | inl hsame => exact h.held i t' (hsame ▸ ht') hk hne
    | inr hnew =>
      obtain ⟨s, -, hs, hts⟩ := hnew
      rw [hts] at ht'
      cases getElem?_append_singleton ht' with
      | inl ht' => exact h.held i t' ht' hk hne
      | inr he =>
        rw [he.2, hs] at hk
        exact absurd hk (by simp)

/-- A runner, what a task has left and the lock change, before any act. A task that has
ended stays so. -/
theorem wired_set {i : TaskId} {t : Task} {rs : List Runner} {ops : List Op} (h : Wired w)
    (ht : w.tasks[i]? = some t) (hops : ops ≠ [] → t.ops ≠ [])
    (hkeep : KeepsRunners w { w with runners := rs }) :
    Wired { w with
      runners := rs, tasks := w.tasks.set i { t with ops := ops }, lock := w.lockAfter i ops } := by
  have hkeep' : KeepsRunners w { w with
    runners := rs, tasks := w.tasks.set i { t with ops := ops }, lock := w.lockAfter i ops } := hkeep
  refine ⟨?_, ?_, ?_, ?_⟩
  · intro v r hv
    exact (h.services v r hv).kept hkeep'
  · intro pending hpending v spec st r hmem
    have hlock : w.reloading = some pending := by
      unfold reloading at hpending ⊢
      have hpend : (w.lockAfter i ops).pending = some pending := hpending
      unfold lockAfter at hpend
      split at hpend
      · exact absurd hpend (by simp [Lock.pending])
      · exact hpend
    exact (h.installs pending hlock v spec st r hmem).kept hkeep'
  · intro t' ht'
    exact forall_mem_set (P := fun s => HasRunner w s.runner s.unit) h.tasks
      (h.tasks t (List.mem_of_getElem? ht)) t' ht' |>.kept hkeep'
  · intro j t' ht' hk hne
    show w.lockAfter i ops = _ ∧ _
    unfold lockAfter
    by_cases hj : i = j
    · subst hj
      have hlt := (List.getElem?_eq_some_iff.mp ht).1
      obtain rfl := Option.some.inj ((List.getElem?_set_self hlt).symm.trans ht')
      have hheld := h.held i t ht hk (hops hne)
      rw [if_neg fun hc => hne hc.1]
      exact hheld
    · have hold : w.tasks[j]? = some t' := (List.getElem?_set_ne hj).symm.trans ht'
      have hheld := h.held j t' hold hk hne
      refine ⟨?_, hheld.2⟩
      rw [if_neg, hheld.1]
      intro hc
      rw [hheld.1] at hc
      exact hj (Lock.task.inj hc.2).symm

theorem wired_task {i : TaskId} {resp : Response} (h : Wired w)
    (hs : w.runTask i resp = some w') : Wired w' := by
  obtain ⟨t, op, rest, R, reply, ht, hops, hR, hreply, rfl⟩ := runTask_cases hs
  have hrunner := h.tasks t (List.mem_of_getElem? ht)
  have hkeep : KeepsRunners w { w with
      runners := w.runners.set t.runner reply.runner
      tasks := w.tasks.set i { t with ops := reply.ops }
      lock := w.lockAfter i reply.ops } := keepsRunners_set hR (Op.run_sameUnit hreply)
  -- the step itself, before its acts
  have hstep := wired_set h ht (fun _ : reply.ops ≠ [] => by simp [hops]) hkeep
  exact (foldl_act_inv (P := fun v => Wired v ∧ HasRunner v t.runner t.unit)
    (fun v a _ hv => ⟨wired_act hv.2 hv.1 a, hv.2.kept (keepsRunners_of_eq (act_runners v t a))⟩)
    ⟨hstep, hrunner.kept hkeep⟩).1

theorem wired_reloadOp {rest : List ReloadOp} {op : ReloadOp} (h : Wired w)
    (hl : w.lock = .reload (op :: rest)) (hs : w.reloadOp rest op = some w') : Wired w' := by
  have hkeep := keepsRunners_reloadOp hs
  have htasks := reloadOp_tasks hs
  have hpend := h.installs _ (reloading_of_lock hl)
  have hended : ∀ {i : TaskId} {t : Task}, w.tasks[i]? = some t → t.kind.isLocked = true →
      t.ops = [] := fun ht hk => h.ended_of_reloading (reloading_of_lock hl) ht hk
  -- the services and the rest of the reload
  have hmaps : (∀ v r, w'.mgr.services.get? v = some r → HasRunner w' r v) ∧
      ∀ ops, w'.reloading = some ops → ∀ v spec st r,
        ReloadOp.install v spec st (some r) ∈ ops → HasRunner w' r v := by
    have hrest : ∀ v spec st r, ReloadOp.install v spec st (some r) ∈ rest → HasRunner w' r v :=
      fun v spec st r hmem => (hpend v spec st r (List.mem_cons_of_mem _ hmem)).kept hkeep
    have hserv : w'.mgr.services = w.mgr.services →
        ∀ v r, w'.mgr.services.get? v = some r → HasRunner w' r v :=
      fun he v r hv => (h.services v r (he ▸ hv)).kept hkeep
    have hcopy : w'.lock = .reload rest → ∀ ops, w'.reloading = some ops → ∀ v spec st r,
        ReloadOp.install v spec st (some r) ∈ ops → HasRunner w' r v := by
      intro hlock ops hops
      obtain rfl := Option.some.inj ((reloading_of_lock hlock).symm.trans hops)
      exact hrest
    cases op with
    | unit name spec =>
      simp only [reloadOp] at hs
      split at hs
      next svc hk =>
        obtain rfl := Option.some.inj hs
        refine ⟨hserv rfl, ?_⟩
        intro ops hops v spec' st r hmem
        obtain rfl := Option.some.inj ((reloading_of_lock rfl).symm.trans hops)
        cases List.mem_append.mp hmem with
        | inl hmem =>
          split at hmem
          · exact absurd hmem (by simp)
          · exact absurd hmem (by simp)
        | inr hmem =>
          cases List.mem_cons.mp hmem with
          | inl he =>
            obtain ⟨rfl, -, -, hr⟩ := ReloadOp.install.inj he
            obtain rfl := Option.some.inj hr
            exact ⟨{ unit := v, svc := svc }, List.getElem?_concat_length, rfl⟩
          | inr hmem => exact hrest v spec' st r hmem
      next =>
        obtain rfl := Option.some.inj hs
        refine ⟨hserv rfl, ?_⟩
        intro ops hops v spec' st r hmem
        obtain rfl := Option.some.inj ((reloading_of_lock rfl).symm.trans hops)
        cases List.mem_cons.mp hmem with
        | inl he => exact absurd (ReloadOp.install.inj he).2.2.2 (by simp)
        | inr hmem => exact hrest v spec' st r hmem
    | copyState new old | copySub new old | copyPid new old | moveChild new old =>
      obtain ⟨_, _, _, _, _, he, -⟩ | ⟨-, hmgr, hlock⟩ | ⟨_, _, _, _, he, -⟩ := reloadOp_cases hs
      · exact absurd he (by simp)
      · exact ⟨hserv (by rw [hmgr]), hcopy hlock⟩
      · exact absurd he (by simp)
    | install name spec st new =>
      obtain rfl := Option.some.inj hs
      refine ⟨?_, hcopy rfl⟩
      intro v r hv
      cases new with
      | none => exact (h.services v r hv).kept hkeep
      | some q =>
        have hv' : (w.mgr.services.insert name q).get? v = some r := hv
        by_cases hn : v = name
        · subst hn
          rw [IndexMap.get?_insert_self] at hv'
          obtain rfl := Option.some.inj hv'
          exact (hpend v spec st q List.mem_cons_self).kept hkeep
        · rw [IndexMap.get?_insert_ne hn] at hv'
          exact (h.services v r hv').kept hkeep
  refine ⟨hmaps.1, hmaps.2, ?_, ?_⟩
  · intro t ht
    exact (h.tasks t (htasks ▸ ht)).kept hkeep
  · intro i t ht hk hne
    exact absurd (hended (htasks ▸ ht) hk) hne

/-- **Every step keeps the wiring.** -/
theorem wired_step {l : Label} (h : Wired w) (hs : w.step l = some w') : Wired w' := by
  cases l with
  | startUnit u | stopUnit u | restartUnit u | reloadUnit u | fire timer u =>
    exact wired_request h rfl hs
  | task i resp => exact wired_task h hs
  | exit p =>
    obtain rfl := Option.some.inj hs
    exact ⟨h.services, h.installs, h.tasks, h.held⟩
  | daemonReload disk =>
    obtain ⟨hl, rfl⟩ := ifFree_eq hs
    refine ⟨?_, ?_, h.tasks, ?_⟩
    · intro u r hu
      exact h.services u r (foldl_dropUnit_services _ _ hu)
    · intro ops hops u spec st r hmem
      obtain rfl := Option.some.inj ((reloading_of_lock rfl).symm.trans hops)
      obtain ⟨e, -, he⟩ := List.mem_map.mp hmem
      exact absurd he (by simp)
    · intro i t ht hk hne
      exact absurd (h.ended_of_free hl ht hk) hne
  | reloadStep =>
    obtain ⟨hl, rfl⟩ | ⟨op, rest, hl, ho⟩ := reloadStep_cases hs
    · refine ⟨h.services, ?_, h.tasks, ?_⟩
      · intro ops hops
        exact absurd hops (by simp [reloading, Lock.pending])
      · intro i t ht hk hne
        exact absurd (h.ended_of_reloading (reloading_of_lock hl) ht hk) hne
    · exact wired_reloadOp h hl ho

/-- What every state of a run satisfies. -/
structure Sound (w : World) : Prop where
  wired : Wired w
  shaped : Shaped w
  supervised : Supervised w

theorem sound_of_idle (hserv : ∀ u r, w.mgr.services.get? u = some r → HasRunner w r u)
    (htasks : w.tasks = []) (hlock : w.lock = .free) : Sound w where
  wired := wired_of_idle hserv htasks hlock
  shaped := by
    intro t ht
    rw [htasks] at ht
    exact absurd ht (by simp)
  supervised := by
    intro t ht
    rw [htasks] at ht
    exact absurd ht (by simp)

theorem Booted.sound (h : w.Booted) : Sound w := sound_of_idle h.services h.tasks h.lock

theorem sound_step {l : Label} (h : Sound w) (hs : w.step l = some w') : Sound w' :=
  ⟨wired_step h.wired hs, shaped_step h.shaped hs, supervised_step h.supervised hs⟩

theorem sound_run {ls : List Label} {v : World} (h : Sound w) (hrun : runs step w ls = some v) :
    Sound v :=
  runs_inv (A := fun _ _ => True) (fun _ _ _ hx _ hs => sound_step hx hs) h
    (Along.of_labels fun _ _ => trivial) hrun

end World

end Systeml.Runtime
