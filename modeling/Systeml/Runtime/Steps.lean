import Systeml.Runtime.World
import Systeml.Runtime.Ops

/-!
# What one step of the daemon can do

`runTask_cases` takes the step of a task apart, and `foldl_act_inv` carries a
property over its acts. A property of tasks that all programs and all replies have
is kept by every step (`forall_tasks_step`), and so is one of runners
(`forall_runners_step`).
-/

namespace Systeml.Runtime

open Systeml.Lib Systeml.Unit Systeml.Deps

/-- Elements of a list with one replaced. -/
theorem forall_mem_set {α : Type} {l : List α} {i : Nat} {a : α} {P : α → Prop}
    (h : ∀ x ∈ l, P x) (ha : P a) : ∀ x ∈ l.set i a, P x := fun x hx =>
  (List.mem_or_eq_of_mem_set hx).elim (h x) fun e => e ▸ ha

theorem forall_mem_append {α : Type} {l : List α} {a : α} {P : α → Prop} (h : ∀ x ∈ l, P x)
    (ha : P a) : ∀ x ∈ l ++ [a], P x := fun x hx => by
  rcases List.mem_append.mp hx with hx | hx
  · exact h x hx
  · exact List.mem_singleton.mp hx ▸ ha

theorem forall_mem_modify {α : Type} {l : List α} {i : Nat} {f : α → α} {P : α → Prop}
    (h : ∀ x ∈ l, P x) (hf : ∀ x, P x → P (f x)) : ∀ x ∈ l.modify i f, P x := fun x hx => by
  obtain ⟨j, hj⟩ := List.getElem?_of_mem hx
  rw [List.getElem?_modify] at hj
  cases hl : l[j]? with
  | none =>
    rw [hl] at hj
    exact absurd hj (by simp)
  | some y =>
    rw [hl] at hj
    have hy := h y (List.mem_of_getElem? hl)
    simp only [Option.map_eq_map, Option.map_some, Option.some.injEq] at hj
    subst hj
    split
    · exact hf y hy
    · exact hy

theorem getElem?_modify_some {α : Type} {l : List α} {i j : Nat} {f : α → α} {a : α}
    (h : l[i]? = some a) : (l.modify j f)[i]? = some (if j = i then f a else a) := by
  rw [List.getElem?_modify, h]
  rfl

/-- The service of the examples. -/
def serviceName : UnitName := .plain "s".toList .service

/-- Its command. -/
def cmd : ExecCommand := ⟨"/bin/s".toList, ["/bin/s".toList], "/bin/s".toList, {}⟩

namespace World

variable {w w' : World}

/-- The step of a task, taken apart. -/
theorem runTask_cases {i : TaskId} {resp : Response} (h : w.runTask i resp = some w') :
    ∃ t op rest R reply, w.tasks[i]? = some t ∧ t.ops = op :: rest ∧
      w.runners[t.runner]? = some R ∧
      Op.run w.procs (w.lock = .free) t.kind R rest resp op = some reply ∧
      w' = reply.acts.foldl (fun w a => w.act t a) { w with
        runners := w.runners.set t.runner reply.runner
        tasks := w.tasks.set i { t with ops := reply.ops }
        lock := w.lockAfter i reply.ops } := by
  unfold runTask at h
  split at h
  next => exact absurd h (by simp)
  next t ht =>
    split at h
    next op rest R hops hR =>
      split at h
      next => exact absurd h (by simp)
      next reply hrun =>
        exact ⟨t, op, rest, R, reply, ht, hops, hR, hrun, (Option.some.inj h).symm⟩
    next => exact absurd h (by simp)

/-- What every act keeps, all of them keep. -/
theorem foldl_act_inv {P : World → Prop} {t : Task} {acts : List Act}
    (hstep : ∀ w a, a ∈ acts → P w → P (w.act t a)) (h : P w) :
    P (acts.foldl (fun w a => w.act t a) w) := by
  induction acts generalizing w with
  | nil => exact h
  | cons a acts ih =>
    exact ih (fun w b hb => hstep w b (List.mem_cons_of_mem a hb)) (hstep w a List.mem_cons_self h)

theorem ifFree_eq {v : World} (h : w.ifFree v = some w') : w.lock = .free ∧ w' = v := by
  unfold ifFree at h
  split at h
  next hl => exact ⟨hl, (Option.some.inj h).symm⟩
  next => exact absurd h (by simp)

/-! ## Tasks -/

/-- A property of tasks that every program has at its beginning. -/
def Fresh (P : Task → Prop) : Prop :=
  ∀ (kind : TaskKind) (unit : UnitName) (r : RunnerId) (svc : ServiceUnit),
    P ⟨kind, unit, r, kind.program svc⟩

theorem forall_tasks_spawnTask {P : Task → Prop} (hfresh : Fresh P) (h : ∀ t ∈ w.tasks, P t)
    (k : TaskKind) (u : UnitName) (r : RunnerId) : ∀ t ∈ (w.spawnTask k u r).tasks, P t := by
  unfold spawnTask
  split
  · exact forall_mem_append h (hfresh _ _ _ _)
  · exact h

theorem forall_tasks_spawnLocked {P : Task → Prop} (hfresh : Fresh P) (h : ∀ t ∈ w.tasks, P t)
    (k : TaskKind) (u : UnitName) (r : RunnerId) : ∀ t ∈ (w.spawnLocked k u r).tasks, P t := by
  unfold spawnLocked
  split
  · exact forall_mem_append h (hfresh _ _ _ _)
  · exact h

theorem forall_tasks_startUnit {P : Task → Prop} (hfresh : Fresh P) (h : ∀ t ∈ w.tasks, P t)
    (name : UnitName) : ∀ t ∈ (w.startUnit name).tasks, P t := by
  simp only [startUnit]
  split
  · exact forall_tasks_spawnTask hfresh (by exact h) _ _ _
  · exact h

theorem forall_tasks_act {P : Task → Prop} (hfresh : Fresh P) (h : ∀ t ∈ w.tasks, P t) (t : Task)
    (a : Act) : ∀ t' ∈ (w.act t a).tasks, P t' := by
  unfold act
  cases a with
  | spawn pid main | kill k | reap p | mark a s => exact h
  | supervise =>
    simp only
    split
    · exact forall_tasks_spawnTask hfresh (by exact h) _ _ _
    · exact h
  | respawn =>
    simp only [respawn]
    split
    · exact forall_tasks_spawnTask hfresh (by exact h) _ _ _
    · exact h
  | jobRemoved o =>
    simp only
    split <;> exact h

theorem reloadOp_tasks {rest : List ReloadOp} {op : ReloadOp} (h : w.reloadOp rest op = some w') :
    w'.tasks = w.tasks := by
  cases op with
  | unit name spec =>
    simp only [reloadOp] at h
    split at h <;> exact Option.some.inj h ▸ rfl
  | copyState new old | copySub new old | copyPid new old =>
    simp only [reloadOp] at h
    split at h
    · exact Option.some.inj h ▸ rfl
    · exact absurd h (by simp)
  | moveChild new old =>
    simp only [reloadOp] at h
    split at h
    · split at h
      · exact absurd h (by simp)
      · exact Option.some.inj h ▸ rfl
    · exact absurd h (by simp)
  | install name spec st new => exact Option.some.inj h ▸ rfl

theorem reloadStep_cases (h : w.reloadStep = some w') :
    (w.lock = .reload [] ∧ w' = { w with lock := .free }) ∨
      ∃ op rest, w.lock = .reload (op :: rest) ∧ w.reloadOp rest op = some w' := by
  unfold reloadStep at h
  split at h
  next hl => exact Or.inl ⟨hl, (Option.some.inj h).symm⟩
  next op rest hl => exact Or.inr ⟨op, rest, hl, h⟩
  next => exact absurd h (by simp)

/-- **A property of tasks** that programs begin with and steps keep is kept. -/
theorem forall_tasks_step {P : Task → Prop} (hfresh : Fresh P) {l : Label}
    (hrun : ∀ i resp t op rest R reply, l = .task i resp → w.tasks[i]? = some t →
      t.ops = op :: rest → w.runners[t.runner]? = some R →
      Op.run w.procs (w.lock = .free) t.kind R rest resp op = some reply →
      P t → P { t with ops := reply.ops })
    (h : ∀ t ∈ w.tasks, P t) (hs : w.step l = some w') : ∀ t ∈ w'.tasks, P t := by
  cases l with
  | startUnit name =>
    obtain ⟨-, rfl⟩ := ifFree_eq hs
    exact forall_tasks_startUnit hfresh h name
  | stopUnit name =>
    obtain ⟨-, rfl⟩ := ifFree_eq hs
    simp only [stopUnit]
    split
    · exact forall_tasks_spawnLocked hfresh (by exact h) _ _ _
    · exact h
  | restartUnit name =>
    obtain ⟨-, rfl⟩ := ifFree_eq hs
    simp only [restartUnit]
    split
    · exact forall_tasks_spawnLocked hfresh (by exact h) _ _ _
    · split <;> exact h
  | reloadUnit name =>
    obtain ⟨-, rfl⟩ := ifFree_eq hs
    simp only [reloadUnit]
    split
    · exact forall_tasks_spawnLocked hfresh (by exact h) _ _ _
    · exact h
  | fire timer target =>
    simp only [step] at hs
    split at hs
    · obtain ⟨-, rfl⟩ := ifFree_eq hs
      have hstart := forall_tasks_startUnit hfresh
        (w := { w with mgr := w.mgr.markState timer .active .running }) h target
      simp only [fire]
      split <;> exact hstart
    · exact absurd hs (by simp)
  | daemonReload disk =>
    obtain ⟨-, rfl⟩ := ifFree_eq hs
    exact h
  | reloadStep =>
    rcases reloadStep_cases hs with ⟨-, rfl⟩ | ⟨op, rest, -, ho⟩
    · exact h
    · exact reloadOp_tasks ho ▸ h
  | task i resp =>
    obtain ⟨t, op, rest, R, reply, ht, hops, hR, hreply, rfl⟩ := runTask_cases hs
    refine foldl_act_inv (P := fun w => ∀ t ∈ w.tasks, P t)
      (fun w a _ hw => forall_tasks_act hfresh hw t a) ?_
    exact forall_mem_set h (hrun i resp t op rest R reply rfl ht hops hR hreply
      (h t (List.mem_of_getElem? ht)))
  | exit p =>
    obtain rfl := Option.some.inj hs
    exact h

/-! ## Runners, processes and signals -/

/-- Runners, processes and signals are the same. -/
structure SameHeap (w w' : World) : Prop where
  runners : w'.runners = w.runners
  procs : w'.procs = w.procs
  kills : w'.kills = w.kills

theorem sameHeap_manager (w : World) (m : Manager) : SameHeap w { w with mgr := m } :=
  ⟨rfl, rfl, rfl⟩

theorem sameHeap_spawnTask (w : World) (k : TaskKind) (u : UnitName) (r : RunnerId) :
    SameHeap w (w.spawnTask k u r) := by
  unfold spawnTask
  split <;> exact ⟨rfl, rfl, rfl⟩

theorem sameHeap_spawnLocked (w : World) (k : TaskKind) (u : UnitName) (r : RunnerId) :
    SameHeap w (w.spawnLocked k u r) := by
  unfold spawnLocked
  split <;> exact ⟨rfl, rfl, rfl⟩

theorem SameHeap.trans {v : World} (h : SameHeap w w') (h' : SameHeap w' v) : SameHeap w v :=
  ⟨h'.runners.trans h.runners, h'.procs.trans h.procs, h'.kills.trans h.kills⟩

theorem sameHeap_startUnit (w : World) (name : UnitName) : SameHeap w (w.startUnit name) := by
  simp only [startUnit]
  split
  · exact (sameHeap_manager w _).trans (sameHeap_spawnTask _ _ _ _)
  · exact sameHeap_manager w _

/-- Requests to the manager do not touch them. -/
theorem request_sameHeap {l : Label} (hs : w.step l = some w') (hl : l ≠ .reloadStep)
    (ht : ∀ i resp, l ≠ .task i resp) (he : ∀ p, l ≠ .exit p) : SameHeap w w' := by
  cases l with
  | startUnit name =>
    obtain ⟨-, rfl⟩ := ifFree_eq hs
    exact sameHeap_startUnit w name
  | stopUnit name =>
    obtain ⟨-, rfl⟩ := ifFree_eq hs
    simp only [stopUnit]
    split
    · exact (sameHeap_manager w _).trans (sameHeap_spawnLocked _ _ _ _)
    · exact sameHeap_manager w _
  | restartUnit name =>
    obtain ⟨-, rfl⟩ := ifFree_eq hs
    simp only [restartUnit]
    split
    · exact (sameHeap_manager w _).trans (sameHeap_spawnLocked _ _ _ _)
    · split <;> exact sameHeap_manager w _
  | reloadUnit name =>
    obtain ⟨-, rfl⟩ := ifFree_eq hs
    simp only [reloadUnit]
    split
    · exact (sameHeap_manager w _).trans (sameHeap_spawnLocked _ _ _ _)
    · exact sameHeap_manager w _
  | fire timer target =>
    simp only [step] at hs
    split at hs
    · obtain ⟨-, rfl⟩ := ifFree_eq hs
      have hstart := (sameHeap_manager w _).trans
        (sameHeap_startUnit { w with mgr := w.mgr.markState timer .active .running } target)
      simp only [fire]
      split
      · exact hstart
      · exact hstart.trans (sameHeap_manager _ _)
    · exact absurd hs (by simp)
  | daemonReload disk =>
    obtain ⟨-, rfl⟩ := ifFree_eq hs
    exact ⟨rfl, rfl, rfl⟩
  | reloadStep => exact absurd rfl hl
  | task i resp => exact absurd rfl (ht i resp)
  | exit p => exact absurd rfl (he p)

theorem act_runners (w : World) (t : Task) (a : Act) : (w.act t a).runners = w.runners := by
  unfold act
  cases a with
  | spawn pid main | kill k | reap p | mark a s => rfl
  | supervise =>
    simp only
    split
    · exact (sameHeap_spawnTask _ _ _ _).runners
    · rfl
  | respawn =>
    simp only [respawn]
    split
    · exact (sameHeap_spawnTask _ _ _ _).runners
    · rfl
  | jobRemoved o =>
    simp only
    split <;> rfl

theorem foldl_act_runners (t : Task) (acts : List Act) (w : World) :
    (acts.foldl (fun w a => w.act t a) w).runners = w.runners :=
  foldl_act_inv (P := fun v => v.runners = w.runners) (fun v a _ hv => (act_runners v t a).trans hv)
    rfl

/-- An act signals only what it says. -/
theorem act_kills (w : World) (t : Task) (a : Act) :
    (w.act t a).kills = w.kills ∨ ∃ k, a = .kill k ∧ (w.act t a).kills = w.kills ++ [k] := by
  unfold act
  cases a with
  | kill k => exact Or.inr ⟨k, rfl, rfl⟩
  | spawn pid main | reap p | mark a s => exact Or.inl rfl
  | supervise =>
    simp only
    split
    · exact Or.inl (sameHeap_spawnTask _ _ _ _).kills
    · exact Or.inl rfl
  | respawn =>
    simp only [respawn]
    split
    · exact Or.inl (sameHeap_spawnTask _ _ _ _).kills
    · exact Or.inl rfl
  | jobRemoved o =>
    simp only
    split <;> exact Or.inl rfl

theorem reloadOp_kills {rest : List ReloadOp} {op : ReloadOp} (h : w.reloadOp rest op = some w') :
    w'.procs = w.procs ∧ w'.kills = w.kills := by
  cases op with
  | unit name spec =>
    simp only [reloadOp] at h
    split at h <;> exact Option.some.inj h ▸ ⟨rfl, rfl⟩
  | copyState new old | copySub new old | copyPid new old =>
    simp only [reloadOp] at h
    split at h
    · exact Option.some.inj h ▸ ⟨rfl, rfl⟩
    · exact absurd h (by simp)
  | moveChild new old =>
    simp only [reloadOp] at h
    split at h
    · split at h
      · exact absurd h (by simp)
      · exact Option.some.inj h ▸ ⟨rfl, rfl⟩
    · exact absurd h (by simp)
  | install name spec st new => exact Option.some.inj h ▸ ⟨rfl, rfl⟩

/-- **A property of signals** that steps of tasks keep is kept. -/
theorem forall_kills_step {P : Kill → Prop} {l : Label}
    (hrun : ∀ i resp t op rest R reply, l = .task i resp → w.tasks[i]? = some t →
      t.ops = op :: rest → w.runners[t.runner]? = some R →
      Op.run w.procs (w.lock = .free) t.kind R rest resp op = some reply →
      ∀ k, .kill k ∈ reply.acts → P k)
    (h : ∀ k ∈ w.kills, P k) (hs : w.step l = some w') : ∀ k ∈ w'.kills, P k := by
  cases l with
  | task i resp =>
    obtain ⟨t, op, rest, R, reply, ht, hops, hR, hreply, rfl⟩ := runTask_cases hs
    have hacts := hrun i resp t op rest R reply rfl ht hops hR hreply
    refine foldl_act_inv (P := fun w => ∀ k ∈ w.kills, P k) (fun v a ha hv => ?_) h
    rcases act_kills v t a with he | ⟨k, rfl, he⟩ <;> rw [he]
    · exact hv
    · exact forall_mem_append hv (hacts k ha)
  | reloadStep =>
    rcases reloadStep_cases hs with ⟨-, rfl⟩ | ⟨op, rest, -, ho⟩
    · exact h
    · exact (reloadOp_kills ho).2 ▸ h
  | exit p => exact Option.some.inj hs ▸ h
  | startUnit _ | stopUnit _ | restartUnit _ | reloadUnit _ | fire _ _ | daemonReload _ =>
    exact (request_sameHeap hs (by simp) (by simp) (by simp)).kills ▸ h

/-- A property of runners that what a reload copies does not break. -/
structure Copied (P : Runner → Prop) : Prop where
  new : ∀ u svc, P { unit := u, svc := svc }
  state : ∀ n o, P n → P o → P { n with state := o.state }
  sub : ∀ n o, P n → P o → P { n with sub := o.sub }
  mainPid : ∀ n o, P n → P o → P { n with mainPid := o.mainPid }
  child : ∀ n o, P n → P o → P { n with child := o.child }
  childless : ∀ n, P n → P { n with child := none }

theorem forall_runners_reloadOp {P : Runner → Prop} (hc : Copied P) {rest : List ReloadOp}
    {op : ReloadOp} (h : ∀ R ∈ w.runners, P R) (hs : w.reloadOp rest op = some w') :
    ∀ R ∈ w'.runners, P R := by
  cases op with
  | unit name spec =>
    simp only [reloadOp] at hs
    split at hs
    · exact Option.some.inj hs ▸ forall_mem_append h (hc.new _ _)
    · exact Option.some.inj hs ▸ h
  | copyState new old =>
    simp only [reloadOp] at hs
    split at hs
    next o ho =>
      exact Option.some.inj hs ▸
        forall_mem_modify h fun n hn => hc.state n o hn (h o (List.mem_of_getElem? ho))
    next => exact absurd hs (by simp)
  | copySub new old =>
    simp only [reloadOp] at hs
    split at hs
    next o ho =>
      exact Option.some.inj hs ▸
        forall_mem_modify h fun n hn => hc.sub n o hn (h o (List.mem_of_getElem? ho))
    next => exact absurd hs (by simp)
  | copyPid new old =>
    simp only [reloadOp] at hs
    split at hs
    next o ho =>
      exact Option.some.inj hs ▸
        forall_mem_modify h fun n hn => hc.mainPid n o hn (h o (List.mem_of_getElem? ho))
    next => exact absurd hs (by simp)
  | moveChild new old =>
    simp only [reloadOp] at hs
    split at hs
    next o ho =>
      split at hs
      · exact absurd hs (by simp)
      · exact Option.some.inj hs ▸
          forall_mem_modify (forall_mem_modify h fun n hn => hc.childless n hn)
            fun n hn => hc.child n o hn (h o (List.mem_of_getElem? ho))
    next => exact absurd hs (by simp)
  | install name spec st new => exact Option.some.inj hs ▸ h

/-- **A property of runners** that steps keep and copies do not break is kept. -/
theorem forall_runners_step {P : Runner → Prop} (hc : Copied P) {l : Label}
    (hrun : ∀ i resp t op rest R reply, l = .task i resp → w.tasks[i]? = some t →
      t.ops = op :: rest → w.runners[t.runner]? = some R →
      Op.run w.procs (w.lock = .free) t.kind R rest resp op = some reply → P R → P reply.runner)
    (h : ∀ R ∈ w.runners, P R) (hs : w.step l = some w') : ∀ R ∈ w'.runners, P R := by
  by_cases hl : l = .reloadStep
  · subst hl
    rcases reloadStep_cases hs with ⟨-, rfl⟩ | ⟨op, rest, -, ho⟩
    · exact h
    · exact forall_runners_reloadOp hc h ho
  · by_cases ht : ∃ i resp, l = .task i resp
    · obtain ⟨i, resp, rfl⟩ := ht
      obtain ⟨t, op, rest, R, reply, ht, hops, hR, hreply, rfl⟩ := runTask_cases hs
      rw [foldl_act_runners]
      exact forall_mem_set h (hrun i resp t op rest R reply rfl ht hops hR hreply
        (h R (List.mem_of_getElem? hR)))
    · by_cases he : ∃ p, l = .exit p
      · obtain ⟨p, rfl⟩ := he
        exact Option.some.inj hs ▸ h
      · exact (request_sameHeap hs hl (fun i resp he => ht ⟨i, resp, he⟩)
          (fun p hp => he ⟨p, hp⟩)).runners ▸ h

/-! ## After boot -/

/-- The daemon after it has loaded its units, before any request: nothing in
flight, no process, idle runners, one for each service. -/
structure Booted (w : World) : Prop where
  runners : ∀ R ∈ w.runners, R = { unit := R.unit, svc := R.svc }
  services : ∀ u r, w.mgr.services.get? u = some r → ∃ R, w.runners[r]? = some R ∧ R.unit = u
  procs : w.procs = []
  tasks : w.tasks = []
  lock : w.lock = .free
  kills : w.kills = []

/-- A daemon with one service. -/
def single (svc : ServiceUnit) : World where
  mgr := {
    units := .ofList [(serviceName, { name := serviceName, kind := .service svc })]
    status := .ofList [(serviceName, { unit := some serviceName, load := .loaded, sub := .dead })]
    services := .ofList [(serviceName, 0)] }
  runners := [{ unit := serviceName, svc := svc }]

theorem booted_single (svc : ServiceUnit) : (single svc).Booted := by
  refine ⟨fun R hR => ?_, fun u r h => ?_, rfl, rfl, rfl, rfl⟩
  · obtain rfl := List.mem_singleton.mp hR
    rfl
  · have hmem := IndexMap.mem_entries.mpr h
    obtain ⟨rfl, rfl⟩ := Prod.mk.inj (List.mem_singleton.mp hmem)
    exact ⟨_, rfl, rfl⟩

end World

end Systeml.Runtime
