import Systeml.Runtime.Steps

/-!
# What a step leaves alone

Only a reload changes which units and runners the manager knows: every other step
keeps the registry (`sameRegistry_step`). While a reload holds the lock of the
manager, no other step takes it or works on it (`reloading_step`). Runners keep
their unit and their definition, and none is ever freed (`runner_step`).
-/

namespace Systeml.Runtime

open Systeml.Lib Systeml.Unit Systeml.Deps

/-- Reports of a unit as new or removed. -/
def UnitEvent.ofRegistry : UnitEvent → Bool
  | .unitNew _ | .unitRemoved _ => true
  | .jobNew .. | .jobRemoved .. | .stateChanged .. => false

/-- What is left of a reload that holds the lock. -/
def Lock.pending : Lock → Option (List ReloadOp)
  | .reload ops => some ops
  | .free | .task _ => none

namespace World

variable {w w' : World}

/-! ## The registry -/

/-- The manager knows the same units and runners, has the same handle, and reported
no unit as new or removed. -/
structure SameRegistry (w w' : World) : Prop where
  units : w'.mgr.units = w.mgr.units
  services : w'.mgr.services = w.mgr.services
  keys : w'.mgr.status.keys = w.mgr.status.keys
  selfWeak : w'.mgr.selfWeak = w.mgr.selfWeak
  reports : ∀ e : UnitEvent, e.ofRegistry = true →
    w'.mgr.events.count e = w.mgr.events.count e

theorem SameRegistry.refl (w : World) : SameRegistry w w := ⟨rfl, rfl, rfl, rfl, fun _ _ => rfl⟩

theorem SameRegistry.trans {v : World} (h : SameRegistry w w') (h' : SameRegistry w' v) :
    SameRegistry w v :=
  ⟨h'.units.trans h.units, h'.services.trans h.services, h'.keys.trans h.keys,
    h'.selfWeak.trans h.selfWeak, fun e he => (h'.reports e he).trans (h.reports e he)⟩

theorem sameRegistry_of_mgr (h : w'.mgr = w.mgr) : SameRegistry w w' :=
  ⟨h ▸ rfl, h ▸ rfl, h ▸ rfl, h ▸ rfl, fun _ _ => h ▸ rfl⟩

theorem count_emit_ne (m : Manager) {e e' : UnitEvent} (h : e' ≠ e) :
    (m.emit e').events.count e = m.events.count e := by
  show (m.events ++ [e']).count e = _
  rw [List.count_append, List.count_singleton, if_neg (by simpa using h), Nat.add_zero]

theorem count_emit (m : Manager) {e e' : UnitEvent} (he : e.ofRegistry = true)
    (he' : e'.ofRegistry = false) : (m.emit e').events.count e = m.events.count e := by
  refine count_emit_ne m ?_
  rintro rfl
  rw [he] at he'
  exact absurd he' (by simp)

/-- Marking a unit, in a manager with the registry of another. -/
theorem sameRegistry_mark {m : Manager} (h : SameRegistry w { w with mgr := m }) (n : UnitName)
    (a : ActiveState) (s : SubState) : SameRegistry w { w with mgr := m.markState n a s } :=
  ⟨h.units, h.services, (IndexMap.keys_modify _ _ _).trans h.keys, h.selfWeak,
    fun e he => (count_emit _ he rfl).trans (h.reports e he)⟩

/-- Neither events nor job ids belong to it. -/
theorem sameRegistry_emit {m : Manager} (h : SameRegistry w { w with mgr := m }) {e' : UnitEvent}
    (he' : e'.ofRegistry = false) : SameRegistry w { w with mgr := m.emit e' } :=
  ⟨h.units, h.services, h.keys, h.selfWeak,
    fun e he => (count_emit m he he').trans (h.reports e he)⟩

theorem sameRegistry_newJob (w : World) (n : UnitName) (k : JobType) :
    SameRegistry w { w with mgr := (w.mgr.newJob n k).2 } :=
  ⟨rfl, rfl, rfl, rfl, fun _ he => count_emit w.mgr.allocJobId.2 he rfl⟩

theorem spawnTask_mgr (w : World) (k : TaskKind) (u : UnitName) (r : RunnerId) :
    (w.spawnTask k u r).mgr = w.mgr := by
  unfold spawnTask
  split <;> rfl

theorem spawnLocked_mgr (w : World) (k : TaskKind) (u : UnitName) (r : RunnerId) :
    (w.spawnLocked k u r).mgr = w.mgr := by
  unfold spawnLocked
  split <;> rfl

theorem sameRegistry_spawnTask {m : Manager} (h : SameRegistry w { w with mgr := m })
    (k : TaskKind) (u : UnitName) (r : RunnerId) :
    SameRegistry w (({ w with mgr := m } : World).spawnTask k u r) := by
  exact h.trans (sameRegistry_of_mgr (spawnTask_mgr _ _ _ _))

theorem sameRegistry_spawnLocked {m : Manager} (h : SameRegistry w { w with mgr := m })
    (k : TaskKind) (u : UnitName) (r : RunnerId) :
    SameRegistry w (({ w with mgr := m } : World).spawnLocked k u r) := by
  exact h.trans (sameRegistry_of_mgr (spawnLocked_mgr _ _ _ _))

theorem sameRegistry_spawnServiceStart {m : Manager} (h : SameRegistry w { w with mgr := m })
    (n : UnitName) : SameRegistry w { w with mgr := (m.spawnServiceStart n).1 } := by
  unfold Manager.spawnServiceStart
  split
  · exact h
  · exact sameRegistry_mark h _ _ _

theorem sameRegistry_startUnit (w : World) (n : UnitName) : SameRegistry w (w.startUnit n) := by
  have hjob := sameRegistry_newJob w n .start
  have hstart : SameRegistry w { w with mgr := (w.mgr.startUnit n).mgr } := by
    simp only [Manager.startUnit]
    split
    · exact sameRegistry_spawnServiceStart hjob n
    · exact sameRegistry_emit (sameRegistry_mark hjob _ _ _) rfl
  simp only [startUnit]
  split
  · exact sameRegistry_spawnTask hstart _ _ _
  · exact hstart

theorem sameRegistry_act (w : World) (t : Task) (a : Act) : SameRegistry w (w.act t a) := by
  have hrefl : SameRegistry w { w with mgr := w.mgr } := SameRegistry.refl w
  cases a with
  | spawn pid main | kill k | reap p => exact sameRegistry_of_mgr rfl
  | mark a s => exact sameRegistry_mark hrefl _ _ _
  | supervise =>
    simp only [act]
    split
    · exact sameRegistry_spawnTask hrefl _ _ _
    · exact hrefl
  | respawn =>
    have hstart := sameRegistry_spawnServiceStart hrefl t.unit
    simp only [act, respawn]
    split
    next heq _ =>
      rw [heq] at hstart
      exact sameRegistry_spawnTask hstart _ _ _
    next heq _ =>
      rw [heq] at hstart
      exact hstart
  | jobRemoved o =>
    simp only [act]
    split
    · exact sameRegistry_emit hrefl rfl
    · exact hrefl

/-- **Only a reload changes the registry.** -/
theorem sameRegistry_step {l : Label} (hs : w.step l = some w')
    (hd : ∀ disk, l ≠ .daemonReload disk) (hr : l ≠ .reloadStep) : SameRegistry w w' := by
  cases l with
  | startUnit name =>
    obtain ⟨-, rfl⟩ := ifFree_eq hs
    exact sameRegistry_startUnit w name
  | stopUnit name =>
    obtain ⟨-, rfl⟩ := ifFree_eq hs
    have hjob := sameRegistry_newJob w name .stop
    simp only [stopUnit]
    split
    · exact sameRegistry_spawnLocked hjob _ _ _
    · exact sameRegistry_emit (sameRegistry_mark hjob _ _ _) rfl
  | restartUnit name =>
    obtain ⟨-, rfl⟩ := ifFree_eq hs
    have hjob := sameRegistry_newJob w name .restart
    simp only [restartUnit]
    split
    · exact sameRegistry_spawnLocked hjob _ _ _
    · have hstop := sameRegistry_mark hjob name .inactive .dead
      split
      · exact hstop
      · exact sameRegistry_emit (sameRegistry_mark hstop _ _ _) rfl
  | reloadUnit name =>
    obtain ⟨-, rfl⟩ := ifFree_eq hs
    have hjob := sameRegistry_newJob w name .reload
    simp only [reloadUnit]
    split
    · exact sameRegistry_spawnLocked hjob _ _ _
    · exact sameRegistry_emit hjob rfl
  | fire timer target =>
    simp only [step] at hs
    split at hs
    · obtain ⟨-, rfl⟩ := ifFree_eq hs
      have hrun : SameRegistry w { w with mgr := w.mgr.markState timer .active .running } :=
        sameRegistry_mark (SameRegistry.refl w) _ _ _
      have hstart := hrun.trans (sameRegistry_startUnit _ target)
      simp only [fire]
      split
      · exact hstart
      · exact hstart.trans (sameRegistry_mark (SameRegistry.refl _) _ _ _)
    · exact absurd hs (by simp)
  | daemonReload disk => exact absurd rfl (hd disk)
  | reloadStep => exact absurd rfl hr
  | task i resp =>
    obtain ⟨t, op, rest, R, reply, -, -, -, -, rfl⟩ := runTask_cases hs
    exact foldl_act_inv (P := fun v => SameRegistry w v)
      (fun v a _ hv => hv.trans (sameRegistry_act v t a)) (sameRegistry_of_mgr rfl)
  | exit p =>
    obtain rfl := Option.some.inj hs
    exact sameRegistry_of_mgr rfl

/-! ## The lock -/

/-- What is left of the reload that holds the lock. -/
def reloading (w : World) : Option (List ReloadOp) := w.lock.pending

theorem spawnTask_lock (w : World) (k : TaskKind) (u : UnitName) (r : RunnerId) :
    (w.spawnTask k u r).lock = w.lock := by
  unfold spawnTask
  split <;> rfl

theorem reloading_of_free (h : w.lock = .free) : w.reloading = none := by
  unfold reloading
  rw [h]
  rfl

theorem reloading_of_lock {ops : List ReloadOp} (h : w.lock = .reload ops) :
    w.reloading = some ops := by
  unfold reloading
  rw [h]
  rfl

theorem lock_of_reloading {ops : List ReloadOp} (h : w.reloading = some ops) :
    w.lock = .reload ops := by
  unfold reloading at h
  cases hl : w.lock with
  | reload ops' =>
    rw [hl] at h
    exact congrArg Lock.reload (Option.some.inj h)
  | free | task t =>
    rw [hl] at h
    exact absurd h (by simp [Lock.pending])

theorem spawnLocked_reloading (w : World) (k : TaskKind) (u : UnitName) (r : RunnerId)
    (h : w.lock = .free) : (w.spawnLocked k u r).reloading = none := by
  unfold spawnLocked
  split
  · rfl
  · exact reloading_of_free h

theorem startUnit_lock (w : World) (n : UnitName) : (w.startUnit n).lock = w.lock := by
  simp only [startUnit]
  split
  · exact spawnTask_lock _ _ _ _
  · rfl

theorem act_lock (w : World) (t : Task) (a : Act) : (w.act t a).lock = w.lock := by
  cases a with
  | spawn pid main | kill k | reap p | mark a s => rfl
  | supervise =>
    simp only [act]
    split
    · exact spawnTask_lock _ _ _ _
    · rfl
  | respawn =>
    simp only [act, respawn]
    split
    · exact spawnTask_lock _ _ _ _
    · rfl
  | jobRemoved o =>
    simp only [act]
    split <;> rfl

theorem foldl_act_lock (t : Task) (acts : List Act) (w : World) :
    (acts.foldl (fun w a => w.act t a) w).lock = w.lock :=
  foldl_act_inv (P := fun v => v.lock = w.lock) (fun v a _ hv => (act_lock v t a).trans hv) rfl

/-- **A reload in progress is left alone**, and only a reload begins one. -/
theorem reloading_step {l : Label} (hs : w.step l = some w') (hd : ∀ disk, l ≠ .daemonReload disk)
    (hr : l ≠ .reloadStep) : w'.reloading = w.reloading := by
  cases l with
  | startUnit name =>
    obtain ⟨hl, rfl⟩ := ifFree_eq hs
    rw [reloading_of_free hl]
    exact reloading_of_free ((startUnit_lock w name).trans hl)
  | stopUnit name =>
    obtain ⟨hl, rfl⟩ := ifFree_eq hs
    rw [reloading_of_free hl]
    simp only [stopUnit]
    split
    · exact spawnLocked_reloading _ _ _ _ hl
    · exact reloading_of_free hl
  | restartUnit name =>
    obtain ⟨hl, rfl⟩ := ifFree_eq hs
    rw [reloading_of_free hl]
    simp only [restartUnit]
    split
    · exact spawnLocked_reloading _ _ _ _ hl
    · split <;> exact reloading_of_free hl
  | reloadUnit name =>
    obtain ⟨hl, rfl⟩ := ifFree_eq hs
    rw [reloading_of_free hl]
    simp only [reloadUnit]
    split
    · exact spawnLocked_reloading _ _ _ _ hl
    · exact reloading_of_free hl
  | fire timer target =>
    simp only [step] at hs
    split at hs
    · obtain ⟨hl, rfl⟩ := ifFree_eq hs
      rw [reloading_of_free hl]
      have hstart := (startUnit_lock { w with mgr := w.mgr.markState timer .active .running }
        target).trans hl
      simp only [fire]
      split <;> exact reloading_of_free hstart
    · exact absurd hs (by simp)
  | daemonReload disk => exact absurd rfl (hd disk)
  | reloadStep => exact absurd rfl hr
  | task i resp =>
    obtain ⟨t, op, rest, R, reply, -, -, -, -, rfl⟩ := runTask_cases hs
    have hlock : (w.lockAfter i reply.ops).pending = w.lock.pending := by
      unfold lockAfter
      split
      next hc =>
        rw [hc.2]
        rfl
      next => rfl
    unfold reloading
    rw [foldl_act_lock]
    exact hlock
  | exit p =>
    obtain rfl := Option.some.inj hs
    rfl

end World

/-! ## The runners -/

/-- The same unit and the same definition. -/
def Runner.SameUnit (R R' : Runner) : Prop := R'.unit = R.unit ∧ R'.svc = R.svc

/-- A step of a program leaves them alone. -/
theorem Op.run_sameUnit {procs : List Proc} {free : Bool} {kind : TaskKind} {R : Runner}
    {rest : List Op} {resp : Response} {op : Op} {reply : Reply}
    (h : op.run procs free kind R rest resp = some reply) : R.SameUnit reply.runner := by
  cases op with
  | clearStop | requestStop | setState a | setSub s | setStatus s | setMainPid p | readState o
  | readSub o a | jobRemoved o | markDead | respawn => exact Option.some.inj h ▸ ⟨rfl, rfl⟩
  | setChild c | holdChild p =>
    simp only [run] at h
    split at h
    · exact absurd h (by simp)
    · exact Option.some.inj h ▸ ⟨rfl, rfl⟩
  | resolveEnv | bindSocket =>
    simp only [run] at h
    split at h
    · exact Option.some.inj h ▸ ⟨rfl, rfl⟩
    · exact Option.some.inj h ▸ ⟨rfl, rfl⟩
    · exact absurd h (by simp)
  | exec cmd k =>
    obtain ⟨pid, -, rfl⟩ | ⟨l, -, rfl⟩ := runExec_cases h <;> exact ⟨rfl, rfl⟩
  | waitExec p cmd k =>
    obtain ⟨l, acts, -, -, rfl⟩ := runWaitExec_cases h
    exact ⟨rfl, rfl⟩
  | spawnMain cmd =>
    obtain ⟨pid, -, rfl⟩ | ⟨l, -, rfl⟩ := runSpawnMain_cases h <;> exact ⟨rfl, rfl⟩
  | spawnForking cmd =>
    obtain ⟨pid, -, rfl⟩ | ⟨l, -, rfl⟩ := runSpawnForking_cases h <;> exact ⟨rfl, rfl⟩
  | waitForking p | waitKilled p | waitMain p =>
    obtain ⟨-, -, rfl⟩ | rfl := runWait_cases h <;> exact ⟨rfl, rfl⟩
  | readPidFile =>
    obtain ⟨text, p, -, rfl⟩ | rfl | ⟨l, -, rfl⟩ := runReadPidFile_cases h <;> exact ⟨rfl, rfl⟩
  | recv =>
    obtain ⟨buf, l, -, -, rfl⟩ | ⟨l, -, rfl⟩ := runRecv_cases h <;> exact ⟨rfl, rfl⟩
  | publish o a s | publishExit a s =>
    simp only [run] at h
    split at h
    · exact Option.some.inj h ▸ ⟨rfl, rfl⟩
    · exact absurd h (by simp)
  | readPid =>
    obtain ⟨l, -, rfl⟩ | ⟨p, acts, -, -, rfl⟩ := runReadPid_cases h <;> exact ⟨rfl, rfl⟩
  | waitGone p =>
    obtain ⟨acts, -, rfl | ⟨c, rfl⟩⟩ := runWaitGone_cases h <;> exact ⟨rfl, rfl⟩
  | takeChild =>
    obtain ⟨c, -, rfl⟩ | ⟨-, rfl⟩ := runTakeChild_cases h <;> exact ⟨rfl, rfl⟩
  | readPollPid =>
    simp only [run] at h
    split at h <;> exact Option.some.inj h ▸ ⟨rfl, rfl⟩
  | poll p =>
    simp only [run] at h
    split at h
    · split at h
      · exact Option.some.inj h ▸ ⟨rfl, rfl⟩
      · exact absurd h (by simp)
    · exact absurd h (by simp)
  | checkStopping clean =>
    refine Option.some.inj h ▸ ?_
    unfold runCheckStopping
    split <;> exact ⟨rfl, rfl⟩

namespace World

variable {w w' : World}

/-- Runners stay where they are, for the unit and with the definition they were made
for. -/
def KeepsRunners (w w' : World) : Prop :=
  ∀ (r : RunnerId) (R : Runner), w.runners[r]? = some R →
    ∃ R' : Runner, w'.runners[r]? = some R' ∧ R.SameUnit R'

theorem KeepsRunners.refl (w : World) : KeepsRunners w w := fun _ R h => ⟨R, h, rfl, rfl⟩

theorem KeepsRunners.trans {v : World} (h : KeepsRunners w w') (h' : KeepsRunners w' v) :
    KeepsRunners w v := by
  intro r R hR
  obtain ⟨R', hR', hu, hs⟩ := h r R hR
  obtain ⟨R'', hR'', hu', hs'⟩ := h' r R' hR'
  exact ⟨R'', hR'', hu'.trans hu, hs'.trans hs⟩

theorem keepsRunners_of_eq (h : w'.runners = w.runners) : KeepsRunners w w' := by
  intro r R hR
  exact ⟨R, h ▸ hR, rfl, rfl⟩

theorem keepsRunners_modify {m : Manager} {l : Lock} {new : RunnerId} {f : Runner → Runner}
    (hf : ∀ R : Runner, R.SameUnit (f R)) :
    KeepsRunners w { w with mgr := m, runners := w.runners.modify new f, lock := l } := by
  intro r R hR
  show ∃ R' : Runner, (w.runners.modify new f)[r]? = some R' ∧ _
  rw [List.getElem?_modify, hR]
  refine ⟨if new = r then f R else R, rfl, ?_⟩
  split
  · exact hf R
  · exact ⟨rfl, rfl⟩

theorem keepsRunners_set {r : RunnerId} {R R' : Runner} {ts : List Task} {l : Lock}
    (hR : w.runners[r]? = some R) (hsame : R.SameUnit R') :
    KeepsRunners w { w with runners := w.runners.set r R', tasks := ts, lock := l } := by
  intro q Q hQ
  show ∃ Q' : Runner, (w.runners.set r R')[q]? = some Q' ∧ _
  by_cases hq : r = q
  · subst hq
    obtain rfl := Option.some.inj (hR.symm.trans hQ)
    exact ⟨R', List.getElem?_set_self (List.getElem?_eq_some_iff.mp hR).1, hsame⟩
  · exact ⟨Q, (List.getElem?_set_ne hq).trans hQ, rfl, rfl⟩

theorem keepsRunners_reloadOp {rest : List ReloadOp} {op : ReloadOp}
    (h : w.reloadOp rest op = some w') : KeepsRunners w w' := by
  have hsame : ∀ R : Runner, R.SameUnit R := fun R => ⟨rfl, rfl⟩
  cases op with
  | unit name spec =>
    simp only [reloadOp] at h
    split at h
    · obtain rfl := Option.some.inj h
      intro r R hR
      exact ⟨R, List.getElem?_append_left (List.getElem?_eq_some_iff.mp hR).1 ▸ hR, hsame R⟩
    · obtain rfl := Option.some.inj h
      exact keepsRunners_of_eq rfl
  | copyState new old | copySub new old | copyPid new old =>
    simp only [reloadOp] at h
    split at h
    · obtain rfl := Option.some.inj h
      exact keepsRunners_modify fun R => ⟨rfl, rfl⟩
    · exact absurd h (by simp)
  | moveChild new old =>
    simp only [reloadOp] at h
    split at h
    · split at h
      · exact absurd h (by simp)
      · obtain rfl := Option.some.inj h
        have hold : KeepsRunners w
            { w with runners := w.runners.modify old fun n => { n with child := none } } :=
          keepsRunners_modify fun R => ⟨rfl, rfl⟩
        exact hold.trans (keepsRunners_modify fun R => ⟨rfl, rfl⟩)
    · exact absurd h (by simp)
  | install name spec st new =>
    obtain rfl := Option.some.inj h
    exact keepsRunners_of_eq rfl

/-- **No step frees a runner** or changes what it is for. -/
theorem keepsRunners_step {l : Label} (hs : w.step l = some w') : KeepsRunners w w' := by
  by_cases hl : l = .reloadStep
  · subst hl
    obtain ⟨-, rfl⟩ | ⟨op, rest, -, ho⟩ := reloadStep_cases hs
    · exact keepsRunners_of_eq rfl
    · exact keepsRunners_reloadOp ho
  by_cases ht : ∃ i resp, l = .task i resp
  · obtain ⟨i, resp, rfl⟩ := ht
    obtain ⟨t, op, rest, R, reply, -, -, hR, hreply, rfl⟩ := runTask_cases hs
    exact KeepsRunners.trans (keepsRunners_set hR (Op.run_sameUnit hreply))
      (keepsRunners_of_eq (foldl_act_runners _ _ _))
  by_cases he : ∃ p, l = .exit p
  · obtain ⟨p, rfl⟩ := he
    obtain rfl := Option.some.inj hs
    exact keepsRunners_of_eq rfl
  · exact keepsRunners_of_eq (request_sameHeap hs hl (fun i resp h => ht ⟨i, resp, h⟩)
      fun p h => he ⟨p, h⟩).runners

end World

end Systeml.Runtime
