import Systeml.Runtime.Jobs
import Systeml.Runtime.Replay

/-!
# The numbers of jobs

Jobs are numbered from 1 in the order in which they are announced, and `NInstalledJobs`
counts them. Both stay where they are once the counter is at its end. What is reported
as removed is a job that was announced before, for the same unit, and at most once as
long as the numbers are distinct (`accounted_run`).
-/

namespace Systeml.Runtime

open Systeml.Lib Systeml.Unit Systeml.Deps

/-- The id of a job by how many were announced before it. -/
def jobNumber (i : Nat) : JobId := ⟨.ofNat (min (i + 1) 4294967295)⟩

theorem jobNumber_toNat (i : Nat) : (jobNumber i).id.toNat = min (i + 1) 4294967295 := by
  show (min (i + 1) 4294967295) % 2 ^ 32 = _
  omega

/-- The counter moves to the next number, and stays at the last. -/
theorem next_jobNumber {i : Nat} {x : UInt32} (hx : x.toNat = min (i + 1) 4294967295) :
    max (if x = 4294967295 then x else x + 1) 1 = (jobNumber (i + 1)).id := by
  refine UInt32.toNat_inj.mp ?_
  rw [jobNumber_toNat]
  by_cases hfull : x = 4294967295
  · rw [hfull] at hx
    have hlast : 4294967295 = min (i + 1) 4294967295 := hx
    rw [if_pos hfull, hfull]
    show 4294967295 = _
    omega
  · have hne : x.toNat ≠ 4294967295 := fun he => hfull (UInt32.toNat_inj.mp he)
    have hsucc : (x + 1).toNat = x.toNat + 1 := by
      rw [UInt32.toNat_add]
      show (x.toNat + 1) % 2 ^ 32 = _
      omega
    have hlarge : ¬ x + 1 ≤ 1 := by
      intro hle
      have hle' : (x + 1).toNat ≤ 1 := UInt32.le_iff_toNat_le.mp hle
      omega
    rw [if_neg hfull]
    show (if x + 1 ≤ 1 then (1 : UInt32) else x + 1).toNat = _
    rw [if_neg hlarge]
    omega

/-- The job that an event announces. -/
def UnitEvent.newId? : UnitEvent → Option JobId
  | .jobNew id _ _ => some id
  | _ => none

/-- The event reports a job with this id as removed. -/
def UnitEvent.removes (id : JobId) : UnitEvent → Bool
  | .jobRemoved i _ _ => i = id
  | _ => false

/-- The jobs announced, in their order. -/
def newIds (events : List UnitEvent) : List JobId := events.filterMap UnitEvent.newId?

/-- The job is announced for the unit. -/
def Announced (events : List UnitEvent) (id : JobId) (u : UnitName) : Prop :=
  ∃ k, .jobNew id u k ∈ events

theorem Announced.mono {events events' : List UnitEvent} {id : JobId} {u : UnitName}
    (h : Announced events id u) (hp : events <+: events') : Announced events' id u := by
  obtain ⟨k, hk⟩ := h
  exact ⟨k, hp.subset hk⟩

namespace Manager

/-- `NInstalledJobs`. -/
def nInstalledJobs (m : Manager) : UInt32 := if m.nextJobId = 0 then 0 else m.nextJobId - 1

/-- How many jobs were announced. -/
def announced (m : Manager) : Nat := (newIds m.events).length

end Manager

/-- The ids are as numbered, and each removal is of a job announced before. -/
structure Logged (m : Manager) : Prop where
  numbered : newIds m.events = (List.range m.announced).map jobNumber
  next : m.nextJobId = (jobNumber m.announced).id
  closes : ∀ pre id u o post, m.events = pre ++ .jobRemoved id u o :: post → Announced pre id u

section Logged

variable {m m' : Manager} {u : UnitName} {id : JobId}

theorem Logged.congr (h : Logged m) (he : m'.events = m.events)
    (hn : m'.nextJobId = m.nextJobId) : Logged m' := by
  have ha : m'.announced = m.announced := by
    unfold Manager.announced
    rw [he]
  exact ⟨by rw [he, ha, h.numbered], by rw [hn, ha, h.next], he ▸ h.closes⟩

/-- An event that announces nothing is sent. -/
theorem logged_emit {e : UnitEvent} (h : Logged m) (hnew : e.newId? = none)
    (hold : ∀ id u o, e = .jobRemoved id u o → Announced m.events id u) : Logged (m.emit e) := by
  have hids : newIds (m.emit e).events = newIds m.events := by
    show (m.events ++ [e]).filterMap _ = _
    rw [List.filterMap_append, List.filterMap_cons, hnew]
    exact List.append_nil _
  have ha : (m.emit e).announced = m.announced := by
    unfold Manager.announced
    rw [hids]
  refine ⟨by rw [hids, ha, h.numbered], ha ▸ h.next, ?_⟩
  intro pre id u o post he
  have he' : m.events ++ [e] = pre ++ .jobRemoved id u o :: post := he
  -- the removal is the new event, or one sent before
  obtain rfl | ⟨post', z, rfl⟩ := List.eq_nil_or_concat post
  · obtain ⟨rfl, hlast⟩ := List.append_inj' he' rfl
    exact hold id u o (List.cons.inj hlast).1
  · rw [List.concat_eq_append, ← List.cons_append, ← List.append_assoc] at he'
    obtain ⟨hfront, -⟩ := List.append_inj' he' rfl
    exact h.closes pre id u o post' hfront

/-- The next job has the next number. -/
theorem logged_newJob (h : Logged m) (k : JobType) : Logged (m.newJob u k).2 := by
  have hids : newIds (m.newJob u k).2.events = newIds m.events ++ [jobNumber m.announced] := by
    show (m.events ++ [UnitEvent.jobNew ⟨m.nextJobId⟩ u k]).filterMap _ = _
    rw [List.filterMap_append, h.next]
    rfl
  have ha : (m.newJob u k).2.announced = m.announced + 1 := by
    unfold Manager.announced
    rw [hids, List.length_append]
    rfl
  refine ⟨?_, ?_, ?_⟩
  · rw [ha, hids, List.range_succ, List.map_append, ← h.numbered]
    rfl
  · rw [ha]
    show max (if m.nextJobId = 4294967295 then m.nextJobId else m.nextJobId + 1) 1 = _
    exact next_jobNumber (h.next ▸ jobNumber_toNat m.announced)
  · intro pre id v o post he
    have he' : m.events ++ [.jobNew ⟨m.nextJobId⟩ u k] = pre ++ .jobRemoved id v o :: post := he
    obtain rfl | ⟨post', z, rfl⟩ := List.eq_nil_or_concat post
    · obtain ⟨-, hlast⟩ := List.append_inj' he' rfl
      exact absurd (List.cons.inj hlast).1 (by simp)
    · rw [List.concat_eq_append, ← List.cons_append, ← List.append_assoc] at he'
      obtain ⟨hfront, -⟩ := List.append_inj' he' rfl
      exact h.closes pre id v o post' hfront

theorem announced_newJob (m : Manager) (u : UnitName) (k : JobType) :
    Announced (m.newJob u k).2.events m.allocJobId.1 u :=
  ⟨k, List.mem_append_right _ List.mem_cons_self⟩

end Logged

namespace World

variable {w w' : World} {u n : UnitName} {id : JobId}

/-- The log is right, and each task in flight is for a job that was announced for its unit. -/
structure JobLog (w : World) : Prop where
  mgr : Logged w.mgr
  tasks : ∀ t ∈ w.tasks, ∀ id, t.kind.job = some id → Announced w.mgr.events id t.unit

/-- The job of the task was announced for its unit. -/
def TaskAnnounced (w : World) (t : Task) : Prop :=
  ∀ id, t.kind.job = some id → Announced w.mgr.events id t.unit

theorem JobLog.of_mgr (h : JobLog w) (hm : Logged w'.mgr) (ht : w'.tasks = w.tasks)
    (he : w.mgr.events <+: w'.mgr.events) : JobLog w' :=
  ⟨hm, fun t hmem id hid => (h.tasks t (ht ▸ hmem) id hid).mono he⟩

theorem jobLog_emit {m : Manager} (h : JobLog { w with mgr := m }) {e : UnitEvent}
    (hnew : e.newId? = none) (hold : ∀ id u o, e = .jobRemoved id u o → Announced m.events id u) :
    JobLog { w with mgr := m.emit e } :=
  h.of_mgr (logged_emit h.mgr hnew hold) rfl (List.prefix_append _ _)

theorem jobLog_mark {m : Manager} (h : JobLog { w with mgr := m }) (a : ActiveState)
    (s : SubState) : JobLog { w with mgr := m.markState n a s } := by
  have hstatus : JobLog { w with mgr := { m with
      status := m.status.modify n fun st => { st with active := a, sub := s } } } :=
    h.of_mgr (h.mgr.congr rfl rfl) rfl List.prefix_rfl
  exact jobLog_emit hstatus rfl (by simp)

theorem jobLog_removed {m : Manager} (h : JobLog { w with mgr := m })
    (ha : Announced m.events id n) (o : JobOutcome) :
    JobLog { w with mgr := m.emit (.jobRemoved id n o) } := by
  refine jobLog_emit h rfl ?_
  intro id' u' o' he
  obtain ⟨rfl, rfl, rfl⟩ := UnitEvent.jobRemoved.inj he
  exact ha

theorem jobLog_newJob (h : JobLog w) (n : UnitName) (k : JobType) :
    JobLog { w with mgr := (w.mgr.newJob n k).2 } :=
  h.of_mgr (logged_newJob h.mgr k) rfl (List.prefix_append _ _)

theorem jobLog_append {t : Task} (h : JobLog w) (hm : w'.mgr = w.mgr)
    (ht : w'.tasks = w.tasks ++ [t]) (ha : TaskAnnounced w t) : JobLog w' := by
  refine ⟨hm ▸ h.mgr, ?_⟩
  rw [ht, hm]
  exact forall_mem_append h.tasks ha

theorem jobLog_spawnTask {k : TaskKind} {r : RunnerId} (h : JobLog w)
    (ha : ∀ id, k.job = some id → Announced w.mgr.events id n) : JobLog (w.spawnTask k n r) := by
  obtain ht | ⟨R, -, ht⟩ := spawnTask_tasks w k n r
  · exact h.of_mgr ((spawnTask_mgr w k n r).symm ▸ h.mgr) ht (spawnTask_mgr w k n r ▸ List.prefix_rfl)
  · exact jobLog_append h (spawnTask_mgr w k n r) ht ha

theorem jobLog_spawnLocked {k : TaskKind} {r : RunnerId} (h : JobLog w) (hl : w.lock = .free)
    (ha : ∀ id, k.job = some id → Announced w.mgr.events id n) : JobLog (w.spawnLocked k n r) := by
  obtain ⟨ht, -⟩ | ⟨⟨R, -, ht⟩, -⟩ := spawnLocked_tasks w k n r hl
  · exact h.of_mgr ((spawnLocked_mgr w k n r).symm ▸ h.mgr) ht
      (spawnLocked_mgr w k n r ▸ List.prefix_rfl)
  · exact jobLog_append h (spawnLocked_mgr w k n r) ht ha

theorem spawnServiceStart_events (m : Manager) (n : UnitName) :
    m.events <+: (m.spawnServiceStart n).1.events := by
  unfold Manager.spawnServiceStart
  split
  · exact List.prefix_rfl
  · exact List.prefix_append _ _

theorem jobLog_spawnServiceStart {m : Manager} (h : JobLog { w with mgr := m }) :
    JobLog { w with mgr := (m.spawnServiceStart n).1 } := by
  unfold Manager.spawnServiceStart
  split
  · exact h
  · exact jobLog_mark h _ _

/-! ## Steps -/

theorem jobLog_startUnit (h : JobLog w) : JobLog (w.startUnit n) := by
  have hjob := jobLog_newJob h n .start
  have hnew := announced_newJob w.mgr n .start
  have hstart : JobLog { w with mgr := (w.mgr.startUnit n).mgr } ∧
      Announced (w.mgr.startUnit n).mgr.events (w.mgr.startUnit n).id n := by
    simp only [Manager.startUnit]
    split
    · exact ⟨jobLog_spawnServiceStart hjob, hnew.mono (spawnServiceStart_events _ _)⟩
    · have hmark := jobLog_mark (n := n) hjob .active (Manager.startedSub n.kind)
      have ha : Announced ((w.mgr.newJob n .start).2.runStart n).events _ n :=
        hnew.mono (List.prefix_append _ _)
      exact ⟨jobLog_removed hmark ha .done, ha.mono (List.prefix_append _ _)⟩
  simp only [startUnit]
  split
  · refine jobLog_spawnTask hstart.1 fun id hid => ?_
    obtain rfl := Option.some.inj hid
    exact hstart.2
  · exact hstart.1

/-- What the acts of a task send. -/
theorem act_events (w : World) (t : Task) (a : Act) :
    w.mgr.events <+: (w.act t a).mgr.events := by
  cases a with
  | spawn pid main | kill k | reap p => exact List.prefix_rfl
  | mark a s => exact List.prefix_append _ _
  | supervise =>
    simp only [act]
    split
    · exact spawnTask_mgr w _ _ _ ▸ List.prefix_rfl
    · exact List.prefix_rfl
  | respawn =>
    have hstart := spawnServiceStart_events w.mgr t.unit
    simp only [act, respawn]
    split
    next heq _ =>
      rw [heq] at hstart
      rw [spawnTask_mgr]
      exact hstart
    next heq _ =>
      rw [heq] at hstart
      exact hstart
  | jobRemoved o =>
    simp only [act]
    split
    · exact List.prefix_append _ _
    · exact List.prefix_rfl

theorem jobLog_act {t : Task} {a : Act} (h : JobLog w) (ha : TaskAnnounced w t) :
    JobLog (w.act t a) := by
  have hself : JobLog { w with mgr := w.mgr } := h
  cases a with
  | spawn pid main | kill k | reap p => exact h.of_mgr h.mgr rfl List.prefix_rfl
  | mark a s => exact jobLog_mark hself a s
  | supervise =>
    simp only [act]
    split
    · exact jobLog_spawnTask hself fun id hid => absurd hid (by simp [TaskKind.job])
    · exact h
  | respawn =>
    have hstart := jobLog_spawnServiceStart (n := t.unit) hself
    have hevents := spawnServiceStart_events w.mgr t.unit
    simp only [act, respawn]
    split
    next id heq hkind =>
      -- the start goes on with the job of the restart
      rw [heq] at hstart hevents
      refine jobLog_spawnTask hstart fun id' hid => ?_
      obtain rfl := Option.some.inj hid
      exact (ha _ (by rw [hkind]; rfl)).mono hevents
    next heq _ =>
      rw [heq] at hstart
      exact hstart
  | jobRemoved o =>
    simp only [act]
    split
    next id hid =>
      refine jobLog_removed hself (ha id ?_) o
      cases hk : t.kind <;> rw [hk] at hid <;> exact hid
    next => exact h

theorem jobLog_task {i : TaskId} {resp : Response} (h : JobLog w)
    (hs : w.step (.task i resp) = some w') : JobLog w' := by
  obtain ⟨t, op, rest, R, reply, ht, -, -, -, rfl⟩ := runTask_cases hs
  have ha : TaskAnnounced w t := h.tasks t (List.mem_of_getElem? ht)
  refine (foldl_act_inv (P := fun v => JobLog v ∧ TaskAnnounced v t) (fun v a _ hv => ?_) ?_).1
  · exact ⟨jobLog_act hv.1 hv.2, fun id hid => (hv.2 id hid).mono (act_events v t a)⟩
  · refine ⟨⟨h.mgr, forall_mem_set h.tasks ha⟩, ha⟩

theorem jobLog_step {l : Label} (h : JobLog w) (hs : w.step l = some w') : JobLog w' := by
  cases l with
  | startUnit n =>
    obtain ⟨-, rfl⟩ := ifFree_eq hs
    exact jobLog_startUnit h
  | stopUnit n =>
    obtain ⟨hl, rfl⟩ := ifFree_eq hs
    have hjob := jobLog_newJob h n .stop
    have hnew := announced_newJob w.mgr n .stop
    simp only [stopUnit]
    split
    · refine jobLog_spawnLocked hjob hl fun id hid => ?_
      obtain rfl := Option.some.inj hid
      exact hnew
    · exact jobLog_removed (jobLog_mark hjob _ _) (hnew.mono (List.prefix_append _ _)) _
  | restartUnit n =>
    obtain ⟨hl, rfl⟩ := ifFree_eq hs
    have hjob := jobLog_newJob h n .restart
    have hnew := announced_newJob w.mgr n .restart
    simp only [restartUnit]
    split
    · refine jobLog_spawnLocked hjob hl fun id hid => ?_
      obtain rfl := Option.some.inj hid
      exact hnew
    · have hstop : JobLog { w with mgr := stopPlain (w.mgr.newJob n .restart).2 n } :=
        jobLog_mark hjob _ _
      split
      · exact hstop
      · refine jobLog_removed (jobLog_mark hstop _ _) (hnew.mono ?_) _
        exact (List.prefix_append _ _).trans (List.prefix_append _ _)
  | reloadUnit n =>
    obtain ⟨hl, rfl⟩ := ifFree_eq hs
    have hjob := jobLog_newJob h n .reload
    have hnew := announced_newJob w.mgr n .reload
    simp only [reloadUnit]
    split
    · refine jobLog_spawnLocked hjob hl fun id hid => ?_
      obtain rfl := Option.some.inj hid
      exact hnew
    · exact jobLog_removed hjob hnew _
  | fire timer target =>
    simp only [step] at hs
    split at hs
    · obtain ⟨-, rfl⟩ := ifFree_eq hs
      have hmark : JobLog { w with mgr := w.mgr.markState timer .active .running } :=
        jobLog_mark (m := w.mgr) h _ _
      have hstart := jobLog_startUnit (n := target) hmark
      simp only [fire]
      split
      · exact hstart
      · exact jobLog_mark hstart _ _
    · exact absurd hs (by simp)
  | daemonReload disk =>
    obtain ⟨-, rfl⟩ := ifFree_eq hs
    have hdrop : ∀ (l : List UnitName) (m : Manager), JobLog { w with mgr := m } →
        JobLog { w with mgr := l.foldl dropUnit m } := by
      intro l
      induction l with
      | nil => exact fun m hm => hm
      | cons n l ih =>
        intro m hm
        refine ih _ (jobLog_emit ?_ rfl (by simp))
        exact hm.of_mgr (hm.mgr.congr rfl rfl) rfl List.prefix_rfl
    have hall := hdrop (gone w disk) w.mgr h
    exact ⟨hall.mgr, hall.tasks⟩
  | reloadStep =>
    obtain ⟨-, rfl⟩ | ⟨op, rest, -, ho⟩ := reloadStep_cases hs
    · exact ⟨h.mgr, h.tasks⟩
    · have htasks := reloadOp_tasks ho
      obtain ⟨_, _, _, _, _, -, -, -, hm, -⟩ | ⟨-, hm, -⟩ | ⟨n, spec, st, new, -, hm, -⟩ :=
        reloadOp_cases ho
      · exact h.of_mgr (h.mgr.congr (by rw [hm]) (by rw [hm])) htasks (by rw [hm])
      · exact h.of_mgr (hm ▸ h.mgr) htasks (by rw [hm])
      · refine h.of_mgr ?_ htasks (hm ▸ List.prefix_append _ _)
        rw [hm]
        exact logged_emit (h.mgr.congr rfl rfl) rfl (by simp)
  | task i resp => exact jobLog_task h hs
  | exit p =>
    obtain rfl := Option.some.inj hs
    exact ⟨h.mgr, h.tasks⟩

/-! ## Runs -/

theorem jobLog_call {c : Call} (h : JobLog w) (hs : w.call c = some w') : JobLog w' := by
  cases c with
  | insertLoaded name lu =>
    obtain ⟨-, rfl⟩ := ifFree_eq hs
    have hevents := (insertLoaded_mgr w name lu).1
    have hnext : (w.insertLoaded name lu).mgr.nextJobId = w.mgr.nextJobId := by
      unfold insertLoaded
      split <;> rfl
    have hlog : Logged (w.insertLoaded name lu).mgr :=
      (logged_emit (e := .unitNew name) h.mgr rfl (by simp)).congr hevents hnext
    exact h.of_mgr hlog (insertLoaded_tasks w name lu) (hevents ▸ List.prefix_append _ _)
  | daemonReload paths =>
    have hstep : w.step (.daemonReload paths.disk) = some w' := hs
    exact jobLog_step h hstep
  | other l =>
    have hstep : w.step l = some w' := by
      cases l with
      | daemonReload disk => exact absurd hs (by simp [call])
      | _ => exact hs
    exact jobLog_step h hstep

/-- No call closes a job that nobody owes. -/
theorem ledger_call {c : Call} (h : Sound w) (hs : w.call c = some w') (id : JobId) :
    w.ledger id ≤ w'.ledger id := by
  have hstep : ∀ l, w.step l = some w' → w.ledger id ≤ w'.ledger id :=
    fun l hl => ledger_step_le h hl id
  cases c with
  | insertLoaded name lu =>
    obtain ⟨-, rfl⟩ := ifFree_eq hs
    have hself : (w.insertLoaded name lu).mgr.selfWeak = w.mgr.selfWeak := by
      unfold insertLoaded
      split <;> rfl
    have hbooks : Books id ((UnitEvent.unitNew name).delta id) w (w.insertLoaded name lu) :=
      books_event (insertLoaded_tasks w name lu) hself (insertLoaded_mgr w name lu).1
    have hledger := hbooks.ledger
    have hzero : (UnitEvent.unitNew name).delta id = 0 := rfl
    omega
  | daemonReload paths => exact hstep (.daemonReload paths.disk) hs
  | other l =>
    refine hstep l ?_
    cases l with
    | daemonReload disk => exact absurd hs (by simp [call])
    | _ => exact hs

end World

/-- What is open is what was announced, less what was removed. -/
theorem net_delta (id : JobId) (events : List UnitEvent) :
    net (UnitEvent.delta id) events =
      (newIds events).count id - events.countP (UnitEvent.removes id) := by
  induction events with
  | nil => rfl
  | cons e events ih =>
    have hcons : net (UnitEvent.delta id) (e :: events) =
        e.delta id + net (UnitEvent.delta id) events := by
      rw [← List.singleton_append, net_append, net_singleton]
    rw [hcons, ih, List.countP_cons]
    cases e with
    | jobNew i u k =>
      show _ = (((i :: newIds events).count id : Nat) : Int) - _
      rw [List.count_cons]
      by_cases hi : i = id
      · simp [UnitEvent.delta, UnitEvent.removes, hi]
        omega
      · simp [UnitEvent.delta, UnitEvent.removes, hi]
    | jobRemoved i u o =>
      show _ = (((newIds events).count id : Nat) : Int) - _
      by_cases hi : i = id
      · simp [UnitEvent.delta, UnitEvent.removes, hi]
        omega
      · simp [UnitEvent.delta, UnitEvent.removes, hi]
    | unitNew | unitRemoved | stateChanged =>
      show _ = (((newIds events).count id : Nat) : Int) - _
      simp [UnitEvent.delta, UnitEvent.removes]

/-- As long as the counter is not at its end, no number is given twice. -/
theorem nodup_jobNumber {n : Nat} (h : n ≤ 4294967295) :
    ((List.range n).map jobNumber).Nodup := by
  refine List.Nodup.map_on ?_ List.nodup_range
  intro i hi j hj he
  have hnum := congrArg (fun id : JobId => id.id.toNat) he
  simp only [jobNumber_toNat] at hnum
  have := List.mem_range.mp hi
  have := List.mem_range.mp hj
  omega

/-- What the events say of the jobs. -/
structure Accounted (m : Manager) : Prop where
  /-- Jobs are numbered in their order, -/
  numbered : newIds m.events = (List.range m.announced).map jobNumber
  /-- and counted. -/
  installed : m.nInstalledJobs.toNat = min m.announced 4294967294
  /-- A job is removed after it was announced for the same unit, -/
  closes : ∀ pre id u o post, m.events = pre ++ .jobRemoved id u o :: post → Announced pre id u
  /-- and once, while the numbers are distinct. -/
  once : m.announced ≤ 4294967295 → ∀ id, m.events.countP (UnitEvent.removes id) ≤ 1

theorem nInstalledJobs_eq {m : Manager} (h : Logged m) :
    m.nInstalledJobs.toNat = min m.announced 4294967294 := by
  have hnext := congrArg UInt32.toNat h.next
  rw [jobNumber_toNat] at hnext
  have hpos : m.nextJobId ≠ 0 := by
    intro hz
    rw [hz] at hnext
    have hzero : 0 = min (m.announced + 1) 4294967295 := hnext
    omega
  unfold Manager.nInstalledJobs
  rw [if_neg hpos, UInt32.toNat_sub_of_le, hnext]
  · show min (m.announced + 1) 4294967295 - 1 = _
    omega
  · refine UInt32.le_iff_toNat_le.mpr ?_
    show 1 ≤ m.nextJobId.toNat
    omega

namespace World

/-- **The jobs of every run** are numbered, counted and removed as announced. -/
theorem accounted_run {b : Bool} {cs : List Call} {w : World}
    (hrun : runs call (newManager b) cs = some w) : Accounted w.mgr := by
  have hfresh : Sound (newManager b) :=
    sound_of_idle (fun u r hu => absurd hu (by simp [newManager])) rfl rfl
  have hlog : JobLog (newManager b) := by
    refine ⟨⟨rfl, rfl, ?_⟩, fun t ht => absurd ht List.not_mem_nil⟩
    intro pre id u o post he
    have hnil : [] = pre ++ .jobRemoved id u o :: post := he
    exact absurd hnil.symm (by simp)
  have hw := runs_inv (P := fun v => Sound v ∧ JobLog v ∧ ∀ id, 0 ≤ v.ledger id)
    (A := fun _ _ => True)
    (fun v c v' hv _ hs => ⟨sound_call hv.1 hs, jobLog_call hv.2.1 hs,
      fun id => (hv.2.2 id).trans (ledger_call hv.1 hs id)⟩)
    ⟨hfresh, hlog, fun id => Int.le_refl 0⟩ (Along.of_labels fun _ _ => trivial) hrun
  obtain ⟨-, hlog, hledger⟩ := hw
  refine ⟨hlog.mgr.numbered, nInstalledJobs_eq hlog.mgr, hlog.mgr.closes, ?_⟩
  intro hfew id
  have hnodup := nodup_jobNumber hfew
  rw [← hlog.mgr.numbered] at hnodup
  have hone := List.nodup_iff_count_le_one.mp hnodup id
  have hopen := hledger id
  unfold ledger openJobs at hopen
  rw [net_delta] at hopen
  omega

theorem accounted_run_startedKeep : ∃ w, runs call (newManager true) startedKeepRun = some w ∧
    Accounted w.mgr := by
  obtain ⟨w, hw⟩ : ∃ w, runs call (newManager true) startedKeepRun = some w := ⟨_, rfl⟩
  exact ⟨w, hw, accounted_run hw⟩

end World

end Systeml.Runtime
