import Systeml.Lib.Balance
import Systeml.Runtime.Wired

/-!
# A unit that nobody starts

If no start of a unit is in flight and none is asked for, none is put in flight
(`staysIdle_step`, about starts and about calls of any kind). And what is left, its
stops, its reloads and its supervisors, marks the unit inactive or failed: a unit at
rest stays at rest (`settled_step`).
-/

namespace Systeml.Runtime

open Systeml.Lib Systeml.Unit Systeml.Deps

/-- The call starts the unit, at once or at its end. -/
def TaskKind.starts : TaskKind → Bool
  | .start _ | .restart _ => true
  | .stop _ | .reload _ | .supervise => false

/-- The call is one that a request asks for. -/
def TaskKind.asked : TaskKind → Bool
  | .start _ | .restart _ | .stop _ | .reload _ => true
  | .supervise => false

/-- Calls that only requests lead to: a restart asks for the start it goes on to. -/
structure OnRequest (p : TaskKind → Bool) : Prop where
  supervise : p .supervise = false
  restart : ∀ i, p (.start i) = true → p (.restart i) = true

theorem onRequest_starts : OnRequest TaskKind.starts := ⟨rfl, fun _ _ => rfl⟩

def TaskKind.isRestart : TaskKind → Bool
  | .restart _ => true
  | _ => false

theorem onRequest_isRestart : OnRequest TaskKind.isRestart :=
  ⟨rfl, fun _ h => absurd h (by simp [TaskKind.isRestart])⟩

theorem onRequest_asked : OnRequest TaskKind.asked := ⟨rfl, fun _ _ => rfl⟩

/-- The step asks for such a call of the unit. -/
def Label.asks (p : TaskKind → Bool) (u : UnitName) (l : Label) : Prop :=
  ∃ id kind, l.call id = some (kind, u) ∧ p kind = true

theorem Label.ne_of_not_asks {p : TaskKind → Bool} {u n : UnitName} {l : Label} {i : JobId}
    {kind : TaskKind} (h : ¬ l.asks p u) (hc : l.call i = some (kind, n)) (hk : p kind = true) :
    n ≠ u := by
  rintro rfl
  exact h ⟨i, kind, hc, hk⟩

/-- The task is such a call of the unit. -/
def Task.isCall (p : TaskKind → Bool) (u : UnitName) (t : Task) : Bool := t.unit = u && p t.kind

theorem Task.isCall_iff {p : TaskKind → Bool} {u : UnitName} {t : Task} :
    t.isCall p u = true ↔ t.unit = u ∧ p t.kind = true := by
  simp [Task.isCall]

namespace World

variable {w w' : World} {u : UnitName} {p : TaskKind → Bool}

/-- No such call of the unit is in flight. -/
def Idle (p : TaskKind → Bool) (u : UnitName) (w : World) : Prop :=
  ∀ t ∈ w.tasks, t.isCall p u = true → t.ops = []

/-- Such calls of the unit that were put in flight so far. -/
def calls (p : TaskKind → Bool) (w : World) (u : UnitName) : Nat := w.tasks.countP (Task.isCall p u)

/-- The next state has no such call in flight either, and none was put in flight. -/
structure StaysIdle (p : TaskKind → Bool) (u : UnitName) (w w' : World) : Prop where
  idle : Idle p u w'
  calls : w'.calls p u = w.calls p u

/-! ## No call is put in flight -/

theorem staysIdle_append {t : Task} (h : Idle p u w) (ht : w'.tasks = w.tasks ++ [t])
    (hno : ¬ t.isCall p u = true) : StaysIdle p u w w' := by
  refine ⟨?_, ?_⟩
  · intro s hs hcall
    rw [ht] at hs
    cases List.mem_append.mp hs with
    | inl hs => exact h s hs hcall
    | inr hs => exact absurd (List.mem_singleton.mp hs ▸ hcall) hno
  · unfold World.calls
    rw [ht, List.countP_append, List.countP_singleton, if_neg hno, Nat.add_zero]

theorem staysIdle_same (h : Idle p u w) (ht : w'.tasks = w.tasks) : StaysIdle p u w w' := by
  refine ⟨fun t hm => h t (ht ▸ hm), ?_⟩
  unfold World.calls
  rw [ht]

theorem staysIdle_act {t : Task} (hp : OnRequest p) (ht : ¬ t.isCall p u = true) (h : Idle p u w)
    (a : Act) : StaysIdle p u w (w.act t a) := by
  obtain he | ⟨-, R, -, he⟩ | ⟨-, id, r, hk, -, R, -, he⟩ := act_tasks w t a
  · exact staysIdle_same h he
  · refine staysIdle_append h he ?_
    rw [Task.isCall_iff, hp.supervise]
    simp
  · refine staysIdle_append h he ?_
    intro hstart
    obtain ⟨hu, hstart⟩ := Task.isCall_iff.mp hstart
    exact ht (Task.isCall_iff.mpr ⟨hu, hk ▸ hp.restart id hstart⟩)

/-- **No call is made by itself.** -/
theorem staysIdle_step {l : Label} (hp : OnRequest p) (h : Idle p u w) (hl : ¬ l.asks p u)
    (hs : w.step l = some w') : StaysIdle p u w w' := by
  have hrequest : ∀ {kind n}, l.call w.mgr.allocJobId.1 = some (kind, n) → StaysIdle p u w w' := by
    intro kind n hcall
    obtain ⟨-, ⟨he, -⟩ | ⟨r, -, ⟨R, -, he⟩, -⟩⟩ := request_tasks hcall hs
    · exact staysIdle_same h he
    · refine staysIdle_append h he ?_
      intro hc
      obtain ⟨rfl, hk⟩ := Task.isCall_iff.mp hc
      exact hl ⟨_, _, hcall, hk⟩
  cases l with
  | startUnit n | stopUnit n | restartUnit n | reloadUnit n | fire timer n => exact hrequest rfl
  | daemonReload disk =>
    obtain ⟨-, rfl⟩ := ifFree_eq hs
    exact staysIdle_same h rfl
  | reloadStep =>
    obtain ⟨-, rfl⟩ | ⟨op, rest, -, ho⟩ := reloadStep_cases hs
    · exact staysIdle_same h rfl
    · exact staysIdle_same h (reloadOp_tasks ho)
  | exit q =>
    obtain rfl := Option.some.inj hs
    exact staysIdle_same h rfl
  | task i resp =>
    obtain ⟨t, op, rest, R, reply, ht, hops, -, -, rfl⟩ := runTask_cases hs
    -- a task of the unit that takes a step is no such call
    have hno : ¬ t.isCall p u = true := by
      intro hc
      have hnil := h t (List.mem_of_getElem? ht) hc
      rw [hops] at hnil
      exact absurd hnil (by simp)
    have hcount := countP_set_of_getElem? (p := Task.isCall p u) ht { t with ops := reply.ops }
    have hsame : Task.isCall p u { t with ops := reply.ops } = Task.isCall p u t := rfl
    have hstep : StaysIdle p u w { w with
        runners := w.runners.set t.runner reply.runner
        tasks := w.tasks.set i { t with ops := reply.ops }
        lock := w.lockAfter i reply.ops } := by
      refine ⟨forall_mem_set (P := fun s : Task => s.isCall p u = true → s.ops = []) h ?_, ?_⟩
      · exact fun hc => absurd hc hno
      · rw [hsame] at hcount
        show (w.tasks.set i { t with ops := reply.ops }).countP (Task.isCall p u) = _
        unfold World.calls
        omega
    exact foldl_act_inv (P := StaysIdle p u w) (fun v a _ hv => ⟨(staysIdle_act hp hno hv.idle a).idle,
      (staysIdle_act hp hno hv.idle a).calls.trans hv.calls⟩) hstep

/-! ## What a unit shows -/

/-- Its status is such a state, and a reload in progress puts in no other. -/
structure Shows (q : ActiveState → Prop) (u : UnitName) (w : World) : Prop where
  status : ∀ st, w.mgr.status.get? u = some st → q st.active
  installs : ∀ ops, w.reloading = some ops → ∀ spec st new,
    ReloadOp.install u spec st new ∈ ops → q st.active

variable {q : ActiveState → Prop}

/-- A mark of another unit, or one with such a state. -/
theorem shows_mark {m : Manager} (h : Shows q u { w with mgr := m }) {n : UnitName}
    {a : ActiveState} {s : SubState} (ha : n = u → q a) :
    Shows q u { w with mgr := m.markState n a s } := by
  refine ⟨?_, h.installs⟩
  intro st hst
  have hget : (m.markState n a s).status.get? u = some st := hst
  rw [Manager.markState_status] at hget
  split at hget
  next hn =>
    obtain ⟨st', -, rfl⟩ := Option.map_eq_some_iff.mp hget
    exact ha hn.symm
  next => exact h.status st hget

/-- Only status and lock matter. -/
theorem Shows.of_same (h : Shows q u w) (hst : w'.mgr.status = w.mgr.status)
    (hl : w'.reloading = w.reloading) : Shows q u w' :=
  ⟨hst ▸ h.status, hl ▸ h.installs⟩

theorem shows_startUnit (h : Shows q u w) {n : UnitName} (hn : n ≠ u) :
    Shows q u (w.startUnit n) := by
  have hmark : ∀ (m : Manager) (a : ActiveState) (s : SubState), Shows q u { w with mgr := m } →
      Shows q u { w with mgr := m.markState n a s } :=
    fun m a s hm => shows_mark hm fun he => absurd he hn
  have hjob : Shows q u { w with mgr := (w.mgr.newJob n .start).2 } := h.of_same rfl rfl
  have hmgr : Shows q u { w with mgr := (w.mgr.startUnit n).mgr } := by
    simp only [Manager.startUnit]
    split
    · simp only [Manager.spawnServiceStart]
      split
      · exact hjob
      · exact hmark _ _ _ hjob
    · exact (hmark _ _ _ hjob).of_same rfl rfl
  simp only [startUnit]
  split
  · refine hmgr.of_same (by rw [spawnTask_mgr]) ?_
    unfold reloading
    rw [spawnTask_lock]
  · exact hmgr

theorem shows_act {t : Task} {a : Act} (h : Shows q u w)
    (ha : t.unit = u → a ≠ .respawn ∧ ∀ st s, a = .mark st s → q st) :
    Shows q u (w.act t a) := by
  have hself : Shows q u { w with mgr := w.mgr } := h
  have hlock : (w.act t a).reloading = w.reloading := by
    unfold reloading
    rw [act_lock]
  cases a with
  | spawn pid main | kill k | reap p => exact h.of_same rfl rfl
  | mark st s => exact shows_mark hself fun hu => (ha hu).2 st s rfl
  | supervise =>
    refine h.of_same ?_ hlock
    simp only [act]
    split
    · rw [spawnTask_mgr]
    · rfl
  | jobRemoved o =>
    refine h.of_same ?_ hlock
    simp only [act]
    split <;> rfl
  | respawn =>
    have hne : t.unit ≠ u := fun hu => (ha hu).1 rfl
    have hmgr : Shows q u { w with mgr := (w.mgr.spawnServiceStart t.unit).1 } := by
      simp only [Manager.spawnServiceStart]
      split
      · exact hself
      · exact shows_mark hself fun hu => absurd hu hne
    refine hmgr.of_same ?_ hlock
    simp only [act, respawn]
    split
    next heq _ => rw [spawnTask_mgr, heq]
    next heq _ => rw [heq]
theorem shows_request (hq : q .inactive) {l : Label} {kind : TaskKind} {n : UnitName} (hk : u.kind = .service)
    (h : Shows q u w) (hl : ¬ l.asks TaskKind.starts u)
    (hcall : l.call w.mgr.allocJobId.1 = some (kind, n))
    (hs : w.step l = some w') : Shows q u w' := by
  have hjob : ∀ m : Manager, m.status = w.mgr.status → Shows q u { w with mgr := m } :=
    fun m hm => h.of_same hm rfl
  have hlocked : ∀ (m : Manager) (k : TaskKind) (n : UnitName) (r : RunnerId),
      m.status = w.mgr.status → w.lock = .free →
      Shows q u (({ w with mgr := m } : World).spawnLocked k n r) := by
    intro m k n r hm hfree
    refine h.of_same (by rw [spawnLocked_mgr]; exact hm) ?_
    exact (spawnLocked_reloading { w with mgr := m } k n r hfree).trans
      (reloading_of_free hfree).symm
  cases l with
  | startUnit name =>
    obtain ⟨-, rfl⟩ := ifFree_eq hs
    exact shows_startUnit h (Label.ne_of_not_asks (i := w.mgr.allocJobId.1) hl rfl rfl)
  | stopUnit name =>
    obtain ⟨hfree, rfl⟩ := ifFree_eq hs
    simp only [stopUnit]
    split
    · exact hlocked _ _ _ _ (Manager.newJob_status _ _ _) hfree
    · have hmark := shows_mark (n := name) (a := .inactive) (s := .dead)
        (hjob (w.mgr.newJob name .stop).2 rfl) fun _ => hq
      exact hmark.of_same rfl rfl
  | restartUnit name =>
    obtain ⟨hfree, rfl⟩ := ifFree_eq hs
    simp only [restartUnit]
    split
    · exact hlocked _ _ _ _ (Manager.newJob_status _ _ _) hfree
    · have hmark := shows_mark (n := name) (a := .inactive) (s := .dead)
        (hjob (w.mgr.newJob name .restart).2 rfl) fun _ => hq
      split
      · exact hmark
      · have hrun := shows_mark (n := name) (a := .active) (s := Manager.startedSub name.kind)
          hmark fun he => absurd he (Label.ne_of_not_asks (i := w.mgr.allocJobId.1) hl rfl rfl)
        exact hrun.of_same rfl rfl
  | reloadUnit name =>
    obtain ⟨hfree, rfl⟩ := ifFree_eq hs
    simp only [reloadUnit]
    split
    · exact hlocked _ _ _ _ (Manager.newJob_status _ _ _) hfree
    · exact h.of_same rfl rfl
  | fire timer target =>
    simp only [step] at hs
    split at hs
    next htimer =>
      obtain ⟨-, rfl⟩ := ifFree_eq hs
      -- the timer is no service
      have hne : timer = u → q .active := by
        intro he
        rw [he, hk] at htimer
        exact absurd htimer (by simp)
      have hstart := shows_startUnit (shows_mark (s := .running) (hjob w.mgr rfl) hne)
        (Label.ne_of_not_asks (i := w.mgr.allocJobId.1) hl rfl rfl)
      simp only [fire]
      split
      · exact hstart
      · exact shows_mark hstart hne
    next => exact absurd hs (by simp)
  | daemonReload disk | reloadStep | task i resp | exit p =>
    exact absurd hcall (by simp [Label.call])

theorem shows_reloadOp (hq : q .inactive) {rest : List ReloadOp} {op : ReloadOp} (h : Shows q u w)
    (hl : w.lock = .reload (op :: rest)) (hs : w.reloadOp rest op = some w') : Shows q u w' := by
  have hpend := h.installs _ (reloading_of_lock hl)
  have hrest : ∀ spec st new, ReloadOp.install u spec st new ∈ rest → q st.active :=
    fun spec st new hm => hpend spec st new (List.mem_cons_of_mem _ hm)
  have hcopy : w'.mgr = w.mgr → w'.lock = .reload rest → Shows q u w' := by
    intro hmgr hlock
    refine ⟨hmgr ▸ h.status, ?_⟩
    intro ops hops
    obtain rfl := Option.some.inj ((reloading_of_lock hlock).symm.trans hops)
    exact hrest
  cases op with
  | unit name spec =>
    -- the status that the unit comes back with
    have hst : name = u → q (reloadedStatus w.mgr name spec).active := by
      rintro rfl
      unfold reloadedStatus
      split
      next st hget => exact h.status st hget
      next => exact hq
    have hstatus : ∀ st, (w.mgr.status.erase name).get? u = some st → q st.active := by
      intro st hget
      by_cases hn : u = name
      · subst hn
        rw [IndexMap.get?_erase_self] at hget
        exact absurd hget (by simp)
      · exact h.status st ((IndexMap.get?_erase_ne hn _).symm.trans hget)
    have hinstall : ∀ (copies : List ReloadOp) (r : Option RunnerId),
        (∀ c ∈ copies, c.isCopy = true) → ∀ spec' st new, ReloadOp.install u spec' st new ∈
          copies ++ .install name spec (reloadedStatus w.mgr name spec) r :: rest →
        q st.active := by
      intro copies r hcopies spec' st new hm
      cases List.mem_append.mp hm with
      | inl hm => exact absurd (hcopies _ hm) (by simp [ReloadOp.isCopy])
      | inr hm =>
        cases List.mem_cons.mp hm with
        | inl he =>
          obtain ⟨hu, -, rfl, -⟩ := ReloadOp.install.inj he
          exact hst hu.symm
        | inr hm => exact hrest spec' st new hm
    simp only [reloadOp] at hs
    split at hs
    next svc hk =>
      obtain rfl := Option.some.inj hs
      refine ⟨hstatus, ?_⟩
      intro ops hops
      obtain rfl := Option.some.inj ((reloading_of_lock rfl).symm.trans hops)
      refine hinstall _ _ ?_
      split
      · simp [ReloadOp.isCopy]
      · simp
    next =>
      obtain rfl := Option.some.inj hs
      refine ⟨hstatus, ?_⟩
      intro ops hops
      obtain rfl := Option.some.inj ((reloading_of_lock rfl).symm.trans hops)
      exact hinstall [] none (by simp)
  | copyState new old | copySub new old | copyPid new old | moveChild new old =>
    obtain ⟨_, _, _, _, _, he, -⟩ | ⟨-, hmgr, hlock⟩ | ⟨_, _, _, _, he, -⟩ := reloadOp_cases hs
    · exact absurd he (by simp)
    · exact hcopy hmgr hlock
    · exact absurd he (by simp)
  | install name spec st new =>
    obtain rfl := Option.some.inj hs
    refine ⟨?_, ?_⟩
    · intro st' hget
      have hget' : (w.mgr.status.insert name st).get? u = some st' := hget
      by_cases hn : u = name
      · subst hn
        rw [IndexMap.get?_insert_self] at hget'
        obtain rfl := Option.some.inj hget'
        exact hpend spec st new List.mem_cons_self
      · exact h.status st' ((IndexMap.get?_insert_ne hn _ _).symm.trans hget')
    · intro ops hops
      obtain rfl := Option.some.inj ((reloading_of_lock rfl).symm.trans hops)
      exact hrest

/-- The status of a unit that a reload does not find is dropped, the others stay. -/
theorem foldl_dropUnit_status {st : UnitStatus} : ∀ (l : List UnitName) (m : Manager),
    (l.foldl dropUnit m).status.get? u = some st → m.status.get? u = some st
  | [], _, h => h
  | n :: l, m, h => by
    have herase : (m.status.erase n).get? u = some st := foldl_dropUnit_status l (dropUnit m n) h
    by_cases hn : u = n
    · subst hn
      rw [IndexMap.get?_erase_self] at herase
      exact absurd herase (by simp)
    · exact (IndexMap.get?_erase_ne hn _).symm.trans herase

/-- **A service that nobody starts shows what its tasks mark it with.** -/
theorem shows_step {l : Label} (hk : u.kind = .service) (hq : q .inactive) (h : Shows q u w)
    (hl : ¬ l.asks TaskKind.starts u)
    (hacts : ∀ i resp t op rest R reply, l = .task i resp → w.tasks[i]? = some t →
      t.ops = op :: rest → w.runners[t.runner]? = some R →
      Op.run w.procs (w.lock = .free) t.kind R rest resp op = some reply → t.unit = u →
      ∀ a ∈ reply.acts, a ≠ .respawn ∧ ∀ st s, a = .mark st s → q st)
    (hs : w.step l = some w') : Shows q u w' := by
  cases l with
  | startUnit n | stopUnit n | restartUnit n | reloadUnit n | fire timer n =>
    exact shows_request hq hk h hl rfl hs
  | exit p =>
    obtain rfl := Option.some.inj hs
    exact h.of_same rfl rfl
  | daemonReload disk =>
    obtain ⟨-, rfl⟩ := ifFree_eq hs
    refine ⟨?_, ?_⟩
    · intro st hst
      exact h.status st (foldl_dropUnit_status _ _ hst)
    · intro ops hops spec st new hm
      obtain rfl := Option.some.inj ((reloading_of_lock rfl).symm.trans hops)
      obtain ⟨e, -, he⟩ := List.mem_map.mp hm
      exact absurd he (by simp)
  | reloadStep =>
    obtain ⟨-, rfl⟩ | ⟨op, rest, hlock, ho⟩ := reloadStep_cases hs
    · exact ⟨h.status, fun ops hops => absurd hops (by simp [reloading, Lock.pending])⟩
    · exact shows_reloadOp hq h hlock ho
  | task i resp =>
    have hre := reloading_step hs (by simp) (by simp)
    obtain ⟨t, op, rest, R, reply, ht, hops, hR, hreply, rfl⟩ := runTask_cases hs
    have hall := hacts i resp t op rest R reply rfl ht hops hR hreply
    refine foldl_act_inv (P := Shows q u) (fun v a ha hv => ?_) (h.of_same rfl ?_)
    · exact shows_act hv fun hu => hall hu a ha
    · rw [← hre]
      unfold reloading
      rw [foldl_act_lock]

/-! ## The unit stays at rest -/

/-- Its status says so, and a reload in progress puts in no other. -/
structure Settled (u : UnitName) (w : World) : Prop where
  status : ∀ st, w.mgr.status.get? u = some st → st.active.atRest = true
  installs : ∀ ops, w.reloading = some ops → ∀ spec st new,
    ReloadOp.install u spec st new ∈ ops → st.active.atRest = true

theorem settled_iff : Settled u w ↔ Shows (fun a => a.atRest = true) u w :=
  ⟨fun h => ⟨h.status, h.installs⟩, fun h => ⟨h.status, h.installs⟩⟩

/-- A task of a unit that is not being started leaves it at rest. -/
theorem settled_acts {t : Task} {op : Op} {rest : List Op} {R : Runner} {resp : Response}
    {reply : Reply} {procs : List Proc} {free : Bool} (hstarts : t.kind.starts = false)
    (hprog : t.kind.job.isSome = true → Program t.kind (op :: rest))
    (hsup : t.kind = .supervise → ∀ o ∈ op :: rest, o.ofSupervisor = true)
    (hreply : op.run procs free t.kind R rest resp = some reply) :
    ∀ a ∈ reply.acts, a ≠ .respawn ∧ ∀ st s, a = .mark st s → st.atRest = true := by
  intro a ha
  cases hjob : t.kind.job with
  | none =>
    have hkind : t.kind = .supervise := by
      cases hk : t.kind with
      | supervise => rfl
      | start id | stop id | restart id | reload id =>
        rw [hk] at hjob
        exact absurd hjob (by simp [TaskKind.job])
    have hall := hsup hkind
    have hwatch := Op.run_supervisor (hall op List.mem_cons_self)
      (fun o ho => hall o (List.mem_cons_of_mem op ho)) hreply
    obtain ⟨k, rfl⟩ | ⟨st, s, rfl, hrest⟩ := hwatch.acts a ha
    · exact ⟨by simp, by simp⟩
    · refine ⟨by simp, ?_⟩
      intro st' s' he
      obtain ⟨rfl, rfl⟩ := Act.mark.inj he
      exact hrest
  | some id =>
    have hprog' := hprog (by rw [hjob]; rfl)
    have hnot : ∀ i, t.kind ≠ .start i ∧ t.kind ≠ .restart i := by
      intro i
      refine ⟨fun hk => ?_, fun hk => ?_⟩
      · rw [hk] at hstarts
        exact absurd hstarts (by simp [TaskKind.starts])
      · rw [hk] at hstarts
        exact absurd hstarts (by simp [TaskKind.starts])
    refine ⟨?_, ?_⟩
    · rintro rfl
      obtain hgo | ⟨-, -, o, hacts⟩ | ⟨-, ⟨i, hk⟩, -⟩ := Op.run_program hprog' hreply
      · exact absurd (hgo.quiet _ ha) (by simp [Act.isQuiet])
      · rw [hacts] at ha
        exact absurd ha (by simp)
      · exact (hnot i).2 hk
    · rintro st s rfl
      -- neither a start nor a supervisor publishes here
      have hop : op.isLast t.kind = true ∨ op.isInner t.kind = true := by
        cases hprog' with
        | last hop => exact Or.inl hop
        | cons hop _ => exact Or.inr hop
      obtain ⟨o, rfl⟩ | ⟨-, rfl, -⟩ | rfl := Op.run_marks hreply ha
      · cases hk : t.kind with
        | start i => exact absurd hk (hnot i).1
        | stop i | restart i | reload i | supervise =>
          rw [hk] at hop
          exact absurd hop (by simp [Op.isLast, Op.isInner, Op.ofStop, Op.isCommon])
      · rfl
      · cases hk : t.kind with
        | start i => exact absurd hk (hnot i).1
        | stop i | restart i | reload i | supervise =>
          rw [hk] at hop
          exact absurd hop (by simp [Op.isLast, Op.isInner, Op.ofStop, Op.isCommon])

/-- **A service at rest that nobody starts stays at rest.** -/
theorem settled_step {l : Label} (hk : u.kind = .service) (hw : Sound w) (hno : Idle TaskKind.starts u w)
    (h : Settled u w) (hl : ¬ l.asks TaskKind.starts u) (hs : w.step l = some w') :
    Settled u w' := by
  refine settled_iff.mpr (shows_step hk rfl (settled_iff.mp h) hl ?_ hs)
  intro i resp t op rest R reply _ ht hops _ hreply hu
  have hmem := List.mem_of_getElem? ht
  refine settled_acts ?_ ?_ ?_ hreply
  · by_contra hstart
    have hnil := hno t hmem (Task.isCall_iff.mpr ⟨hu, by simpa using hstart⟩)
    rw [hops] at hnil
    exact absurd hnil (by simp)
  · intro hjob
    cases hw.shaped t hmem hjob with
    | inl hnil =>
      rw [hops] at hnil
      exact absurd hnil (by simp)
    | inr hprog => exact hops ▸ hprog
  · intro hkind
    exact hops ▸ hw.supervised t hmem hkind

end World

end Systeml.Runtime
