import Systeml.Runtime.Rest
import Systeml.Runtime.Survives

/-!
# The exit of a main process

A supervisor settles its runner and then publishes the exit: state, sub and pid are
written one after the other (`ExitStage`). The runner it settles is the one in `services`
as long as no reload put in another one while the supervisor was in flight, and what it
wrote stays as long as no stop comes in between.
-/

namespace Systeml.Runtime

open Systeml.Lib Systeml.Unit Systeml.Deps

/-! ## The program of a supervisor -/

/-- How far a supervisor is with its runner. -/
inductive ExitStage (R : Runner) : List Op → Prop
  | ended : ExitStage R []
  | waits (op : Op) (h : op.watches = true ∨ ∃ clean, op = .checkStopping clean) : ExitStage R [op]
  | state (a : ActiveState) (s : SubState) :
    ExitStage R [.setState a, .setSub s, .setMainPid none, .publishExit a s]
  | sub (s : SubState) : ExitStage R [.setSub s, .setMainPid none, .publishExit R.state s]
  | pid (s : SubState) : ExitStage R [.setMainPid none, .publishExit R.state s]
  | publish (s : SubState) (hpid : R.mainPid = none) : ExitStage R [.publishExit R.state s]

/-- The supervisor has seen the exit, and that no stop is in progress, and has not
published it yet. -/
def settling (ops : List Op) : Bool :=
  ops.any fun o => match o with
    | .publishExit .. => true
    | _ => false

theorem ExitStage.of_not_settling {R R' : Runner} {ops : List Op} (h : ExitStage R ops)
    (hno : settling ops = false) : ExitStage R' ops := by
  cases h with
  | ended => exact .ended
  | waits op h => exact .waits op h
  | state a s | sub s | pid s | publish s hpid => exact absurd hno (by simp [settling])

theorem ExitStage.of_alike {R R' : Runner} {ops : List Op} (h : ExitStage R ops)
    (halike : R.Alike R') : ExitStage R' ops := by
  cases h with
  | ended => exact .ended
  | waits op h => exact .waits op h
  | state a s => exact .state a s
  | sub s => exact halike.state ▸ .sub s
  | pid s => exact halike.state ▸ .pid s
  | publish s hpid => exact halike.state ▸ .publish s (halike.mainPid.trans hpid)

/-- **One step of a supervisor.** It begins to settle its runner after the check only. -/
theorem Op.run_exitStage {procs : List Proc} {free : Bool} {kind : TaskKind} {R : Runner}
    {rest : List Op} {resp : Response} {op : Op} {reply : Reply} (hst : ExitStage R (op :: rest))
    (h : op.run procs free kind R rest resp = some reply) :
    ExitStage reply.runner reply.ops ∧ (settling reply.ops = true → settling (op :: rest) = true ∨
      (∃ clean, op = .checkStopping clean) ∧ R.stopping = false) := by
  cases hst with
  | waits _ hop =>
    cases op with
    | takeChild =>
      obtain ⟨c, -, rfl⟩ | ⟨-, rfl⟩ := runTakeChild_cases h
      · exact ⟨.waits _ (Or.inl rfl), by simp [settling]⟩
      · exact ⟨.waits _ (Or.inl rfl), by simp [settling]⟩
    | waitMain c =>
      obtain ⟨clean, -, rfl⟩ | rfl := runWait_cases h
      · exact ⟨.waits _ (Or.inr ⟨clean, rfl⟩), by simp [settling]⟩
      · exact ⟨.waits _ (Or.inl rfl), by simp [settling]⟩
    | readPollPid =>
      simp only [run] at h
      split at h
      · exact Option.some.inj h ▸ ⟨.waits _ (Or.inl rfl), by simp [settling]⟩
      · exact Option.some.inj h ▸ ⟨.ended, by simp [settling]⟩
    | poll p =>
      simp only [run] at h
      split at h
      · split at h
        · exact Option.some.inj h ▸ ⟨.waits _ (Or.inr ⟨true, rfl⟩), by simp [settling]⟩
        · exact absurd h (by simp)
      · exact absurd h (by simp)
    | checkStopping clean =>
      refine Option.some.inj h ▸ ?_
      unfold runCheckStopping
      split
      · exact ⟨.ended, by simp [settling]⟩
      next hstop => exact ⟨.state _ _, fun _ => Or.inr ⟨⟨clean, rfl⟩, by simpa using hstop⟩⟩
    | _ =>
      obtain hop | ⟨clean, hop⟩ := hop
      · exact absurd hop (by simp [watches])
      · exact absurd hop (by simp)
  | state a s => exact Option.some.inj h ▸ ⟨.sub s, fun _ => Or.inl rfl⟩
  | sub s => exact Option.some.inj h ▸ ⟨.pid s, fun _ => Or.inl rfl⟩
  | pid s => exact Option.some.inj h ▸ ⟨.publish s rfl, fun _ => Or.inl rfl⟩
  | publish s hpid =>
    simp only [run] at h
    split at h
    · exact Option.some.inj h ▸ ⟨.ended, by simp [settling]⟩
    · exact absurd h (by simp)

/-- The call is asked for, and no stop. -/
def TaskKind.drives : TaskKind → Bool
  | .start _ | .restart _ | .reload _ => true
  | .stop _ | .supervise => false

def TaskKind.isStop : TaskKind → Bool
  | .stop _ => true
  | _ => false

theorem onRequest_drives : OnRequest TaskKind.drives := ⟨rfl, fun _ _ => rfl⟩

theorem onRequest_isStop : OnRequest TaskKind.isStop :=
  ⟨rfl, fun _ h => absurd h (by simp [TaskKind.isStop])⟩

namespace World

variable {w w' : World} {u : UnitName} {i : TaskId} {r : RunnerId} {l : Label}

/-! ## What happens to a runner -/

/-- **A runner changes** by a step of a task that drives it, or a copy of a reload. -/
theorem runner_step {R : Runner} (hR : w.runners[r]? = some R) (hs : w.step l = some w') :
    (∃ j resp t op rest reply, l = .task j resp ∧ w.tasks[j]? = some t ∧ t.runner = r ∧
      t.ops = op :: rest ∧ op.run w.procs (w.lock = .free) t.kind R rest resp = some reply ∧
      w'.runners[r]? = some reply.runner) ∨
    (∃ op rest old, l = .reloadStep ∧ w.lock = .reload (op :: rest) ∧ op ∈ copies r old) ∨
    ∃ R', w'.runners[r]? = some R' ∧ R.Alike R' := by
  have hsame : w'.runners = w.runners → ∃ R', w'.runners[r]? = some R' ∧ R.Alike R' :=
    fun he => ⟨R, he ▸ hR, .refl R⟩
  by_cases hl : l = .reloadStep
  · subst hl
    obtain ⟨-, rfl⟩ | ⟨op, rest, hlock, ho⟩ := reloadStep_cases hs
    · exact Or.inr (Or.inr (hsame rfl))
    · by_cases hcopy : ∃ old, op ∈ copies r old
      · obtain ⟨old, hop⟩ := hcopy
        exact Or.inr (Or.inl ⟨op, rest, old, rfl, hlock, hop⟩)
      · have hne : ∀ new old, op ∈ copies new old → new ≠ r := by
          rintro new old hop rfl
          exact hcopy ⟨old, hop⟩
        cases reloadOp_runner hR hne ho with
        | inl he => exact Or.inr (Or.inr ⟨_, he, .refl R⟩)
        | inr he => exact Or.inr (Or.inr ⟨_, he, rfl, rfl, rfl⟩)
  by_cases hi : ∃ j resp, l = .task j resp
  · obtain ⟨j, resp, rfl⟩ := hi
    obtain ⟨t, op, rest, Q, reply, ht, hops, hQ, hreply, rfl⟩ := runTask_cases hs
    by_cases hr : t.runner = r
    · subst hr
      obtain rfl := Option.some.inj (hR.symm.trans hQ)
      refine Or.inl ⟨j, resp, t, op, rest, reply, rfl, ht, rfl, hops, hreply, ?_⟩
      rw [foldl_act_runners]
      exact List.getElem?_set_self (List.getElem?_eq_some_iff.mp hR).1
    · refine Or.inr (Or.inr ⟨R, ?_, .refl R⟩)
      rw [foldl_act_runners]
      exact (List.getElem?_set_ne hr).trans hR
  by_cases he : ∃ p, l = .exit p
  · obtain ⟨p, rfl⟩ := he
    obtain rfl := Option.some.inj hs
    exact Or.inr (Or.inr (hsame rfl))
  · exact Or.inr (Or.inr (hsame
      (request_sameHeap hs hl (fun j resp h => hi ⟨j, resp, h⟩) fun p h => he ⟨p, h⟩).runners))

/-- One that is in use is not copied to. -/
theorem runner_step_used {R : Runner} (ho : Ordered w) (hused : ¬ Unused w r)
    (hR : w.runners[r]? = some R) (hs : w.step l = some w') :
    (∃ j resp t op rest reply, l = .task j resp ∧ w.tasks[j]? = some t ∧ t.runner = r ∧
      t.ops = op :: rest ∧ op.run w.procs (w.lock = .free) t.kind R rest resp = some reply ∧
      w'.runners[r]? = some reply.runner) ∨
    ∃ R', w'.runners[r]? = some R' ∧ R.Alike R' := by
  obtain htask | ⟨op, rest, old, -, hlock, hop⟩ | hsame := runner_step hR hs
  · exact Or.inl htask
  · exact absurd ((ho _ (reloading_of_lock hlock)).unused hop) hused
  · exact Or.inr hsame

/-- Tasks that share a runner share the unit. -/
theorem unit_eq (hw : Wired w) {t : Task} (ht : t ∈ w.tasks) (h : HasRunner w t.runner u) :
    t.unit = u := by
  obtain ⟨R, hR, hu⟩ := hw.tasks t ht
  obtain ⟨R', hR', hu'⟩ := h
  obtain rfl := Option.some.inj (hR.symm.trans hR')
  exact hu.symm.trans hu'

/-- **Where a supervisor of the unit comes from**, while only stops of it are in flight: it
was in flight before, and may have taken this step. -/
theorem supervisor_from (hw : Sound w) (hidle : Idle TaskKind.drives u w)
    (hs : w.step l = some w') {j : TaskId} {t' : Task} (ht' : w'.tasks[j]? = some t')
    (hu : t'.unit = u) (hk : t'.kind = .supervise) :
    w.tasks[j]? = some t' ∨ ∃ resp t, l = .task j resp ∧ w.tasks[j]? = some t ∧ t.ops ≠ [] ∧
      t.kind = .supervise ∧ t.unit = u ∧ t.runner = t'.runner := by
  have hrequest : ∀ {kind n}, l.call w.mgr.allocJobId.1 = some (kind, n) → kind ≠ .supervise →
      w.tasks[j]? = some t' := by
    intro kind n hcall hne
    obtain ⟨-, ⟨he, -⟩ | ⟨q, -, ⟨R, -, he⟩, -⟩⟩ := request_tasks hcall hs
    · exact he ▸ ht'
    · rw [he] at ht'
      obtain hold | ⟨-, rfl⟩ := getElem?_append_singleton ht'
      · exact hold
      · exact absurd hk hne
  cases l with
  | startUnit n | stopUnit n | restartUnit n | reloadUnit n | fire timer n =>
    exact Or.inl (hrequest rfl (by simp))
  | daemonReload disk =>
    obtain ⟨-, rfl⟩ := ifFree_eq hs
    exact Or.inl ht'
  | reloadStep =>
    obtain ⟨-, rfl⟩ | ⟨op, rest, -, ho⟩ := reloadStep_cases hs
    · exact Or.inl ht'
    · exact Or.inl (reloadOp_tasks ho ▸ ht')
  | exit p =>
    obtain rfl := Option.some.inj hs
    exact Or.inl ht'
  | task k resp =>
    obtain ⟨t, op, rest, R, reply, ht, hops, hR, hreply, rfl⟩ := runTask_cases hs
    have hmem := List.mem_of_getElem? ht
    -- no task of the unit puts a supervisor in flight
    have hno : t.unit = u → Act.supervise ∉ reply.acts := by
      intro htu ha
      cases Op.run_does hreply _ ha with
      | supervise o s _ =>
        cases hkind : t.kind with
        | start id | restart id | reload id =>
          have hnil := hidle t hmem (Task.isCall_iff.mpr ⟨htu, hkind ▸ rfl⟩)
          rw [hops] at hnil
          exact absurd hnil (by simp)
        | supervise =>
          have hsup := hw.supervised t hmem hkind (.publish o .active s)
            (hops ▸ List.mem_cons_self)
          exact absurd hsup (by simp [Op.ofSupervisor])
        | stop id =>
          cases hw.shaped t hmem (by rw [hkind]; rfl) with
          | inl hnil =>
            rw [hops] at hnil
            exact absurd hnil (by simp)
          | inr hprog =>
            rw [hkind, hops] at hprog
            cases hprog with
            | last hlast => exact absurd hlast (by simp [Op.isLast])
            | cons hinner _ =>
              exact absurd hinner (by simp [Op.isInner, Op.ofStop, Op.isCommon])
    -- the tasks after the acts
    have hafter : ∀ acts : List Act, (∀ a ∈ acts, a ∈ reply.acts) → ∀ v : World,
        (v.tasks[j]? = some t' → (w.tasks.set k { t with ops := reply.ops })[j]? = some t') →
        (acts.foldl (fun v a => v.act t a) v).tasks[j]? = some t' →
        (w.tasks.set k { t with ops := reply.ops })[j]? = some t' := by
      intro acts
      induction acts with
      | nil => exact fun _ v hv => hv
      | cons a acts ih =>
        intro hacts v hv
        refine ih (fun b hb => hacts b (List.mem_cons_of_mem a hb)) (v.act t a) ?_
        intro hget
        obtain he | ⟨rfl, _, -, he⟩ | ⟨-, _, _, -, -, _, -, he⟩ := act_tasks v t a
        · exact hv (he ▸ hget)
        · rw [he] at hget
          obtain hold | ⟨-, rfl⟩ := getElem?_append_singleton hget
          · exact hv hold
          · exact absurd (hacts _ List.mem_cons_self) (hno hu)
        · rw [he] at hget
          obtain hold | ⟨-, rfl⟩ := getElem?_append_singleton hget
          · exact hv hold
          · exact absurd hk (by simp)
    have hset := hafter reply.acts (fun _ ha => ha) _ id ht'
    by_cases hj : k = j
    · subst hj
      rw [List.getElem?_set_self (List.getElem?_eq_some_iff.mp ht).1] at hset
      obtain rfl := Option.some.inj hset
      exact Or.inr ⟨resp, t, rfl, ht, by rw [hops]; simp, hk, hu, rfl⟩
    · rw [List.getElem?_set_ne hj] at hset
      exact Or.inl hset

/-- The step of a task, on the task and its runner. -/
theorem task_taken {resp : Response} (hs : w.step (.task i resp) = some w') :
    ∃ t op rest R reply, w.tasks[i]? = some t ∧ t.ops = op :: rest ∧
      w.runners[t.runner]? = some R ∧
      op.run w.procs (w.lock = .free) t.kind R rest resp = some reply ∧
      w'.tasks[i]? = some { t with ops := reply.ops } ∧
      w'.runners[t.runner]? = some reply.runner := by
  obtain ⟨t, op, rest, R, reply, ht, hops, hR, hreply, rfl⟩ := runTask_cases hs
  refine ⟨t, op, rest, R, reply, ht, hops, hR, hreply, ?_, ?_⟩
  · refine foldl_act_inv (P := fun v => v.tasks[i]? = some { t with ops := reply.ops })
      (fun v a _ hv => ?_) (List.getElem?_set_self (List.getElem?_eq_some_iff.mp ht).1)
    have happend : ∀ s : Task, (v.tasks ++ [s])[i]? = some { t with ops := reply.ops } :=
      fun s => (List.getElem?_append_left (List.getElem?_eq_some_iff.mp hv).1).trans hv
    obtain he | ⟨-, _, -, he⟩ | ⟨-, _, _, -, -, _, -, he⟩ := act_tasks v t a
    · exact he ▸ hv
    · exact he ▸ happend _
    · exact he ▸ happend _
  · rw [foldl_act_runners]
    exact List.getElem?_set_self (List.getElem?_eq_some_iff.mp hR).1

/-- **Only a reload puts in a runner.** -/
theorem services_step {q : RunnerId} (hs : w.step l = some w')
    (hq : w'.mgr.services.get? u = some q) :
    w.mgr.services.get? u = some q ∨ ∃ spec st rest, l = .reloadStep ∧
      w.lock = .reload (.install u spec st (some q) :: rest) := by
  by_cases hr : l = .reloadStep
  · subst hr
    obtain ⟨-, rfl⟩ | ⟨op, rest, hlock, ho⟩ := reloadStep_cases hs
    · exact Or.inl hq
    · obtain ⟨n, spec, _, st, new, rfl, -, -, hmgr, -⟩ | ⟨-, hmgr, -⟩ |
        ⟨n, spec, st, new, rfl, hmgr, -⟩ := reloadOp_cases ho
      · exact Or.inl (by rw [hmgr] at hq; exact hq)
      · exact Or.inl (by rw [hmgr] at hq; exact hq)
      · rw [hmgr] at hq
        cases new with
        | none => exact Or.inl hq
        | some q' =>
          change (w.mgr.services.insert n q').get? u = some q at hq
          by_cases hn : u = n
          · subst hn
            rw [IndexMap.get?_insert_self] at hq
            obtain rfl := Option.some.inj hq
            exact Or.inr ⟨spec, st, rest, rfl, hlock⟩
          · exact Or.inl ((IndexMap.get?_insert_ne hn _ _).symm.trans hq)
  by_cases hd : ∃ disk, l = .daemonReload disk
  · obtain ⟨disk, rfl⟩ := hd
    obtain ⟨-, rfl⟩ := ifFree_eq hs
    exact Or.inl (foldl_dropUnit_services (gone w disk) w.mgr hq)
  · have hreg := sameRegistry_step hs (fun disk he => hd ⟨disk, he⟩) hr
    exact Or.inl (hreg.services ▸ hq)

theorem asks_isStop (h : l.asks TaskKind.isStop u) : l = .stopUnit u := by
  obtain ⟨id, kind, hcall, hk⟩ := h
  cases l <;> simp only [Label.call, Option.some.injEq, Prod.mk.injEq, reduceCtorEq] at hcall
  case stopUnit n => exact hcall.2 ▸ rfl
  all_goals exact absurd (hcall.1 ▸ hk) (by simp [TaskKind.isStop])

/-! ## Until the exit is published -/

/-- Task `i` supervises the runner `r` of the unit, alone. The runner is the one in
`services` while the supervisor is in flight, and no stop is while it settles it. -/
structure Watched (u : UnitName) (i : TaskId) (r : RunnerId) (w : World) : Prop where
  sound : Sound w
  ordered : Ordered w
  idle : Idle TaskKind.drives u w
  task : ∃ t R, w.tasks[i]? = some t ∧ t.kind = .supervise ∧ t.unit = u ∧ t.runner = r ∧
    w.runners[r]? = some R ∧ ExitStage R t.ops
  alone : ∀ j t, w.tasks[j]? = some t → j ≠ i → t.runner = r → t.kind = .supervise → t.ops = []
  current : ∀ t, w.tasks[i]? = some t → t.ops ≠ [] →
    ∀ q, w.mgr.services.get? u = some q → q = r
  quiet : ∀ t, w.tasks[i]? = some t → settling t.ops = true → Idle TaskKind.isStop u w

/-- Nothing comes in the way of the supervisor: no reload puts in another runner of the
unit while it is in flight, and no stop of the unit begins while it settles the runner, or
has yet to announce itself when it checks for one. -/
structure Undisturbed (u : UnitName) (i : TaskId) (w : World) (l : Label) : Prop where
  install : ∀ spec st new rest, l = .reloadStep →
    w.lock = .reload (.install u spec st (some new) :: rest) →
    ∀ t, w.tasks[i]? = some t → t.ops = []
  stop : l = .stopUnit u → ∀ t, w.tasks[i]? = some t → settling t.ops = false
  check : ∀ resp t clean rest R, l = .task i resp → w.tasks[i]? = some t →
    t.ops = .checkStopping clean :: rest → w.runners[t.runner]? = some R →
    R.stopping = false → Idle TaskKind.isStop u w

/-- A task that drives the runner is its supervisor or a stop. -/
theorem Watched.driver (h : Watched u i r w) {j : TaskId} {t : Task} (ht : w.tasks[j]? = some t)
    (hr : t.runner = r) (hne : t.ops ≠ []) : t.unit = u ∧ (j = i ∨ t.kind.isStop = true) := by
  have hmem := List.mem_of_getElem? ht
  obtain ⟨s, R, hs, -, hsu, hsr, -⟩ := h.task
  have hunit : t.unit = u := by
    refine unit_eq h.sound.wired hmem ?_
    rw [hr, ← hsr, ← hsu]
    exact h.sound.wired.tasks s (List.mem_of_getElem? hs)
  refine ⟨hunit, ?_⟩
  cases hk : t.kind with
  | start id | restart id | reload id =>
    exact absurd (h.idle t hmem (Task.isCall_iff.mpr ⟨hunit, hk ▸ rfl⟩)) hne
  | stop id => exact Or.inr rfl
  | supervise =>
    by_cases hj : j = i
    · exact Or.inl hj
    · exact absurd (h.alone j t ht hj hr hk) hne

/-- While its supervisor settles it, nobody else writes to the runner. -/
theorem Watched.settled (h : Watched u i r w) {t : Task} {R : Runner} (ht : w.tasks[i]? = some t)
    (hset : settling t.ops = true) (hr : t.runner = r) (hR : w.runners[r]? = some R)
    (hl : ∀ resp, l ≠ .task i resp) (hs : w.step l = some w') :
    ∃ R', w'.runners[r]? = some R' ∧ R.Alike R' := by
  have hused : ¬ Unused w r := fun hun => hun.tasks t (List.mem_of_getElem? ht) hr
  obtain ⟨j, resp, s, op, rest, reply, rfl, hs', hsr, hops, -⟩ | hsame :=
    runner_step_used h.ordered hused hR hs
  · have hne : s.ops ≠ [] := by
      rw [hops]
      simp
    obtain ⟨hsu, rfl | hk⟩ := h.driver hs' hsr hne
    · exact absurd rfl (hl resp)
    · exact absurd (h.quiet t ht hset s (List.mem_of_getElem? hs')
        (Task.isCall_iff.mpr ⟨hsu, hk⟩)) hne
  · exact hsame

/-- **One step until the exit is published.** -/
theorem Watched.step (h : Watched u i r w) (hasks : ¬ l.asks TaskKind.drives u)
    (hok : Undisturbed u i w l) (hs : w.step l = some w') : Watched u i r w' := by
  obtain ⟨t, R, ht, hk, hu, hr, hR, hstage⟩ := h.task
  have hsound := sound_step h.sound hs
  have hidle := (staysIdle_step onRequest_drives h.idle hasks hs).idle
  have halone : ∀ j t', w'.tasks[j]? = some t' → j ≠ i → t'.runner = r → t'.kind = .supervise →
      t'.ops = [] := by
    intro j t' ht' hj hr' hk'
    have hrunner : HasRunner w' t'.runner u := by
      rw [hr', ← hr, ← hu]
      exact (h.sound.wired.tasks t (List.mem_of_getElem? ht)).kept (keepsRunners_step hs)
    have hu' := unit_eq hsound.wired (List.mem_of_getElem? ht') hrunner
    obtain hold | ⟨resp, s, -, hs', hne, hsk, -, hsr⟩ :=
      supervisor_from h.sound h.idle hs ht' hu' hk'
    · exact h.alone j t' hold hj hr' hk'
    · exact absurd (h.alone j s hs' hj (hsr.trans hr') hsk) hne
  -- in flight after the step, the supervisor was so before
  have hcurrent : t.ops ≠ [] → ∀ q, w'.mgr.services.get? u = some q → q = r := by
    intro hne q hq
    obtain hold | ⟨spec, st, rest, hl, hlock⟩ := services_step hs hq
    · exact h.current t ht hne q hold
    · exact absurd (hok.install spec st q rest hl hlock t ht) hne
  by_cases hi : ∃ resp, l = .task i resp
  · obtain ⟨resp, rfl⟩ := hi
    obtain ⟨t', op, rest, R', reply, ht', hops, hR', hreply, htask, hrunner⟩ := task_taken hs
    obtain rfl := Option.some.inj (ht.symm.trans ht')
    subst hr
    obtain rfl := Option.some.inj (hR.symm.trans hR')
    have hne : t.ops ≠ [] := by
      rw [hops]
      simp
    rw [hops] at hstage
    obtain ⟨hstage', hsettle⟩ := Op.run_exitStage hstage hreply
    refine ⟨hsound, ordered_step h.sound.wired h.ordered hs, hidle,
      ⟨_, _, htask, hk, hu, rfl, hrunner, hstage'⟩, halone, fun _ _ _ => hcurrent hne, ?_⟩
    intro s hs' hset
    obtain rfl := Option.some.inj (htask.symm.trans hs')
    have hquiet : Idle TaskKind.isStop u w := by
      obtain hbefore | ⟨⟨clean, rfl⟩, hstop⟩ := hsettle hset
      · exact h.quiet t ht (hops ▸ hbefore)
      · exact hok.check resp t clean rest R rfl ht hops hR hstop
    refine (staysIdle_step onRequest_isStop hquiet (fun ha => ?_) hs).idle
    exact absurd (asks_isStop ha) (by simp)
  · have hl : ∀ resp, l ≠ .task i resp := fun resp he => hi ⟨resp, he⟩
    have ht' := task_stays ht hl hs
    refine ⟨hsound, ordered_step h.sound.wired h.ordered hs, hidle, ?_, halone, ?_, ?_⟩
    · cases hset : settling t.ops with
      | true =>
        obtain ⟨R', hR', halike⟩ := h.settled ht hset hr hR hl hs
        exact ⟨t, R', ht', hk, hu, hr, hR', hstage.of_alike halike⟩
      | false =>
        obtain ⟨R', hR', -⟩ := keepsRunners_step hs r R hR
        exact ⟨t, R', ht', hk, hu, hr, hR', hstage.of_not_settling hset⟩
    · intro s hs' hne
      obtain rfl := Option.some.inj (ht'.symm.trans hs')
      exact hcurrent hne
    · intro s hs' hset
      obtain rfl := Option.some.inj (ht'.symm.trans hs')
      refine (staysIdle_step onRequest_isStop (h.quiet t ht hset) (fun ha => ?_) hs).idle
      have hno := hok.stop (asks_isStop ha) t ht
      rw [hset] at hno
      cases hno

end World

end Systeml.Runtime
