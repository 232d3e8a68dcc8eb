import Systeml.Runtime.Rest
import Systeml.Runtime.Reload

/-!
# A completed stop

A stop does not wait for a start of the same unit that is in flight, nor end it: the start
goes on, spawns what its program has left, and publishes the state it finds. A stop that
arrives before all that is over is not final. Where every start in flight is past it
(`Spent`), the unit does not come up again by itself (`stop_final`).
-/

namespace Systeml.Runtime

open Systeml.Lib Systeml.Unit Systeml.Deps

/-! ## A start that is past its work -/

def TaskKind.isStart : TaskKind → Bool
  | .start _ => true
  | _ => false

theorem starts_of_isStart {kind : TaskKind} (h : kind.isStart = true) : kind.starts = true := by
  cases kind with
  | start id => rfl
  | stop id | restart id | reload id | supervise => exact absurd h (by simp [TaskKind.isStart])

theorem starts_of_isRestart {kind : TaskKind} (h : kind.isRestart = true) : kind.starts = true := by
  cases kind with
  | restart id => rfl
  | start id | stop id | reload id | supervise => exact absurd h (by simp [TaskKind.isRestart])

/-- The step spawns a process, or sets the state to active. -/
def Op.bringsUp : Op → Bool
  | exec .. | spawnMain _ | spawnForking _ | setState .active => true
  | _ => false

/-- The call can return at the step without a change of state. -/
def Op.mayReturn : Op → Bool
  | resolveEnv | bindSocket | recv => true
  | waitExec _ _ k => k ≠ .bestEffort
  | _ => false

/-- The rest of a start can publish the unit as active. `a` is the state of its runner. -/
def publishesActive (a : ActiveState) : List Op → Bool
  | [] => false
  | .setState b :: l => publishesActive b l
  | .readState _ :: _ => a = .active
  | .readSub _ b :: _ => b = .active
  | .publish _ b _ :: _ => b = .active
  | op :: l => (op.mayReturn && a = .active) || publishesActive a l

theorem publishesActive_mono {a b : ActiveState} (h : b = .active → a = .active) {l : List Op}
    (hl : publishesActive a l = false) : publishesActive b l = false := by
  have hne : decide (a = .active) = false → decide (b = .active) = false := fun ha =>
    decide_eq_false fun hb => of_decide_eq_false ha (h hb)
  induction l with
  | nil => rfl
  | cons op l ih =>
    cases op with
    | setState c | readSub o c | publish o c s => exact hl
    | readState o => exact hne hl
    | _ =>
      have hboth : ((_ && decide (a = .active)) || publishesActive a l) = false := hl
      rw [Bool.or_eq_false_iff, Bool.and_eq_false_iff] at hboth
      show ((_ && decide (b = .active)) || publishesActive b l) = false
      rw [Bool.or_eq_false_iff, Bool.and_eq_false_iff]
      exact ⟨hboth.1.imp_right hne, ih hboth.2⟩

theorem Leaves.publishesActive {id : JobId} {rest l : List Op} {a : ActiveState}
    (h : Leaves (.start id) rest l) (ha : a ≠ .active)
    (hrest : publishesActive a rest = false) : publishesActive a l = false := by
  cases h with
  | rest => exact hrest
  | ret o => exact decide_eq_false ha
  | fail k o =>
    cases k with
    | bestEffort => exact decide_eq_false ha
    | condition | required => rfl

theorem Leaves.bringsUp {id : JobId} {rest l : List Op} (h : Leaves (.start id) rest l)
    (hrest : ∀ o ∈ rest, o.bringsUp = false) : ∀ o ∈ l, o.bringsUp = false := by
  cases h with
  | rest => exact hrest
  | ret o => simp [TaskKind.returnOps, startReturn, Op.bringsUp]
  | fail k o => cases k <;> simp [ExecKind.failure, TaskKind.returnOps, startReturn, Op.bringsUp]

/-- What a step of such a start leaves: a start past its work, after acts that bring
nothing up. -/
structure Spends (R : Runner) (reply : Reply) : Prop where
  ops : ∀ o ∈ reply.ops, o.bringsUp = false
  publishes : publishesActive reply.runner.state reply.ops = false
  acts : ∀ x ∈ reply.acts, (∀ pid main, x ≠ .spawn pid main) ∧ x ≠ .respawn ∧
    ∀ st s, x = .mark st s → st ≠ .active
  state : reply.runner.state = .active → R.state = .active

namespace Op

variable {procs : List Proc} {free : Bool} {id : JobId} {R : Runner} {rest : List Op}
  {resp : Response} {reply : Reply} {op : Op}

theorem runWaitExec_bestEffort {kind : TaskKind} {p : ProcId} {cmd : ExecCommand}
    (h : runWaitExec procs kind R rest p cmd .bestEffort resp = some reply) :
    ∃ acts, (acts = [] ∨ acts = [.reap p]) ∧ reply = ⟨R, rest, acts⟩ := by
  cases resp <;> simp only [runWaitExec, reduceCtorEq] at h
  case exited success =>
    split at h
    · exact ⟨[], Or.inl rfl, by simpa using h.symm⟩
    · exact absurd h (by simp)
  case timeout =>
    split at h
    · exact ⟨[.reap p], Or.inr rfl, by simpa using h.symm⟩
    · exact absurd h (by simp)
  case err => exact ⟨[], Or.inl rfl, by simpa using h.symm⟩

/-- **A start past its work stays so, and brings nothing up.** -/
theorem run_spent (hprog : Program (.start id) (op :: rest))
    (hup : ∀ o ∈ op :: rest, o.bringsUp = false)
    (hpub : publishesActive R.state (op :: rest) = false)
    (h : op.run procs free (.start id) R rest resp = some reply) : Spends R reply := by
  have hrest : ∀ o ∈ rest, o.bringsUp = false := fun o ho => hup o (List.mem_cons_of_mem op ho)
  have hcons : ∀ o : Op, o.bringsUp = false → ∀ x ∈ o :: rest, x.bringsUp = false :=
    fun o ho x hx => (List.mem_cons.mp hx).elim (fun e => e ▸ ho) (hrest x)
  have hop := hup op List.mem_cons_self
  -- where the call may return, the state it returns with is not active
  have hleaves : ∀ {l acts}, op.mayReturn = true →
      publishesActive R.state (op :: rest) =
        ((op.mayReturn && decide (R.state = .active)) || publishesActive R.state rest) →
      Leaves (.start id) rest l → (∀ x ∈ acts, ∃ p, x = Act.reap p) → Spends R ⟨R, l, acts⟩ := by
    intro l acts hmay he hl hacts
    rw [he, hmay, Bool.true_and, Bool.or_eq_false_iff] at hpub
    refine ⟨hl.bringsUp hrest, hl.publishesActive (of_decide_eq_false hpub.1) hpub.2, ?_, fun ha => ha⟩
    intro x hx
    obtain ⟨p, rfl⟩ := hacts x hx
    simp
  cases op with
  | clearStop | setSub s | setStatus s | setMainPid p =>
    exact Option.some.inj h ▸ ⟨hrest, hpub, by simp, fun ha => ha⟩
  | setState b =>
    obtain rfl := Option.some.inj h
    refine ⟨hrest, hpub, by simp, ?_⟩
    rintro (rfl : b = .active)
    exact absurd hop (by simp [bringsUp])
  | setChild c =>
    simp only [run] at h
    split at h
    · exact absurd h (by simp)
    · exact Option.some.inj h ▸ ⟨hrest, hpub, by simp, fun ha => ha⟩
  | resolveEnv | bindSocket =>
    simp only [run] at h
    split at h
    · exact Option.some.inj h ▸ hleaves rfl rfl .rest (by simp)
    · exact Option.some.inj h ▸ hleaves rfl rfl (.ret _) (by simp)
    · exact absurd h (by simp)
  | exec cmd k | spawnMain cmd | spawnForking cmd => exact absurd hop (by simp [bringsUp])
  | waitExec p cmd k =>
    cases k with
    | bestEffort =>
      obtain ⟨acts, hacts, rfl⟩ := runWaitExec_bestEffort h
      refine ⟨hrest, hpub, ?_, fun ha => ha⟩
      obtain rfl | rfl := hacts <;> simp
    | condition | required =>
      obtain ⟨l, acts, hl, hacts, rfl⟩ := runWaitExec_cases h
      refine hleaves rfl rfl hl ?_
      obtain rfl | rfl := hacts <;> simp
  | waitForking p =>
    obtain ⟨-, -, rfl⟩ | rfl := runWait_cases h <;> exact ⟨hrest, hpub, by simp, fun ha => ha⟩
  | readPidFile =>
    cases resp <;> simp only [run, runReadPidFile, reduceCtorEq] at h
    case file text =>
      split at h
      · exact Option.some.inj h ▸ ⟨hcons _ rfl, hpub, by simp, fun ha => ha⟩
      · exact Option.some.inj h ▸ ⟨hup, hpub, by simp, fun ha => ha⟩
    case timeout =>
      obtain rfl := Option.some.inj h
      split
      · exact ⟨hrest, hpub, by simp, fun ha => ha⟩
      · exact ⟨by simp [TaskKind.returnOps, startReturn, bringsUp], rfl, by simp, fun ha => ha⟩
  | recv =>
    obtain ⟨buf, l, -, hl, rfl⟩ | ⟨l, hl, rfl⟩ := runRecv_cases h
    · have hmsg : ∀ l' : List Op, (∀ o ∈ l', o.bringsUp = false) →
          publishesActive R.state l' = false →
          Spends R ⟨R, messageOps (NotifyMessage.parse (buf.take 4096)) ++ l', []⟩ := by
        intro l' hl' hpub'
        unfold messageOps
        refine ⟨?_, ?_, by simp, fun ha => ha⟩
        · intro o ho
          rw [List.append_assoc] at ho
          rcases List.mem_append.mp ho with ho | ho
          · split at ho
            · exact List.mem_singleton.mp ho ▸ rfl
            · exact absurd ho (by simp)
          · rcases List.mem_append.mp ho with ho | ho
            · split at ho
              · exact List.mem_singleton.mp ho ▸ rfl
              · exact absurd ho (by simp)
            · exact hl' o ho
        · split <;> split <;> exact hpub'
      cases hl with
      | inl hl =>
        have hboth : (decide (R.state = .active) || publishesActive R.state rest) = false := hpub
        exact hl ▸ hmsg rest hrest (Bool.or_eq_false_iff.mp hboth).2
      | inr hl => exact hl ▸ hmsg _ hup hpub
    · exact hleaves rfl rfl hl (by simp)
  | readState o => exact Option.some.inj h ▸ ⟨hcons _ rfl, hpub, by simp, fun ha => ha⟩
  | readSub o a => exact Option.some.inj h ▸ ⟨hcons _ rfl, hpub, by simp, fun ha => ha⟩
  | publish o a s =>
    -- the end of the program
    have hnil : rest = [] := by
      cases hprog with
      | last _ => rfl
      | cons hop _ => exact absurd hop (by simp [isInner, ofStart, isCommon])
    subst hnil
    have ha : a ≠ .active := of_decide_eq_false hpub
    simp only [run] at h
    split at h
    · obtain rfl := Option.some.inj h
      refine ⟨by simp [runPublish, bringsUp], by simp [runPublish, publishesActive, mayReturn], ?_,
        fun ha => ha⟩
      simp only [runPublish, ha, false_and, if_false]
      simpa using ha
    · exact absurd h (by simp)
  | jobRemoved o => exact Option.some.inj h ▸ ⟨hrest, hpub, by simp, fun ha => ha⟩
  | requestStop | readPid | holdChild p | waitGone p | waitKilled c | markDead | respawn | takeChild
  | waitMain c | readPollPid | poll p | checkStopping b | publishExit a s =>
    cases hprog with
    | last hop => exact absurd hop (by simp [isLast])
    | cons hop _ => exact absurd hop (by simp [isInner, ofStart, isCommon])

end Op

namespace World

variable {w w' : World} {u : UnitName} {i : TaskId} {r : RunnerId}

/-! ## While no start is asked for -/

/-- Only starts set the state to active. -/
def Calm (w : World) : Prop :=
  ∀ t ∈ w.tasks, t.kind.isStart = false → .setState .active ∉ t.ops

theorem calm_step {l : Label} (h : Calm w) (hs : w.step l = some w') : Calm w' := by
  refine forall_tasks_step ?_ ?_ h hs
  · intro kind v q svc hk
    have hexec : ∀ (cmds : List ExecCommand) (k : ExecKind),
        Op.setState .active ∉ cmds.map (Op.exec · k) := by simp
    cases kind with
    | start id => exact absurd hk (by simp [TaskKind.isStart])
    | stop id | restart id =>
      simp [TaskKind.program, stopOps, TaskKind.returnOps, hexec]
    | reload id => simp [TaskKind.program, reloadOps, TaskKind.returnOps, hexec]
    | supervise =>
      simp only [TaskKind.program, superviseOps]
      split <;> simp
  · intro j resp t op rest R reply _ _ hops _ hreply ht hk hmem
    cases (Op.run_writes hreply).states .active hmem with
    | inl hrest => exact ht hk (hops ▸ List.mem_cons_of_mem op hrest)
    | inr hat => exact absurd hat (by simp [ActiveState.atRest])

/-- Every start of the unit in flight is past its work: it brings nothing up, and does not
publish the unit as active. -/
def Spent (u : UnitName) (w : World) : Prop :=
  ∀ t ∈ w.tasks, t.unit = u → t.kind.isStart = true →
    (∀ o ∈ t.ops, o.bringsUp = false) ∧
    ∀ R ∈ w.runners[t.runner]?, publishesActive R.state t.ops = false

instance (u : UnitName) (w : World) : Decidable (Spent u w) :=
  inferInstanceAs (Decidable (∀ t ∈ w.tasks, _))

/-- A state from which the unit does not come up: every start in flight is past its work,
and no restart is in flight. -/
structure Down (u : UnitName) (w : World) : Prop where
  sound : Sound w
  ordered : Ordered w
  calm : Calm w
  restarts : Idle TaskKind.isRestart u w
  spent : Spent u w

/-- The step of a task leaves the state of its runner, or sets one that is not active. -/
theorem Down.state_falls (h : Down u w) {t : Task} {op : Op} {rest : List Op} {R : Runner}
    {resp : Response} {reply : Reply} (ht : t ∈ w.tasks) (hu : t.unit = u) (hops : t.ops = op :: rest)
    (hreply : op.run w.procs (w.lock = .free) t.kind R rest resp = some reply) :
    reply.runner.state = .active → R.state = .active := by
  intro ha
  cases (Op.run_writes hreply).state with
  | inl he => exact he ▸ ha
  | inr he =>
    -- no task of the unit has such a step
    have hup : op = .setState .active := ha ▸ he
    have hmem : Op.setState .active ∈ t.ops := hops ▸ hup ▸ List.mem_cons_self
    cases hk : t.kind.isStart with
    | false => exact absurd hmem (h.calm t ht hk)
    | true => exact absurd ((h.spent t ht hu hk).1 _ hmem) (by simp [Op.bringsUp])

theorem Down.run_spent (h : Down u w) {t : Task} {op : Op} {rest : List Op} {R : Runner}
    {resp : Response} {reply : Reply} (ht : t ∈ w.tasks) (hu : t.unit = u)
    (hk : t.kind.isStart = true) (hops : t.ops = op :: rest) (hR : w.runners[t.runner]? = some R)
    (hreply : op.run w.procs (w.lock = .free) t.kind R rest resp = some reply) :
    Spends R reply := by
  obtain ⟨hup, hpub⟩ := h.spent t ht hu hk
  rw [hops] at hup hpub
  cases hkind : t.kind with
  | start id =>
    rw [hkind] at hreply
    refine Op.run_spent ?_ hup (hpub R hR) hreply
    cases h.sound.shaped t ht (by rw [hkind]; rfl) with
    | inl hnil =>
      rw [hops] at hnil
      exact absurd hnil (by simp)
    | inr hprog => exact hkind ▸ hops ▸ hprog
  | stop id | restart id | reload id | supervise =>
    rw [hkind] at hk
    exact absurd hk (by simp [TaskKind.isStart])

/-- **No step makes a runner of the unit active**, if a task drives it. -/
theorem Down.runner_falls (h : Down u w) {l : Label} {t : Task} {R' : Runner} (ht : t ∈ w.tasks)
    (hu : t.unit = u) (hs : w.step l = some w') (hR' : w'.runners[t.runner]? = some R') :
    ∃ R, w.runners[t.runner]? = some R ∧ (R'.state = .active → R.state = .active) := by
  obtain ⟨R, hR, hunit⟩ := h.sound.wired.tasks t ht
  refine ⟨R, hR, ?_⟩
  have hsame : w'.runners = w.runners → R'.state = .active → R.state = .active := by
    intro he
    rw [he, hR] at hR'
    exact Option.some.inj hR' ▸ id
  by_cases hl : l = .reloadStep
  · subst hl
    obtain ⟨-, rfl⟩ | ⟨op, rest, hlock, ho⟩ := reloadStep_cases hs
    · exact hsame rfl
    · -- the runner that a reload copies to is not the one of the task
      have hne : ∀ new old, op ∈ copies new old → new ≠ t.runner := fun new old hop he =>
        ((h.ordered _ (reloading_of_lock hlock)).unused hop).tasks t ht he.symm
      cases reloadOp_runner hR hne ho with
      | inl he => exact Option.some.inj (he.symm.trans hR') ▸ fun ha => ha
      | inr he => exact Option.some.inj (he.symm.trans hR') ▸ fun ha => ha
  by_cases hi : ∃ i resp, l = .task i resp
  · obtain ⟨i, resp, rfl⟩ := hi
    obtain ⟨s, op, rest, Q, reply, hts, hops, hQ, hreply, rfl⟩ := runTask_cases hs
    rw [foldl_act_runners] at hR'
    have hmem := List.mem_of_getElem? hts
    by_cases hr : s.runner = t.runner
    · -- a task on the same runner is one of the unit
      obtain ⟨Q', hQ', hsu⟩ := h.sound.wired.tasks s hmem
      rw [hr] at hQ hQ'
      obtain rfl := Option.some.inj (hR.symm.trans hQ)
      obtain rfl := Option.some.inj (hR.symm.trans hQ')
      have hget : (w.runners.set s.runner reply.runner)[t.runner]? = some reply.runner := by
        rw [hr]
        exact List.getElem?_set_self (List.getElem?_eq_some_iff.mp hR).1
      obtain rfl := Option.some.inj (hget.symm.trans hR')
      exact h.state_falls hmem ((hsu.symm.trans hunit).trans hu) hops hreply
    · have hget : (w.runners.set s.runner reply.runner)[t.runner]? = some R :=
        (List.getElem?_set_ne hr).trans hR
      exact Option.some.inj (hget.symm.trans hR') ▸ id
  by_cases he : ∃ p, l = .exit p
  · obtain ⟨p, rfl⟩ := he
    obtain rfl := Option.some.inj hs
    exact hsame rfl
  · exact hsame (request_sameHeap hs hl (fun i resp h => hi ⟨i, resp, h⟩) fun p h => he ⟨p, h⟩).runners

/-- The step asks for no restart, if it asks for no start. -/
theorem not_asks_restart {l : Label} (h : ¬ l.asks TaskKind.starts u) :
    ¬ l.asks TaskKind.isRestart u := by
  intro ⟨id, kind, hcall, hk⟩
  exact h ⟨id, kind, hcall, starts_of_isRestart hk⟩

/-- **A start of the unit in flight was in flight before**, where none is asked for. -/
theorem Down.starts_from (h : Down u w) {l : Label} (hl : ¬ l.asks TaskKind.starts u)
    (hs : w.step l = some w') {t' : Task} (ht' : t' ∈ w'.tasks) (hu : t'.unit = u)
    (hk : t'.kind.isStart = true) :
    t' ∈ w.tasks ∨ ∃ i resp t op rest R reply, l = .task i resp ∧ t ∈ w.tasks ∧
      t.ops = op :: rest ∧ w.runners[t.runner]? = some R ∧
      op.run w.procs (w.lock = .free) t.kind R rest resp = some reply ∧
      t' = { t with ops := reply.ops } ∧ w'.runners[t.runner]? = some reply.runner := by
  have hrequest : ∀ {kind n}, l.call w.mgr.allocJobId.1 = some (kind, n) → t' ∈ w.tasks := by
    intro kind n hcall
    obtain ⟨-, ⟨he, -⟩ | ⟨q, -, ⟨R, -, he⟩, -⟩⟩ := request_tasks hcall hs
    · exact he ▸ ht'
    · rw [he] at ht'
      cases List.mem_append.mp ht' with
      | inl hm => exact hm
      | inr hm =>
        obtain rfl := List.mem_singleton.mp hm
        obtain rfl : n = u := hu
        exact absurd ⟨_, kind, hcall, starts_of_isStart hk⟩ hl
  cases l with
  | startUnit n | stopUnit n | restartUnit n | reloadUnit n | fire timer n =>
    exact Or.inl (hrequest rfl)
  | daemonReload disk =>
    obtain ⟨-, rfl⟩ := ifFree_eq hs
    exact Or.inl ht'
  | reloadStep =>
    obtain ⟨-, rfl⟩ | ⟨op, rest, -, ho⟩ := reloadStep_cases hs
    · exact Or.inl ht'
    · exact Or.inl (reloadOp_tasks ho ▸ ht')
  | exit p =>
    obtain rfl := Option.some.inj hs
    exact Or.inl ht'
  | task i resp =>
    obtain ⟨t, op, rest, R, reply, ht, hops, hR, hreply, he⟩ := runTask_cases hs
    have hmem := List.mem_of_getElem? ht
    have hrunners : w'.runners[t.runner]? = some reply.runner := by
      rw [he, foldl_act_runners]
      exact List.getElem?_set_self (List.getElem?_eq_some_iff.mp hR).1
    suffices hall : ∀ s ∈ w'.tasks, s.unit = u → s.kind.isStart = true →
        s ∈ w.tasks ∨ s = { t with ops := reply.ops } by
      cases hall t' ht' hu hk with
      | inl hm => exact Or.inl hm
      | inr hm => exact Or.inr ⟨i, resp, t, op, rest, R, reply, rfl, hmem, hops, hR, hreply, hm, hrunners⟩
    subst he
    refine foldl_act_inv (P := fun v => ∀ s ∈ v.tasks, s.unit = u → s.kind.isStart = true →
      s ∈ w.tasks ∨ s = { t with ops := reply.ops }) (fun v a _ hv => ?_) ?_
    · intro s hs' hsu hsk
      obtain he | ⟨-, _, -, he⟩ | ⟨-, id, q, hkind, -, _, -, he⟩ := act_tasks v t a
      · exact hv s (he ▸ hs') hsu hsk
      · rw [he] at hs'
        cases List.mem_append.mp hs' with
        | inl hm => exact hv s hm hsu hsk
        | inr hm =>
          rw [List.mem_singleton.mp hm] at hsk
          exact absurd hsk (by simp [TaskKind.isStart])
      · rw [he] at hs'
        cases List.mem_append.mp hs' with
        | inl hm => exact hv s hm hsu hsk
        | inr hm =>
          -- the end of a restart, but none is in flight
          have htu : t.unit = u := by
            rw [List.mem_singleton.mp hm] at hsu
            exact hsu
          have hnil := h.restarts t hmem (Task.isCall_iff.mpr ⟨htu, hkind ▸ rfl⟩)
          rw [hops] at hnil
          exact absurd hnil (by simp)
    · intro s hs' _ _
      exact (List.mem_or_eq_of_mem_set hs')

theorem Down.step {l : Label} (h : Down u w) (hl : ¬ l.asks TaskKind.starts u)
    (hs : w.step l = some w') : Down u w' := by
  refine ⟨sound_step h.sound hs, ordered_step h.sound.wired h.ordered hs, calm_step h.calm hs,
    (staysIdle_step onRequest_isRestart h.restarts (not_asks_restart hl) hs).idle, ?_⟩
  intro t' ht' hu hk
  obtain hm | ⟨i, resp, t, op, rest, R, reply, -, hm, hops, hR, hreply, rfl, hR'⟩ :=
    h.starts_from hl hs ht' hu hk
  · obtain ⟨hup, hpub⟩ := h.spent t' hm hu hk
    refine ⟨hup, ?_⟩
    intro R' hR'
    obtain ⟨R, hR, hfalls⟩ := h.runner_falls hm hu hs hR'
    exact publishesActive_mono hfalls (hpub R hR)
  · have hspent := h.run_spent hm hu hk hops hR hreply
    refine ⟨hspent.ops, ?_⟩
    intro R' hR''
    obtain rfl := Option.some.inj (hR'.symm.trans hR'')
    exact hspent.publishes

/-! ## Processes that starts spawn -/

/-- Processes that starts of the unit have spawned so far. -/
def startProcs (w : World) (u : UnitName) : Nat := w.procs.countP fun q => q.unit = u && q.byStart

theorem countP_modify {α : Type} {p : α → Bool} {f : α → α} (h : ∀ a, p (f a) = p a) :
    ∀ (l : List α) (i : Nat), (l.modify i f).countP p = l.countP p
  | [], i => by simp
  | a :: l, 0 => by simp [List.countP_cons, h]
  | a :: l, i + 1 => by simp [List.countP_cons, countP_modify h l i]

theorem startProcs_killProc (w : World) (p : ProcId) :
    (w.killProc p).startProcs u = w.startProcs u :=
  countP_modify (fun q => by simp) w.procs p

theorem act_spawn_procs (w : World) (t : Task) (pid : Int) (main : Bool) :
    (w.act t (.spawn pid main)).procs = w.procs ++ [⟨pid, t.unit, main, t.kind.isStart, true⟩] := by
  obtain ⟨kind, u, r, ops⟩ := t
  cases kind <;> rfl

/-- An act spawns nothing for the unit, unless it is a spawn of one of its starts. -/
theorem startProcs_act {t : Task} {a : Act}
    (h : t.unit = u → t.kind.isStart = true → ∀ pid main, a ≠ .spawn pid main) :
    (w.act t a).startProcs u = w.startProcs u := by
  cases a with
  | spawn pid main =>
    unfold startProcs
    rw [act_spawn_procs, List.countP_append, List.countP_singleton]
    by_cases hu : t.unit = u
    · have hk : t.kind.isStart = false := by
        by_contra hk
        exact h hu (by simpa using hk) pid main rfl
      simp [hk]
    · simp [hu]
  | kill k | mark a s => rfl
  | reap p => exact startProcs_killProc w p
  | supervise =>
    simp only [act]
    split
    · unfold startProcs
      rw [(sameHeap_spawnTask _ _ _ _).procs]
    · rfl
  | respawn =>
    simp only [act, respawn]
    split
    · unfold startProcs
      rw [(sameHeap_spawnTask _ _ _ _).procs]
    · rfl
  | jobRemoved o =>
    simp only [act]
    split <;> rfl

theorem Down.startProcs_step {l : Label} (h : Down u w) (hs : w.step l = some w') :
    w'.startProcs u = w.startProcs u := by
  have hsame : ∀ v : World, v.procs = w.procs → v.startProcs u = w.startProcs u := by
    intro v hv
    unfold startProcs
    rw [hv]
  cases l with
  | startUnit _ | stopUnit _ | restartUnit _ | reloadUnit _ | fire _ _ | daemonReload _ =>
    exact hsame w' (request_sameHeap hs (by simp) (by simp) (by simp)).procs
  | reloadStep =>
    obtain ⟨-, rfl⟩ | ⟨op, rest, -, ho⟩ := reloadStep_cases hs
    · rfl
    · exact hsame w' (reloadOp_kills ho).1
  | exit p =>
    obtain rfl := Option.some.inj hs
    exact startProcs_killProc w p
  | task i resp =>
    obtain ⟨t, op, rest, R, reply, ht, hops, hR, hreply, rfl⟩ := runTask_cases hs
    have hmem := List.mem_of_getElem? ht
    refine foldl_act_inv (P := fun v => v.startProcs u = w.startProcs u) (fun v a ha hv => ?_) rfl
    refine (startProcs_act ?_).trans hv
    intro hu hk
    exact ((h.run_spent hmem hu hk hops hR hreply).acts a ha).1

/-! ## The stop -/

/-- A run in which nobody asks for a start of the unit. -/
def Unstarted (u : UnitName) (ls : List Label) : Prop := ∀ l ∈ ls, ¬ l.asks TaskKind.starts u

theorem unstarted_tasks {ls : List Label} (h : ∀ l ∈ ls, ∃ i resp, l = .task i resp) :
    Unstarted u ls := by
  intro l hl ⟨id, kind, hcall, _⟩
  obtain ⟨i, resp, rfl⟩ := h l hl
  exact absurd hcall (by simp [Label.call])

/-- Unless somebody asks for a start, the unit is never active from here on, and starts
from before spawn nothing more for it. -/
def StaysDown (u : UnitName) (w : World) : Prop :=
  ∀ ls v, Unstarted u ls → runs step w ls = some v →
    (∀ st, v.mgr.status.get? u = some st → st.active ≠ .active) ∧ v.startProcs u = w.startProcs u

/-- A stop is final. It was just requested; when the lock is free again it has returned. -/
def StopFinal (u : UnitName) (w : World) : Prop :=
  ∀ ls v, Unstarted u ls → runs step w ls = some v → v.lock = .free → StaysDown u v

/-- How far the stop is: it is still to publish its end, or the unit is not active. -/
inductive StopStage (u : UnitName) (i : TaskId) (w : World) : Prop
  | closing (id : JobId) (r : RunnerId) (ops : List Op) (hlock : w.lock = .task i)
    (htask : w.tasks[i]? = some ⟨.stop id, u, r, ops⟩)
    (hend : [.markDead, .jobRemoved .done] <:+ ops)
  | closed (h : Shows (· ≠ .active) u w)

theorem Down.shows_step {l : Label} (hk : u.kind = .service) (h : Down u w)
    (hshows : Shows (· ≠ .active) u w) (hl : ¬ l.asks TaskKind.starts u) (hs : w.step l = some w') :
    Shows (· ≠ .active) u w' := by
  refine World.shows_step hk (by simp) hshows hl ?_ hs
  intro i resp t op rest R reply _ ht hops hR hreply hu a ha
  have hmem := List.mem_of_getElem? ht
  cases hstart : t.kind.isStart with
  | true => exact ((h.run_spent hmem hu hstart hops hR hreply).acts a ha).2
  | false =>
    have hno : t.kind.starts = false := by
      cases hkind : t.kind with
      | start id =>
        rw [hkind] at hstart
        exact absurd hstart (by simp [TaskKind.isStart])
      | restart id =>
        have hnil := h.restarts t hmem (Task.isCall_iff.mpr ⟨hu, hkind ▸ rfl⟩)
        rw [hops] at hnil
        exact absurd hnil (by simp)
      | stop id | reload id | supervise => rfl
    have hacts := settled_acts hno ?_ ?_ hreply a ha
    · refine ⟨hacts.1, ?_⟩
      rintro st s he rfl
      exact absurd (hacts.2 _ s he) (by simp [ActiveState.atRest])
    · intro hjob
      cases h.sound.shaped t hmem hjob with
      | inl hnil =>
        rw [hops] at hnil
        exact absurd hnil (by simp)
      | inr hprog => exact hops ▸ hprog
    · intro hkind
      exact hops ▸ h.sound.supervised t hmem hkind

theorem stopStage_step {l : Label} (hk : u.kind = .service) (h : Down u w)
    (hstage : StopStage u i w) (hl : ¬ l.asks TaskKind.starts u) (hs : w.step l = some w') :
    StopStage u i w' := by
  cases hstage with
  | closed hshows => exact .closed (h.shows_step hk hshows hl hs)
  | closing id r ops hlock htask hend =>
    have hbusy : w.lock ≠ .free := by
      rw [hlock]
      simp
    have hrequest : ∀ {kind n}, l.call w.mgr.allocJobId.1 = some (kind, n) → StopStage u i w' :=
      fun hcall => absurd (request_tasks hcall hs).1 hbusy
    cases l with
    | startUnit n | stopUnit n | restartUnit n | reloadUnit n | fire timer n => exact hrequest rfl
    | daemonReload disk => exact absurd (ifFree_eq hs).1 hbusy
    | reloadStep =>
      obtain ⟨he, -⟩ | ⟨op, rest, he, -⟩ := reloadStep_cases hs
      · exact absurd (hlock.symm.trans he) (by simp)
      · exact absurd (hlock.symm.trans he) (by simp)
    | exit p =>
      obtain rfl := Option.some.inj hs
      exact .closing id r ops hlock htask hend
    | task j resp =>
      by_cases hj : j = i
      · subst hj
        have hprog : Program (.stop id) ops := by
          cases h.sound.shaped _ (List.mem_of_getElem? htask) rfl with
          | inl hnil =>
            obtain rfl : ops = [] := hnil
            exact absurd hend (by simp)
          | inr hprog => exact hprog
        obtain ⟨t, op, rest, R, reply, ht, hops, hR, hreply, rfl⟩ := runTask_cases hs
        obtain rfl := Option.some.inj (htask.symm.trans ht)
        obtain rfl : ops = op :: rest := hops
        obtain ⟨front, hfront⟩ := hend
        cases front with
        | nil =>
          -- the stop publishes its end
          obtain ⟨rfl, rfl⟩ := List.cons.inj hfront
          obtain rfl := Option.some.inj hreply
          refine .closed ⟨?_, ?_⟩
          · intro st hst
            have hget : (w.mgr.markState u .inactive .dead).status.get? u = some st := hst
            rw [Manager.markState_status, if_pos rfl] at hget
            obtain ⟨st', -, rfl⟩ := Option.map_eq_some_iff.mp hget
            simp
          · intro ops' hops'
            have hpend : (w.lockAfter j [.jobRemoved .done]).pending = some ops' := hops'
            simp [lockAfter, hlock, Lock.pending] at hpend
        | cons o front =>
          obtain ⟨rfl, hrest⟩ := List.cons.inj hfront
          have hsuf : [.markDead, .jobRemoved .done] <:+ rest := ⟨front, hrest⟩
          have hinner : o.isInner (.stop id) = true := by
            cases hprog with
            | last _ => exact absurd hsuf (by simp)
            | cons hop _ => exact hop
          have hend' : [.markDead, .jobRemoved .done] <:+ reply.ops := by
            cases Op.run_tail hinner hreply with
            | inl htail => exact hsuf.trans htail
            | inr htail =>
              obtain ⟨o', htail⟩ := htail
              exact htail
          have hne : reply.ops ≠ [] := by
            intro he
            rw [he] at hend'
            exact absurd hend' (by simp)
          refine .closing id r reply.ops ?_ ?_ hend'
          · rw [foldl_act_lock]
            show w.lockAfter j reply.ops = _
            unfold lockAfter
            rw [if_neg fun hc => hne hc.1, hlock]
          · obtain hgo | ⟨hnil, -⟩ | ⟨hnil, -⟩ := Op.run_program hprog hreply
            · refine foldl_act_inv (P := fun v => v.tasks[j]? = some ⟨.stop id, u, r, reply.ops⟩)
                (fun v a _ hv => ?_)
                (List.getElem?_set_self (List.getElem?_eq_some_iff.mp htask).1)
              have happend : ∀ s : Task, (v.tasks ++ [s])[j]? = some ⟨.stop id, u, r, reply.ops⟩ :=
                fun s => (List.getElem?_append_left (List.getElem?_eq_some_iff.mp hv).1).trans hv
              obtain he | ⟨-, _, -, he⟩ | ⟨-, _, _, -, -, _, -, he⟩ := act_tasks v _ a
              · exact he ▸ hv
              · exact he ▸ happend _
              · exact he ▸ happend _
            · exact absurd hnil hne
            · exact absurd hnil hne
      · have htask' := task_stays htask (fun resp' he => hj (Label.task.inj he).1) hs
        refine .closing id r ops ?_ htask' hend
        obtain ⟨t, op, rest, R, reply, -, -, -, -, rfl⟩ := runTask_cases hs
        rw [foldl_act_lock]
        show w.lockAfter j reply.ops = _
        unfold lockAfter
        rw [if_neg, hlock]
        rintro ⟨-, he⟩
        exact hj (Lock.task.inj (hlock.symm.trans he)).symm

/-- The request itself: the stop is put in flight, or the unit is marked at once. -/
theorem stopStage_stopUnit (hw : Wired w) (hs : w.step (.stopUnit u) = some w') :
    StopStage u w.tasks.length w' := by
  obtain ⟨hfree, rfl⟩ := ifFree_eq hs
  simp only [stopUnit]
  split
  next r hr =>
    obtain ⟨R, hR, -⟩ := hw.services u r (stopRunner_some hr)
    simp only [spawnLocked, hR]
    exact .closing _ r _ rfl List.getElem?_concat_length (List.suffix_append _ _)
  next =>
    refine .closed ⟨?_, ?_⟩
    · intro st hst
      have hget : (stopPlain (w.mgr.newJob u .stop).2 u).status.get? u = some st := hst
      unfold stopPlain at hget
      rw [Manager.markState_status, if_pos rfl] at hget
      obtain ⟨st', -, rfl⟩ := Option.map_eq_some_iff.mp hget
      simp
    · intro ops hops
      have hpend : w.reloading = some ops := hops
      rw [reloading_of_free hfree] at hpend
      exact absurd hpend (by simp)

theorem Down.staysDown (hk : u.kind = .service) (h : Down u w) (hshows : Shows (· ≠ .active) u w) :
    StaysDown u w := by
  intro ls v hls hrun
  have hinv := runs_inv (f := World.step) (A := fun _ l => ¬ l.asks TaskKind.starts u)
    (P := fun x => Down u x ∧ Shows (· ≠ .active) u x ∧ x.startProcs u = w.startProcs u)
    (fun _ _ _ hx hl hs => ⟨hx.1.step hl hs, hx.1.shows_step hk hx.2.1 hl hs,
      (hx.1.startProcs_step hs).trans hx.2.2⟩)
    ⟨h, hshows, rfl⟩ (Along.of_labels hls) hrun
  exact ⟨hinv.2.1.status, hinv.2.2⟩

theorem Booted.ordered_calm (h : w.Booted) : Ordered w ∧ Calm w := by
  refine ⟨ordered_of_free h.lock, ?_⟩
  intro t ht
  rw [h.tasks] at ht
  exact absurd ht (by simp)

/-- **A stop that finds every start past its work is final.** -/
theorem stop_final {w₀ : World} {ls : List Label} (hw : w₀.Booted) (hrun : runs step w₀ ls = some w)
    (hk : u.kind = .service) (hspent : Spent u w) (hs : w.step (.stopUnit u) = some w') :
    StopFinal u w' := by
  have hall := runs_inv (f := step) (A := fun _ _ => True)
    (P := fun x => Sound x ∧ Ordered x ∧ Calm x)
    (fun _ _ _ hx _ hs => ⟨sound_step hx.1 hs, ordered_step hx.1.wired hx.2.1 hs,
      calm_step hx.2.2 hs⟩)
    ⟨hw.sound, hw.ordered_calm⟩ (Along.of_labels fun _ _ => trivial) hrun
  obtain ⟨hsound, hordered, hcalm⟩ := hall
  have hno : ¬ (Label.stopUnit u).asks TaskKind.starts u := by
    intro ⟨id, kind, hcall, hstarts⟩
    obtain ⟨rfl, -⟩ := Prod.mk.inj (Option.some.inj hcall)
    exact absurd hstarts (by simp [TaskKind.starts])
  -- the lock is free, so no restart is in flight
  have hdown : Down u w := by
    refine ⟨hsound, hordered, hcalm, ?_, hspent⟩
    intro t ht hcall
    obtain ⟨i, hi⟩ := List.getElem?_of_mem ht
    refine hsound.wired.ended_of_free (ifFree_eq hs).1 hi ?_
    have hr := (Task.isCall_iff.mp hcall).2
    cases hkind : t.kind with
    | restart id => rfl
    | start id | stop id | reload id | supervise =>
      rw [hkind] at hr
      exact absurd hr (by simp [TaskKind.isRestart])
  intro ls' v hls' hrun' hfree
  have hinv := runs_inv (f := World.step) (A := fun _ l => ¬ l.asks TaskKind.starts u)
    (P := fun x => Down u x ∧ StopStage u w.tasks.length x)
    (fun _ _ _ hx hl hs => ⟨hx.1.step hl hs, stopStage_step hk hx.1 hx.2 hl hs⟩)
    ⟨hdown.step hno hs, stopStage_stopUnit hsound.wired hs⟩ (Along.of_labels hls') hrun'
  cases hinv.2 with
  | closing id r ops hlock htask hend => exact absurd (hfree.symm.trans hlock) (by simp)
  | closed hshows => exact hinv.1.staysDown hk hshows

/-! ## A stop beside a start -/

/-- A simple service is started, up to the spawn of its main process. -/
def startingRun : List Label :=
  [.startUnit serviceName, .task 0 .ok, .task 0 .ok, .task 0 .ok, .task 0 .ok, .task 0 .ok]

/-- The rest of that start. -/
def startRest : List Label := .task 0 (.spawned 5) :: List.replicate 7 (.task 0 .ok)

/-- A stop that finds no main process. -/
def stopRun : List Label := List.replicate 11 (.task 1 .ok)

/-- The start has published its result, and only the end of its task is left. -/
theorem stop_final_started : ∃ w w',
    runs step (single { execStart := [cmd] }) (startingRun ++ startRest.dropLast) = some w ∧
      w.step (.stopUnit serviceName) = some w' ∧ StopFinal serviceName w' := by
  obtain ⟨w, hw⟩ : ∃ w, runs step (single { execStart := [cmd] })
    (startingRun ++ startRest.dropLast) = some w := ⟨_, rfl⟩
  have hspent : (runs step (single { execStart := [cmd] }) (startingRun ++ startRest.dropLast)).map
      (fun w => decide (Spent serviceName w)) = some true := by decide
  have hstep : ((runs step (single { execStart := [cmd] }) (startingRun ++ startRest.dropLast)).bind
      fun w => w.step (.stopUnit serviceName)).isSome = true := rfl
  rw [hw] at hspent hstep
  obtain ⟨w', hw'⟩ := Option.isSome_iff_exists.mp hstep
  exact ⟨w, w', hw, hw', stop_final (booted_single _) hw rfl
    (of_decide_eq_true (Option.some.inj hspent)) hw'⟩

/-- A stop that comes before the main process is spawned: the start goes on, and publishes
the unit as active. -/
theorem not_all_stops_final : ¬ ∀ (w₀ w w' : World) (ls : List Label) (u : UnitName),
    w₀.Booted → runs step w₀ ls = some w → u.kind = .service → w.step (.stopUnit u) = some w' →
      StopFinal u w' := by
  intro h
  obtain ⟨w, hw⟩ : ∃ w, runs step (single { execStart := [cmd] }) startingRun = some w := ⟨_, rfl⟩
  have hstep : ((runs step (single { execStart := [cmd] }) startingRun).bind
      fun w => w.step (.stopUnit serviceName)).isSome = true := rfl
  have hstop : (((runs step (single { execStart := [cmd] }) startingRun).bind
      fun w => w.step (.stopUnit serviceName)).bind fun w => runs step w stopRun).map lock =
        some .free := rfl
  have hrest : ((((runs step (single { execStart := [cmd] }) startingRun).bind
      fun w => w.step (.stopUnit serviceName)).bind fun w => runs step w stopRun).bind
        fun w => runs step w startRest).map (fun w => w.mgr.isActive serviceName) = some true := rfl
  rw [hw] at hstep hstop hrest
  obtain ⟨w', hw'⟩ := Option.isSome_iff_exists.mp hstep
  have hw'' : (some w).bind (fun w => w.step (.stopUnit serviceName)) = some w' := hw'
  rw [hw''] at hstop hrest
  obtain ⟨v, hv, hfree⟩ := Option.map_eq_some_iff.mp hstop
  rw [hv] at hrest
  obtain ⟨x, hx, hactive⟩ := Option.map_eq_some_iff.mp hrest
  have hfinal := h _ w w' startingRun serviceName (booted_single _) hw rfl hw'
  have hunstop : Unstarted serviceName stopRun :=
    unstarted_tasks fun l hl => ⟨_, _, List.eq_of_mem_replicate hl⟩
  have hunrest : Unstarted serviceName startRest := unstarted_tasks fun l hl =>
    (List.mem_cons.mp hl).elim (fun he => ⟨_, _, he⟩) fun hl => ⟨_, _, List.eq_of_mem_replicate hl⟩
  obtain ⟨hdown, -⟩ := hfinal stopRun v hunstop hv hfree startRest x hunrest hx
  cases hst : x.mgr.status.get? serviceName with
  | none =>
    simp only [Manager.isActive, hst] at hactive
    exact absurd hactive (by simp)
  | some st =>
    simp only [Manager.isActive, hst, decide_eq_true_eq] at hactive
    exact hdown st hst hactive

end World

end Systeml.Runtime
