import Systeml.Runtime.Wired

/-!
# A reload in progress

`daemon_reload` applies the units it found one after the other. A service gets a new
runner, and what its predecessor holds is copied to it. Until it is put into `services`
nobody else knows that runner (`ordered_step`): no task drives it, and no other step
touches it.
-/

namespace Systeml.Runtime

open Systeml.Lib Systeml.Unit Systeml.Deps

/-- What a new runner is given of its predecessor. -/
def copies (new old : RunnerId) : List ReloadOp :=
  [.copyState new old, .copySub new old, .copyPid new old, .moveChild new old]

/-- The step applies a unit. -/
def ReloadOp.isUnit : ReloadOp → Bool
  | .unit .. => true
  | _ => false

namespace World

variable {w w' : World} {u : UnitName} {r : RunnerId}

/-! ## Runners that nobody knows -/

/-- No service and no task has the runner. -/
structure Unused (w : World) (r : RunnerId) : Prop where
  services : ∀ u, w.mgr.services.get? u ≠ some r
  tasks : ∀ t ∈ w.tasks, t.runner ≠ r

/-- **A task is put in flight on a known runner**: that of a service or of a task. -/
theorem runner_known {l : Label} (hs : w.step l = some w') :
    ∀ t' ∈ w'.tasks, (∃ t ∈ w.tasks, t.runner = t'.runner) ∨
      ∃ u, w.mgr.services.get? u = some t'.runner := by
  have hsame : ∀ v : World, v.tasks = w.tasks → ∀ t' ∈ v.tasks,
      (∃ t ∈ w.tasks, t.runner = t'.runner) ∨ ∃ u, w.mgr.services.get? u = some t'.runner := by
    intro v hv t' ht'
    exact Or.inl ⟨t', hv ▸ ht', rfl⟩
  have hrequest : ∀ {kind n}, l.call w.mgr.allocJobId.1 = some (kind, n) → ∀ t' ∈ w'.tasks,
      (∃ t ∈ w.tasks, t.runner = t'.runner) ∨ ∃ u, w.mgr.services.get? u = some t'.runner := by
    intro kind n hcall t' ht'
    obtain ⟨-, ⟨he, -⟩ | ⟨q, hq, ⟨R, -, he⟩, -⟩⟩ := request_tasks hcall hs
    · exact hsame w' he t' ht'
    · rw [he] at ht'
      cases List.mem_append.mp ht' with
      | inl hm => exact Or.inl ⟨t', hm, rfl⟩
      | inr hm =>
        obtain rfl := List.mem_singleton.mp hm
        exact Or.inr ⟨n, hq⟩
  cases l with
  | startUnit n | stopUnit n | restartUnit n | reloadUnit n | fire timer n => exact hrequest rfl
  | daemonReload disk =>
    obtain ⟨-, rfl⟩ := ifFree_eq hs
    exact hsame _ rfl
  | reloadStep =>
    obtain ⟨-, rfl⟩ | ⟨op, rest, -, ho⟩ := reloadStep_cases hs
    · exact hsame _ rfl
    · exact hsame _ (reloadOp_tasks ho)
  | exit p =>
    obtain rfl := Option.some.inj hs
    exact hsame _ rfl
  | task i resp =>
    obtain ⟨s, op, rest, R, reply, ht, -, -, -, he⟩ := runTask_cases hs
    have hmem := List.mem_of_getElem? ht
    -- the services stay as they are while the acts are done
    suffices h : w'.mgr.services = w.mgr.services ∧ ∀ t' ∈ w'.tasks,
      (∃ t ∈ w.tasks, t.runner = t'.runner) ∨ ∃ u, w.mgr.services.get? u = some t'.runner from h.2
    subst he
    refine foldl_act_inv (P := fun v => v.mgr.services = w.mgr.services ∧ ∀ t' ∈ v.tasks,
      (∃ t ∈ w.tasks, t.runner = t'.runner) ∨ ∃ u, w.mgr.services.get? u = some t'.runner)
      (fun v a _ hv => ?_) ⟨rfl, ?_⟩
    · refine ⟨(sameRegistry_act v s a).services.trans hv.1, ?_⟩
      intro t' ht'
      obtain he | ⟨-, _, -, he⟩ | ⟨-, id, q, -, hq, _, -, he⟩ := act_tasks v s a
      · exact hv.2 t' (he ▸ ht')
      · rw [he] at ht'
        cases List.mem_append.mp ht' with
        | inl hm => exact hv.2 t' hm
        | inr hm =>
          obtain rfl := List.mem_singleton.mp hm
          exact Or.inl ⟨s, hmem, rfl⟩
      · rw [he] at ht'
        cases List.mem_append.mp ht' with
        | inl hm => exact hv.2 t' hm
        | inr hm =>
          obtain rfl := List.mem_singleton.mp hm
          exact Or.inr ⟨s.unit, hv.1 ▸ hq⟩
    · exact forall_mem_set (P := fun t' : Task => (∃ t ∈ w.tasks, t.runner = t'.runner) ∨
        ∃ u, w.mgr.services.get? u = some t'.runner) (fun t' ht' => Or.inl ⟨t', ht', rfl⟩)
        (Or.inl ⟨s, hmem, rfl⟩)

theorem Unused.step {l : Label} (h : Unused w r) (hserv : w'.mgr.services = w.mgr.services)
    (hs : w.step l = some w') : Unused w' r := by
  refine ⟨fun u => hserv ▸ h.services u, ?_⟩
  intro t' ht'
  obtain ⟨t, ht, he⟩ | ⟨u, hu⟩ := runner_known hs t' ht'
  · exact he ▸ h.tasks t ht
  · intro he
    exact h.services u (he ▸ hu)

/-! ## What is left of a reload -/

/-- What is left of a reload: units to apply, after the rest of the one that is being
applied. A service is put in with a runner that nobody knows yet, once the rest of the
copies is made. -/
inductive Applying (w : World) : List ReloadOp → Prop
  | units (l : List ReloadOp) (h : ∀ o ∈ l, o.isUnit = true) : Applying w l
  | service (n : UnitName) (spec : UnitSpec) (st : UnitStatus) (new : RunnerId)
    (front l : List ReloadOp) (hunused : Unused w new) (hrunner : HasRunner w new n)
    (hfront : front = [] ∨ ∃ old, w.mgr.services.get? n = some old ∧ front <:+ copies new old)
    (h : ∀ o ∈ l, o.isUnit = true) : Applying w (front ++ .install n spec st (some new) :: l)
  | other (n : UnitName) (spec : UnitSpec) (st : UnitStatus) (l : List ReloadOp)
    (h : ∀ o ∈ l, o.isUnit = true) : Applying w (.install n spec st none :: l)

/-- A reload in progress has that form. -/
def Ordered (w : World) : Prop := ∀ ops, w.reloading = some ops → Applying w ops

theorem Applying.of_other {ops : List ReloadOp} {l : Label} (h : Applying w ops)
    (hserv : w'.mgr.services = w.mgr.services) (hs : w.step l = some w') : Applying w' ops := by
  cases h with
  | units _ h => exact .units _ h
  | service n spec st new front l hunused hrunner hfront h =>
    refine .service n spec st new front l (hunused.step hserv hs)
      (hrunner.kept (keepsRunners_step hs)) ?_ h
    rw [hserv]
    exact hfront
  | other n spec st l h => exact .other n spec st l h

/-- A front that is not empty begins with a copy. -/
theorem suffix_copies {new old : RunnerId} {op : ReloadOp} {front : List ReloadOp}
    (h : op :: front <:+ copies new old) : op.isCopy = true ∧ front <:+ copies new old := by
  refine ⟨?_, (List.suffix_cons op front).trans h⟩
  have hmem : op ∈ copies new old := h.subset List.mem_cons_self
  simp only [copies, List.mem_cons, List.not_mem_nil, or_false] at hmem
  rcases hmem with rfl | rfl | rfl | rfl <;> rfl

theorem applying_reloadOp {rest : List ReloadOp} {op : ReloadOp} (hw : Wired w)
    (hl : w.lock = .reload (op :: rest)) (h : Applying w (op :: rest))
    (hs : w.reloadOp rest op = some w') : ∃ ops, w'.lock = .reload ops ∧ Applying w' ops := by
  have hstep : w.step .reloadStep = some w' := by
    simp only [step, reloadStep, hl]
    exact hs
  generalize hops : op :: rest = ops at h
  cases h with
  | units _ h =>
    subst hops
    have hrest : ∀ o ∈ rest, o.isUnit = true := fun o ho => h o (List.mem_cons_of_mem op ho)
    cases op with
    | unit n spec =>
      simp only [reloadOp] at hs
      split at hs
      next svc hk =>
        obtain rfl := Option.some.inj hs
        refine ⟨_, rfl, .service n spec _ w.runners.length _ rest ⟨?_, ?_⟩ ?_ ?_ hrest⟩
        · -- the runners of services and tasks are there already
          intro v hv
          obtain ⟨R, hR, -⟩ := hw.services v _ hv
          exact absurd (List.getElem?_eq_some_iff.mp hR).1 (Nat.lt_irrefl _)
        · intro t ht he
          obtain ⟨R, hR, -⟩ := hw.tasks t ht
          rw [he] at hR
          exact absurd (List.getElem?_eq_some_iff.mp hR).1 (Nat.lt_irrefl _)
        · exact ⟨{ unit := n, svc := svc }, List.getElem?_concat_length, rfl⟩
        · show _ ∨ ∃ old, w.mgr.services.get? n = some old ∧ _
          cases hold : w.mgr.services.get? n with
          | none => exact Or.inl rfl
          | some old => exact Or.inr ⟨old, rfl, List.suffix_rfl⟩
      next =>
        obtain rfl := Option.some.inj hs
        exact ⟨_, rfl, .other n spec _ rest hrest⟩
    | copyState new old | copySub new old | copyPid new old | moveChild new old
    | install n spec st new => exact absurd (h _ List.mem_cons_self) (by simp [ReloadOp.isUnit])
  | service n spec st new front l hunused hrunner hfront h =>
    cases front with
    | nil =>
      obtain ⟨rfl, rfl⟩ := List.cons.inj hops
      obtain rfl := Option.some.inj hs
      exact ⟨_, rfl, .units _ h⟩
    | cons c front =>
      obtain ⟨rfl, rfl⟩ := List.cons.inj hops
      obtain hnil | ⟨old, hold, hsuf⟩ := hfront
      · exact absurd hnil (by simp)
      · obtain ⟨hcopy, hsuf⟩ := suffix_copies hsuf
        obtain ⟨_, _, _, _, _, rfl, -⟩ | ⟨-, hmgr, hlock⟩ | ⟨_, _, _, _, rfl, -⟩ := reloadOp_cases hs
        · exact absurd hcopy (by simp [ReloadOp.isCopy])
        · have hserv : w'.mgr.services = w.mgr.services := by rw [hmgr]
          refine ⟨_, hlock, .service n spec st new front l (hunused.step hserv hstep)
            (hrunner.kept (keepsRunners_step hstep)) (Or.inr ⟨old, ?_, hsuf⟩) h⟩
          rw [hserv]
          exact hold
        · exact absurd hcopy (by simp [ReloadOp.isCopy])
  | other n spec st l h =>
    obtain ⟨rfl, rfl⟩ := List.cons.inj hops
    obtain rfl := Option.some.inj hs
    exact ⟨_, rfl, .units _ h⟩

/-- **Every step keeps a reload in progress in order.** -/
theorem ordered_step {l : Label} (hw : Wired w) (h : Ordered w) (hs : w.step l = some w') :
    Ordered w' := by
  intro ops hops
  by_cases hr : l = .reloadStep
  · subst hr
    obtain ⟨-, rfl⟩ | ⟨op, rest, hl, ho⟩ := reloadStep_cases hs
    · exact absurd hops (by simp [reloading, Lock.pending])
    · obtain ⟨ops', hlock, happly⟩ := applying_reloadOp hw hl (h _ (reloading_of_lock hl)) ho
      obtain rfl := Option.some.inj ((reloading_of_lock hlock).symm.trans hops)
      exact happly
  by_cases hd : ∃ disk, l = .daemonReload disk
  · obtain ⟨disk, rfl⟩ := hd
    obtain ⟨-, rfl⟩ := ifFree_eq hs
    obtain rfl := Option.some.inj ((reloading_of_lock rfl).symm.trans hops)
    refine .units _ ?_
    intro o ho
    obtain ⟨e, -, rfl⟩ := List.mem_map.mp ho
    rfl
  · have hd' : ∀ disk, l ≠ .daemonReload disk := fun disk he => hd ⟨disk, he⟩
    rw [reloading_step hs hd' hr] at hops
    exact (h ops hops).of_other (sameRegistry_step hs hd' hr).services hs

theorem ordered_of_free (h : w.lock = .free) : Ordered w := by
  intro ops hops
  rw [reloading_of_free h] at hops
  exact absurd hops (by simp)

/-- **Nobody but the reload touches the runner it is about to put in.** A step copies to a
runner that no task drives. -/
theorem Applying.unused {op : ReloadOp} {rest : List ReloadOp} {new old : RunnerId}
    (h : Applying w (op :: rest)) (hop : op ∈ copies new old) : Unused w new := by
  generalize hops : op :: rest = ops at h
  have hcopy : op.isCopy = true := by
    simp only [copies, List.mem_cons, List.not_mem_nil, or_false] at hop
    rcases hop with rfl | rfl | rfl | rfl <;> rfl
  cases h with
  | units _ h =>
    have hunit := h op (hops ▸ List.mem_cons_self)
    cases op with
    | unit n spec => exact absurd hcopy (by simp [ReloadOp.isCopy])
    | copyState _ _ | copySub _ _ | copyPid _ _ | moveChild _ _ | install _ _ _ _ =>
      exact absurd hunit (by simp [ReloadOp.isUnit])
  | service n spec st new' front l hunused hrunner hfront h =>
    cases front with
    | nil =>
      obtain ⟨rfl, -⟩ := List.cons.inj hops
      exact absurd hcopy (by simp [ReloadOp.isCopy])
    | cons c front =>
      obtain ⟨rfl, -⟩ := List.cons.inj hops
      obtain hnil | ⟨old', -, hsuf⟩ := hfront
      · exact absurd hnil (by simp)
      · have hmem : op ∈ copies new' old' := hsuf.subset List.mem_cons_self
        simp only [copies, List.mem_cons, List.not_mem_nil, or_false] at hop hmem
        rcases hop with rfl | rfl | rfl | rfl <;> simp at hmem <;> exact hmem.1 ▸ hunused
  | other n spec st l h =>
    obtain ⟨rfl, -⟩ := List.cons.inj hops
    exact absurd hcopy (by simp [ReloadOp.isCopy])

/-- Nor does anybody know the runner that is put in next. -/
theorem Applying.unused_of_install {n : UnitName} {spec : UnitSpec} {st : UnitStatus} {new : RunnerId}
    {rest : List ReloadOp} (h : Applying w (.install n spec st (some new) :: rest)) : Unused w new := by
  generalize hops : ReloadOp.install n spec st (some new) :: rest = ops at h
  cases h with
  | units _ h =>
    have hunit := h _ (hops ▸ List.mem_cons_self)
    exact absurd hunit (by simp [ReloadOp.isUnit])
  | service n' spec' st' new' front l hunused hrunner hfront h =>
    cases front with
    | nil =>
      obtain ⟨he, -⟩ := List.cons.inj hops
      obtain ⟨-, -, -, hnew⟩ := ReloadOp.install.inj he
      exact Option.some.inj hnew ▸ hunused
    | cons c front =>
      obtain ⟨rfl, -⟩ := List.cons.inj hops
      obtain hnil | ⟨old, -, hsuf⟩ := hfront
      · exact absurd hnil (by simp)
      · exact absurd (suffix_copies hsuf).1 (by simp [ReloadOp.isCopy])
  | other n' spec' st' l h =>
    obtain ⟨he, -⟩ := List.cons.inj hops
    exact absurd (ReloadOp.install.inj he).2.2.2 (by simp)

/-- A reload takes the child from a runner it does not copy to, and leaves the rest. -/
theorem reloadOp_runner {op : ReloadOp} {rest : List ReloadOp} {R : Runner}
    (hR : w.runners[r]? = some R) (hne : ∀ new old, op ∈ copies new old → new ≠ r)
    (hs : w.reloadOp rest op = some w') :
    w'.runners[r]? = some R ∨ w'.runners[r]? = some { R with child := none } := by
  cases op with
  | unit n spec =>
    simp only [reloadOp] at hs
    split at hs
    · obtain rfl := Option.some.inj hs
      exact Or.inl ((List.getElem?_append_left (List.getElem?_eq_some_iff.mp hR).1).trans hR)
    · obtain rfl := Option.some.inj hs
      exact Or.inl hR
  | copyState new old | copySub new old | copyPid new old =>
    have hnew := hne new old (by simp [copies])
    simp only [reloadOp] at hs
    split at hs
    · obtain rfl := Option.some.inj hs
      exact Or.inl ((getElem?_modify_some hR).trans (by rw [if_neg hnew]))
    · exact absurd hs (by simp)
  | moveChild new old =>
    have hnew := hne new old (by simp [copies])
    have hget : ∀ f : Runner → Runner,
        ((w.runners.modify old fun n => { n with child := none }).modify new f)[r]? =
          some (if old = r then { R with child := none } else R) := by
      intro f
      rw [List.getElem?_modify_ne f _ hnew, getElem?_modify_some hR]
    simp only [reloadOp] at hs
    split at hs
    · split at hs
      · exact absurd hs (by simp)
      · obtain rfl := Option.some.inj hs
        by_cases hold : old = r
        · exact Or.inr ((hget _).trans (by rw [if_pos hold]))
        · exact Or.inl ((hget _).trans (by rw [if_neg hold]))
    · exact absurd hs (by simp)
  | install n spec st new =>
    obtain rfl := Option.some.inj hs
    exact Or.inl hR

/-! ## The tasks meanwhile -/

/-- What the step of a task changes while a reload is in progress. -/
structure Beneath (w w' : World) (i : TaskId) (t : Task) (reply : Reply) : Prop where
  kind : t.kind.isLocked = false
  status : w'.mgr.status = w.mgr.status
  tasks : w'.tasks = w.tasks.set i { t with ops := reply.ops }
  runners : w'.runners = w.runners.set t.runner reply.runner

/-- **While a reload is in progress tasks mark nothing and put nothing in flight.** -/
theorem beneath_task {resp : Response} {i : TaskId} {ops : List ReloadOp} (hw : Sound w)
    (hre : w.reloading = some ops) (hs : w.step (.task i resp) = some w') :
    ∃ t op rest R reply, w.tasks[i]? = some t ∧ t.ops = op :: rest ∧
      w.runners[t.runner]? = some R ∧ op.run w.procs false t.kind R rest resp = some reply ∧
      Beneath w w' i t reply := by
  obtain ⟨t, op, rest, R, reply, ht, hops, hR, hreply, rfl⟩ := runTask_cases hs
  have hmem := List.mem_of_getElem? ht
  have hbusy : decide (w.lock = .free) = false := by
    rw [lock_of_reloading hre]
    rfl
  rw [hbusy] at hreply
  have hkind : t.kind.isLocked = false := by
    by_contra hk
    have hnil := hw.wired.ended_of_reloading hre ht (by simpa using hk)
    rw [hops] at hnil
    exact absurd hnil (by simp)
  refine ⟨t, op, rest, R, reply, ht, hops, hR, hreply, ?_⟩
  -- neither a start nor a supervisor has other steps that act on the manager
  have hop : op ≠ .markDead ∧ op ≠ .respawn := by
    cases hk : t.kind with
    | start id =>
      have hprog : Program (.start id) (op :: rest) := by
        cases hw.shaped t hmem (by rw [hk]; rfl) with
        | inl hnil =>
          rw [hops] at hnil
          exact absurd hnil (by simp)
        | inr hprog => exact hk ▸ hops ▸ hprog
      cases hprog with
      | last hlast => constructor <;> rintro rfl <;> simp [Op.isLast] at hlast
      | cons hinner _ =>
        constructor <;> rintro rfl <;> simp [Op.isInner, Op.ofStart, Op.isCommon] at hinner
    | supervise =>
      have hsup := hw.supervised t hmem hk op (hops ▸ List.mem_cons_self)
      constructor <;> rintro rfl <;> simp [Op.ofSupervisor] at hsup
    | stop id | restart id | reload id =>
      rw [hk] at hkind
      exact absurd hkind (by simp [TaskKind.isLocked])
  have hacts : ∀ (v : World) (a : Act), a ∈ reply.acts →
      (v.act t a).mgr.status = v.mgr.status ∧ (v.act t a).tasks = v.tasks := by
    intro v a ha
    cases Op.run_does hreply a ha with
    | exec | spawnMain | spawnForking | reap | kill => exact ⟨rfl, rfl⟩
    | publish o a s h | supervise o s h | publishExit a s h => exact absurd h (by simp)
    | markDead => exact absurd rfl hop.1
    | respawn => exact absurd rfl hop.2
    | jobRemoved o =>
      simp only [act]
      split <;> exact ⟨rfl, rfl⟩
  have hboth := foldl_act_inv (t := t)
    (P := fun v => v.mgr.status = w.mgr.status ∧ v.tasks = w.tasks.set i { t with ops := reply.ops })
    (fun v a (ha : a ∈ reply.acts) hv => ⟨(hacts v a ha).1.trans hv.1, (hacts v a ha).2.trans hv.2⟩)
    (w := { w with
      runners := w.runners.set t.runner reply.runner
      tasks := w.tasks.set i { t with ops := reply.ops }
      lock := w.lockAfter i reply.ops }) ⟨rfl, rfl⟩
  exact ⟨hkind, hboth.1, hboth.2, foldl_act_runners _ _ _⟩

/-- Requests wait for the reload. -/
theorem beneath_cases {l : Label} {ops : List ReloadOp} (hre : w.reloading = some ops)
    (hs : w.step l = some w') :
    l = .reloadStep ∨ (∃ i resp, l = .task i resp) ∨ ∃ p, l = .exit p := by
  have hbusy : w.lock ≠ .free := by
    rw [lock_of_reloading hre]
    simp
  cases l with
  | startUnit n | stopUnit n | restartUnit n | reloadUnit n | daemonReload disk =>
    exact absurd (ifFree_eq hs).1 hbusy
  | fire timer n => exact absurd (request_tasks rfl hs).1 hbusy
  | reloadStep => exact Or.inl rfl
  | task i resp => exact Or.inr (Or.inl ⟨i, resp, rfl⟩)
  | exit p => exact Or.inr (Or.inr ⟨p, rfl⟩)

/-- **Beneath a reload** only its own steps touch the status of units and the runners that
no task drives. -/
theorem beneath_same {l : Label} {ops : List ReloadOp} (hw : Sound w) (hre : w.reloading = some ops)
    (hl : l ≠ .reloadStep) (hs : w.step l = some w') :
    w'.mgr.status = w.mgr.status ∧ ∀ q, (∀ t ∈ w.tasks, t.runner ≠ q) →
      w'.runners[q]? = w.runners[q]? ∧ ∀ t ∈ w'.tasks, t.runner ≠ q := by
  obtain he | ⟨i, resp, rfl⟩ | ⟨p, rfl⟩ := beneath_cases hre hs
  · exact absurd he hl
  · obtain ⟨t, op, rest, R, reply, ht, -, -, -, hb⟩ := beneath_task hw hre hs
    refine ⟨hb.status, fun q hq => ⟨?_, ?_⟩⟩
    · rw [hb.runners]
      exact List.getElem?_set_ne (hq t (List.mem_of_getElem? ht))
    · rw [hb.tasks]
      exact forall_mem_set (P := fun s : Task => s.runner ≠ q) hq (hq t (List.mem_of_getElem? ht))
  · obtain rfl := Option.some.inj hs
    exact ⟨rfl, fun q hq => ⟨rfl, hq⟩⟩

end World

end Systeml.Runtime
