import Systeml.Runtime.Exit

/-!
# After the exit of a main process

Once a supervisor has published the exit on the runner in `services`, that runner has no
pid, and neither has one that a reload puts in later on (`Forgotten`): a stop of the unit
finds nobody to signal. What the runner says stays too, as long as no stop begins and no
reload drops the unit (`Agrees`).
-/

namespace Systeml.Runtime

open Systeml.Lib Systeml.Unit Systeml.Deps

/-! ## A stop without a main process -/

/-- The step waits for the process that a stop has signalled. -/
def Op.holds : Op → Bool
  | .holdChild _ | .waitGone _ | .waitKilled _ => true
  | _ => false

theorem Op.holds_of_initial {o : Op} (h : o.initial = true) : o.holds = false := by
  cases o <;> first | rfl | exact absurd h (by simp [initial])

/-- **A stop of a runner without a pid** signals nobody and waits for nobody. -/
theorem Op.run_stop_pidless {procs : List Proc} {free : Bool} {id : JobId} {R : Runner}
    {rest : List Op} {resp : Response} {op : Op} {reply : Reply}
    (hop : op.ofStop = true ∨ ∃ o, op = .jobRemoved o) (hpid : R.mainPid = none)
    (hno : ∀ o ∈ op :: rest, o.holds = false)
    (h : op.run procs free (.stop id) R rest resp = some reply) :
    (∀ o ∈ reply.ops, o.holds = false) ∧ ∀ k, .kill k ∉ reply.acts := by
  have hrest : ∀ o ∈ rest, o.holds = false := fun o ho => hno o (List.mem_cons_of_mem op ho)
  have hleaves : ∀ l, Leaves (.stop id) rest l → ∀ o ∈ l, o.holds = false := by
    intro l hl o ho
    cases hl.mem ho with
    | inl ho => exact hrest o ho
    | inr hi => exact holds_of_initial hi
  have hself := hno op List.mem_cons_self
  obtain hop | ⟨o, rfl⟩ := hop
  · cases op with
    | requestStop | setState a | setSub s => exact Option.some.inj h ▸ ⟨hrest, by simp⟩
    | setMainPid p => exact Option.some.inj h ▸ ⟨hrest, by simp⟩
    | markDead => exact Option.some.inj h ▸ ⟨hrest, by simp⟩
    | setChild c =>
      simp only [run] at h
      split at h
      · exact absurd h (by simp)
      · exact Option.some.inj h ▸ ⟨hrest, by simp⟩
    | resolveEnv =>
      simp only [run] at h
      split at h
      · exact Option.some.inj h ▸ ⟨hrest, by simp⟩
      · exact Option.some.inj h ▸ ⟨hleaves _ (.ret .failed), by simp⟩
      · exact absurd h (by simp)
    | exec cmd k =>
      obtain ⟨pid, -, rfl⟩ | ⟨l, hl, rfl⟩ := runExec_cases h
      · exact ⟨fun o ho => (List.mem_cons.mp ho).elim (fun he => he ▸ rfl) (hrest o), by simp⟩
      · exact ⟨hleaves l hl, by simp⟩
    | waitExec p cmd k =>
      obtain ⟨l, acts, hl, rfl | rfl, rfl⟩ := runWaitExec_cases h
      · exact ⟨hleaves l hl, by simp⟩
      · exact ⟨hleaves l hl, by simp⟩
    | readPid =>
      obtain ⟨l, hl, rfl⟩ | ⟨p, acts, hp, -, -⟩ := runReadPid_cases h
      · exact ⟨hleaves l hl, by simp⟩
      · exact absurd (hpid.symm.trans hp) (by simp)
    | holdChild p | waitGone p | waitKilled p => exact absurd hself (by simp [holds])
    | _ => exact absurd hop (by simp [ofStop, isCommon])
  · exact Option.some.inj h ▸ ⟨hrest, by simp⟩

/-- Neither a stop nor a supervisor gives a runner a pid. -/
theorem Op.run_pidless {procs : List Proc} {free : Bool} {kind : TaskKind} {R : Runner}
    {rest : List Op} {resp : Response} {op : Op} {reply : Reply}
    (hop : op.ofStop = true ∨ op.ofSupervisor = true ∨ ∃ o, op = .jobRemoved o)
    (hpid : R.mainPid = none) (h : op.run procs free kind R rest resp = some reply) :
    reply.runner.mainPid = none := by
  obtain he | he | ⟨cmd, rfl⟩ := (Op.run_writes h).mainPid
  · exact he.trans hpid
  · cases hp : reply.runner.mainPid with
    | none => rfl
    | some p =>
      rw [hp] at he
      subst he
      simp [ofStop, isCommon, ofSupervisor] at hop
  · simp [ofStop, isCommon, ofSupervisor] at hop

namespace World

variable {w w' : World} {u : UnitName} {i : TaskId} {r : RunnerId} {l : Label}

/-! ## The runner that a reload is about to put in -/

/-- A runner that is to be put in is nobody's, and is copied to from the one in
`services`. -/
theorem Applying.of_install {ops : List ReloadOp} {spec : UnitSpec} {st : UnitStatus}
    (h : Applying w ops) (hmem : .install u spec st (some r) ∈ ops) :
    Unused w r ∧ ∀ op rest old, ops = op :: rest → op ∈ copies r old →
      w.mgr.services.get? u = some old := by
  cases h with
  | units _ h => exact absurd (h _ hmem) (by simp [ReloadOp.isUnit])
  | other n spec' st' l h =>
    cases List.mem_cons.mp hmem with
    | inl he => exact absurd (ReloadOp.install.inj he).2.2.2 (by simp)
    | inr hmem => exact absurd (h _ hmem) (by simp [ReloadOp.isUnit])
  | service n spec' st' new front l hunused hrunner hfront h =>
    have hcopies : ∀ o ∈ front, o.isCopy = true := by
      obtain rfl | ⟨old, -, hsuf⟩ := hfront
      · simp
      · intro o ho
        have ho := hsuf.subset ho
        simp only [copies, List.mem_cons, List.not_mem_nil, or_false] at ho
        obtain rfl | rfl | rfl | rfl := ho <;> rfl
    obtain hfront' | he := List.mem_append.mp hmem
    · exact absurd (hcopies _ hfront') (by simp [ReloadOp.isCopy])
    obtain he | hl := List.mem_cons.mp he
    · obtain ⟨rfl, -, -, hnew⟩ := ReloadOp.install.inj he
      obtain rfl := Option.some.inj hnew
      refine ⟨hunused, fun op rest old hops hop => ?_⟩
      cases front with
      | nil =>
        obtain ⟨rfl, -⟩ := List.cons.inj hops
        exact absurd hop (by simp [copies])
      | cons c front =>
        obtain ⟨rfl, -⟩ := List.cons.inj hops
        obtain hnil | ⟨old', hold', hsuf⟩ := hfront
        · exact absurd hnil (by simp)
        · have hc : c ∈ copies r old' := hsuf.subset List.mem_cons_self
          simp only [copies, List.mem_cons, List.not_mem_nil, or_false] at hc hop
          obtain rfl | rfl | rfl | rfl := hop <;> simp at hc <;> exact hc ▸ hold'
    · exact absurd (h _ hl) (by simp [ReloadOp.isUnit])

/-- **One step of a reload** on a runner: it is given the pid or the state of another one,
or keeps its own. -/
theorem reloadOp_target {op : ReloadOp} {rest : List ReloadOp} {R : Runner}
    (hR : w.runners[r]? = some R) (ho : w.reloadOp rest op = some w') :
    ∃ R', w'.runners[r]? = some R' ∧
      (R'.mainPid = R.mainPid ∨ ∃ old O, op = .copyPid r old ∧ w.runners[old]? = some O ∧
        R'.mainPid = O.mainPid) ∧
      ((R'.state = R.state ∧ ∀ old, op ≠ .copyState r old) ∨
        ∃ old O, op = .copyState r old ∧ w.runners[old]? = some O ∧ R'.state = O.state) := by
  cases op with
  | unit n spec =>
    refine ⟨R, ?_, Or.inl rfl, Or.inl ⟨rfl, by simp⟩⟩
    simp only [World.reloadOp] at ho
    split at ho
    · obtain rfl := Option.some.inj ho
      exact (List.getElem?_append_left (List.getElem?_eq_some_iff.mp hR).1).trans hR
    · obtain rfl := Option.some.inj ho
      exact hR
  | install n spec st new =>
    obtain rfl := Option.some.inj ho
    exact ⟨R, hR, Or.inl rfl, Or.inl ⟨rfl, by simp⟩⟩
  | copyState new old =>
    simp only [World.reloadOp] at ho
    split at ho
    next O hO =>
      obtain rfl := Option.some.inj ho
      refine ⟨_, getElem?_modify_some hR, ?_⟩
      by_cases hn : new = r
      · subst hn
        rw [if_pos rfl]
        exact ⟨Or.inl rfl, Or.inr ⟨old, O, rfl, hO, rfl⟩⟩
      · rw [if_neg hn]
        exact ⟨Or.inl rfl, Or.inl ⟨rfl, fun _ he => hn (ReloadOp.copyState.inj he).1⟩⟩
    next => exact absurd ho (by simp)
  | copySub new old =>
    simp only [World.reloadOp] at ho
    split at ho
    · obtain rfl := Option.some.inj ho
      refine ⟨_, getElem?_modify_some hR, ?_⟩
      split <;> exact ⟨Or.inl rfl, Or.inl ⟨rfl, by simp⟩⟩
    · exact absurd ho (by simp)
  | copyPid new old =>
    simp only [World.reloadOp] at ho
    split at ho
    next O hO =>
      obtain rfl := Option.some.inj ho
      refine ⟨_, getElem?_modify_some hR, ?_⟩
      by_cases hn : new = r
      · subst hn
        rw [if_pos rfl]
        exact ⟨Or.inr ⟨old, O, rfl, hO, rfl⟩, Or.inl ⟨rfl, by simp⟩⟩
      · rw [if_neg hn]
        exact ⟨Or.inl rfl, Or.inl ⟨rfl, by simp⟩⟩
    next => exact absurd ho (by simp)
  | moveChild new old =>
    simp only [World.reloadOp] at ho
    split at ho
    · split at ho
      · exact absurd ho (by simp)
      · obtain rfl := Option.some.inj ho
        refine ⟨_, getElem?_modify_some (getElem?_modify_some hR), ?_⟩
        split <;> split <;> exact ⟨Or.inl rfl, Or.inl ⟨rfl, by simp⟩⟩
    · exact absurd ho (by simp)

/-- **A runner that a reload is about to put in** was just made, with the copies still to
be made, or was to be put in before. -/
theorem installing_step {q : RunnerId} {ops' : List ReloadOp} {spec : UnitSpec} {st : UnitStatus}
    (ho : Ordered w) (hs : w.step l = some w') (hops' : w'.reloading = some ops')
    (hmem : .install u spec st (some q) ∈ ops') :
    (∃ svc, w'.runners[q]? = some { unit := u, svc := svc } ∧
      ∀ old, w.mgr.services.get? u = some old → .copyState q old ∈ ops') ∨
    ∃ ops, w.reloading = some ops ∧ .install u spec st (some q) ∈ ops ∧
      ∀ R, w.runners[q]? = some R → ∃ R', w'.runners[q]? = some R' ∧
        (R'.mainPid = R.mainPid ∨ ∃ old O, w.mgr.services.get? u = some old ∧
          w.runners[old]? = some O ∧ R'.mainPid = O.mainPid) ∧
        ((R'.state = R.state ∧ ∀ old, .copyState q old ∈ ops → .copyState q old ∈ ops') ∨
          ∃ old O, w.mgr.services.get? u = some old ∧ w.runners[old]? = some O ∧
            R'.state = O.state) := by
  by_cases hr : l = .reloadStep
  · subst hr
    obtain ⟨-, rfl⟩ | ⟨op, rest, hlock, hop⟩ := reloadStep_cases hs
    · exact absurd hops' (by simp [reloading, Lock.pending])
    have happly := ho _ (reloading_of_lock hlock)
    -- a step that was not the last copy leaves the install where it was
    have hold : ReloadOp.install u spec st (some q) ∈ op :: rest →
        (∀ o ∈ op :: rest, o ≠ op → o ∈ ops') → ∃ ops, w.reloading = some ops ∧
        .install u spec st (some q) ∈ ops ∧ ∀ R, w.runners[q]? = some R →
          ∃ R', w'.runners[q]? = some R' ∧
          (R'.mainPid = R.mainPid ∨ ∃ old O, w.mgr.services.get? u = some old ∧
            w.runners[old]? = some O ∧ R'.mainPid = O.mainPid) ∧
          ((R'.state = R.state ∧ ∀ old, .copyState q old ∈ ops → .copyState q old ∈ ops') ∨
            ∃ old O, w.mgr.services.get? u = some old ∧ w.runners[old]? = some O ∧
              R'.state = O.state) := by
      intro hmem hrest
      refine ⟨_, reloading_of_lock hlock, hmem, fun R hR => ?_⟩
      have hserv := (happly.of_install hmem).2 op rest
      obtain ⟨R', hR', hpid, hstate⟩ := reloadOp_target hR hop
      refine ⟨R', hR', hpid.imp_right ?_, hstate.imp ?_ ?_⟩
      · rintro ⟨old, O, rfl, hO, he⟩
        exact ⟨old, O, hserv old rfl (by simp [copies]), hO, he⟩
      · rintro ⟨he, hne⟩
        exact ⟨he, fun old hc => hrest _ hc fun heq => hne old heq.symm⟩
      · rintro ⟨old, O, rfl, hO, he⟩
        exact ⟨old, O, hserv old rfl (by simp [copies]), hO, he⟩
    cases op with
    | unit n spec' =>
      have hunits : ∀ o ∈ rest, o.isUnit = true := by
        generalize hops : ReloadOp.unit n spec' :: rest = ops at happly
        cases happly with
        | units _ h => exact fun o ho => h o (hops ▸ List.mem_cons_of_mem _ ho)
        | other n' spec'' st' l h => exact absurd (List.cons.inj hops).1 (by simp)
        | service n' spec'' st' new front l _ _ hfront _ =>
          cases front with
          | nil => exact absurd (List.cons.inj hops).1 (by simp)
          | cons c front =>
            obtain hnil | ⟨old, -, hsuf⟩ := hfront
            · exact absurd hnil (by simp)
            · have hcopy := (suffix_copies hsuf).1
              rw [← (List.cons.inj hops).1] at hcopy
              exact absurd hcopy (by simp [ReloadOp.isCopy])
      have hnot : ReloadOp.install u spec st (some q) ∉ rest :=
        fun hm => absurd (hunits _ hm) (by simp [ReloadOp.isUnit])
      simp only [World.reloadOp] at hop
      split at hop
      next svc hk =>
        obtain rfl := Option.some.inj hop
        obtain rfl := Option.some.inj ((reloading_of_lock rfl).symm.trans hops')
        obtain hm | hm := List.mem_append.mp hmem
        · split at hm <;> simp at hm
        obtain he | hm := List.mem_cons.mp hm
        · obtain ⟨rfl, -, -, hq⟩ := ReloadOp.install.inj he
          obtain rfl := Option.some.inj hq
          refine Or.inl ⟨svc, List.getElem?_concat_length, fun old hold => ?_⟩
          refine List.mem_append_left _ ?_
          rw [hold]
          exact List.mem_cons_self
        · exact absurd hm hnot
      next =>
        obtain rfl := Option.some.inj hop
        obtain rfl := Option.some.inj ((reloading_of_lock rfl).symm.trans hops')
        obtain he | hm := List.mem_cons.mp hmem
        · exact absurd (ReloadOp.install.inj he).2.2.2 (by simp)
        · exact absurd hm hnot
    | copyState new old | copySub new old | copyPid new old | moveChild new old
    | install n spec' st' new =>
      right
      have hops : ops' = rest := by
        obtain ⟨_, _, _, _, _, he, -⟩ | ⟨-, -, hlock'⟩ | ⟨_, _, _, _, -, -, hlock'⟩ :=
          reloadOp_cases hop
        · exact absurd he (by simp)
        · exact Option.some.inj (hops'.symm.trans (reloading_of_lock hlock'))
        · exact Option.some.inj (hops'.symm.trans (reloading_of_lock hlock'))
      subst hops
      exact hold (List.mem_cons_of_mem _ hmem) fun o ho hne =>
        (List.mem_cons.mp ho).resolve_left hne
  by_cases hd : ∃ disk, l = .daemonReload disk
  · obtain ⟨disk, rfl⟩ := hd
    obtain ⟨-, rfl⟩ := ifFree_eq hs
    obtain rfl := Option.some.inj ((reloading_of_lock rfl).symm.trans hops')
    obtain ⟨e, -, he⟩ := List.mem_map.mp hmem
    exact absurd he (by simp)
  · rw [reloading_step hs (fun disk he => hd ⟨disk, he⟩) hr] at hops'
    refine Or.inr ⟨ops', hops', hmem, fun R hR => ?_⟩
    obtain ⟨j, resp, t, op, rest, reply, -, ht, htr, -⟩ | ⟨op, rest, old, rfl, -⟩ |
      ⟨R', hR', halike⟩ := runner_step hR hs
    · exact absurd htr (((ho _ hops').of_install hmem).1.tasks t (List.mem_of_getElem? ht))
    · exact absurd rfl hr
    · exact ⟨R', hR', Or.inl halike.mainPid, Or.inl ⟨halike.state, fun _ h => h⟩⟩

/-- Behind the installation of a unit there are only units to apply. -/
theorem Applying.rest_units {n : UnitName} {spec : UnitSpec} {st : UnitStatus}
    {new : Option RunnerId} {rest : List ReloadOp}
    (h : Applying w (.install n spec st new :: rest)) :
    ∀ o ∈ rest, o.isUnit = true := by
  generalize hops : ReloadOp.install n spec st new :: rest = ops at h
  cases h with
  | units _ h => exact fun o ho => h o (hops ▸ List.mem_cons_of_mem _ ho)
  | other n' spec' st' l h =>
    obtain ⟨-, rfl⟩ := List.cons.inj hops
    exact h
  | service n' spec' st' new' front l hunused hrunner hfront h =>
    cases front with
    | nil =>
      obtain ⟨-, rfl⟩ := List.cons.inj hops
      exact h
    | cons c front =>
      obtain ⟨rfl, -⟩ := List.cons.inj hops
      obtain hnil | ⟨old, -, hsuf⟩ := hfront
      · exact absurd hnil (by simp)
      · exact absurd (suffix_copies hsuf).1 (by simp [ReloadOp.isCopy])

/-! ## No pid -/

/-- The runner in `services` has no pid, nor has one that a reload is about to put in, and
no stop of the unit waits for a process. -/
structure Forgotten (u : UnitName) (w : World) : Prop where
  sound : Sound w
  ordered : Ordered w
  idle : Idle TaskKind.drives u w
  current : ∀ q R, w.mgr.services.get? u = some q → w.runners[q]? = some R → R.mainPid = none
  pending : ∀ ops spec st q R, w.reloading = some ops → .install u spec st (some q) ∈ ops →
    w.runners[q]? = some R → R.mainPid = none
  stops : ∀ t ∈ w.tasks, t.isCall TaskKind.isStop u = true → ∀ o ∈ t.ops, o.holds = false

/-- What a task of the unit does next. -/
theorem Forgotten.next (h : Forgotten u w) {t : Task} {op : Op} {rest : List Op} (ht : t ∈ w.tasks)
    (hu : t.unit = u) (hops : t.ops = op :: rest) :
    (t.kind = .supervise ∧ op.ofSupervisor = true) ∨
      ((∃ id, t.kind = .stop id) ∧ (op.ofStop = true ∨ ∃ o, op = .jobRemoved o)) := by
  have hne : t.ops ≠ [] := by
    rw [hops]
    simp
  cases hk : t.kind with
  | start id | restart id | reload id =>
    exact absurd (h.idle t ht (Task.isCall_iff.mpr ⟨hu, hk ▸ rfl⟩)) hne
  | supervise => exact Or.inl ⟨rfl, h.sound.supervised t ht hk op (hops ▸ List.mem_cons_self)⟩
  | stop id =>
    refine Or.inr ⟨⟨id, rfl⟩, ?_⟩
    have hprog := (h.sound.shaped t ht (by rw [hk]; rfl)).resolve_left hne
    rw [hk, hops] at hprog
    cases hprog with
    | last hlast =>
      cases op with
      | jobRemoved o => exact Or.inr ⟨o, rfl⟩
      | _ => exact absurd hlast (by simp [Op.isLast])
    | cons hinner _ => exact Or.inl hinner

/-- **A stop of the unit signals nobody.** -/
theorem Forgotten.stop_step (h : Forgotten u w) {t : Task} {op : Op} {rest : List Op} {R : Runner}
    {id : JobId} {resp : Response} {reply : Reply} (ht : w.tasks[i]? = some t) (hu : t.unit = u)
    (hk : t.kind = .stop id) (hops : t.ops = op :: rest) (hR : w.runners[t.runner]? = some R)
    (hreply : op.run w.procs (w.lock = .free) t.kind R rest resp = some reply) :
    (∀ o ∈ reply.ops, o.holds = false) ∧ ∀ k, .kill k ∉ reply.acts := by
  have hmem := List.mem_of_getElem? ht
  have hheld := h.sound.wired.held i t ht (by rw [hk]; rfl) (by rw [hops]; simp)
  have hno := h.stops t hmem (Task.isCall_iff.mpr ⟨hu, by rw [hk]; rfl⟩)
  rw [hops] at hno
  obtain ⟨hsup, -⟩ | ⟨-, hop⟩ := h.next hmem hu hops
  · rw [hk] at hsup
    exact absurd hsup (by simp)
  · rw [hk] at hreply
    exact Op.run_stop_pidless hop (h.current _ R (hu ▸ hheld.2) hR) hno hreply

/-- **One step keeps it so.** -/
theorem Forgotten.step (h : Forgotten u w) (hasks : ¬ l.asks TaskKind.drives u)
    (hs : w.step l = some w') : Forgotten u w' := by
  refine ⟨sound_step h.sound hs, ordered_step h.sound.wired h.ordered hs,
    (staysIdle_step onRequest_drives h.idle hasks hs).idle, ?_, ?_, ?_⟩
  · intro q R' hq hR'
    obtain hold | ⟨spec, st, rest, rfl, hlock⟩ := services_step hs hq
    · obtain ⟨R, hR, hu⟩ := h.sound.wired.services u q hold
      have hpid := h.current q R hold hR
      obtain ⟨j, resp, t, op, rest, reply, -, ht, htr, hops, hreply, hrun⟩ | ⟨N, hN, halike⟩ :=
        runner_step_used h.ordered (fun hun => hun.services u hold) hR hs
      · obtain rfl := Option.some.inj (hR'.symm.trans hrun)
        have hmem := List.mem_of_getElem? ht
        have hop := h.next hmem (unit_eq h.sound.wired hmem ⟨R, htr ▸ hR, hu⟩) hops
        exact Op.run_pidless (hop.elim (fun hs => Or.inr (Or.inl hs.2))
          fun hs => hs.2.imp_right Or.inr) hpid hreply
      · obtain rfl := Option.some.inj (hR'.symm.trans hN)
        exact halike.mainPid.trans hpid
    · simp only [step, reloadStep, hlock, reloadOp] at hs
      obtain rfl := Option.some.inj hs
      exact h.pending _ spec st q R' (reloading_of_lock hlock) List.mem_cons_self hR'
  · intro ops' spec st q R' hops' hmem hR'
    obtain ⟨svc, hnew, -⟩ | ⟨ops, hops, hold, hkeep⟩ := installing_step h.ordered hs hops' hmem
    · obtain rfl := Option.some.inj (hR'.symm.trans hnew)
      rfl
    · obtain ⟨R, hR, -⟩ := h.sound.wired.installs ops hops u spec st q hold
      obtain ⟨N, hN, hpid, -⟩ := hkeep R hR
      obtain rfl := Option.some.inj (hR'.symm.trans hN)
      obtain he | ⟨old, O, hserv, hO, he⟩ := hpid
      · exact he.trans (h.pending ops spec st q R hops hold hR)
      · exact he.trans (h.current old O hserv hO)
  · refine forall_tasks_step (P := fun t => t.isCall TaskKind.isStop u = true →
      ∀ o ∈ t.ops, o.holds = false) ?_ ?_ h.stops hs
    · intro kind n q svc _ o ho
      exact Op.holds_of_initial (initials_program svc kind o ho)
    · intro j resp t op rest R reply _ ht hops hR hreply _ hcall
      obtain ⟨hu, hk⟩ := Task.isCall_iff.mp hcall
      cases hkind : t.kind with
      | stop id => exact (h.stop_step ht hu hkind hops hR hreply).1
      | start id | restart id | reload id | supervise =>
        have hk' : t.kind.isStop = true := hk
        rw [hkind] at hk'
        exact absurd hk' (by simp [TaskKind.isStop])

/-- A run without a start, a restart or a reload of the unit keeps it so. -/
theorem Forgotten.run (h : Forgotten u w) {ls : List Label}
    (hasks : ∀ l ∈ ls, ¬ l.asks TaskKind.drives u) (hrun : runs World.step w ls = some w') :
    Forgotten u w' :=
  runs_inv (A := fun _ l => ¬ l.asks TaskKind.drives u) (fun _ _ _ hx hl hs => hx.step hl hs) h
    (Along.of_labels hasks) hrun

/-! ## The published state -/

/-- The runner in `services` has the state, nobody drives it, and one that a reload is about
to put in has the state or is still to get it. -/
structure Agrees (u : UnitName) (a : ActiveState) (w : World) : Prop where
  forgotten : Forgotten u w
  quiet : Idle TaskKind.isStop u w
  ended : ∀ q, w.mgr.services.get? u = some q → ∀ (j : TaskId) (t : Task),
    w.tasks[j]? = some t → t.runner = q → t.kind = .supervise → t.ops = []
  current : ∃ q R, w.mgr.services.get? u = some q ∧ w.runners[q]? = some R ∧ R.state = a
  pending : ∀ ops spec st q R, w.reloading = some ops → .install u spec st (some q) ∈ ops →
    w.runners[q]? = some R → R.state = a ∨ ∃ old, .copyState q old ∈ ops

/-- No stop of the unit begins, and no reload drops it. -/
def LeavesState (u : UnitName) (l : Label) : Prop :=
  l ≠ .stopUnit u ∧ ∀ disk, l = .daemonReload disk → u ∈ (newUnits disk).keys

variable {a : ActiveState}

/-- Nobody drives the runner. -/
theorem Agrees.undriven (h : Agrees u a w) {q : RunnerId} (hq : w.mgr.services.get? u = some q)
    {j : TaskId} {t : Task} (ht : w.tasks[j]? = some t) (hr : t.runner = q) : t.ops = [] := by
  have hmem := List.mem_of_getElem? ht
  have hu := unit_eq h.forgotten.sound.wired hmem (hr ▸ h.forgotten.sound.wired.services u q hq)
  cases hk : t.kind with
  | start id | restart id | reload id =>
    exact h.forgotten.idle t hmem (Task.isCall_iff.mpr ⟨hu, hk ▸ rfl⟩)
  | stop id => exact h.quiet t hmem (Task.isCall_iff.mpr ⟨hu, hk ▸ rfl⟩)
  | supervise => exact h.ended q hq j t ht hr hk

/-- Its runner stays as it is. -/
theorem Agrees.alike (h : Agrees u a w) {q : RunnerId} {R : Runner}
    (hq : w.mgr.services.get? u = some q) (hR : w.runners[q]? = some R)
    (hs : w.step l = some w') : ∃ R', w'.runners[q]? = some R' ∧ R.Alike R' := by
  obtain ⟨j, resp, t, op, rest, reply, -, ht, htr, hops, -⟩ | halike :=
    runner_step_used h.forgotten.ordered (fun hun => hun.services u hq) hR hs
  · have hnil := h.undriven hq ht htr
    rw [hops] at hnil
    exact absurd hnil (by simp)
  · exact halike

/-- What is in `services` after a step that does not drop the unit: the runner from before,
or one that a reload puts in. -/
theorem services_kept {q : RunnerId} (hq : w.mgr.services.get? u = some q)
    (hdisk : ∀ disk, l = .daemonReload disk → u ∈ (newUnits disk).keys)
    (hs : w.step l = some w') : w'.mgr.services.get? u = some q ∨ ∃ new spec st rest,
      l = .reloadStep ∧ w.lock = .reload (.install u spec st (some new) :: rest) ∧
      w'.mgr.services.get? u = some new ∧ w'.runners = w.runners := by
  by_cases hr : l = .reloadStep
  · subst hr
    obtain ⟨-, rfl⟩ | ⟨op, rest, hlock, ho⟩ := reloadStep_cases hs
    · exact Or.inl hq
    · cases op with
      | unit n spec =>
        simp only [reloadOp] at ho
        split at ho
        · exact Or.inl (Option.some.inj ho ▸ hq)
        · exact Or.inl (Option.some.inj ho ▸ hq)
      | copyState new old | copySub new old | copyPid new old | moveChild new old =>
        obtain ⟨_, _, _, _, _, he, -⟩ | ⟨-, hmgr, -⟩ | ⟨_, _, _, _, he, -⟩ := reloadOp_cases ho
        · exact absurd he (by simp)
        · exact Or.inl (hmgr ▸ hq)
        · exact absurd he (by simp)
      | install n spec st new =>
        obtain rfl := Option.some.inj ho
        cases new with
        | none => exact Or.inl hq
        | some new =>
          by_cases hn : u = n
          · subst hn
            exact Or.inr ⟨new, spec, st, rest, rfl, hlock, IndexMap.get?_insert_self _ _ _, rfl⟩
          · exact Or.inl ((IndexMap.get?_insert_ne hn _ _).trans hq)
  by_cases hd : ∃ disk, l = .daemonReload disk
  · obtain ⟨disk, rfl⟩ := hd
    obtain ⟨-, rfl⟩ := ifFree_eq hs
    have hnot : u ∉ gone w disk := fun hm => (mem_gone.mp hm).2 (hdisk disk rfl)
    exact Or.inl ((foldl_dropUnit_of_notMem hnot).1.trans hq)
  · have hreg := sameRegistry_step hs (fun disk he => hd ⟨disk, he⟩) hr
    exact Or.inl (hreg.services ▸ hq)

/-- **One step keeps the state.** -/
theorem Agrees.step (h : Agrees u a w) (hasks : ¬ l.asks TaskKind.drives u)
    (hl : LeavesState u l) (hs : w.step l = some w') : Agrees u a w' := by
  obtain ⟨q, R, hq, hR, hstate⟩ := h.current
  have hsound := h.forgotten.sound
  have hforgotten := h.forgotten.step hasks hs
  have hquiet : Idle TaskKind.isStop u w' :=
    (staysIdle_step onRequest_isStop h.quiet (fun ha => hl.1 (asks_isStop ha)) hs).idle
  obtain ⟨N, hN, halike⟩ := h.alike hq hR hs
  refine ⟨hforgotten, hquiet, ?_, ?_, ?_⟩
  · intro q' hq' j t' ht' hr hk
    have hu : t'.unit = u :=
      unit_eq hforgotten.sound.wired (List.mem_of_getElem? ht')
        (hr ▸ hforgotten.sound.wired.services u q' hq')
    obtain hold | ⟨spec, st, rest, rfl, hlock⟩ := services_step hs hq'
    · obtain ht | ⟨resp, t, -, ht, hne, -, -, htr⟩ :=
        supervisor_from hsound h.forgotten.idle hs ht' hu hk
      · exact h.ended q' hold j t' ht hr hk
      · exact absurd (h.undriven hold ht (htr.trans hr)) hne
    · -- nobody knows the runner that was put in
      have hunused := (h.forgotten.ordered _ (reloading_of_lock hlock)).unused_of_install
      simp only [World.step, reloadStep, hlock, reloadOp] at hs
      obtain rfl := Option.some.inj hs
      exact absurd hr (hunused.tasks t' (List.mem_of_getElem? ht'))
  · obtain hold | ⟨new, spec, st, rest, -, hlock, hnew, hrunners⟩ := services_kept hq hl.2 hs
    · exact ⟨q, N, hold, hN, halike.state.trans hstate⟩
    · have hre := reloading_of_lock hlock
      obtain ⟨M, hM, -⟩ := hsound.wired.installs _ hre u spec st new List.mem_cons_self
      refine ⟨new, M, hnew, hrunners ▸ hM, ?_⟩
      obtain he | ⟨old, hcopy⟩ := h.pending _ spec st new M hre List.mem_cons_self hM
      · exact he
      · have hunit := (h.forgotten.ordered _ hre).rest_units _
          ((List.mem_cons.mp hcopy).resolve_left (by simp))
        exact absurd hunit (by simp [ReloadOp.isUnit])
  · intro ops' spec st q' R' hops' hmem hR'
    obtain ⟨svc, -, hcopy⟩ | ⟨ops, hops, hold, hkeep⟩ :=
      installing_step h.forgotten.ordered hs hops' hmem
    · exact Or.inr ⟨q, hcopy q hq⟩
    · obtain ⟨M, hM, -⟩ := hsound.wired.installs ops hops u spec st q' hold
      obtain ⟨M', hM', -, hcases⟩ := hkeep M hM
      obtain rfl := Option.some.inj (hR'.symm.trans hM')
      obtain ⟨he, hcopies⟩ | ⟨old, O, hserv, hO, he⟩ := hcases
      · obtain hsame | ⟨old, hcopy⟩ := h.pending ops spec st q' M hops hold hM
        · exact Or.inl (he.trans hsame)
        · exact Or.inr ⟨old, hcopies old hcopy⟩
      · obtain rfl := Option.some.inj (hq.symm.trans hserv)
        obtain rfl := Option.some.inj (hR.symm.trans hO)
        exact Or.inl (he.trans hstate)

/-! ## The publication -/

/-- **The publication of the exit**: the runner in `services` has no pid, and the published
state. -/
theorem Watched.publish {s : SubState} {rest : List Op} {resp : Response} {t : Task}
    (h : Watched u i r w) (ht : w.tasks[i]? = some t) (hops : t.ops = .publishExit a s :: rest)
    (hs : w.step (.task i resp) = some w') :
    Forgotten u w' ∧ (w.mgr.services.get? u ≠ none → Agrees u a w') := by
  obtain ⟨t', R, ht', hk, hu, hr, hR, hstage⟩ := h.task
  obtain rfl := Option.some.inj (ht.symm.trans ht')
  rw [hops] at hstage
  have hne : t.ops ≠ [] := by
    rw [hops]
    simp
  obtain ⟨ha, hpid, rfl⟩ : R.state = a ∧ R.mainPid = none ∧ rest = [] := by
    generalize hl : Op.publishExit a s :: rest = l at hstage
    cases hstage with
    | publish s' hpid =>
      obtain ⟨he, hnil⟩ := List.cons.inj hl
      exact ⟨(Op.publishExit.inj he).1.symm, hpid, hnil⟩
    | ended | state | sub | pid => exact absurd hl (by simp)
    | waits op hop =>
      obtain rfl := (List.cons.inj hl).1
      exact absurd hop (by simp [Op.watches])
  have hquiet := h.quiet t ht (by rw [hops]; rfl)
  have hnot : ¬ Label.asks TaskKind.drives u (.task i resp) := by
    rintro ⟨_, _, hcall, -⟩
    exact absurd hcall (by simp [Label.call])
  have hok : Undisturbed u i w (.task i resp) := by
    refine ⟨fun _ _ _ _ he => absurd he (by simp), fun he => absurd he (by simp), ?_⟩
    intro _ t' clean rest' _ _ ht' hops'
    obtain rfl := Option.some.inj (ht.symm.trans ht')
    exact absurd (hops.symm.trans hops') (by simp)
  -- the lock is free, so no reload is in progress
  obtain ⟨t', op, rest', Q, reply, ht', hops', hQ, hreply, htask, hrunner⟩ := task_taken hs
  obtain rfl := Option.some.inj (ht.symm.trans ht')
  subst hr
  obtain rfl := Option.some.inj (hR.symm.trans hQ)
  obtain ⟨rfl, rfl⟩ := List.cons.inj (hops.symm.trans hops')
  have hfree : w.lock = .free := by
    by_contra hlock
    simp [Op.run, hlock] at hreply
  have hre := reloading_of_free hfree
  have hforgotten : Forgotten u w := by
    refine ⟨h.sound, h.ordered, h.idle, ?_, ?_, ?_⟩
    · intro q Q hq hQ
      obtain rfl := h.current t ht hne q hq
      obtain rfl := Option.some.inj (hR.symm.trans hQ)
      exact hpid
    · intro ops spec st q Q hops
      rw [hre] at hops
      exact absurd hops (by simp)
    · intro t' ht' hcall
      rw [hquiet t' ht' hcall]
      simp
  refine ⟨hforgotten.step hnot hs, fun hserv => ?_⟩
  have hreg := sameRegistry_step hs (by simp) (by simp)
  obtain ⟨q, hq⟩ := Option.ne_none_iff_exists'.mp hserv
  obtain rfl := h.current t ht hne q hq
  have hpublished : reply.runner = R ∧ reply.ops = [] := by
    simp only [Op.run, hfree, decide_true, if_true] at hreply
    exact Option.some.inj hreply ▸ ⟨rfl, rfl⟩
  refine ⟨hforgotten.step hnot hs,
    (staysIdle_step onRequest_isStop hquiet (fun ha => absurd (asks_isStop ha) (by simp)) hs).idle,
    ?_, ⟨t.runner, R, hreg.services ▸ hq, hpublished.1 ▸ hrunner, ha⟩, ?_⟩
  · intro q hq' j v hv hr hk'
    obtain rfl := Option.some.inj ((hreg.services ▸ hq : w'.mgr.services.get? u = _).symm.trans hq')
    by_cases hj : j = i
    · subst hj
      obtain rfl := Option.some.inj (htask.symm.trans hv)
      exact hpublished.2
    · exact (h.step hnot hok hs).alone j v hv hj hr hk'
  · intro ops spec st q Q hops
    rw [reloading_step hs (by simp) (by simp), hre] at hops
    exact absurd hops (by simp)

/-- Task `i` waits for the main process of the unit, alone, and for that of the runner in
`services`; no call that starts or reloads the unit is in flight. -/
structure Supervising (u : UnitName) (i : TaskId) (r : RunnerId) (w : World) : Prop where
  task : ∃ t op, w.tasks[i]? = some t ∧ t.kind = .supervise ∧ t.unit = u ∧ t.runner = r ∧
    t.ops = [op] ∧ op.watches = true
  current : w.mgr.services.get? u = some r
  alone : ∀ (j : TaskId) (t : Task), w.tasks[j]? = some t → j ≠ i → t.runner = r →
    t.kind = .supervise → t.ops = []
  idle : Idle TaskKind.drives u w

theorem Supervising.watched (h : Supervising u i r w) (hsound : Sound w) (hordered : Ordered w) :
    Watched u i r w := by
  obtain ⟨t, op, ht, hk, hu, hr, hops, hop⟩ := h.task
  obtain ⟨R, hR, -⟩ := hsound.wired.services u r h.current
  refine ⟨hsound, hordered, h.idle, ⟨t, R, ht, hk, hu, hr, hR, ?_⟩, h.alone, ?_, ?_⟩
  · rw [hops]
    exact .waits op (Or.inl hop)
  · intro _ _ _ q hq
    exact Option.some.inj (hq.symm.trans h.current)
  · intro s hs hset
    obtain rfl := Option.some.inj (ht.symm.trans hs)
    rw [hops] at hset
    cases op with
    | publishExit a s => exact absurd hop (by simp [Op.watches])
    | _ => exact absurd hset (by simp [settling])

/-- A stop that takes a step signals nobody. -/
theorem Forgotten.no_kill (h : Forgotten u w) {id : JobId} {resp : Response} {t : Task}
    (ht : w.tasks[i]? = some t) (hu : t.unit = u) (hk : t.kind = .stop id)
    (hs : w.step (.task i resp) = some w') : w'.kills = w.kills := by
  obtain ⟨t', op, rest, R, reply, ht', hops, hR, hreply, rfl⟩ := runTask_cases hs
  obtain rfl := Option.some.inj (ht.symm.trans ht')
  have hno := (h.stop_step ht hu hk hops hR hreply).2
  refine foldl_act_inv (P := fun v => v.kills = w.kills) (fun v a ha hv => ?_) rfl
  obtain he | ⟨k, rfl, -⟩ := act_kills v t a
  · exact he.trans hv
  · exact absurd ha (hno k)

/-- **What a supervisor has published stays.** From then on the runner in `services` has no
pid, and no stop of the unit signals anybody; it has the published state as long as no stop
begins and no reload drops the unit. -/
theorem exit_forgets {w₀ v w w' x : World} {ls₀ pre post : List Label} {u : UnitName} {i : TaskId}
    {r : RunnerId} {a : ActiveState} {s : SubState} {resp : Response} {t : Task} {rest : List Op}
    (hb : w₀.Booted) (hv : runs step w₀ ls₀ = some v) (hsup : Supervising u i r v)
    (hok : Along step (Undisturbed u i) v pre)
    (hasks : ∀ l ∈ pre ++ post, ¬ l.asks TaskKind.drives u) (hpre : runs step v pre = some w)
    (ht : w.tasks[i]? = some t) (hops : t.ops = .publishExit a s :: rest)
    (hs : w.step (.task i resp) = some w') (hpost : runs step w' post = some x) :
    (∀ q R, x.mgr.services.get? u = some q → x.runners[q]? = some R → R.mainPid = none) ∧
    (w.mgr.services.get? u ≠ none → (∀ l ∈ post, LeavesState u l) →
      ∃ q R, x.mgr.services.get? u = some q ∧ x.runners[q]? = some R ∧ R.state = a) ∧
    ∀ j t id resp y, x.tasks[j]? = some t → t.unit = u → t.kind = .stop id →
      x.step (.task j resp) = some y → y.kills = x.kills := by
  have hwired : Sound v ∧ Ordered v :=
    runs_inv (P := fun w => Sound w ∧ Ordered w) (A := fun _ _ => True)
      (fun _ _ _ hx _ hs => ⟨sound_step hx.1 hs, ordered_step hx.1.wired hx.2 hs⟩)
      ⟨hb.sound, ordered_of_free hb.lock⟩ (Along.of_labels fun _ _ => trivial) hv
  have hnot : ∀ l ∈ post, ¬ l.asks TaskKind.drives u :=
    fun l hl => hasks l (List.mem_append_right pre hl)
  have hwatched : Watched u i r w :=
    runs_inv (A := fun w l => ¬ l.asks TaskKind.drives u ∧ Undisturbed u i w l)
      (fun _ _ _ hx hl hs => hx.step hl.1 hl.2 hs) (hsup.watched hwired.1 hwired.2)
      ((Along.of_labels fun l hl => hasks l (List.mem_append_left post hl)).and hok) hpre
  obtain ⟨hforgotten, hagrees⟩ := hwatched.publish ht hops hs
  have hend := hforgotten.run hnot hpost
  refine ⟨hend.current, fun hserv hstay => ?_, fun j t id resp y hj hu hk hy =>
    hend.no_kill hj hu hk hy⟩
  have hx : Agrees u a x :=
    runs_inv (A := fun _ l => ¬ l.asks TaskKind.drives u ∧ LeavesState u l)
      (fun _ _ _ hx hl hs => hx.step hl.1 hl.2 hs) (hagrees hserv)
      ((Along.of_labels hnot).and (Along.of_labels hstay)) hpost
  exact hx.current

/-! ## A process that exits by itself -/

/-- Without a stop or a reload nothing comes in the way of the supervisor. -/
theorem undisturbed_of_idle {ls : List Label} (h : Idle TaskKind.isStop u w)
    (hl : ∀ l ∈ ls, l ≠ .reloadStep ∧ l ≠ .stopUnit u) : Along step (Undisturbed u i) w ls := by
  refine Along.of_inv (P := Idle TaskKind.isStop u)
    (A := fun _ l => l ≠ .reloadStep ∧ l ≠ .stopUnit u) ?_ ?_ h (Along.of_labels hl)
  · intro v l v' hv hl hs
    exact (staysIdle_step onRequest_isStop hv (fun ha => hl.2 (asks_isStop ha)) hs).idle
  · intro v l hv hl
    exact ⟨fun _ _ _ _ he => absurd he hl.1, fun he => absurd he hl.2,
      fun _ _ _ _ _ _ _ _ _ _ => hv⟩

theorem supervising_runningRun :
    ∃ w, runs step (single { execStart := [cmd] }) runningRun = some w ∧
    Supervising serviceName 1 0 w ∧ Idle TaskKind.isStop serviceName w := by
  obtain ⟨w, hw, -, hup⟩ := up_runningRun
  have htasks : (runs step (single { execStart := [cmd] }) runningRun).map tasks =
    some [⟨.start ⟨1⟩, serviceName, 0, []⟩, ⟨.supervise, serviceName, 0, [.waitMain 0]⟩] := rfl
  rw [hw] at htasks
  have ht : w.tasks = _ := Option.some.inj htasks
  refine ⟨w, hw, ⟨⟨_, _, by rw [ht]; rfl, rfl, rfl, rfl, rfl, rfl⟩, hup.service, ?_, ?_⟩, ?_⟩
  · intro j t hj hne hr hk
    rw [ht] at hj
    match j with
    | 0 =>
      obtain rfl := Option.some.inj hj
      rfl
    | 1 => exact absurd rfl hne
    | j + 2 => exact absurd hj (by simp)
  · unfold Idle
    rw [ht]
    simp [Task.isCall, TaskKind.drives]
  · unfold Idle
    rw [ht]
    simp [Task.isCall, TaskKind.isStop]

/-- The process exits, and its supervisor is about to publish that. -/
def cleanExitRun : List Label :=
  [.exit 0, .task 1 (.exited true)] ++ List.replicate 4 (.task 1 .ok)

def changedReload : List Label := .daemonReload changedDisk :: List.replicate 7 .reloadStep

theorem not_asks_cleanExitRun :
    ∀ l ∈ changedReload ++ cleanExitRun, ¬ l.asks TaskKind.drives serviceName := by
  have hcalls : ∀ l ∈ changedReload ++ cleanExitRun, ∀ id, l.call id = none := by
    simp [changedReload, cleanExitRun, Label.call]
  rintro l hl ⟨id, _, hcall, -⟩
  exact absurd (hcalls l hl id) (by simp [hcall])

/-- The exit is published, and the reload after it puts in a runner that agrees. -/
theorem exit_forgets_reloaded : ∃ x, runs step (single { execStart := [cmd] })
      (runningRun ++ cleanExitRun ++ .task 1 .ok :: changedReload) = some x ∧
    ∃ q R, x.mgr.services.get? serviceName = some q ∧ x.runners[q]? = some R ∧
      R.mainPid = none ∧ R.state = .inactive := by
  obtain ⟨v, hv, hsup, hidle⟩ := supervising_runningRun
  have hrun : ((runs step (single { execStart := [cmd] }) runningRun).bind fun v =>
    runs step v cleanExitRun).map (fun w => (w.tasks[1]?.map Task.ops,
      w.mgr.services.get? serviceName, (runs step w (.task 1 .ok :: changedReload)).isSome)) =
      some (some [.publishExit .inactive .dead], some 0, true) := rfl
  rw [hv] at hrun
  obtain ⟨w, hpre, hend⟩ := Option.map_eq_some_iff.mp hrun
  obtain ⟨hlast, hend⟩ := Prod.mk.inj hend
  obtain ⟨hserv, hsome⟩ := Prod.mk.inj hend
  obtain ⟨t, ht, hops⟩ := Option.map_eq_some_iff.mp hlast
  obtain ⟨x, hrest⟩ := Option.isSome_iff_exists.mp hsome
  obtain ⟨w', hs, hpost⟩ := runs_cons.mp hrest
  have hasks : ∀ l ∈ cleanExitRun ++ changedReload, ¬ l.asks TaskKind.drives serviceName := by
    intro l hl
    exact not_asks_cleanExitRun l (List.mem_append.mpr (List.mem_append.mp hl).symm)
  have hok : Along step (Undisturbed serviceName 1) v cleanExitRun :=
    undisturbed_of_idle hidle (by simp [cleanExitRun])
  have hstay : ∀ l ∈ changedReload, LeavesState serviceName l := by
    intro l hl
    have hnot : l ≠ .stopUnit serviceName := by
      rintro rfl
      exact absurd hl (by simp [changedReload])
    refine ⟨hnot, ?_⟩
    rintro disk rfl
    obtain rfl : disk = changedDisk := by simpa [changedReload] using hl
    exact List.mem_cons_self
  obtain ⟨hpid, hstate, -⟩ := exit_forgets (booted_single _) hv hsup hok hasks hpre ht hops hs hpost
  obtain ⟨q, R, hq, hR, ha⟩ := hstate (by rw [hserv]; simp) hstay
  refine ⟨x, ?_, q, R, hq, hR, hpid q R hq hR, ha⟩
  rw [List.append_assoc]
  exact runs_append.mpr ⟨v, hv, runs_append.mpr ⟨w, hpre, hrest⟩⟩

/-- After a reload the supervisor settles the old runner: the one in `services` still has
the pid of the process whose exit was published. -/
theorem not_all_exits_forget : ¬ ∀ (w₀ v w w' : World) (ls₀ pre : List Label) (u : UnitName)
    (i : TaskId) (r : RunnerId) (a : ActiveState) (s : SubState) (resp : Response) (t : Task)
    (rest : List Op), w₀.Booted → runs step w₀ ls₀ = some v → Supervising u i r v →
    (∀ l ∈ pre, ¬ l.asks TaskKind.drives u) → runs step v pre = some w → w.tasks[i]? = some t →
    t.ops = .publishExit a s :: rest → w.step (.task i resp) = some w' →
    ∀ q R, w'.mgr.services.get? u = some q → w'.runners[q]? = some R → R.mainPid = none := by
  intro h
  obtain ⟨v, hv, hsup, -⟩ := supervising_runningRun
  have hrun : ((runs step (single { execStart := [cmd] }) runningRun).bind fun v =>
    runs step v (changedReload ++ cleanExitRun)).map (fun w => (w.tasks[1]?.map Task.ops,
      (w.step (.task 1 .ok)).map fun w' =>
        (w'.mgr.services.get? serviceName, w'.runners[1]?.map Runner.mainPid))) =
      some (some [.publishExit .inactive .dead], some (some 1, some (some 5))) := rfl
  rw [hv] at hrun
  obtain ⟨w, hpre, hend⟩ := Option.map_eq_some_iff.mp hrun
  obtain ⟨hlast, hstep⟩ := Prod.mk.inj hend
  obtain ⟨t, ht, hops⟩ := Option.map_eq_some_iff.mp hlast
  obtain ⟨w', hs, hend⟩ := Option.map_eq_some_iff.mp hstep
  obtain ⟨hserv, hpid⟩ := Prod.mk.inj hend
  obtain ⟨R, hR, hpid⟩ := Option.map_eq_some_iff.mp hpid
  have hnone := h _ v w w' runningRun _ serviceName 1 0 .inactive .dead .ok t [] (booted_single _) hv
    hsup not_asks_cleanExitRun hpre ht hops hs 1 R hserv hR
  rw [hpid] at hnone
  exact absurd hnone (by simp)

end World

end Systeml.Runtime
