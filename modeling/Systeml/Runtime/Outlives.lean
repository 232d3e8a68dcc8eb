import Systeml.Runtime.Kill

/-!
# A main process that outlives its stop

Where a stop is not deadly (`World.Deadly`), there is a run in which it publishes its end
with the main process alive and without a `SIGKILL` that reaches it (`Escapes`): a
supervisor drops the pid first, or the stop waits for another process, or gives up after
the timeout.
-/

namespace Systeml.Runtime

open Systeml.Lib Systeml.Unit Systeml.Deps

/-- No `SIGKILL` among the calls reaches the process with the pid `p`. -/
def Harmless (leads : Bool) (p : Int) (ks : List Kill) : Prop :=
  ∀ k ∈ ks, k.signal = some .sigkill → ¬ k.Hits leads p

theorem Harmless.append {leads : Bool} {p : Int} {ks ks' : List Kill} (h : Harmless leads p ks)
    (h' : Harmless leads p ks') : Harmless leads p (ks ++ ks') :=
  fun k hk => (List.mem_append.mp hk).elim (h k) (h' k)

theorem harmless_nil (leads : Bool) (p : Int) : Harmless leads p [] := by
  simp [Harmless]

theorem harmless_probe (leads : Bool) (p p' : Int) : Harmless leads p [⟨.pid p', none⟩] := by
  simp [Harmless]

/-- Without a signal that reaches it, a process is not killed. -/
theorem harmless_target {svc : ServiceUnit} {leads : Bool} {p : Int} {t : Target} {sig : Signal}
    (ht : killTarget svc.killMode p = some t) (h : sig = .sigkill → ¬ Reaches svc leads) :
    Harmless leads p [⟨t, some sig⟩] := by
  intro k hk hsig
  obtain rfl := List.mem_singleton.mp hk
  exact not_hits_killTarget (h (Option.some.inj hsig)) ht

theorem parseSignalStrict_sigkill {name : Str} (h : parseSignalStrict name = some .sigkill) :
    name = "SIGKILL".toList := by
  unfold parseSignalStrict at h
  split at h
  · exact absurd h (by simp)
  · split at h
    next he => exact he
    next =>
      repeat' split at h
      all_goals exact absurd h (by simp)

theorem stopSignal_sigkill {svc : ServiceUnit} (h : stopSignal svc = some .sigkill) :
    svc.killSignal = some "SIGKILL".toList := by
  unfold stopSignal at h
  split at h
  next name hname => exact hname.trans (congrArg some (parseSignalStrict_sigkill h))
  next => exact absurd h (by simp)

namespace World

variable {w b : World} {u : UnitName} {r : RunnerId} {R : Runner} {m : ProcId} {p : Int}
  {env leads : Bool} {ks : List Kill}

/-- The stop gets to its publication, with the main process alive and with no `SIGKILL`
that reaches it. -/
def Escapes (env leads : Bool) (m : ProcId) (p : Int) (b : World) (u : UnitName) (r : RunnerId)
    (R : Runner) (ops : List Op) (ks : List Kill) : Prop :=
  ∃ ls b' R' rest ks', runs stepAt (stopWorld b u r R ops ks) ls =
      some (stopWorld b' u r R' (.markDead :: rest) ks') ∧
    Along stepAt (Answers env b.tasks.length) (stopWorld b u r R ops ks) ls ∧
    b'.tasks.length = b.tasks.length ∧ b'.kills = b.kills ∧ b'.Lives m ∧ r < b'.runners.length ∧
    Harmless leads p ks'

theorem Escapes.published {rest : List Op} (hm : b.Lives m) (hr : r < b.runners.length)
    (h : Harmless leads p ks) : Escapes env leads m p b u r R (.markDead :: rest) ks :=
  ⟨[], b, R, rest, ks, rfl, trivial, rfl, rfl, hm, hr, h⟩

theorem foldl_act_signals (t : Task) (ks : List Kill) : ∀ w : World,
    (ks.map Act.kill).foldl (fun w a => w.act t a) w = { w with kills := w.kills ++ ks } := by
  induction ks with
  | nil =>
    intro w
    rw [List.append_nil]
    rfl
  | cons k ks ih =>
    intro w
    rw [List.map_cons, List.foldl_cons, ih]
    show ({ w with kills := (w.kills ++ [k]) ++ ks } : World) = _
    rw [List.append_assoc, List.singleton_append]

/-! ## Steps of the stop -/

theorem nextOp_stopWorld (ks : List Kill) (op : Op) (rest : List Op) :
    (stopWorld b u r R (op :: rest) ks).nextOp b.tasks.length = some op := by
  unfold nextOp
  have htask : (stopWorld b u r R (op :: rest) ks).tasks[b.tasks.length]? = _ :=
    List.getElem?_concat_length
  rw [htask]
  rfl

theorem stepAt_own (ks : List Kill) {R' : Runner} {op : Op} {rest ops : List Op}
    {ks' : List Kill} {resp : Response} (hr : r < b.runners.length)
    (hrun : op.run b.procs false (.stop (b.mgr.newJob u .stop).1) R rest resp =
      some ⟨R', ops, ks'.map .kill⟩) (hne : ops ≠ [])
    (hfits : ∀ d, op.timeout R rest = some d → instantFits 0 d = true) :
    (stopWorld b u r R (op :: rest) ks).stepAt (0, .task b.tasks.length resp) =
      some (stopWorld b u r R' ops (ks ++ ks')) := by
  have htask : (stopWorld b u r R (op :: rest) ks).tasks[b.tasks.length]? =
      some ⟨.stop (b.mgr.newJob u .stop).1, u, r, op :: rest⟩ := List.getElem?_concat_length
  have hrunner : (stopWorld b u r R (op :: rest) ks).runners[r]? = some R :=
    List.getElem?_set_self hr
  have hbusy : decide ((stopWorld b u r R (op :: rest) ks).lock = .free) = false := rfl
  have hset : ∀ s s' : Task, (b.tasks ++ [s]).set b.tasks.length s' = b.tasks ++ [s'] := by
    intro s s'
    rw [List.set_append_right _ _ (Nat.le_refl _), Nat.sub_self, List.set_cons_zero]
  have hdead : (stopWorld b u r R (op :: rest) ks).deadlineFits 0 b.tasks.length = true := by
    unfold deadlineFits
    simp only [htask, hrunner]
    cases hd : op.timeout R rest with
    | none => rfl
    | some d => exact hfits d hd
  have hprocs : (stopWorld b u r R (op :: rest) ks).procs = b.procs := rfl
  have htaken : (stopWorld b u r R (op :: rest) ks).runTask b.tasks.length resp =
      some (stopWorld b u r R' ops (ks ++ ks')) := by
    simp only [runTask, htask, hrunner, hbusy]
    rw [hprocs, hrun]
    simp only [foldl_act_signals]
    simp only [stopWorld, List.set_set, hset, lockAfter, if_neg fun h : ops = [] ∧ _ => hne h.1,
      List.append_assoc]
  simp only [stepAt, htaken, hdead, Option.map_some, if_true]

/-- A step of the stop, if it escapes from there on. -/
theorem Escapes.after (resp : Response) (sent : List Kill) {R' : Runner} {op : Op}
    {rest ops : List Op} (hr : r < b.runners.length)
    (hrun : op.run b.procs false (.stop (b.mgr.newJob u .stop).1) R rest resp =
      some ⟨R', ops, sent.map .kill⟩) (hne : ops ≠ [])
    (hfits : ∀ d, op.timeout R rest = some d → instantFits 0 d = true)
    (henv : op = .resolveEnv → (resp = .ok ↔ env = true))
    (herr : resp = .err → (∀ p, op ≠ .waitGone p) ∧ ∀ c, op ≠ .waitKilled c)
    (h : Escapes env leads m p b u r R' ops (ks ++ sent)) :
    Escapes env leads m p b u r R (op :: rest) ks := by
  obtain ⟨ls, b', Q, l, ks₂, hruns, halong, hend⟩ := h
  have hstep := stepAt_own ks hr hrun hne hfits
  have hnext := nextOp_stopWorld (b := b) (u := u) (r := r) (R := R) ks op rest
  refine ⟨(0, .task b.tasks.length resp) :: ls, b', Q, l, ks₂, runs_cons.mpr ⟨_, hstep, hruns⟩,
    Along.cons ?_ hstep halong, hend⟩
  refine ⟨?_, ?_, ?_⟩
  · intro resp' he hop
    obtain rfl := (Label.task.inj he).2
    exact henv (Option.some.inj (hnext.symm.trans hop))
  · intro p' he hop
    obtain rfl := (Label.task.inj he).2
    exact absurd (Option.some.inj (hnext.symm.trans hop)) ((herr rfl).1 p')
  · intro c he hop
    obtain rfl := (Label.task.inj he).2
    exact absurd (Option.some.inj (hnext.symm.trans hop)) ((herr rfl).2 c)

/-- Commands that cannot be spawned are passed over. -/
theorem Escapes.commands {rest : List Op} (hr : r < b.runners.length) (hne : rest ≠ [])
    (h : Escapes env leads m p b u r R rest ks) : ∀ cmds : List ExecCommand,
    Escapes env leads m p b u r R (cmds.map (.exec · .bestEffort) ++ rest) ks
  | [] => h
  | cmd :: cmds => by
    have hnext := Escapes.commands hr hne h cmds
    refine Escapes.after .err [] hr rfl ?_ (by simp [Op.timeout]) (by simp) (by simp) ?_
    · simp [hne]
    · rw [List.append_nil]
      simpa using hnext

/-- The end of the stop, once it has given up on the process. -/
theorem escapes_afterKill {svc : ServiceUnit} (hm : b.Lives m) (hr : r < b.runners.length)
    (hheld : R.childHeld = false) (hks : Harmless leads p ks) :
    Escapes env leads m p b u r R (afterKill svc) ks := by
  have hset : ∀ (Q : Runner) (rest : List Op), Q.childHeld = false →
      Op.run b.procs false (.stop (b.mgr.newJob u .stop).1) Q rest .ok (.setChild none) =
        some ⟨{ Q with child := none }, rest, [].map Act.kill⟩ := by
    intro Q rest hQ
    simp [Op.run, hQ]
  refine Escapes.commands hr (by simp) ?_ _
  refine Escapes.after .ok [] hr rfl (by simp) (by simp [Op.timeout]) (by simp) (by simp) ?_
  refine Escapes.after .ok [] hr rfl (by simp) (by simp [Op.timeout]) (by simp) (by simp) ?_
  refine Escapes.after .ok [] hr rfl (by simp) (by simp [Op.timeout]) (by simp) (by simp) ?_
  refine Escapes.after .ok [] hr (hset _ _ hheld) (by simp) (by simp [Op.timeout]) (by simp)
    (by simp) ?_
  refine Escapes.published hm hr ?_
  simpa using hks

/-- The runner of a stop that reads the pid next. -/
def asked (R : Runner) : Runner := { R with stopping := true, state := .deactivating, sub := .stop }

/-- With an environment, the stop gets to its signal. -/
theorem escapes_program (hr : r < b.runners.length)
    (h : Escapes true leads m p b u r (asked R) (.readPid :: afterKill R.svc) ks) :
    Escapes true leads m p b u r R ((TaskKind.stop (b.mgr.newJob u .stop).1).program R.svc) ks := by
  have hks : ks ++ [] ++ [] ++ [] ++ [] = ks := by simp
  rw [stop_program]
  refine Escapes.after .ok [] hr rfl (by simp) (by simp [Op.timeout]) (by simp) (by simp) ?_
  refine Escapes.after .ok [] hr rfl (by simp) (by simp [Op.timeout]) (by simp) (by simp) ?_
  refine Escapes.after .ok [] hr rfl (by simp) (by simp [Op.timeout]) (by simp) (by simp) ?_
  refine Escapes.after .ok [] hr rfl (by simp) (by simp [Op.timeout]) (by simp) (by simp) ?_
  rw [hks]
  exact Escapes.commands hr (by simp) h _

/-- Without an environment, no signal is sent. -/
theorem escapes_noEnv (hm : b.Lives m) (hr : r < b.runners.length) :
    Escapes false leads m p b u r R ((TaskKind.stop (b.mgr.newJob u .stop).1).program R.svc) [] := by
  rw [stop_program]
  refine Escapes.after .ok [] hr rfl (by simp) (by simp [Op.timeout]) (by simp) (by simp) ?_
  refine Escapes.after .ok [] hr rfl (by simp) (by simp [Op.timeout]) (by simp) (by simp) ?_
  refine Escapes.after .ok [] hr rfl (by simp) (by simp [Op.timeout]) (by simp) (by simp) ?_
  refine Escapes.after .err [] hr rfl (by simp [TaskKind.returnOps]) (by simp [Op.timeout]) (by simp)
    (by simp) ?_
  exact .published hm hr (harmless_nil leads p)

/-- A stop that finds no pid sends nothing. -/
theorem escapes_noPid (hm : b.Lives m) (hr : r < b.runners.length) (hheld : R.childHeld = false)
    (hpid : R.mainPid = none) (hks : Harmless leads p ks) :
    Escapes true leads m p b u r R ((TaskKind.stop (b.mgr.newJob u .stop).1).program R.svc) ks := by
  refine escapes_program hr ?_
  have hread : Op.run b.procs false (.stop (b.mgr.newJob u .stop).1) (asked R) (afterKill R.svc) .ok
      .readPid = some ⟨asked R, afterKill R.svc, [].map Act.kill⟩ := by
    simp [Op.run, Op.runReadPid, asked, hpid]
  refine Escapes.after .ok [] hr hread (by simp [afterKill]) (by simp [Op.timeout]) (by simp) (by simp) ?_
  refine escapes_afterKill hm hr hheld ?_
  simpa using hks

/-- The wait of the stop ends with the process alive and nothing sent that reaches it. -/
def GivesUp (leads : Bool) (p : Int) (procs : List Proc) (R : Runner) : Prop :=
  ∃ (resp : Response) (sent : List Kill), resp ≠ .err ∧ Harmless leads p sent ∧
    ∀ (Q : Runner) (rest : List Op), Q.child = R.child → Q.svc = R.svc →
      Op.runWaitGone procs Q rest p resp = some ⟨Op.released Q, rest, sent.map .kill⟩

/-- A stop whose first signal does not kill, and whose wait gives up. -/
theorem escapes_givesUp (hm : b.Lives m) (hr : r < b.runners.length) (hheld : R.childHeld = false)
    (hpid : R.mainPid = some p) (hfirst : ¬ KillsFirst R.svc leads)
    (hfits : R.child = none → instantFits 0 (stopTimeout R.svc) = true)
    (hgives : GivesUp leads p b.procs R) :
    Escapes true leads m p b u r R ((TaskKind.stop (b.mgr.newJob u .stop).1).program R.svc) [] := by
  refine escapes_program hr ?_
  have heq : Op.runReadPid (.stop (b.mgr.newJob u .stop).1) (asked R) (afterKill R.svc) = _ :=
    runReadPid_eq hpid
  cases hsig : stopSignal R.svc with
  | none =>
    rw [show stopSignal (asked R).svc = none from hsig] at heq
    refine Escapes.after .ok [] hr heq (by simp [TaskKind.returnOps]) (by simp [Op.timeout]) (by simp)
      (by simp) ?_
    exact .published hm hr (harmless_nil leads p)
  | some sig =>
    rw [show stopSignal (asked R).svc = some sig from hsig] at heq
    obtain ⟨sent, hsent, hread⟩ : ∃ sent : List Kill, Harmless leads p sent ∧
        Op.run b.procs false (.stop (b.mgr.newJob u .stop).1) (asked R) (afterKill R.svc) .ok
          .readPid = some ⟨asked R, .holdChild p :: afterKill R.svc, sent.map .kill⟩ := by
      cases ht : killTarget R.svc.killMode p with
      | none =>
        rw [show killTarget (asked R).svc.killMode p = none from ht] at heq
        exact ⟨[], harmless_nil leads p, heq⟩
      | some t =>
        rw [show killTarget (asked R).svc.killMode p = some t from ht] at heq
        refine ⟨[⟨t, some sig⟩], harmless_target ht ?_, heq⟩
        rintro rfl hreach
        exact hfirst ⟨stopSignal_sigkill hsig, hreach⟩
    have hhold : Op.run b.procs false (.stop (b.mgr.newJob u .stop).1) (asked R) (afterKill R.svc) .ok
        (.holdChild p) = some ⟨{ asked R with childHeld := true }, .waitGone p :: afterKill R.svc,
          [].map Act.kill⟩ := by
      simp [Op.run, asked, hheld]
    obtain ⟨resp, probes, herr, hprobes, hwait⟩ := hgives
    refine Escapes.after .ok sent hr hread (by simp) (by simp [Op.timeout]) (by simp) (by simp) ?_
    refine Escapes.after .ok [] hr hhold (by simp) ?_ (by simp) (by simp) ?_
    · intro d hd
      have hd' : (if R.child = none then some (stopTimeout R.svc) else none) = some d := hd
      split at hd'
      next hnone => exact Option.some.inj hd' ▸ hfits hnone
      next => exact absurd hd' (by simp)
    · refine Escapes.after resp probes hr (hwait _ _ rfl rfl) (by simp [afterKill])
        (by simp [Op.timeout]) (by simp) (fun he => absurd he herr) ?_
      refine escapes_afterKill hm hr rfl ?_
      simpa using hsent.append hprobes

theorem givesUp_other {procs : List Proc} {c : ProcId} (hc : R.child = some c)
    (hexit : exited procs c = true) : GivesUp leads p procs R := by
  refine ⟨.exited true, [], by simp, harmless_nil leads p, ?_⟩
  intro Q rest hQ _
  simp [Op.runWaitGone, hQ.trans hc, hexit]

theorem givesUp_noSigkill {procs : List Proc} (h : R.svc.sendSigkill = false) :
    GivesUp leads p procs R := by
  cases hc : R.child with
  | some c =>
    refine ⟨.timeout, [], by simp, harmless_nil leads p, ?_⟩
    intro Q rest hQ hsvc
    simp [Op.runWaitGone, hQ.trans hc, hsvc, h]
  | none =>
    refine ⟨.timeout, [⟨.pid p, none⟩], by simp, harmless_probe leads p p, ?_⟩
    intro Q rest hQ hsvc
    simp [Op.runWaitGone, hQ.trans hc, hsvc, h]

/-- The `SIGKILL` at the end of the polling goes nowhere. -/
theorem givesUp_noReach {procs : List Proc} (hc : R.child = none) (h : ¬ Reaches R.svc leads) :
    GivesUp leads p procs R := by
  cases hkill : R.svc.sendSigkill with
  | false => exact givesUp_noSigkill hkill
  | true =>
    cases ht : killTarget R.svc.killMode p with
    | none =>
      refine ⟨.timeout, [⟨.pid p, none⟩], by simp, harmless_probe leads p p, ?_⟩
      intro Q rest hQ hsvc
      simp [Op.runWaitGone, hQ.trans hc, hsvc, hkill, ht]
    | some t =>
      refine ⟨.timeout, [⟨.pid p, none⟩, ⟨t, some .sigkill⟩], by simp, ?_, ?_⟩
      · exact (harmless_probe leads p p).append (harmless_target ht fun _ => h)
      · intro Q rest hQ hsvc
        simp [Op.runWaitGone, hQ.trans hc, hsvc, hkill, ht]

/-! ## Steps before those of the stop -/

theorem Escapes.exits {ops : List Op} : ∀ (cs : List ProcId) {b : World},
    Escapes env leads m p (cs.foldl killProc b) u r R ops ks →
      Escapes env leads m p b u r R ops ks
  | [], _, h => h
  | c :: cs, b, h => by
    obtain ⟨ls, b', Q, l, ks₂, hruns, halong, hend⟩ := Escapes.exits cs (b := b.killProc c) h
    have hstep : (stopWorld b u r R ops ks).stepAt (0, .exit c) =
        some (stopWorld (b.killProc c) u r R ops ks) := rfl
    refine ⟨(0, .exit c) :: ls, b', Q, l, ks₂, runs_cons.mpr ⟨_, hstep, hruns⟩,
      Along.cons ⟨?_, ?_, ?_⟩ hstep halong, hend⟩
    · exact fun _ he => absurd he (by simp)
    · exact fun _ he => absurd he (by simp)
    · exact fun _ he => absurd he (by simp)

/-- What the step of another task of the runner changes. -/
def leave (b : World) (j : TaskId) (t : Task) (ops : List Op) : World :=
  { b with tasks := b.tasks.set j { t with ops := ops } }

/-- A step of another task of the runner, if the stop escapes from there on. -/
theorem Escapes.beside {j : TaskId} {t : Task} (resp : Response) (sent : List Kill) {R' : Runner} {op : Op}
    {rest l ops : List Op} (hr : r < b.runners.length) (ht : b.tasks[j]? = some t) (htr : t.runner = r)
    (hops : t.ops = op :: rest)
    (hrun : op.run b.procs false t.kind R rest resp = some ⟨R', l, sent.map .kill⟩)
    (hfits : op.timeout R rest = none)
    (h : Escapes env leads m p (b.leave j t l) u r R' ops (ks ++ sent)) :
    Escapes env leads m p b u r R ops ks := by
  obtain ⟨ls, b', Q, l', ks₂, hruns, halong, hlen, hend⟩ := h
  have hlt := (List.getElem?_eq_some_iff.mp ht).1
  have hlen' : (b.leave j t l).tasks.length = b.tasks.length := List.length_set
  rw [hlen'] at halong hlen
  have htask : (stopWorld b u r R ops ks).tasks[j]? = some t :=
    (List.getElem?_append_left hlt).trans ht
  have hrunner : (stopWorld b u r R ops ks).runners[t.runner]? = some R := by
    rw [htr]
    exact List.getElem?_set_self hr
  have hbusy : decide ((stopWorld b u r R ops ks).lock = .free) = false := rfl
  have hdead : (stopWorld b u r R ops ks).deadlineFits 0 j = true := by
    unfold deadlineFits
    simp only [htask, hrunner, hops, hfits, Option.all_none]
  have hlock : (stopWorld b u r R ops ks).lockAfter j l = .task b.tasks.length :=
    lockAfter_ne rfl (Nat.ne_of_lt hlt)
  have htaken : (stopWorld b u r R ops ks).runTask j resp =
      some (stopWorld (b.leave j t l) u r R' ops (ks ++ sent)) := by
    have hprocs : (stopWorld b u r R ops ks).procs = b.procs := rfl
    simp only [runTask, htask, hops, hrunner, hbusy]
    rw [hprocs, hrun]
    simp only [foldl_act_signals, hlock]
    simp only [stopWorld, leave, htr, List.set_set, List.set_append_left _ _ hlt, List.append_assoc,
      List.length_set]
  have hstep : (stopWorld b u r R ops ks).stepAt (0, .task j resp) =
      some (stopWorld (b.leave j t l) u r R' ops (ks ++ sent)) := by
    simp only [stepAt, htaken, hdead, Option.map_some, if_true]
  refine ⟨(0, .task j resp) :: ls, b', Q, l', ks₂, runs_cons.mpr ⟨_, hstep, hruns⟩,
    Along.cons ⟨?_, ?_, ?_⟩ hstep halong, hlen, hend⟩
  · exact fun _ he => absurd (Label.task.inj he).1 (Nat.ne_of_lt hlt)
  · exact fun _ he => absurd (Label.task.inj he).1 (Nat.ne_of_lt hlt)
  · exact fun _ he => absurd (Label.task.inj he).1 (Nat.ne_of_lt hlt)

theorem leave_task {j : TaskId} {t : Task} {l : List Op} (ht : b.tasks[j]? = some t) :
    (b.leave j t l).tasks[j]? = some { t with ops := l } :=
  List.getElem?_set_self (List.getElem?_eq_some_iff.mp ht).1

/-! ## A supervisor that drops the pid -/

section Supervisor

variable {j : TaskId} {t : Task}

/-- A supervisor that has seen an exit drops the pid. -/
theorem escapes_settles {l' : List Op} : ∀ (l : List Op) {b : World} {t : Task} {R : Runner}
    {ks : List Kill},
    (∀ o ∈ l, (∃ a, o = .setState a) ∨ ∃ s, o = .setSub s) → b.tasks[j]? = some t →
    t.runner = r → t.kind = .supervise → t.ops = l ++ .setMainPid none :: l' → b.Lives m →
    r < b.runners.length → R.childHeld = false → Harmless leads p ks →
    Escapes true leads m p b u r R ((TaskKind.stop (b.mgr.newJob u .stop).1).program R.svc) ks
  | [], b, t, R, ks, _, ht, htr, _, hops, hm, hr, hheld, hks => by
    refine Escapes.beside .ok [] hr ht htr hops rfl rfl ?_
    exact escapes_noPid (R := { R with mainPid := none }) hm hr hheld rfl (by simpa using hks)
  | o :: l, b, t, R, ks, hall, ht, htr, hk, hops, hm, hr, hheld, hks => by
    have hrest : ∀ x ∈ l, (∃ a, x = .setState a) ∨ ∃ s, x = .setSub s :=
      fun x hx => hall x (List.mem_cons_of_mem o hx)
    have hks' : Harmless leads p (ks ++ []) := by simpa using hks
    obtain ⟨a, rfl⟩ | ⟨s, rfl⟩ := hall o List.mem_cons_self
    · refine Escapes.beside .ok [] hr ht htr hops rfl rfl ?_
      exact escapes_settles l (R := { R with state := a }) hrest (leave_task ht) htr hk rfl hm hr hheld hks'
    · refine Escapes.beside .ok [] hr ht htr hops rfl rfl ?_
      exact escapes_settles l (R := { R with sub := s }) hrest (leave_task ht) htr hk rfl hm hr hheld hks'

theorem escapes_checks {clean : Bool} {l : List Op} (ht : b.tasks[j]? = some t) (htr : t.runner = r)
    (hk : t.kind = .supervise) (hops : t.ops = .checkStopping clean :: l) (hstop : R.stopping = false)
    (hm : b.Lives m) (hr : r < b.runners.length) (hheld : R.childHeld = false) (hks : Harmless leads p ks) :
    Escapes true leads m p b u r R ((TaskKind.stop (b.mgr.newJob u .stop).1).program R.svc) ks := by
  have hrun : Op.run b.procs false t.kind R l .ok (.checkStopping clean) =
      some ⟨R, [.setState (exitState clean).1, .setSub (exitState clean).2, .setMainPid none,
        .publishExit (exitState clean).1 (exitState clean).2], [].map Act.kill⟩ := by
    simp [Op.run, Op.runCheckStopping, hstop]
  refine Escapes.beside .ok [] hr ht htr hops hrun rfl ?_
  refine escapes_settles [.setState (exitState clean).1, .setSub (exitState clean).2] ?_
    (leave_task ht) htr hk rfl hm hr hheld (by simpa using hks)
  simp

theorem escapes_waits {c : ProcId} {l : List Op} (ht : b.tasks[j]? = some t) (htr : t.runner = r)
    (hk : t.kind = .supervise) (hops : t.ops = .waitMain c :: l) (hexit : exited b.procs c = true)
    (hstop : R.stopping = false) (hm : b.Lives m) (hr : r < b.runners.length)
    (hheld : R.childHeld = false) (hks : Harmless leads p ks) :
    Escapes true leads m p b u r R ((TaskKind.stop (b.mgr.newJob u .stop).1).program R.svc) ks := by
  have hrun : Op.run b.procs false t.kind R l (.exited true) (.waitMain c) =
      some ⟨R, .checkStopping true :: l, [].map Act.kill⟩ := by
    simp [Op.run, Op.runWait, hexit]
  exact Escapes.beside (.exited true) [] hr ht htr hops hrun rfl
    (escapes_checks (leave_task ht) htr hk rfl hstop hm hr hheld (by simpa using hks))

/-- **A supervisor that does not watch the main process** drops the pid in time. -/
theorem escapes_supervisor (ht : b.tasks[j]? = some t) (htr : t.runner = r) (hk : t.kind = .supervise)
    (hsup : Supervises t.ops) (hattends : ¬ Attends m p R.child t.ops)
    (hstop : R.stopping = false ∨ .setMainPid none ∈ t.ops)
    (hexit : ∀ c, c ≠ m → R.child = some c ∨ .waitMain c ∈ t.ops → exited b.procs c = true)
    (hgone : ∀ p', p' ≠ p → pidGone b.procs p' = true) (hm : b.Lives m) (hr : r < b.runners.length)
    (hheld : R.childHeld = false) :
    Escapes true leads m p b u r R ((TaskKind.stop (b.mgr.newJob u .stop).1).program R.svc) [] := by
  have hnil := harmless_nil leads p
  generalize hops : t.ops = ops at hsup hattends hstop hexit
  cases hsup with
  | ended => exact absurd .ended hattends
  | takes =>
    obtain ⟨c, hc, hne⟩ : ∃ c, R.child = some c ∧ c ≠ m := by
      by_contra hno
      refine hattends (.takes fun c hc => ?_)
      by_contra hne
      exact hno ⟨c, hc, hne⟩
    have hrun : Op.run b.procs false t.kind R [] .ok .takeChild =
        some ⟨{ R with child := none }, [.waitMain c], [].map Act.kill⟩ := by
      simp [Op.run, Op.runTakeChild, hheld, hc]
    exact Escapes.beside .ok [] hr ht htr hops hrun rfl
      (escapes_waits (R := { R with child := none }) (leave_task ht) htr hk rfl (hexit c hne (.inl hc))
        (hstop.resolve_right (by simp)) hm hr hheld hnil)
  | waits c =>
    have hne : c ≠ m := fun he => hattends (he ▸ .waits)
    exact escapes_waits ht htr hk hops (hexit c hne (.inr (by simp))) (hstop.resolve_right (by simp)) hm
      hr hheld hnil
  | reads => exact absurd .reads hattends
  | polls p' =>
    have hne : p' ≠ p := fun he => hattends (he ▸ .polls)
    have hrun : Op.run b.procs false t.kind R [] .gone (.poll p') =
        some ⟨R, [.checkStopping true], [⟨.pid p', none⟩].map Act.kill⟩ := by
      simp [Op.run, hgone p' hne]
    exact Escapes.beside .gone _ hr ht htr hops hrun rfl
      (escapes_checks (leave_task ht) htr hk rfl (hstop.resolve_right (by simp)) hm hr hheld
        (harmless_probe leads p p'))
  | checks clean => exact escapes_checks ht htr hk hops (hstop.resolve_right (by simp)) hm hr hheld hnil
  | setsState a s =>
    exact escapes_settles [.setState a, .setSub s] (by simp) ht htr hk hops hm hr hheld hnil
  | setsSub a s => exact escapes_settles [.setSub s] (by simp) ht htr hk hops hm hr hheld hnil
  | forgets a s => exact escapes_settles [] (by simp) ht htr hk hops hm hr hheld hnil
  | publishes a s => exact absurd (.publishes a s) hattends

end Supervisor

/-! ## The main process alone -/

/-- All processes but one have exited. -/
def silence (w : World) (m : ProcId) : World :=
  ((List.range w.procs.length).filter (· ≠ m)).foldl killProc w

theorem foldl_killProc : ∀ (cs : List ProcId) (w : World), cs.foldl killProc w =
    { w with procs := (cs.foldl killProc w).procs }
  | [], _ => rfl
  | c :: cs, w => foldl_killProc cs (w.killProc c)

theorem foldl_killProc_procs (c : ProcId) : ∀ (cs : List ProcId) (w : World),
    (cs.foldl killProc w).procs[c]? =
      (w.procs[c]?).map fun q => if c ∈ cs then { q with alive := false } else q
  | [], w => by simp
  | d :: cs, w => by
    show (cs.foldl killProc (w.killProc d)).procs[c]? = _
    rw [foldl_killProc_procs c cs (w.killProc d)]
    show Option.map _ (w.procs.modify d _)[c]? = _
    rw [List.getElem?_modify, Option.map_eq_map, Option.map_map]
    congr 1
    funext q
    by_cases hd : d = c
    · simp [hd]
    · simp [hd, Ne.symm hd]

theorem silence_procs (w : World) (m c : ProcId) : (w.silence m).procs[c]? =
    (w.procs[c]?).map fun q => if c ≠ m then { q with alive := false } else q := by
  unfold silence
  rw [foldl_killProc_procs]
  cases hc : w.procs[c]? with
  | none => rfl
  | some q => simp [(List.getElem?_eq_some_iff.mp hc).1]

theorem silence_lives (h : w.Lives m) : (w.silence m).Lives m := by
  obtain ⟨q, hq, halive⟩ := h
  exact ⟨q, by simp [silence_procs, hq], halive⟩

theorem silence_exited {c : ProcId} (hc : c < w.procs.length) (hne : c ≠ m) :
    exited (w.silence m).procs c = true := by
  obtain ⟨q, hq⟩ : ∃ q, w.procs[c]? = some q := ⟨_, List.getElem?_eq_getElem hc⟩
  unfold exited
  rw [silence_procs, hq]
  simp [hne]

theorem silence_gone {q : Proc} (hq : w.procs[m]? = some q) {p' : Int} (hne : p' ≠ q.pid) :
    pidGone (w.silence m).procs p' = true := by
  refine List.all_eq_true.mpr fun s hs => ?_
  obtain ⟨c, hc⟩ := List.getElem?_of_mem hs
  rw [silence_procs] at hc
  obtain ⟨s', hs', rfl⟩ := Option.map_eq_some_iff.mp hc
  by_cases hcm : c = m
  · subst hcm
    obtain rfl := Option.some.inj (hq.symm.trans hs')
    simp [Ne.symm hne]
  · simp [hcm]

/-! ## Stops that are not deadly -/

/-- **A process that nothing guards** loses its pid before the stop reads it. -/
theorem escapes_unguarded (h : w.Tracks u r R m p) (hno : ¬ Guarded w.tasks r R m p) :
    Escapes true leads m p (w.silence m) u r R
      ((TaskKind.stop (w.mgr.newJob u .stop).1).program R.svc) [] := by
  obtain ⟨q, hq, rfl, halive⟩ := h.process
  have hm := silence_lives (w := w) ⟨q, hq, halive⟩
  have hr := (List.getElem?_eq_some_iff.mp h.runner).1
  -- a supervisor of the runner drops the pid, from any state that differs in a start only
  have hdrop : ∀ (b : World) (R' : Runner) (j : TaskId) (t : Task), b.procs = (w.silence m).procs →
      b.mgr = w.mgr → b.runners = w.runners → R'.svc = R.svc → R'.child = R.child → R'.childHeld = false →
      t ∈ w.tasks → b.tasks[j]? = some t → t.runner = r → t.kind = .supervise →
      ¬ Attends m q.pid R.child t.ops → R'.stopping = false ∨ .setMainPid none ∈ t.ops →
      Escapes true leads m q.pid b u r R' ((TaskKind.stop (b.mgr.newJob u .stop).1).program R'.svc) [] := by
    intro b R' j t hprocs hmgr hrunners hsvc hchild hheld hmem ht htr hk hattends hstop
    have hside := h.tasks t hmem htr
    rw [hk] at hside
    refine escapes_supervisor ht htr hk hside.supervises (hchild ▸ hattends) hstop ?_ ?_ ?_ (hrunners ▸ hr) hheld
    · rw [hprocs]
      rintro c hne (hc | hc)
      · exact silence_exited (h.handle c (hchild ▸ hc)) hne
      · exact silence_exited (h.waits t hmem htr c hc) hne
    · rw [hprocs]
      exact fun p' hne => silence_gone hq hne
    · unfold Lives
      rw [hprocs]
      exact hm
  obtain ⟨ps, hps⟩ : ∃ ps, w.silence m = { w with procs := ps } := ⟨_, foldl_killProc _ w⟩
  rw [hps] at hdrop ⊢
  obtain ⟨hattends, hshut⟩ := not_or.mp hno
  obtain ⟨t, hmem, htr, hk, hncalm⟩ : ∃ t ∈ w.tasks, t.runner = r ∧ t.kind = .supervise ∧
      ¬ Attends m q.pid R.child t.ops := by simpa using hattends
  obtain ⟨j, ht⟩ := List.getElem?_of_mem hmem
  cases hstop : R.stopping with
  | false => exact hdrop _ R j t rfl rfl rfl rfl rfl h.held hmem ht htr hk hncalm (.inl hstop)
  | true =>
    obtain ⟨s, hsmem, hsr, hnshut⟩ : ∃ s ∈ w.tasks, s.runner = r ∧ ¬ Shut s.ops := by
      simpa [hstop] using hshut
    obtain ⟨i, hs⟩ := List.getElem?_of_mem hsmem
    obtain ⟨id, rest, hskind, hsops⟩ | ⟨hskind, hforgets, hsup⟩ := not_shut_cases (h.tasks s hsmem hsr) hnshut
    · -- a start clears the mark first
      have hne : i ≠ j := by
        rintro rfl
        obtain rfl := Option.some.inj (hs.symm.trans ht)
        exact absurd (hskind.symm.trans hk) (by simp)
      refine Escapes.beside .ok [] (b := { w with procs := ps }) hr hs hsr hsops rfl rfl ?_
      exact hdrop _ { R with stopping := false } j t rfl rfl rfl rfl rfl h.held hmem
        ((List.getElem?_set_ne hne).trans ht) htr hk hncalm (.inl rfl)
    · exact hdrop _ R i s rfl rfl rfl rfl rfl h.held hsmem hs hsr hskind
        (fun hattends => hattends.keepsMainPid hforgets) (.inr hforgets)

/-- **A stop that does not finish** leaves the process alive. -/
theorem escapes_unfinished (h : w.Tracks u r R m p) (hfirst : ¬ KillsFirst R.svc leads)
    (hno : ¬ Finishes w.tasks r R m leads (R.svc.sendSigkill = true)) :
    Escapes true leads m p (w.silence m) u r R
      ((TaskKind.stop (w.mgr.newJob u .stop).1).program R.svc) [] := by
  obtain ⟨q, hq, rfl, halive⟩ := h.process
  have hm := silence_lives (w := w) ⟨q, hq, halive⟩
  have hr := (List.getElem?_eq_some_iff.mp h.runner).1
  have hexited : ∀ c, c < w.procs.length → c ≠ m → exited (w.silence m).procs c = true :=
    fun c hc hne => silence_exited hc hne
  obtain ⟨ps, hps⟩ : ∃ ps, w.silence m = { w with procs := ps } := ⟨_, foldl_killProc _ w⟩
  rw [hps] at hm hexited ⊢
  by_cases hchild : ∀ c, R.child = some c → c = m ∧ R.svc.sendSigkill = true
  · -- the stop polls the pid, and gives up
    have hpolls : (R.child = none ∨ Taking w.tasks r) ∧ ¬ (R.svc.sendSigkill = true ∧ Reaches R.svc leads) ∧
        instantFits 0 (stopTimeout R.svc) = true := by
      by_contra hc
      refine hno ⟨hchild, fun hpoll => ?_⟩
      by_contra hor
      obtain ⟨hkill, hfits⟩ := not_or.mp hor
      exact hc ⟨hpoll, hkill, by simpa using hfits⟩
    obtain ⟨hpoll, hkill, hfits⟩ := hpolls
    have hgives : ∀ Q : Runner, Q.child = none → Q.svc = R.svc → GivesUp leads q.pid ps Q := by
      intro Q hQ hsvc
      cases hs : R.svc.sendSigkill with
      | false => exact givesUp_noSigkill (hsvc ▸ hs)
      | true => exact givesUp_noReach hQ (hsvc ▸ fun hreach => hkill ⟨hs, hreach⟩)
    cases hc : R.child with
    | none => exact escapes_givesUp hm hr h.held h.mainPid hfirst (fun _ => hfits) (hgives R hc rfl)
    | some c =>
      -- the supervisor takes the child first
      obtain ⟨t, hmem, htr, htake⟩ := hpoll.resolve_left (by simp [hc])
      obtain ⟨j, ht⟩ := List.getElem?_of_mem hmem
      obtain ⟨hk, hops⟩ := (h.tasks t hmem htr).takes htake
      have hrun : Op.run ps false t.kind R [] .ok .takeChild =
          some ⟨{ R with child := none }, [.waitMain c], [].map Act.kill⟩ := by
        simp [Op.run, Op.runTakeChild, h.held, hc]
      refine Escapes.beside .ok [] (b := { w with procs := ps }) hr ht htr hops hrun rfl ?_
      exact escapes_givesUp (R := { R with child := none }) hm hr h.held h.mainPid hfirst
        (fun _ => hfits) (hgives _ rfl rfl)
  · -- the stop waits for the child
    obtain ⟨c, hc, hbad⟩ : ∃ c, R.child = some c ∧ ¬ (c = m ∧ R.svc.sendSigkill = true) := by
      by_contra hall
      refine hchild fun c hc => ?_
      by_contra hbad
      exact hall ⟨c, hc, hbad⟩
    refine escapes_givesUp hm hr h.held h.mainPid hfirst (fun hnone => absurd (hc.symm.trans hnone) (by simp)) ?_
    by_cases hcm : c = m
    · have hoff : R.svc.sendSigkill = false := by simpa [hcm] using hbad
      exact givesUp_noSigkill hoff
    · exact givesUp_other hc (hexited c (h.handle c hc) hcm)

/-- **A stop that is not deadly** publishes its end with the process alive. -/
theorem not_stopKills (h : w.Tracks u r R m p)
    (hno : ¬ (env = true ∧ Deadly (R.svc.killSignal = some "SIGKILL".toList)
      (R.svc.sendSigkill = true) leads w r R m p)) : ¬ w.StopKills env leads u m p := by
  intro hkills
  obtain ⟨q, hq, hpid, halive⟩ := h.process
  have hr := (List.getElem?_eq_some_iff.mp h.runner).1
  have hescape : Escapes env leads m p w u r R
      ((TaskKind.stop (w.mgr.newJob u .stop).1).program R.svc) [] := by
    cases env with
    | false => exact escapes_noEnv ⟨q, hq, halive⟩ hr
    | true =>
      refine Escapes.exits ((List.range w.procs.length).filter (· ≠ m)) ?_
      by_cases hguard : Guarded w.tasks r R m p
      · have hends := fun h => hno ⟨rfl, hguard, h⟩
        obtain ⟨hfirst, hfin⟩ := not_or.mp hends
        exact escapes_unfinished h hfirst hfin
      · exact escapes_unguarded h hguard
  obtain ⟨ls, b, Q, rest, ks, hruns, halong, hlen, hkept, hm, hrb, hks⟩ := hescape
  have hnext := nextOp_stopWorld (b := b) (u := u) (r := r) (R := Q) ks .markDead rest
  have hpub : ∃ w', (stopWorld b u r Q (.markDead :: rest) ks).stepAt (0, .task b.tasks.length .ok) =
      some w' ∧ w'.procs = b.procs ∧ w'.kills = b.kills ++ ks := by
    have htask : (stopWorld b u r Q (.markDead :: rest) ks).tasks[b.tasks.length]? =
        some ⟨.stop (b.mgr.newJob u .stop).1, u, r, .markDead :: rest⟩ := List.getElem?_concat_length
    have hrunner : (stopWorld b u r Q (.markDead :: rest) ks).runners[r]? = some Q :=
      List.getElem?_set_self hrb
    have hfits : (stopWorld b u r Q (.markDead :: rest) ks).deadlineFits 0 b.tasks.length = true := by
      unfold deadlineFits
      simp only [htask, hrunner]
      rfl
    simp only [stepAt, hfits, if_true, runTask, htask, hrunner, Op.run, Option.map_some]
    exact ⟨_, rfl, rfl, rfl⟩
  obtain ⟨w', hstep, hprocs, hcalls⟩ := hpub
  rw [hlen] at hnext hstep
  have hlives : w'.Lives m := by
    unfold Lives
    rw [hprocs]
    exact hm
  refine hkills w' ⟨_, _, ls, 0, .ok, h.step_stopUnit, hruns, halong, hnext, hstep⟩ ?_ hlives
  rintro ⟨k, hk, hsig, hhits⟩
  rw [hcalls, hkept, List.drop_left] at hk
  exact absurd hhits (hks k hk hsig)

/-- Signals that pass the parser can be sent. -/
theorem parseSignalStrict_of_mem {name : Str} (h : name ∈ signalNames) :
    ∃ sig, parseSignalStrict name = some sig := by
  simp only [signalNames, List.map_cons, List.map_nil, List.mem_cons, List.not_mem_nil,
    or_false] at h
  obtain rfl | rfl | rfl | rfl | rfl | rfl | rfl | rfl := h <;> exact ⟨_, rfl⟩

theorem parseService_signal {P : ValueParsers} {entries : List Entry} {svc : ServiceUnit}
    (h : parseService P entries = .ok svc) :
    ∀ name, svc.killSignal = some name → ∃ sig, parseSignalStrict name = some sig := by
  intro name hname
  have hfield := parseService_killSignal h
  rw [hname] at hfield
  split at hfield
  next v _ =>
    split at hfield
    next hv =>
      obtain rfl := Option.some.inj (Option.some.inj hfield)
      exact parseSignalStrict_of_mem hv
    next => exact absurd hfield (by simp)
  next => exact absurd hfield (by simp)

/-- Reads the command of the examples. -/
def cmdParsers : ValueParsers where
  duration _ _ := .error (.text [])
  command s := .ok ⟨s, [s], s, {}⟩
  check _ := .ok ()

/-- A section with a command alone. -/
def cmdSection : List Entry := [⟨"ExecStart".toList, "/bin/s".toList, 2⟩]

def cmdService (sigkill : Bool) : ServiceUnit :=
  { ServiceUnit.initial with execStart := [cmd], sendSigkill := sigkill }

/-- The service is started, comes up with the pid 5, and is supervised. -/
def upRun : List Label :=
  [.startUnit serviceName, .task 0 .ok, .task 0 .ok, .task 0 .ok, .task 0 .ok, .task 0 .ok,
    .task 0 (.spawned 5), .task 0 .ok, .task 0 .ok, .task 0 .ok, .task 0 .ok, .task 0 .ok,
    .task 0 .ok, .task 0 .ok, .task 1 .ok]

/-- Its runner. -/
def upRunner (svc : ServiceUnit) (p : Int) : Runner :=
  { unit := serviceName, svc := svc, mainPid := some p, state := .active, sub := .running }

/-- With nothing in flight but a supervisor, the main process is tracked. -/
theorem tracks_of_up {svc : ServiceUnit} {ops : List Op} (hlock : w.lock = .free)
    (hserv : w.mgr.services.get? serviceName = some 0) (hrunner : w.runners = [upRunner svc p])
    (hproc : ∃ q, w.procs[m]? = some q ∧ q.pid = p ∧ q.alive = true)
    (htasks : w.tasks = [⟨.start ⟨1⟩, serviceName, 0, []⟩, ⟨.supervise, serviceName, 0, ops⟩])
    (hops : Supervises ops) (hwait : ∀ c, .waitMain c ∈ ops → c < w.procs.length) :
    w.Tracks serviceName 0 (upRunner svc p) m p := by
  refine ⟨rfl, hlock, hserv, ?_, rfl, rfl, hproc, ?_, ?_, ?_, ?_⟩
  · rw [hrunner]
    rfl
  · exact fun c hc => absurd hc (by simp [upRunner])
  all_goals rw [htasks]
  · intro t ht _
    obtain rfl | rfl : t = _ ∨ t = _ := by simpa using ht
    · exact .ended _
    · exact .supervise _ hops
  · intro t ht _
    obtain rfl | rfl : t = _ ∨ t = _ := by simpa using ht
    · simp
    · exact hwait
  · intro t ht hl
    obtain rfl | rfl : t = _ ∨ t = _ := by simpa using ht
    · rfl
    · exact absurd hl (by simp [TaskKind.isLocked])

theorem tracks_upRun (b : Bool) : ∃ w, runs step (single (cmdService b)) upRun = some w ∧
    w.Tracks serviceName 0 (upRunner (cmdService b) 5) 0 5 := by
  obtain ⟨w, hw, hlock, hserv, hrunners, hprocs, htasks⟩ :
      ∃ w, runs step (single (cmdService b)) upRun = some w ∧ w.lock = .free ∧
        w.mgr.services.get? serviceName = some 0 ∧ w.runners = [upRunner (cmdService b) 5] ∧
        w.procs = [⟨5, serviceName, true, true, true⟩] ∧
        w.tasks = [⟨.start ⟨1⟩, serviceName, 0, []⟩, ⟨.supervise, serviceName, 0, [.waitMain 0]⟩] := by
    cases b <;> exact ⟨_, rfl, rfl, rfl, rfl, rfl, rfl⟩
  refine ⟨w, hw, tracks_of_up hlock hserv hrunners ?_ htasks (.waits 0) ?_⟩
  · rw [hprocs]
    exact ⟨_, rfl, rfl, rfl⟩
  · simp [hprocs]

/-- A section of a service that forks. -/
def forkSection : List Entry :=
  [⟨"Type".toList, "forking".toList, 2⟩, ⟨"ExecStart".toList, "/bin/s".toList, 3⟩,
    ⟨"PIDFile".toList, "/run/s.pid".toList, 4⟩, ⟨"KillMode".toList, "process".toList, 5⟩,
    ⟨"SendSIGKILL".toList, "yes".toList, 6⟩]

def forkService : ServiceUnit :=
  { ServiceUnit.initial with
    serviceType := .forking, execStart := [cmd], pidFile := some "/run/s.pid".toList,
    killMode := .process, sendSigkill := true }

/-- Its process forks a daemon with the pid 6 and exits; the start reads the pid. -/
def forkRun : List Label :=
  [.startUnit serviceName, .task 0 .ok, .task 0 .ok, .task 0 .ok, .task 0 .ok, .task 0 .ok,
    .task 0 (.spawned 5)]

def daemonRun : List Label :=
  [.exit 0, .task 0 (.exited true), .task 0 (.file "6".toList), .task 0 .ok, .task 0 .ok, .task 0 .ok,
    .task 0 .ok, .task 0 .ok, .task 0 .ok, .task 0 .ok, .task 1 .ok]

/-- A process that none of the tasks spawned. -/
def fork (w : World) (q : Proc) : World := { w with procs := w.procs ++ [q] }

theorem tracks_daemonRun : ∃ w v, runs step (single forkService) forkRun = some w ∧
    runs step (w.fork ⟨6, serviceName, false, true, true⟩) daemonRun = some v ∧
    v.Tracks serviceName 0 (upRunner forkService 6) 1 6 := by
  obtain ⟨w, v, hw, hv, hlock, hserv, hrunners, hprocs, htasks⟩ :
      ∃ w v, runs step (single forkService) forkRun = some w ∧
        runs step (w.fork ⟨6, serviceName, false, true, true⟩) daemonRun = some v ∧
        v.lock = .free ∧ v.mgr.services.get? serviceName = some 0 ∧
        v.runners = [upRunner forkService 6] ∧
        v.procs = [⟨5, serviceName, true, true, false⟩, ⟨6, serviceName, false, true, true⟩] ∧
        v.tasks = [⟨.start ⟨1⟩, serviceName, 0, []⟩, ⟨.supervise, serviceName, 0, [.poll 6]⟩] :=
    ⟨_, _, rfl, rfl, rfl, rfl, rfl, rfl, rfl⟩
  refine ⟨w, v, hw, hv, tracks_of_up hlock hserv hrunners ?_ htasks (.polls 6) (by simp)⟩
  rw [hprocs]
  exact ⟨_, rfl, rfl, rfl⟩

end World

end Systeml.Runtime
