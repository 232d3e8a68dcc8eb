import Systeml.Runtime.Beside
import Systeml.Runtime.Deadline

/-!
# A stop that waits for the end of the main process

A stop signals the main pid, waits for the child or polls the pid, and after the timeout
sends `SIGKILL` if the service asks for it. It does not end before the main process does
(`StopPhase`) if the pid is still recorded when it reads it, and if then `SIGKILL` reaches the
process or the child that it waits for is the process. Its own steps keep it on its way
(`StopPhase.step`), and so do those of the supervisors and starts beside it (`StopPhase.beside`).
-/

namespace Systeml.Runtime

open Systeml.Lib Systeml.Unit Systeml.Deps

/-! ## Signals that reach a process -/

/-- A signal of a stop reaches the main process: it goes to the pid, or to the group that
the process leads. -/
def Reaches (svc : ServiceUnit) (leads : Bool) : Prop := svc.killMode = .process ∨ leads = true

/-- The call reaches the process with the pid `p`. -/
def Kill.Hits (k : Kill) (leads : Bool) (p : Int) : Prop :=
  k.target = .pid p ∨ leads = true ∧ k.target = .processGroup p

/-- The first signal of a stop ends the main process. -/
def KillsFirst (svc : ServiceUnit) (leads : Bool) : Prop :=
  svc.killSignal = some "SIGKILL".toList ∧ Reaches svc leads

theorem hits_killTarget {svc : ServiceUnit} {leads : Bool} {p : Int} {s : Option Signal}
    (hmode : svc.killMode ≠ .none) (h : Reaches svc leads) :
    ∃ t, killTarget svc.killMode p = some t ∧ Kill.Hits ⟨t, s⟩ leads p := by
  cases hk : svc.killMode with
  | none => exact absurd hk hmode
  | process => exact ⟨.pid p, rfl, .inl rfl⟩
  | controlGroup | mixed =>
    refine ⟨.processGroup p, rfl, .inr ⟨?_, rfl⟩⟩
    exact h.resolve_left (by simp [hk])

theorem not_hits_killTarget {svc : ServiceUnit} {leads : Bool} {p : Int} {s : Option Signal}
    {t : Target} (h : ¬ Reaches svc leads) (ht : killTarget svc.killMode p = some t) :
    ¬ Kill.Hits ⟨t, s⟩ leads p := by
  obtain ⟨hmode, hleads⟩ : svc.killMode ≠ .process ∧ leads ≠ true := not_or.mp h
  rintro (he | ⟨he, -⟩)
  · obtain rfl : t = .pid p := he
    cases hk : svc.killMode <;> simp_all [killTarget]
  · exact hleads he

/-- `SIGKILL` is among the acts, and reaches the process. -/
def SendsSigkill (leads : Bool) (p : Int) (acts : List Act) : Prop :=
  ∃ k : Kill, .kill k ∈ acts ∧ k.signal = some .sigkill ∧ k.Hits leads p

/-- A task beside a stop computes no deadline. -/
theorem Aside.timeout_eq_none {kind : TaskKind} {R : Runner} {op : Op} {rest : List Op}
    (h : Aside kind (op :: rest)) : op.timeout R rest = none := by
  cases hd : op.timeout R rest with
  | none => rfl
  | some d =>
    cases h with
    | start id _ _ hop hrest =>
      obtain ⟨c, l, rfl, -⟩ | ⟨c, l, -, rfl⟩ | ⟨p, rfl, -⟩ := Op.timeout_cases hd
      · exact absurd hop (by simp [Op.leavesMain])
      · exact absurd (hrest _ List.mem_cons_self).1 (by simp [Op.leavesMain])
      · exact absurd hop (by simp [Op.leavesMain])
    | supervise _ hsup => cases hsup <;> exact absurd hd (by simp [Op.timeout])

/-! ## What the end of a stop depends on -/

section Conditions

variable (ts : List Task) (r : RunnerId) (R : Runner) (m : ProcId) (p : Int) (leads : Bool)

/-- No task of the runner drops the recorded pid while the main process is there: each
supervisor watches that process, or an earlier stop has left its mark and nothing clears
it. -/
def Guarded : Prop :=
  (∀ t ∈ ts, t.runner = r → t.kind = .supervise → Attends m p R.child t.ops) ∨
    R.stopping = true ∧ ∀ t ∈ ts, t.runner = r → Shut t.ops

/-- A supervisor is about to take the child. -/
def Taking : Prop := ∃ t ∈ ts, t.runner = r ∧ .takeChild ∈ t.ops

/-- A stop that has sent its first signal ends with the process gone, or not at all: the
child it waits for is the process, or it polls the pid and `SIGKILL` reaches that, or there
is no deadline to poll until. -/
structure Finishes (sigkill : Prop) : Prop where
  child : ∀ c, R.child = some c → c = m ∧ sigkill
  polls : R.child = none ∨ Taking ts r →
    sigkill ∧ Reaches R.svc leads ∨ instantFits 0 (stopTimeout R.svc) = false

variable {ts r R m p leads}

theorem Guarded.mono {ts' : List Task} {R' : Runner} (h : Guarded ts r R m p)
    (hts : ∀ t ∈ ts', t.runner = r → t ∈ ts) (hchild : R'.child = R.child)
    (hstop : R.stopping = true → R'.stopping = true) : Guarded ts' r R' m p := by
  cases h with
  | inl h => exact .inl fun t ht hr hk => hchild ▸ h t (hts t ht hr) hr hk
  | inr h => exact .inr ⟨hstop h.1, fun t ht hr => h.2 t (hts t ht hr) hr⟩

theorem Finishes.mono {ts' : List Task} {R' : Runner} {sigkill : Prop}
    (h : Finishes ts r R m leads sigkill) (hts : ∀ t ∈ ts', t.runner = r → t ∈ ts)
    (hchild : R'.child = R.child) (hsvc : R'.svc = R.svc) : Finishes ts' r R' m leads sigkill := by
  refine ⟨fun c hc => h.child c (hchild ▸ hc), ?_⟩
  rw [hchild, hsvc]
  rintro (hnone | ⟨t, ht, hr, htake⟩)
  · exact h.polls (.inl hnone)
  · exact h.polls (.inr ⟨t, hts t ht hr, hr, htake⟩)

end Conditions

/-! ## The program of a stop -/

/-- Steps of a stop before it reads the pid. -/
def beforeKill : Op → Bool
  | .requestStop | .setState _ | .setSub _ | .resolveEnv | .exec _ .bestEffort
  | .waitExec _ _ .bestEffort => true
  | _ => false

/-- How far a stop is that will not end before its main process does. -/
inductive StopPhase (ts : List Task) (r : RunnerId) (m : ProcId) (p : Int) (leads : Bool) (R : Runner) :
    List Op → Prop
  | begins (l l' : List Op) (hall : ∀ o ∈ l, beforeKill o = true) (hpid : R.mainPid = some p)
    (hguard : Guarded ts r R m p)
    (h : KillsFirst R.svc leads ∨ Finishes ts r R m leads (R.svc.sendSigkill = true)) :
    StopPhase ts r m p leads R (l ++ .readPid :: l')
  | holds (l : List Op) (h : Finishes ts r R m leads (R.svc.sendSigkill = true)) :
    StopPhase ts r m p leads R (.holdChild p :: l)
  | waits (l : List Op) (hheld : R.childHeld = true) (hkill : R.svc.sendSigkill = true)
    (h : R.child = some m ∨ R.child = none ∧ Reaches R.svc leads) :
    StopPhase ts r m p leads R (.waitGone p :: l)
  | killed (l : List Op) : StopPhase ts r m p leads R (.waitKilled m :: l)

section Steps

variable {ts ts' : List Task} {r : RunnerId} {m : ProcId} {p : Int} {leads : Bool} {R : Runner}
  {ops rest : List Op} {op : Op} {procs : List Proc} {resp : Response} {reply : Reply}

theorem StopPhase.ne_nil (h : StopPhase ts r m p leads R ops) : ops ≠ [] := by
  cases h with
  | begins l l' => simp
  | holds l | waits l | killed l => simp

/-- Such a stop is not at its end. -/
theorem StopPhase.head_ne (h : StopPhase ts r m p leads R ops) : ops ≠ .markDead :: rest := by
  intro he
  cases h with
  | begins l l' hall =>
    cases l with
    | nil => exact absurd (List.cons.inj he).1 (by simp)
    | cons o l =>
      have hbefore := hall o List.mem_cons_self
      rw [(List.cons.inj he).1] at hbefore
      exact absurd hbefore (by simp [beforeKill])
  | holds l | waits l | killed l => exact absurd (List.cons.inj he).1 (by simp)

theorem StopPhase.mono (h : StopPhase ts r m p leads R ops) (hts : ∀ t ∈ ts', t.runner = r → t ∈ ts) :
    StopPhase ts' r m p leads R ops := by
  cases h with
  | begins l l' hall hpid hguard h =>
    exact .begins l l' hall hpid (hguard.mono hts rfl id) (h.imp_right fun h => h.mono hts rfl rfl)
  | holds l h => exact .holds l (h.mono hts rfl rfl)
  | waits l hheld hkill h => exact .waits l hheld hkill h
  | killed l => exact .killed l

/-- What the step of another task of the runner does to the conditions: `t` takes the step,
and `ts'` has what is left of it. -/
structure Beside (ts ts' : List Task) (t : Task) (op : Op) (reply : Reply) : Prop where
  mem : t ∈ ts
  head : op ∈ t.ops
  others : ∀ s ∈ ts', s = { t with ops := reply.ops } ∨ s ∈ ts

theorem Finishes.beside {t : Task} {sigkill : Prop} (h : Finishes ts r R m leads sigkill)
    (hb : Beside ts ts' t op reply) (hr : t.runner = r) (hs : SideStep R op t.kind reply) :
    Finishes ts' r reply.runner m leads sigkill := by
  have htaking : Taking ts' r → Taking ts r := by
    intro ⟨s, hs', hsr, htake⟩
    obtain rfl | hold := hb.others s hs'
    · exact absurd htake hs.takes
    · exact ⟨s, hold, hsr, htake⟩
  refine ⟨?_, ?_⟩
  · intro c hc
    obtain he | ⟨-, -, he⟩ := hs.child
    · exact h.child c (he ▸ hc)
    · exact absurd (he.symm.trans hc) (by simp)
  · rw [hs.svc]
    intro hpoll
    refine h.polls ?_
    obtain he | ⟨hop, -, -⟩ := hs.child
    · exact hpoll.imp (fun hn => he ▸ hn) htaking
    · exact .inr ⟨t, hb.mem, hr, hop ▸ hb.head⟩

/-- The recorded pid stays as long as its process is there. -/
theorem Guarded.beside {t : Task} (h : Guarded ts r R m p) (hb : Beside ts ts' t op reply)
    (hr : t.runner = r) (hops : t.ops = op :: rest) (ha : Aside t.kind (op :: rest))
    (hpid : R.mainPid = some p) (hrun : op.run procs false t.kind R rest resp = some reply) :
    (reply.runner.mainPid = some p ∧ Guarded ts' r reply.runner m p) ∨ exited procs m = true ∨
      pidGone procs p = true := by
  have hs := Op.run_aside ha hrun
  cases h with
  | inl h =>
    -- the handle may be taken by this step
    have hothers : ∀ s ∈ ts, s.runner = r → s.kind = .supervise →
        Attends m p reply.runner.child s.ops := by
      intro s hs' hsr hk
      obtain he | ⟨-, -, he⟩ := hs.child
      · exact he ▸ h s hs' hsr hk
      · exact he ▸ (h s hs' hsr hk).taken
    have hself : (op ≠ .setMainPid none ∧ (t.kind = .supervise → Attends m p reply.runner.child reply.ops)) ∨
        exited procs m = true ∨ pidGone procs p = true := by
      cases hk : t.kind with
      | supervise =>
        rw [hk] at hrun
        have hattends := Op.run_attends (hops ▸ h t hb.mem hr hk) hpid hrun
        exact hattends.imp_left fun hc => ⟨hc.1, fun _ => hc.2⟩
      | start id =>
        rw [hk] at ha
        have hkeep := ha.keepsMainPid
        exact .inl ⟨fun he => hkeep (he ▸ List.mem_cons_self), by simp⟩
      | stop id | restart id | reload id =>
        rw [hk] at ha
        cases ha
    refine hself.imp_left fun ⟨hne, hattends⟩ => ⟨(hs.mainPid.resolve_left hne).trans hpid, .inl ?_⟩
    intro s hs' hsr hk
    obtain rfl | hold := hb.others s hs'
    · exact hattends hk
    · exact hothers s hold hsr hk
  | inr h =>
    obtain ⟨hstop, hshut⟩ := h
    have hhead : Shut (op :: rest) := hops ▸ hshut t hb.mem hr
    have hne : op ≠ .setMainPid none := fun he => hhead.2 (he ▸ List.mem_cons_self)
    have hnc : op ≠ .clearStop := fun he => hhead.1 (he ▸ List.mem_cons_self)
    refine .inl ⟨(hs.mainPid.resolve_left hne).trans hpid, .inr ⟨?_, ?_⟩⟩
    · exact (hs.stopping.resolve_left hnc).trans hstop
    · intro s hs' hsr
      obtain rfl | hold := hb.others s hs'
      · exact Op.run_shut ha hhead hstop hrun
      · exact hshut s hold hsr

/-- **A step beside a stop** leaves it on its way, unless the process has ended. -/
theorem StopPhase.beside {t : Task} (h : StopPhase ts r m p leads R ops) (hb : Beside ts ts' t op reply)
    (hr : t.runner = r) (hops : t.ops = op :: rest) (ha : Aside t.kind (op :: rest))
    (hrun : op.run procs false t.kind R rest resp = some reply) :
    StopPhase ts' r m p leads reply.runner ops ∨ exited procs m = true ∨ pidGone procs p = true := by
  have hs := Op.run_aside ha hrun
  cases h with
  | begins l l' hall hpid hguard h =>
    refine (hguard.beside hb hr hops ha hpid hrun).imp_left fun hg => ?_
    refine .begins l l' hall hg.1 hg.2 ?_
    rw [hs.svc]
    exact h.imp_right fun h => h.beside hb hr hs
  | holds l h =>
    refine .inl (.holds l ?_)
    rw [hs.svc]
    exact h.beside hb hr hs
  | waits l hheld hkill h =>
    refine .inl (.waits l (hs.held.trans hheld) ?_ ?_)
    · rw [hs.svc]
      exact hkill
    · rw [hs.svc]
      obtain he | ⟨-, hfree, -⟩ := hs.child
      · rw [he]
        exact h
      · exact absurd (hheld.symm.trans hfree) (by simp)
  | killed l => exact .inl (.killed l)

/-- The signals of the service can be sent. -/
structure Stoppable (svc : ServiceUnit) : Prop where
  signal : ∀ name, svc.killSignal = some name → ∃ sig, parseSignalStrict name = some sig
  mode : svc.killMode ≠ .none

/-- The signal that a stop sends first. -/
def stopSignal (svc : ServiceUnit) : Option Signal :=
  match svc.killSignal with
  | some name => parseSignalStrict name
  | none => some .sigterm

theorem Stoppable.stopSignal {svc : ServiceUnit} (h : Stoppable svc) :
    ∃ sig, Runtime.stopSignal svc = some sig := by
  unfold Runtime.stopSignal
  split
  next name hname => exact h.signal name hname
  next => exact ⟨_, rfl⟩

theorem runReadPid_eq {k : TaskKind} (hp : R.mainPid = some p) :
    Op.runReadPid k R rest = match stopSignal R.svc with
      | none => some ⟨R, k.returnOps .failed, []⟩
      | some sig => some ⟨R, .holdChild p :: rest, match killTarget R.svc.killMode p with
        | some target => [.kill ⟨target, some sig⟩]
        | none => []⟩ := by
  unfold Op.runReadPid
  rw [hp]
  rfl

/-- Up to its signal, a stop leaves the pid and the child of its runner alone. -/
theorem run_beforeKill {id : JobId} {l l' : List Op} (hop : beforeKill op = true)
    (hl : ∀ x ∈ l, beforeKill x = true) (henv : op = .resolveEnv → resp = .ok)
    (hrun : op.run procs false (.stop id) R (l ++ .readPid :: l') resp = some reply) :
    reply.runner.svc = R.svc ∧ reply.runner.mainPid = R.mainPid ∧ reply.runner.child = R.child ∧
      (R.stopping = true → reply.runner.stopping = true) ∧
      ∃ l₂, reply.ops = l₂ ++ .readPid :: l' ∧ ∀ x ∈ l₂, beforeKill x = true := by
  cases op with
  | requestStop => exact Option.some.inj hrun ▸ ⟨rfl, rfl, rfl, fun _ => rfl, l, rfl, hl⟩
  | setState a | setSub s => exact Option.some.inj hrun ▸ ⟨rfl, rfl, rfl, fun h => h, l, rfl, hl⟩
  | resolveEnv =>
    rw [henv rfl] at hrun
    exact Option.some.inj hrun ▸ ⟨rfl, rfl, rfl, fun h => h, l, rfl, hl⟩
  | exec cmd k =>
    cases k with
    | bestEffort =>
      cases resp <;> simp only [Op.run, Op.runExec, reduceCtorEq] at hrun
      case spawned pid =>
        split at hrun
        · refine Option.some.inj hrun ▸ ⟨rfl, rfl, rfl, fun h => h,
            .waitExec procs.length cmd .bestEffort :: l, rfl, ?_⟩
          exact fun x hx => (List.mem_cons.mp hx).elim (fun e => e ▸ rfl) (hl x)
        · exact absurd hrun (by simp)
      case err =>
        simp only [if_true] at hrun
        exact Option.some.inj hrun ▸ ⟨rfl, rfl, rfl, fun h => h, l, rfl, hl⟩
    | condition | required => exact absurd hop (by simp [beforeKill])
  | waitExec c cmd k =>
    cases k with
    | bestEffort =>
      obtain ⟨acts, rfl⟩ : ∃ acts, reply = ⟨R, l ++ .readPid :: l', acts⟩ := by
        cases resp <;> simp only [Op.run, Op.runWaitExec, reduceCtorEq] at hrun
        case exited success =>
          split at hrun
          · simp only [or_true, if_true] at hrun
            exact ⟨_, (Option.some.inj hrun).symm⟩
          · exact absurd hrun (by simp)
        case timeout =>
          split at hrun
          · simp only [if_true] at hrun
            exact ⟨_, (Option.some.inj hrun).symm⟩
          · exact absurd hrun (by simp)
        case err =>
          simp only [if_true] at hrun
          exact ⟨_, (Option.some.inj hrun).symm⟩
      exact ⟨rfl, rfl, rfl, fun h => h, l, rfl, hl⟩
    | condition | required => exact absurd hop (by simp [beforeKill])
  | _ => exact absurd hop (by simp [beforeKill])

/-- The signal of a stop: it ends the process, or the stop goes on to wait. -/
theorem run_readPid {id : JobId} (hcan : Stoppable R.svc) (hp : R.mainPid = some p)
    (h : KillsFirst R.svc leads ∨ Finishes ts r R m leads (R.svc.sendSigkill = true))
    (hrun : Op.run procs false (.stop id) R rest resp .readPid = some reply) :
    (reply.runner = R ∧ StopPhase ts r m p leads R reply.ops) ∨ SendsSigkill leads p reply.acts := by
  obtain ⟨sig, hsig⟩ := hcan.stopSignal
  have heq : _ = some reply := (runReadPid_eq hp).symm.trans hrun
  rw [hsig] at heq
  obtain rfl := Option.some.inj heq
  cases h with
  | inl hfirst =>
    obtain ⟨t, ht, hhits⟩ := hits_killTarget (p := p) (s := some sig) hcan.mode hfirst.2
    refine .inr ⟨⟨t, some sig⟩, ?_, ?_, hhits⟩
    · rw [ht]
      exact List.mem_singleton.mpr rfl
    · unfold stopSignal at hsig
      rw [hfirst.1] at hsig
      exact hsig.symm
  | inr hfin => exact .inl ⟨rfl, .holds _ hfin⟩

/-- The wait of a stop: the process has ended, or `SIGKILL` is sent to it. -/
theorem run_waitGone {id : JobId} (hcan : Stoppable R.svc) (hkill : R.svc.sendSigkill = true)
    (h : R.child = some m ∨ R.child = none ∧ Reaches R.svc leads)
    (hwait : resp = .err → ∀ c, R.child = some c → exited procs c = true)
    (hrun : Op.run procs false (.stop id) R rest resp (.waitGone p) = some reply) :
    (reply.runner = R ∧ StopPhase ts r m p leads R reply.ops) ∨ exited procs m = true ∨
      pidGone procs p = true ∨ SendsSigkill leads p reply.acts := by
  cases resp <;> simp only [Op.run, Op.runWaitGone, reduceCtorEq] at hrun
  case exited success =>
    obtain hc | ⟨hc, -⟩ := h
    · simp only [hc] at hrun
      split at hrun
      next he => exact .inr (.inl he)
      next => exact absurd hrun (by simp)
    · exact absurd hrun (by simp [hc])
  case err =>
    obtain hc | ⟨hc, -⟩ := h
    · exact .inr (.inl (hwait rfl m hc))
    · exact absurd hrun (by simp [hc])
  case gone =>
    obtain hc | ⟨hc, -⟩ := h
    · exact absurd hrun (by simp [hc])
    · simp only [hc] at hrun
      split at hrun
      next hgone => exact .inr (.inr (.inl hgone))
      next => exact absurd hrun (by simp)
  case timeout =>
    obtain hc | ⟨hc, hreach⟩ := h
    · simp only [hkill, if_true, hc] at hrun
      exact Option.some.inj hrun ▸ .inl ⟨rfl, .killed _⟩
    · obtain ⟨t, ht, hhits⟩ := hits_killTarget (p := p) (s := some .sigkill) hcan.mode hreach
      simp only [hkill, if_true, hc, ht] at hrun
      refine .inr (.inr (.inr ⟨⟨t, some .sigkill⟩, ?_, rfl, hhits⟩))
      exact Option.some.inj hrun ▸ List.mem_append_right _ (List.mem_singleton.mpr rfl)

/-- **A step of a stop** that does not end before the process does: it goes on, the
process has ended, it sends `SIGKILL`, or its deadline does not fit. -/
theorem StopPhase.step {id : JobId} (hcan : Stoppable R.svc) (h : StopPhase ts r m p leads R (op :: rest))
    (henv : op = .resolveEnv → resp = .ok)
    (hwait : op = .waitGone p → resp = .err → ∀ c, R.child = some c → exited procs c = true)
    (hkilled : op = .waitKilled m → resp = .err → exited procs m = true)
    (hrun : op.run procs false (.stop id) R rest resp = some reply) :
    (reply.runner.svc = R.svc ∧ StopPhase ts r m p leads reply.runner reply.ops) ∨
      exited procs m = true ∨ pidGone procs p = true ∨ SendsSigkill leads p reply.acts ∨
      ∃ d, op.timeout R rest = some d ∧ instantFits 0 d = false := by
  generalize hops : op :: rest = ops at h
  cases h with
  | begins l l' hall hpid hguard h =>
    cases l with
    | nil =>
      obtain ⟨rfl, rfl⟩ := List.cons.inj hops
      obtain ⟨he, hp⟩ | hk := run_readPid hcan hpid h hrun
      · exact .inl ⟨by rw [he], he ▸ hp⟩
      · exact .inr (.inr (.inr (.inl hk)))
    | cons o l =>
      obtain ⟨rfl, rfl⟩ := List.cons.inj hops
      have hl : ∀ x ∈ l, beforeKill x = true := fun x hx => hall x (List.mem_cons_of_mem op hx)
      obtain ⟨hsvc, hp, hc, hs, l₂, he, hl₂⟩ := run_beforeKill (hall op List.mem_cons_self) hl henv hrun
      refine .inl ⟨hsvc, he ▸ .begins l₂ l' hl₂ (hp.trans hpid) ?_ ?_⟩
      · exact hguard.mono (fun _ ht _ => ht) hc hs
      · rw [hsvc]
        exact h.imp_right fun h => h.mono (fun _ ht _ => ht) hc hsvc
  | holds l h =>
    obtain ⟨rfl, rfl⟩ := List.cons.inj hops
    cases hc : R.child with
    | some c =>
      obtain ⟨rfl, hkill⟩ := h.child c hc
      simp only [Op.run] at hrun
      split at hrun
      · exact absurd hrun (by simp)
      · exact Option.some.inj hrun ▸ .inl ⟨rfl, .waits _ rfl hkill (.inl hc)⟩
    | none =>
      obtain ⟨hkill, hreach⟩ | hnever := h.polls (.inl hc)
      · simp only [Op.run] at hrun
        split at hrun
        · exact absurd hrun (by simp)
        · exact Option.some.inj hrun ▸ .inl ⟨rfl, .waits _ rfl hkill (.inr ⟨hc, hreach⟩)⟩
      · exact .inr (.inr (.inr (.inr ⟨_, if_pos hc, hnever⟩)))
  | waits l hheld hkill h =>
    obtain ⟨rfl, rfl⟩ := List.cons.inj hops
    obtain ⟨he, hp⟩ | hexit | hgone | hsent :
        (reply.runner = R ∧ StopPhase ts r m p leads R reply.ops) ∨ _ :=
      run_waitGone hcan hkill h (hwait rfl) hrun
    · exact .inl ⟨by rw [he], he ▸ hp⟩
    · exact .inr (.inl hexit)
    · exact .inr (.inr (.inl hgone))
    · exact .inr (.inr (.inr (.inl hsent)))
  | killed l =>
    obtain ⟨rfl, rfl⟩ := List.cons.inj hops
    refine .inr (.inl ?_)
    cases resp <;> simp only [Op.run, Op.runWait, reduceCtorEq] at hrun
    case exited success =>
      split at hrun
      next he => exact he
      next => exact absurd hrun (by simp)
    case err => exact hkilled rfl rfl

end Steps

end Systeml.Runtime
