import Systeml.Runtime.Wired

/-!
# Processes of a run, and the tasks beside a main process

Processes only end, and signals are only sent (`ages_step`). The supervisors of a runner,
and the starts of it that have brought up its main process, leave that process alone as
long as it is there (`Op.run_minds`).
-/

namespace Systeml.Runtime

open Systeml.Lib Systeml.Unit Systeml.Deps

/-! ## Processes and signals of a run -/

namespace World

variable {w w' : World}

/-- Processes may have ended since, and calls of `kill` been made. -/
structure Ages (w w' : World) : Prop where
  procs : ∀ (m : ProcId) (q : Proc), w.procs[m]? = some q →
    ∃ q' : Proc, w'.procs[m]? = some q' ∧ (q' = q ∨ q' = { q with alive := false })
  kills : w.kills <+: w'.kills

theorem Ages.of_eq (hp : w'.procs = w.procs) (hk : w'.kills = w.kills) : Ages w w' :=
  ⟨fun _ q hq => ⟨q, hp ▸ hq, Or.inl rfl⟩, hk ▸ List.prefix_rfl⟩

theorem Ages.trans {v : World} (h : Ages w w') (h' : Ages w' v) : Ages w v := by
  refine ⟨?_, h.kills.trans h'.kills⟩
  intro m q hq
  obtain ⟨q', hq', he⟩ := h.procs m q hq
  obtain ⟨q'', hq'', he'⟩ := h'.procs m q' hq'
  refine ⟨q'', hq'', ?_⟩
  cases he with
  | inl he =>
    subst he
    exact he'
  | inr he =>
    subst he
    cases he' with
    | inl he' => exact Or.inr he'
    | inr he' => exact Or.inr he'

theorem ages_killProc (w : World) (p : ProcId) : Ages w (w.killProc p) := by
  refine ⟨?_, List.prefix_rfl⟩
  intro m q hq
  have hget : (w.killProc p).procs[m]? = (w.procs[m]?).map
      fun q => if p = m then { q with alive := false } else q := by
    unfold killProc
    rw [List.getElem?_modify]
    rfl
  rw [hget, hq]
  refine ⟨_, rfl, ?_⟩
  split
  · exact Or.inr rfl
  · exact Or.inl rfl

theorem ages_act (w : World) (t : Task) (a : Act) : Ages w (w.act t a) := by
  have hspawn : ∀ (v : World) (k : TaskKind) (u : UnitName) (r : RunnerId), Ages v (v.spawnTask k u r) :=
    fun v k u r => .of_eq (sameHeap_spawnTask v k u r).procs (sameHeap_spawnTask v k u r).kills
  cases a with
  | spawn pid main =>
    refine ⟨fun m q hq => ⟨q, ?_, Or.inl rfl⟩, List.prefix_rfl⟩
    exact (List.getElem?_append_left (List.getElem?_eq_some_iff.mp hq).1).trans hq
  | kill k => exact ⟨fun m q hq => ⟨q, hq, Or.inl rfl⟩, List.prefix_append _ _⟩
  | reap p => exact ages_killProc w p
  | mark a s => exact .of_eq rfl rfl
  | supervise =>
    simp only [act]
    split
    · exact hspawn _ _ _ _
    · exact .of_eq rfl rfl
  | respawn =>
    simp only [act, respawn]
    split
    · refine Ages.trans ?_ (hspawn _ _ _ _)
      exact .of_eq rfl rfl
    · exact .of_eq rfl rfl
  | jobRemoved o =>
    simp only [act]
    split <;> exact .of_eq rfl rfl

/-- **Processes only end, and signals are only sent.** -/
theorem ages_step {l : Label} (hs : w.step l = some w') : Ages w w' := by
  by_cases hl : l = .reloadStep
  · subst hl
    obtain ⟨-, rfl⟩ | ⟨op, rest, -, ho⟩ := reloadStep_cases hs
    · exact .of_eq rfl rfl
    · exact .of_eq (reloadOp_kills ho).1 (reloadOp_kills ho).2
  by_cases ht : ∃ i resp, l = .task i resp
  · obtain ⟨i, resp, rfl⟩ := ht
    obtain ⟨t, op, rest, R, reply, -, -, -, -, rfl⟩ := runTask_cases hs
    exact foldl_act_inv (P := fun v => Ages w v) (fun v a _ hv => hv.trans (ages_act v t a))
      (.of_eq rfl rfl)
  by_cases he : ∃ p, l = .exit p
  · obtain ⟨p, rfl⟩ := he
    exact Option.some.inj hs ▸ ages_killProc w p
  · have hheap := request_sameHeap hs hl (fun i resp h => ht ⟨i, resp, h⟩) fun p h => he ⟨p, h⟩
    exact .of_eq hheap.procs hheap.kills

/-- The process is there. -/
def Lives (w : World) (m : ProcId) : Prop := ∃ q : Proc, w.procs[m]? = some q ∧ q.alive = true

theorem Ages.lives {m : ProcId} {q : Proc} (h : Ages w w') (hq : w.procs[m]? = some q)
    (hl : w'.Lives m) : w.Lives m := by
  obtain ⟨q', hq', he⟩ := h.procs m q hq
  obtain ⟨s, hs, halive⟩ := hl
  obtain rfl := Option.some.inj (hq'.symm.trans hs)
  cases he with
  | inl he => exact ⟨q, hq, he ▸ halive⟩
  | inr he => exact absurd (he ▸ halive) (by simp)

theorem not_lives_of_exited {m : ProcId} (h : exited w.procs m = true) : ¬ w.Lives m := by
  intro ⟨q, hq, halive⟩
  simp only [exited, hq, halive] at h
  exact absurd h (by simp)

theorem not_lives_of_pidGone {m : ProcId} {q : Proc} {p : Int} (h : pidGone w.procs p = true)
    (hq : w.procs[m]? = some q) (hp : q.pid = p) : ¬ w.Lives m := by
  intro ⟨s, hs, halive⟩
  obtain rfl := Option.some.inj (hq.symm.trans hs)
  have hno := List.all_eq_true.mp h q (List.mem_of_getElem? hq)
  simp [halive, hp] at hno

end World

/-! ## Tasks beside the main process -/

/-- The main process of the runner, by its pid, and by its handle unless a supervisor
took that. -/
structure Runner.Holds (R : Runner) (m : ProcId) (p : Int) : Prop where
  mainPid : R.mainPid = some p
  child : ∀ c, R.child = some c → c = m

/-- A step that leaves the main process of its runner alone. -/
def Op.leavesMain : Op → Bool
  | clearStop | setState _ | setSub _ | setStatus _ | resolveEnv | exec .. | waitExec ..
  | waitForking _ | readState _ | readSub .. | publish .. | jobRemoved _ => true
  | _ => false

/-- The task does not touch the main process of its runner, or watches it: it is the rest
of a start, a supervisor, or has ended. -/
inductive Minds (m : ProcId) (p : Int) : TaskKind → List Op → Prop
  | ended (kind : TaskKind) : Minds m p kind []
  | start (id : JobId) (ops : List Op) (h : ∀ o ∈ ops, o.leavesMain = true) : Minds m p (.start id) ops
  | takes : Minds m p .supervise [.takeChild]
  | waits : Minds m p .supervise [.waitMain m]
  | reads : Minds m p .supervise [.readPollPid]
  | polls : Minds m p .supervise [.poll p]

theorem minds_program (m : ProcId) (p : Int) (svc : ServiceUnit) :
    Minds m p .supervise (TaskKind.supervise.program svc) := by
  simp only [TaskKind.program, superviseOps]
  split
  · exact .reads
  · exact .ended _
  · exact .ended _
  · exact .takes

theorem leavesMain_returnOps (id : JobId) (o : JobOutcome) :
    ∀ x ∈ (TaskKind.start id).returnOps o, x.leavesMain = true := by
  simp [TaskKind.returnOps, startReturn, Op.leavesMain]

theorem leavesMain_failure (k : ExecKind) : ∀ x ∈ k.failure, x.leavesMain = true := by
  cases k <;> simp [ExecKind.failure, Op.leavesMain]

theorem Leaves.leavesMain {id : JobId} {rest l : List Op} (h : Leaves (.start id) rest l)
    (hrest : ∀ x ∈ rest, x.leavesMain = true) : ∀ x ∈ l, x.leavesMain = true := by
  intro x hx
  cases h with
  | rest => exact hrest x hx
  | ret o => exact leavesMain_returnOps id o x hx
  | fail k o =>
    cases List.mem_append.mp hx with
    | inl hx => exact leavesMain_failure k x hx
    | inr hx => exact leavesMain_returnOps id o x hx

/-- What such a step leaves: the main process and the definition, and such steps. -/
structure Spares (R : Runner) (m : ProcId) (p : Int) (kind : TaskKind) (reply : Reply) : Prop where
  svc : reply.runner.svc = R.svc
  holds : reply.runner.Holds m p
  minds : Minds m p kind reply.ops

namespace Op

variable {procs : List Proc} {free : Bool} {R : Runner} {rest : List Op} {resp : Response}
  {reply : Reply} {op : Op} {m : ProcId} {p : Int}

theorem run_leavesMain {id : JobId} (hop : op.leavesMain = true)
    (hrest : ∀ x ∈ rest, x.leavesMain = true) (hR : R.Holds m p)
    (h : op.run procs free (.start id) R rest resp = some reply) :
    Spares R m p (.start id) reply := by
  have hsame : ∀ {l : List Op} {acts : List Act}, (∀ x ∈ l, x.leavesMain = true) →
      Spares R m p (.start id) ⟨R, l, acts⟩ := fun hl => ⟨rfl, hR, .start id _ hl⟩
  have hcons : ∀ o : Op, o.leavesMain = true → ∀ x ∈ o :: rest, x.leavesMain = true :=
    fun o ho x hx => (List.mem_cons.mp hx).elim (fun e => e ▸ ho) (hrest x)
  cases op with
  | clearStop | setState a | setSub s | setStatus s =>
    exact Option.some.inj h ▸ ⟨rfl, ⟨hR.mainPid, hR.child⟩, .start id _ hrest⟩
  | resolveEnv =>
    simp only [run] at h
    split at h
    · exact Option.some.inj h ▸ hsame hrest
    · exact Option.some.inj h ▸ hsame (leavesMain_returnOps id _)
    · exact absurd h (by simp)
  | exec cmd k =>
    obtain ⟨pid, -, rfl⟩ | ⟨l, hl, rfl⟩ := runExec_cases h
    · exact hsame (hcons _ rfl)
    · exact hsame (hl.leavesMain hrest)
  | waitExec c cmd k =>
    obtain ⟨l, acts, hl, -, rfl⟩ := runWaitExec_cases h
    exact hsame (hl.leavesMain hrest)
  | waitForking c =>
    obtain ⟨-, -, rfl⟩ | rfl := runWait_cases h
    · exact hsame hrest
    · exact hsame hrest
  | readState o => exact Option.some.inj h ▸ hsame (hcons _ rfl)
  | readSub o a => exact Option.some.inj h ▸ hsame (hcons _ rfl)
  | publish o a s =>
    simp only [run] at h
    split at h
    · exact Option.some.inj h ▸ hsame (hcons _ rfl)
    · exact absurd h (by simp)
  | jobRemoved o => exact Option.some.inj h ▸ hsame hrest
  | requestStop | setMainPid p | setChild c | bindSocket | spawnMain c | spawnForking c
  | readPidFile | recv | readPid | holdChild p | waitGone p | waitKilled c | markDead | respawn
  | takeChild | waitMain c | readPollPid | poll p | checkStopping b | publishExit a s =>
    exact absurd hop (by simp [leavesMain])

/-- **A task beside the main process leaves it alone**, unless it finds that the process
has ended. -/
theorem run_minds {kind : TaskKind} (hm : Minds m p kind (op :: rest)) (hR : R.Holds m p)
    (h : op.run procs free kind R rest resp = some reply) :
    Spares R m p kind reply ∨ exited procs m = true ∨ pidGone procs p = true := by
  cases hm with
  | start id _ hall =>
    exact Or.inl (run_leavesMain (hall op List.mem_cons_self)
      (fun x hx => hall x (List.mem_cons_of_mem op hx)) hR h)
  | takes =>
    obtain ⟨c, hc, rfl⟩ | ⟨-, rfl⟩ := runTakeChild_cases h
    · obtain rfl := hR.child c hc
      exact Or.inl ⟨rfl, ⟨hR.mainPid, by simp⟩, .waits⟩
    · exact Or.inl ⟨rfl, hR, .reads⟩
  | waits =>
    obtain ⟨success, hexit, -⟩ | rfl := runWait_cases h
    · exact Or.inr (Or.inl hexit)
    · exact Or.inl ⟨rfl, hR, .reads⟩
  | reads =>
    simp only [run, hR.mainPid] at h
    exact Option.some.inj h ▸ Or.inl ⟨rfl, hR, .polls⟩
  | polls =>
    simp only [run] at h
    split at h
    · split at h
      next hgone => exact Or.inr (Or.inr hgone)
      next => exact absurd h (by simp)
    · exact absurd h (by simp)

end Op

end Systeml.Runtime
