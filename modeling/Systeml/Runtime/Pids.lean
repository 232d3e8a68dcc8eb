import Systeml.Runtime.Steps

/-!
# Which pids the manager signals

A main pid is written by a spawn, from a PID file, from a datagram and by a
reload. Only a datagram is not checked: `kills_genuine` is that the manager only
ever signals a genuine process id if no datagram announces any other number.
-/

namespace Systeml.Runtime

open Systeml.Lib Systeml.Unit Systeml.Deps

/-- The main pid, if there is one, is a process id. -/
def Runner.Genuine (R : Runner) : Prop := ∀ p, R.mainPid = some p → 0 < p

/-- So is the pid that a step carries. -/
def Op.Genuine : Op → Prop
  | .setMainPid (some p) | .holdChild p | .waitGone p | .poll p => 0 < p
  | _ => True

/-- What comes from outside announces no other number. -/
def Response.Genuine : Response → Prop
  | .datagram buf => ∀ p, announcedPid (buf.take 4096) = some p → 0 < p
  | _ => True

structure Reply.Genuine (reply : Reply) : Prop where
  runner : reply.runner.Genuine
  ops : ∀ o ∈ reply.ops, o.Genuine
  kills : ∀ k, .kill k ∈ reply.acts → 0 < k.target.number

/-! ## One step -/

theorem Op.genuine_of_initial {o : Op} (h : o.initial = true) : o.Genuine := by
  cases o with
  | setMainPid p =>
    cases p with
    | none => trivial
    | some p => exact absurd h (by simp [Op.initial])
  | holdChild p | waitGone p | poll p => exact absurd h (by simp [Op.initial])
  | _ => trivial

theorem genuine_of_initials {l : List Op} (h : Initials l) : ∀ o ∈ l, o.Genuine :=
  fun o ho => Op.genuine_of_initial (h o ho)

theorem genuine_append {l l' : List Op} (h : ∀ o ∈ l, o.Genuine) (h' : ∀ o ∈ l', o.Genuine) :
    ∀ o ∈ l ++ l', o.Genuine := fun o ho => (List.mem_append.mp ho).elim (h o) (h' o)

theorem genuine_cons {a : Op} {l : List Op} (h : a.Genuine) (h' : ∀ o ∈ l, o.Genuine) :
    ∀ o ∈ a :: l, o.Genuine := fun o ho => (List.mem_cons.mp ho).elim (fun e => e ▸ h) (h' o)

theorem freshPid_pos {procs : List Proc} {pid : Int} (h : freshPid procs pid = true) : 0 < pid := by
  simp only [freshPid, Bool.and_eq_true, decide_eq_true_eq] at h
  exact h.1

theorem genuine_messageOps {resp : Response} (h : resp.Genuine) {buf : List UInt8}
    (hb : resp = .datagram buf) :
    ∀ o ∈ messageOps (NotifyMessage.parse (buf.take 4096)), o.Genuine := by
  subst hb
  have hpid : ∀ p, announcedPid (buf.take 4096) = some p → 0 < p := h
  rw [← parse_mainPid] at hpid
  unfold messageOps
  refine genuine_append ?_ ?_
  · split
    next p hp => exact genuine_cons (hpid p hp) (by simp)
    next => simp
  · split <;> simp [Op.Genuine]

theorem Op.KillsOnly.pos {p : Int} {acts : List Act} (h : Op.KillsOnly p acts) (hp : 0 < p)
    {k : Kill} (hk : .kill k ∈ acts) : 0 < k.target.number := by
  obtain ⟨k', he, hn⟩ := h _ hk
  obtain rfl := Act.kill.inj he
  omega

/-- **One step of a program**: what is genuine stays so, and only genuine pids are
signalled. -/
theorem Op.run_genuine {procs : List Proc} {free : Bool} {kind : TaskKind} {R : Runner}
    {rest : List Op} {resp : Response} {op : Op} {reply : Reply} (hR : R.Genuine)
    (hop : op.Genuine) (hrest : ∀ o ∈ rest, o.Genuine) (hresp : resp.Genuine)
    (h : op.run procs free kind R rest resp = some reply) : reply.Genuine := by
  have hret := fun o => genuine_of_initials (initials_returnOps kind o)
  have hleaves : ∀ l, Leaves kind rest l → ∀ o ∈ l, o.Genuine := fun l hl o ho =>
    (hl.mem ho).elim (hrest o) Op.genuine_of_initial
  cases op with
  | clearStop | requestStop | setState a | setSub s | setStatus s =>
    exact Option.some.inj h ▸ ⟨hR, hrest, by simp⟩
  | setMainPid p =>
    refine Option.some.inj h ▸ ⟨fun q hq => ?_, hrest, by simp⟩
    obtain rfl : p = some q := hq
    exact hop
  | setChild c =>
    simp only [run] at h
    split at h
    · exact absurd h (by simp)
    · exact Option.some.inj h ▸ ⟨hR, hrest, by simp⟩
  | resolveEnv | bindSocket =>
    simp only [run] at h
    split at h
    · exact Option.some.inj h ▸ ⟨hR, hrest, by simp⟩
    · exact Option.some.inj h ▸ ⟨hR, hret _, by simp⟩
    · exact absurd h (by simp)
  | exec cmd k =>
    rcases runExec_cases h with ⟨pid, -, rfl⟩ | ⟨l, hl, rfl⟩
    · exact ⟨hR, genuine_cons trivial hrest, by simp⟩
    · exact ⟨hR, hleaves l hl, by simp⟩
  | waitExec p cmd k =>
    obtain ⟨l, acts, hl, hacts, rfl⟩ := runWaitExec_cases h
    exact ⟨hR, hleaves l hl, by rcases hacts with rfl | rfl <;> simp⟩
  | spawnMain cmd =>
    rcases runSpawnMain_cases h with ⟨pid, hf, rfl⟩ | ⟨l, hl, rfl⟩
    · refine ⟨fun q hq => ?_, genuine_cons trivial hrest, by simp⟩
      obtain rfl := Option.some.inj hq
      exact freshPid_pos hf
    · exact ⟨hR, hleaves l hl, by simp⟩
  | spawnForking cmd =>
    rcases runSpawnForking_cases h with ⟨pid, -, rfl⟩ | ⟨l, hl, rfl⟩
    · exact ⟨hR, genuine_cons trivial hrest, by simp⟩
    · exact ⟨hR, hleaves l hl, by simp⟩
  | waitForking p =>
    rcases runWait_cases h with ⟨-, -, rfl⟩ | rfl <;> exact ⟨hR, hrest, by simp⟩
  | readPidFile =>
    rcases runReadPidFile_cases h with ⟨text, p, hp, rfl⟩ | rfl | ⟨l, hl, rfl⟩
    · exact ⟨hR, genuine_cons (pidOfFile_pos hp) hrest, by simp⟩
    · exact ⟨hR, genuine_cons trivial hrest, by simp⟩
    · exact ⟨hR, hleaves l hl, by simp⟩
  | recv =>
    rcases runRecv_cases h with ⟨buf, l, hb, hl, rfl⟩ | ⟨l, hl, rfl⟩
    · refine ⟨hR, genuine_append (genuine_messageOps hresp hb) ?_, by simp⟩
      rcases hl with rfl | rfl
      · exact hrest
      · exact genuine_cons trivial hrest
    · exact ⟨hR, hleaves l hl, by simp⟩
  | readState o | readSub o a => exact Option.some.inj h ▸ ⟨hR, genuine_cons trivial hrest, by simp⟩
  | publish o a s =>
    simp only [run] at h
    split at h
    · refine Option.some.inj h ▸ ⟨hR, genuine_cons trivial hrest, fun k hk => ?_⟩
      simp only [runPublish] at hk
      split at hk <;> simp at hk
    · exact absurd h (by simp)
  | jobRemoved o | markDead | respawn => exact Option.some.inj h ▸ ⟨hR, hrest, by simp⟩
  | readPid =>
    rcases runReadPid_cases h with ⟨l, hl, rfl⟩ | ⟨p, acts, hp, hacts, rfl⟩
    · exact ⟨hR, hleaves l hl, by simp⟩
    · exact ⟨hR, genuine_cons (hR p hp) hrest, fun k hk => hacts.pos (hR p hp) hk⟩
  | holdChild p =>
    simp only [run] at h
    split at h
    · exact absurd h (by simp)
    · exact Option.some.inj h ▸ ⟨hR, genuine_cons hop hrest, by simp⟩
  | waitGone p =>
    obtain ⟨acts, hacts, rfl | ⟨c, rfl⟩⟩ := runWaitGone_cases h
    · exact ⟨hR, hrest, fun k hk => hacts.pos hop hk⟩
    · exact ⟨hR, genuine_cons trivial hrest, fun k hk => hacts.pos hop hk⟩
  | waitKilled c =>
    rcases runWait_cases h with ⟨-, -, rfl⟩ | rfl <;> exact ⟨hR, hrest, by simp⟩
  | takeChild =>
    rcases runTakeChild_cases h with ⟨c, -, rfl⟩ | ⟨-, rfl⟩ <;>
      exact ⟨hR, genuine_cons trivial hrest, by simp⟩
  | waitMain c =>
    rcases runWait_cases h with ⟨-, -, rfl⟩ | rfl <;>
      exact ⟨hR, genuine_cons trivial hrest, by simp⟩
  | readPollPid =>
    simp only [run] at h
    split at h
    next p hp => exact Option.some.inj h ▸ ⟨hR, genuine_cons (hR p hp) hrest, by simp⟩
    next => exact Option.some.inj h ▸ ⟨hR, by simp, by simp⟩
  | poll p =>
    simp only [run] at h
    split at h
    · split at h
      · exact Option.some.inj h ▸ ⟨hR, genuine_cons trivial hrest,
          fun k hk => (killsOnly_probe p).pos hop hk⟩
      · exact absurd h (by simp)
    · exact absurd h (by simp)
  | checkStopping clean =>
    refine Option.some.inj h ▸ ?_
    unfold runCheckStopping
    split
    · exact ⟨hR, by simp, by simp⟩
    · exact ⟨hR, by simp [Op.Genuine], by simp⟩
  | publishExit a s =>
    simp only [run] at h
    split at h
    · exact Option.some.inj h ▸ ⟨hR, hrest, by simp⟩
    · exact absurd h (by simp)

/-! ## Every run -/

namespace World

/-- Everything recorded, carried or signalled is genuine. -/
structure Genuine (w : World) : Prop where
  runners : ∀ R ∈ w.runners, R.Genuine
  tasks : ∀ t ∈ w.tasks, ∀ o ∈ t.ops, o.Genuine
  kills : ∀ k ∈ w.kills, 0 < k.target.number

/-- No datagram that a step receives announces a number that is no process id. -/
def GenuineLabel : Label → Prop
  | .task _ resp => resp.Genuine
  | _ => True

theorem copied_genuine : Copied Runner.Genuine :=
  ⟨fun _ _ _ h => absurd h (by simp), fun _ _ h _ => h, fun _ _ h _ => h, fun _ _ _ h => h,
    fun _ _ h _ => h, fun _ h => h⟩

theorem genuine_step {w w' : World} {l : Label} (h : w.Genuine) (hl : GenuineLabel l)
    (hs : w.step l = some w') : w'.Genuine := by
  have hreply : ∀ i resp t op rest R reply, l = .task i resp → w.tasks[i]? = some t →
      t.ops = op :: rest → w.runners[t.runner]? = some R →
      Op.run w.procs (w.lock = .free) t.kind R rest resp op = some reply → reply.Genuine := by
    rintro i resp t op rest R reply rfl ht hops hR hrun
    have hall := h.tasks t (List.mem_of_getElem? ht)
    rw [hops] at hall
    exact Op.run_genuine (h.runners R (List.mem_of_getElem? hR)) (hall op List.mem_cons_self)
      (fun o ho => hall o (List.mem_cons_of_mem op ho)) hl hrun
  refine ⟨?_, ?_, ?_⟩
  · exact forall_runners_step copied_genuine (fun i resp t op rest R reply hl ht hops hR hrun _ =>
      (hreply i resp t op rest R reply hl ht hops hR hrun).runner) h.runners hs
  · exact forall_tasks_step (P := fun t => ∀ o ∈ t.ops, o.Genuine)
      (fun kind _ _ svc => genuine_of_initials (initials_program svc kind))
      (fun i resp t op rest R reply hl ht hops hR hrun _ =>
        (hreply i resp t op rest R reply hl ht hops hR hrun).ops) h.tasks hs
  · exact forall_kills_step (fun i resp t op rest R reply hl ht hops hR hrun =>
      (hreply i resp t op rest R reply hl ht hops hR hrun).kills) h.kills hs

theorem Booted.genuine {w : World} (h : w.Booted) : w.Genuine := by
  refine ⟨fun R hR p hp => ?_, by simp [h.tasks], by simp [h.kills]⟩
  rw [h.runners R hR] at hp
  exact absurd hp (by simp)

/-- **The manager only ever signals a genuine process id** in runs without a
datagram that announces anything else. -/
theorem kills_genuine {w w' : World} {ls : List Label} (h : w.Booted)
    (hls : Along step (fun _ l => GenuineLabel l) w ls) (hrun : runs step w ls = some w') :
    (∀ R ∈ w'.runners, ∀ p, R.mainPid = some p → 0 < p) ∧ ∀ k ∈ w'.kills, 0 < k.target.number :=
  have hg := runs_inv (fun _ _ _ h hl hs => genuine_step h hl hs) h.genuine hls hrun
  ⟨hg.runners, hg.kills⟩

/-! ## A datagram that announces 0 -/

/-- A notify service is started, sends `msg` and is stopped. -/
def notifyRun (msg : String) : List Label :=
  .startUnit serviceName ::
    [Response.ok, .ok, .ok, .ok, .ok, .ok, .spawned 100, .ok, .datagram (ascii msg), .ok, .ok, .ok,
      .ok, .ok, .ok, .ok].map (.task 0) ++
    .stopUnit serviceName :: [Response.ok, .ok, .ok, .ok, .ok].map (.task 2)

theorem genuineLabel_notifyRun : ∀ l ∈ notifyRun "MAINPID=100\nREADY=1", GenuineLabel l := by
  have hpid : announcedPid ((ascii "MAINPID=100\nREADY=1").take 4096) = some 100 := rfl
  simp only [notifyRun, List.map_cons, List.map_nil, List.cons_append, List.nil_append,
    List.forall_mem_cons, GenuineLabel, Response.Genuine, hpid, Option.some.injEq]
  simp

theorem kills_genuine_notify : ∃ w, runs step (single { serviceType := .notify, execStart := [cmd] })
    (notifyRun "MAINPID=100\nREADY=1") = some w ∧
      (∀ R ∈ w.runners, ∀ p, R.mainPid = some p → 0 < p) ∧
        ∀ k ∈ w.kills, 0 < k.target.number := by
  obtain ⟨w, hw⟩ : ∃ w, runs step (single { serviceType := .notify, execStart := [cmd] })
    (notifyRun "MAINPID=100\nREADY=1") = some w := ⟨_, rfl⟩
  exact ⟨w, hw, kills_genuine (booted_single _) (Along.of_labels genuineLabel_notifyRun) hw⟩

/-- Without the condition the process group of the daemon itself is signalled. -/
theorem not_all_kills_genuine :
    ¬ ∀ (w w' : World) (ls : List Label), w.Booted → runs step w ls = some w' →
      ∀ k ∈ w'.kills, 0 < k.target.number := by
  intro h
  have hrun : (runs step (single { serviceType := .notify, execStart := [cmd] })
    (notifyRun "MAINPID=0\nREADY=1")).map World.kills =
      some [⟨.processGroup 0, some .sigterm⟩] := rfl
  obtain ⟨w, hw, hk⟩ := Option.map_eq_some_iff.mp hrun
  have hpos := h _ w _ (booted_single _) hw ⟨.processGroup 0, some .sigterm⟩ (by rw [hk]; simp)
  exact absurd hpos (by decide)

end World

end Systeml.Runtime
