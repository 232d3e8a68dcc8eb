import Systeml.Runtime.Minds

/-!
# Supervisors and starts beside a stop

While a stop waits, the supervisors of its runner and what is left of its starts take
steps too. A supervisor that has seen an exit drops the recorded pid, unless a stop is in
progress; a start that is only beginning clears the mark of that stop. What they can do
is `Op.run_aside`. They leave the recorded pid alone as long as each supervisor watches
that very process (`Op.run_attends`), or as long as the mark of an earlier stop stays
(`Op.run_shut`).
-/

namespace Systeml.Runtime

open Systeml.Lib Systeml.Unit Systeml.Deps

/-- What a supervisor has left to do. -/
inductive Supervises : List Op → Prop
  | ended : Supervises []
  | takes : Supervises [.takeChild]
  | waits (c : ProcId) : Supervises [.waitMain c]
  | reads : Supervises [.readPollPid]
  | polls (p : Int) : Supervises [.poll p]
  | checks (clean : Bool) : Supervises [.checkStopping clean]
  | setsState (a : ActiveState) (s : SubState) :
    Supervises [.setState a, .setSub s, .setMainPid none, .publishExit a s]
  | setsSub (a : ActiveState) (s : SubState) :
    Supervises [.setSub s, .setMainPid none, .publishExit a s]
  | forgets (a : ActiveState) (s : SubState) : Supervises [.setMainPid none, .publishExit a s]
  | publishes (a : ActiveState) (s : SubState) : Supervises [.publishExit a s]

theorem Supervises.clears {ops : List Op} (h : Supervises ops) : .clearStop ∉ ops := by
  cases h <;> simp

/-- What a task has left to do beside a stop: it is a supervisor, or a start past its main
process that clears the mark of a stop at most right away, or over. -/
inductive Aside : TaskKind → List Op → Prop
  | ended (kind : TaskKind) : Aside kind []
  | start (id : JobId) (op : Op) (rest : List Op) (hop : op.leavesMain = true)
    (h : ∀ o ∈ rest, o.leavesMain = true ∧ o ≠ .clearStop) : Aside (.start id) (op :: rest)
  | supervise (ops : List Op) (h : Supervises ops) : Aside .supervise ops

theorem Aside.of_forall {id : JobId} {ops : List Op}
    (h : ∀ o ∈ ops, o.leavesMain = true ∧ o ≠ .clearStop) : Aside (.start id) ops := by
  cases ops with
  | nil => exact .ended _
  | cons op rest =>
    exact .start id op rest (h op List.mem_cons_self).1 fun o ho => h o (List.mem_cons_of_mem _ ho)

/-- What is left of a start does not drop the recorded pid. -/
theorem Aside.keepsMainPid {id : JobId} {ops : List Op} (h : Aside (.start id) ops) :
    .setMainPid none ∉ ops := by
  intro hmem
  cases h with
  | ended => exact absurd hmem (by simp)
  | start _ op rest hop hrest =>
    cases List.mem_cons.mp hmem with
    | inl he => exact absurd (he ▸ hop) (by simp [Op.leavesMain])
    | inr hmem => exact absurd (hrest _ hmem).1 (by simp [Op.leavesMain])

/-- What a step beside a stop leaves. -/
structure SideStep (R : Runner) (op : Op) (kind : TaskKind) (reply : Reply) : Prop where
  svc : reply.runner.svc = R.svc
  held : reply.runner.childHeld = R.childHeld
  stopping : op = .clearStop ∨ reply.runner.stopping = R.stopping
  mainPid : op = .setMainPid none ∨ reply.runner.mainPid = R.mainPid
  child : reply.runner.child = R.child ∨
    op = .takeChild ∧ R.childHeld = false ∧ reply.runner.child = none
  aside : Aside kind reply.ops
  takes : .takeChild ∉ reply.ops
  clears : .clearStop ∉ reply.ops

/-- The supervisor watches the main process, or is past that: it leaves the recorded pid
alone as long as that process is there. -/
inductive Attends (m : ProcId) (p : Int) (child : Option ProcId) : List Op → Prop
  | ended : Attends m p child []
  | takes (h : ∀ c, child = some c → c = m) : Attends m p child [.takeChild]
  | waits : Attends m p child [.waitMain m]
  | reads : Attends m p child [.readPollPid]
  | polls : Attends m p child [.poll p]
  | publishes (a : ActiveState) (s : SubState) : Attends m p child [.publishExit a s]

theorem Attends.supervises {m : ProcId} {p : Int} {child : Option ProcId} {ops : List Op}
    (h : Attends m p child ops) : Supervises ops := by
  cases h with
  | ended => exact .ended
  | takes => exact .takes
  | waits => exact .waits m
  | reads => exact .reads
  | polls => exact .polls p
  | publishes a s => exact .publishes a s

/-- A handle that was taken is no other process. -/
theorem Attends.taken {m : ProcId} {p : Int} {child : Option ProcId} {ops : List Op}
    (h : Attends m p child ops) : Attends m p none ops := by
  cases h with
  | ended => exact .ended
  | takes => exact .takes (by simp)
  | waits => exact .waits
  | reads => exact .reads
  | polls => exact .polls
  | publishes a s => exact .publishes a s

/-- The task neither clears the mark of a stop nor drops the recorded pid. -/
def Shut (ops : List Op) : Prop := .clearStop ∉ ops ∧ .setMainPid none ∉ ops

theorem Aside.supervises {ops : List Op} (h : Aside .supervise ops) : Supervises ops := by
  cases h with
  | ended => exact .ended
  | supervise _ h => exact h

/-- A task of the runner that is not shut clears the mark of a stop right away, or is a
supervisor that drops the pid. -/
theorem not_shut_cases {kind : TaskKind} {ops : List Op} (ha : Aside kind ops) (h : ¬ Shut ops) :
    (∃ id rest, kind = .start id ∧ ops = .clearStop :: rest) ∨
      kind = .supervise ∧ .setMainPid none ∈ ops ∧ Supervises ops := by
  cases ha with
  | ended => exact absurd (by simp [Shut]) h
  | start id op rest hop hrest =>
    have hpid := (Aside.start id op rest hop hrest).keepsMainPid
    have hclear : .clearStop ∈ op :: rest := by
      by_contra hno
      exact h ⟨hno, hpid⟩
    cases List.mem_cons.mp hclear with
    | inl he => exact .inl ⟨id, rest, rfl, he ▸ rfl⟩
    | inr hmem => exact absurd rfl (hrest _ hmem).2
  | supervise _ hsup =>
    refine .inr ⟨rfl, ?_, hsup⟩
    by_contra hno
    exact h ⟨hsup.clears, hno⟩

theorem Attends.keepsMainPid {m : ProcId} {p : Int} {child : Option ProcId} {ops : List Op}
    (h : Attends m p child ops) : .setMainPid none ∉ ops := by
  cases h <;> simp

/-- Only a supervisor takes the child, and that first. -/
theorem Aside.takes {kind : TaskKind} {ops : List Op} (h : Aside kind ops) (ht : .takeChild ∈ ops) :
    kind = .supervise ∧ ops = [.takeChild] := by
  cases h with
  | ended => exact absurd ht (by simp)
  | start id op rest hop hrest =>
    cases List.mem_cons.mp ht with
    | inl he => exact absurd (he ▸ hop) (by simp [Op.leavesMain])
    | inr hmem => exact absurd (hrest _ hmem).1 (by simp [Op.leavesMain])
  | supervise _ hsup =>
    refine ⟨rfl, ?_⟩
    cases hsup <;> first | rfl | exact absurd ht (by simp)

namespace Op

variable {procs : List Proc} {R : Runner} {op : Op} {rest : List Op} {resp : Response}
  {reply : Reply} {m : ProcId} {p : Int}

theorem run_aside_start {id : JobId} (hop : op.leavesMain = true)
    (hrest : ∀ x ∈ rest, x.leavesMain = true ∧ x ≠ .clearStop)
    (h : op.run procs false (.start id) R rest resp = some reply) :
    SideStep R op (.start id) reply := by
  -- a step that only changes what is left of the start
  have hsame : ∀ {l : List Op} {acts : List Act}, (∀ x ∈ l, x.leavesMain = true ∧ x ≠ .clearStop) →
      SideStep R op (.start id) ⟨R, l, acts⟩ := by
    intro l acts hl
    refine ⟨rfl, rfl, .inr rfl, .inr rfl, .inl rfl, .of_forall hl, ?_, ?_⟩
    · exact fun ht => absurd (hl _ ht).1 (by simp [leavesMain])
    · exact fun hc => absurd rfl (hl _ hc).2
  have htakes : .takeChild ∉ rest := fun ht => absurd (hrest _ ht).1 (by simp [leavesMain])
  have hclears : .clearStop ∉ rest := fun hc => absurd rfl (hrest _ hc).2
  have hcons : ∀ o : Op, o.leavesMain = true → o ≠ .clearStop →
      ∀ x ∈ o :: rest, x.leavesMain = true ∧ x ≠ .clearStop :=
    fun o ho hc x hx => (List.mem_cons.mp hx).elim (fun e => e ▸ ⟨ho, hc⟩) (hrest x)
  have hleaves : ∀ {l : List Op}, Leaves (.start id) rest l →
      ∀ x ∈ l, x.leavesMain = true ∧ x ≠ .clearStop := by
    intro l hl x hx
    refine ⟨hl.leavesMain (fun x hx => (hrest x hx).1) x hx, ?_⟩
    cases hl with
    | rest => exact (hrest x hx).2
    | ret o =>
      rintro rfl
      simp [TaskKind.returnOps, startReturn] at hx
    | fail k o =>
      rintro rfl
      cases k <;> simp [ExecKind.failure, TaskKind.returnOps, startReturn] at hx
  cases op with
  | clearStop =>
    exact Option.some.inj h ▸ ⟨rfl, rfl, .inl rfl, .inr rfl, .inl rfl, .of_forall hrest, htakes,
      hclears⟩
  | setState a | setSub s | setStatus s =>
    exact Option.some.inj h ▸ ⟨rfl, rfl, .inr rfl, .inr rfl, .inl rfl, .of_forall hrest, htakes,
      hclears⟩
  | resolveEnv =>
    simp only [run] at h
    split at h
    · exact Option.some.inj h ▸ hsame hrest
    · exact Option.some.inj h ▸ hsame (hleaves (.ret _))
    · exact absurd h (by simp)
  | exec cmd k =>
    obtain ⟨pid, -, rfl⟩ | ⟨l, hl, rfl⟩ := runExec_cases h
    · exact hsame (hcons _ rfl (by simp))
    · exact hsame (hleaves hl)
  | waitExec c cmd k =>
    obtain ⟨l, acts, hl, -, rfl⟩ := runWaitExec_cases h
    exact hsame (hleaves hl)
  | waitForking c =>
    obtain ⟨-, -, rfl⟩ | rfl := runWait_cases h
    · exact hsame hrest
    · exact hsame hrest
  | readState o => exact Option.some.inj h ▸ hsame (hcons _ rfl (by simp))
  | readSub o a => exact Option.some.inj h ▸ hsame (hcons _ rfl (by simp))
  | publish o a s =>
    -- the lock of the manager is not free
    exact absurd h (by simp [run])
  | jobRemoved o => exact Option.some.inj h ▸ hsame hrest
  | requestStop | setMainPid p | setChild c | bindSocket | spawnMain c | spawnForking c
  | readPidFile | recv | readPid | holdChild p | waitGone p | waitKilled c | markDead | respawn
  | takeChild | waitMain c | readPollPid | poll p | checkStopping b | publishExit a s =>
    exact absurd hop (by simp [leavesMain])

theorem run_supervises (hs : Supervises (op :: rest))
    (h : op.run procs false .supervise R rest resp = some reply) :
    SideStep R op .supervise reply := by
  have hsame : ∀ {l : List Op} {acts : List Act}, Supervises l → .takeChild ∉ l →
      SideStep R op .supervise ⟨R, l, acts⟩ :=
    fun hl ht => ⟨rfl, rfl, .inr rfl, .inr rfl, .inl rfl, .supervise _ hl, ht, hl.clears⟩
  cases hs with
  | takes =>
    have hheld : R.childHeld = false := by
      by_contra hheld
      exact absurd h (by simp [run, runTakeChild, hheld])
    obtain ⟨c, -, rfl⟩ | ⟨-, rfl⟩ := runTakeChild_cases h
    · exact ⟨rfl, rfl, .inr rfl, .inr rfl, .inr ⟨rfl, hheld, rfl⟩, .supervise _ (.waits c), by simp,
        by simp⟩
    · exact hsame .reads (by simp)
  | waits c =>
    obtain ⟨success, -, rfl⟩ | rfl := runWait_cases h
    · exact hsame (.checks success) (by simp)
    · exact hsame .reads (by simp)
  | reads =>
    simp only [run] at h
    split at h
    next p hp => exact Option.some.inj h ▸ hsame (.polls p) (by simp)
    next => exact Option.some.inj h ▸ hsame .ended (by simp)
  | polls p =>
    simp only [run] at h
    split at h
    · split at h
      · exact Option.some.inj h ▸ hsame (.checks true) (by simp)
      · exact absurd h (by simp)
    · exact absurd h (by simp)
  | checks clean =>
    obtain rfl := Option.some.inj h
    unfold runCheckStopping
    split
    · exact hsame .ended (by simp)
    · exact hsame (.setsState _ _) (by simp)
  | setsState a s =>
    exact Option.some.inj h ▸ ⟨rfl, rfl, .inr rfl, .inr rfl, .inl rfl, .supervise _ (.setsSub a s),
      by simp, by simp⟩
  | setsSub a s =>
    exact Option.some.inj h ▸ ⟨rfl, rfl, .inr rfl, .inr rfl, .inl rfl, .supervise _ (.forgets a s),
      by simp, by simp⟩
  | forgets a s =>
    exact Option.some.inj h ▸ ⟨rfl, rfl, .inr rfl, .inl rfl, .inl rfl,
      .supervise _ (.publishes a s), by simp, by simp⟩
  | publishes a s =>
    -- the lock of the manager is not free
    exact absurd h (by simp [run])

/-- **A step beside a stop.** -/
theorem run_aside {kind : TaskKind} (ha : Aside kind (op :: rest))
    (h : op.run procs false kind R rest resp = some reply) : SideStep R op kind reply := by
  cases ha with
  | start id _ _ hop hrest => exact run_aside_start hop hrest h
  | supervise _ hs => exact run_supervises hs h

/-- A supervisor that watches the main process goes on to, or finds that it has ended. -/
theorem run_attends (hc : Attends m p R.child (op :: rest)) (hp : R.mainPid = some p)
    (h : op.run procs false .supervise R rest resp = some reply) :
    (op ≠ .setMainPid none ∧ Attends m p reply.runner.child reply.ops) ∨ exited procs m = true ∨
      pidGone procs p = true := by
  cases hc with
  | takes hchild =>
    obtain ⟨c, hc, rfl⟩ | ⟨-, rfl⟩ := runTakeChild_cases h
    · obtain rfl := hchild c hc
      exact .inl ⟨by simp, .waits⟩
    · exact .inl ⟨by simp, .reads⟩
  | waits =>
    obtain ⟨success, hexit, -⟩ | rfl := runWait_cases h
    · exact .inr (.inl hexit)
    · exact .inl ⟨by simp, .reads⟩
  | reads =>
    simp only [run, hp] at h
    exact Option.some.inj h ▸ .inl ⟨by simp, .polls⟩
  | polls =>
    simp only [run] at h
    split at h
    · split at h
      next hgone => exact .inr (.inr hgone)
      next => exact absurd h (by simp)
    · exact absurd h (by simp)
  | publishes a s => exact absurd h (by simp [run])

/-- While the mark of a stop is set, a supervisor that sees an exit leaves it at that. -/
theorem run_shut {kind : TaskKind} (ha : Aside kind (op :: rest)) (hs : Shut (op :: rest))
    (hstop : R.stopping = true) (h : op.run procs false kind R rest resp = some reply) :
    Shut reply.ops := by
  cases ha with
  | start id _ _ hop hrest =>
    have hstep := run_aside_start hop hrest h
    exact ⟨hstep.clears, hstep.aside.keepsMainPid⟩
  | supervise _ hsup =>
    cases hsup with
    | takes =>
      obtain ⟨c, hc, rfl⟩ | ⟨-, rfl⟩ := runTakeChild_cases h
      · simp [Shut]
      · simp [Shut]
    | waits c =>
      obtain ⟨success, -, rfl⟩ | rfl := runWait_cases h
      · simp [Shut]
      · simp [Shut]
    | reads =>
      simp only [run] at h
      split at h <;> exact Option.some.inj h ▸ by simp [Shut]
    | polls p =>
      simp only [run] at h
      split at h
      · split at h
        · exact Option.some.inj h ▸ by simp [Shut]
        · exact absurd h (by simp)
      · exact absurd h (by simp)
    | checks clean =>
      obtain rfl := Option.some.inj h
      simp [runCheckStopping, hstop, Shut]
    | setsState a s | setsSub a s | forgets a s => exact absurd hs.2 (by simp)
    | publishes a s => exact absurd h (by simp [run])

end Op

end Systeml.Runtime
