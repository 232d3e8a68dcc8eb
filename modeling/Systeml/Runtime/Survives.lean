import Systeml.Runtime.Reload

/-!
# A live service through a reload

A reload drops the units that it does not find on disk, running or not. A service that is
still there gets a new runner with the definition found, and on the way the old runner's
state and pid are copied (`Turn`). As long as nobody writes to the old runner meanwhile,
the new one holds the same (`reload_keeps`).
-/

namespace Systeml.Runtime

open Systeml.Lib Systeml.Unit Systeml.Deps

/-- A step of a supervisor that waits for its process. -/
def Op.watches : Op → Bool
  | takeChild | waitMain _ | readPollPid | poll _ => true
  | _ => false

/-- The runners agree on the main process and on the state. -/
structure Runner.Alike (R N : Runner) : Prop where
  mainPid : N.mainPid = R.mainPid
  state : N.state = R.state
  sub : N.sub = R.sub

theorem Runner.Alike.refl (R : Runner) : R.Alike R := ⟨rfl, rfl, rfl⟩

/-- Without news from its process a supervisor goes on waiting, and leaves what its runner
says. -/
theorem Op.run_watches {procs : List Proc} {free : Bool} {kind : TaskKind} {R : Runner}
    {rest : List Op} {resp : Response} {op : Op} {reply : Reply}
    (hop : ∀ o ∈ op :: rest, o.watches = true)
    (hresp : (∀ success, resp ≠ .exited success) ∧ resp ≠ .gone)
    (h : op.run procs free kind R rest resp = some reply) :
    (∀ o ∈ reply.ops, o.watches = true) ∧ R.Alike reply.runner := by
  have hcons : ∀ o : Op, o.watches = true → ∀ x ∈ o :: rest, x.watches = true :=
    fun o ho x hx => (List.mem_cons.mp hx).elim (fun e => e ▸ ho)
      fun hx => hop x (List.mem_cons_of_mem op hx)
  have hwatch := hop op List.mem_cons_self
  cases op with
  | takeChild =>
    obtain ⟨c, -, rfl⟩ | ⟨-, rfl⟩ := runTakeChild_cases h
    · exact ⟨hcons _ rfl, rfl, rfl, rfl⟩
    · exact ⟨hcons _ rfl, rfl, rfl, rfl⟩
  | waitMain c =>
    cases resp with
    | exited success => exact absurd rfl (hresp.1 success)
    | err =>
      obtain rfl := Option.some.inj h
      exact ⟨hcons _ rfl, rfl, rfl, rfl⟩
    | ok | spawned pid | gone | timeout | file text | datagram buf => exact absurd h (by simp [run, runWait])
  | readPollPid =>
    simp only [run] at h
    split at h
    · exact Option.some.inj h ▸ ⟨hcons _ rfl, rfl, rfl, rfl⟩
    · exact Option.some.inj h ▸ ⟨by simp, rfl, rfl, rfl⟩
  | poll p =>
    simp only [run] at h
    split at h
    · exact absurd rfl hresp.2
    · exact absurd h (by simp)
  | _ => exact absurd hwatch (by simp [watches])

namespace World

variable {w w' : World} {u : UnitName} {r : RunnerId} {R₀ : Runner} {st₀ : UnitStatus}
  {spec : UnitSpec} {svc : ServiceUnit}

/-- No supervisor of the runner learns in this step that its process has ended. -/
def StaysUp (r : RunnerId) (w : World) (l : Label) : Prop :=
  ∀ i resp t, l = .task i resp → w.tasks[i]? = some t → t.runner = r →
    (∀ success, resp ≠ .exited success) ∧ resp ≠ .gone

/-- The runner says what `R₀` does, and its tasks have ended, but for supervisors that wait
for its process. -/
structure Live (R₀ : Runner) (r : RunnerId) (w : World) : Prop where
  runner : ∃ R, w.runners[r]? = some R ∧ R₀.Alike R
  tasks : ∀ t ∈ w.tasks, t.runner = r →
    t.ops = [] ∨ (t.kind = .supervise ∧ ∀ o ∈ t.ops, o.watches = true)

/-- **Beneath a reload that does not copy to it, such a runner stays so.** -/
theorem Live.step {l : Label} {ops : List ReloadOp} (hw : Sound w) (hre : w.reloading = some ops)
    (hcopy : ∀ op ∈ ops.head?, ∀ new old, op ∈ copies new old → new ≠ r) (h : Live R₀ r w)
    (hup : StaysUp r w l) (hs : w.step l = some w') : Live R₀ r w' := by
  obtain ⟨R, hR, halike⟩ := h.runner
  obtain rfl | ⟨i, resp, rfl⟩ | ⟨p, rfl⟩ := beneath_cases hre hs
  · obtain ⟨-, rfl⟩ | ⟨op, rest, hl, ho⟩ := reloadStep_cases hs
    · exact ⟨h.runner, h.tasks⟩
    · obtain rfl := Option.some.inj ((reloading_of_lock hl).symm.trans hre)
      refine ⟨?_, ?_⟩
      · cases reloadOp_runner hR (hcopy op rfl) ho with
        | inl he => exact ⟨R, he, halike⟩
        | inr he => exact ⟨_, he, halike.mainPid, halike.state, halike.sub⟩
      · rw [reloadOp_tasks ho]
        exact h.tasks
  · obtain ⟨t, op, rest, Q, reply, ht, hops, hQ, hreply, hb⟩ := beneath_task hw hre hs
    by_cases hr : t.runner = r
    · subst hr
      obtain rfl := Option.some.inj (hR.symm.trans hQ)
      obtain hnil | ⟨hk, hwatch⟩ := h.tasks t (List.mem_of_getElem? ht) rfl
      · rw [hops] at hnil
        exact absurd hnil (by simp)
      · rw [hops] at hwatch
        obtain ⟨hwatch', hsame⟩ := Op.run_watches hwatch (hup i resp t rfl ht rfl) hreply
        refine ⟨⟨reply.runner, ?_, hsame.mainPid.trans halike.mainPid,
          hsame.state.trans halike.state, hsame.sub.trans halike.sub⟩, ?_⟩
        · rw [hb.runners]
          exact List.getElem?_set_self (List.getElem?_eq_some_iff.mp hR).1
        · rw [hb.tasks]
          exact forall_mem_set (P := fun s : Task => s.runner = t.runner → s.ops = [] ∨
            (s.kind = .supervise ∧ ∀ o ∈ s.ops, o.watches = true)) h.tasks
            fun _ => Or.inr ⟨hk, hwatch'⟩
    · refine ⟨⟨R, ?_, halike⟩, ?_⟩
      · rw [hb.runners]
        exact (List.getElem?_set_ne hr).trans hR
      · rw [hb.tasks]
        exact forall_mem_set (P := fun s : Task => s.runner = r → s.ops = [] ∨
          (s.kind = .supervise ∧ ∀ o ∈ s.ops, o.watches = true)) h.tasks fun he => absurd he hr
  · obtain rfl := Option.some.inj hs
    exact ⟨h.runner, h.tasks⟩

/-! ## The turn of a service -/

/-- What a new runner was given of its predecessor so far; `front` is still to be copied. -/
structure Given (R₀ N : Runner) (new old : RunnerId) (front : List ReloadOp) : Prop where
  state : .copyState new old ∉ front → N.state = R₀.state
  sub : .copySub new old ∉ front → N.sub = R₀.sub
  mainPid : .copyPid new old ∉ front → N.mainPid = R₀.mainPid

/-- **One copy.** -/
theorem Given.reloadOp {op : ReloadOp} {front rest : List ReloadOp} {new old : RunnerId} {N R : Runner}
    (h : Given R₀ N new old (op :: front)) (hsuf : op :: front <:+ copies new old)
    (hold : w.runners[old]? = some R) (hR : R₀.Alike R) (hN : w.runners[new]? = some N)
    (hs : w.reloadOp rest op = some w') :
    ∃ N', w'.runners[new]? = some N' ∧ N'.svc = N.svc ∧ Given R₀ N' new old front := by
  have hget : ∀ f : Runner → Runner, (w.runners.modify new f)[new]? = some (f N) :=
    fun f => (getElem?_modify_some hN).trans (by rw [if_pos rfl])
  simp only [copies, List.suffix_cons_iff, List.cons.injEq, List.suffix_nil, reduceCtorEq,
    or_false] at hsuf
  obtain ⟨rfl, rfl⟩ | ⟨rfl, rfl⟩ | ⟨rfl, rfl⟩ | ⟨rfl, rfl⟩ := hsuf
  · simp only [World.reloadOp, hold] at hs
    obtain rfl := Option.some.inj hs
    exact ⟨_, hget _, rfl, fun _ => hR.state, by simp, by simp⟩
  · simp only [World.reloadOp, hold] at hs
    obtain rfl := Option.some.inj hs
    exact ⟨_, hget _, rfl, fun _ => h.state (by simp), fun _ => hR.sub, by simp⟩
  · simp only [World.reloadOp, hold] at hs
    obtain rfl := Option.some.inj hs
    exact ⟨_, hget _, rfl, fun _ => h.state (by simp), fun _ => h.sub (by simp), fun _ => hR.mainPid⟩
  · simp only [World.reloadOp, hold] at hs
    split at hs
    · exact absurd hs (by simp)
    · obtain rfl := Option.some.inj hs
      have hchild := getElem?_modify_some (j := new) (f := fun n : Runner => { n with child := R.child })
        (getElem?_modify_some (j := old) (f := fun n : Runner => { n with child := none }) hN)
      rw [if_pos rfl] at hchild
      refine ⟨_, hchild, ?_, fun _ => ?_, fun _ => ?_, fun _ => ?_⟩
      · split <;> rfl
      · split <;> exact h.state (by simp)
      · split <;> exact h.sub (by simp)
      · split <;> exact h.mainPid (by simp)

/-- How far a reload is with a service that it found: it is still to apply it, it is about
to put in its new runner, or it is done with it. -/
inductive Turn (R₀ : Runner) (st₀ : UnitStatus) (u : UnitName) (spec : UnitSpec) (svc : ServiceUnit)
    (r : RunnerId) (w : World) : List ReloadOp → Prop
  | waits (front l : List ReloadOp) (hserv : w.mgr.services.get? u = some r)
    (hst : w.mgr.status.get? u = some st₀) (hlive : Live R₀ r w) (hfront : u ∉ pendingNames front)
    (hl : u ∉ pendingNames l) : Turn R₀ st₀ u spec svc r w (front ++ .unit u spec :: l)
  | takes (front l : List ReloadOp) (new : RunnerId) (N : Runner) (st : UnitStatus)
    (hserv : w.mgr.services.get? u = some r) (hlive : Live R₀ r w)
    (hst : st.active = st₀.active ∧ st.sub = st₀.sub) (hN : w.runners[new]? = some N)
    (hsvc : N.svc = svc) (hsuf : front <:+ copies new r) (hgiven : Given R₀ N new r front)
    (hl : u ∉ pendingNames l) :
    Turn R₀ st₀ u spec svc r w (front ++ .install u spec st (some new) :: l)
  | took (ops : List ReloadOp) (new : RunnerId) (N : Runner) (st : UnitStatus)
    (hserv : w.mgr.services.get? u = some new) (hN : w.runners[new]? = some N)
    (hsvc : N.svc = svc) (halike : R₀.Alike N) (htasks : ∀ t ∈ w.tasks, t.runner ≠ new)
    (hget : w.mgr.status.get? u = some st) (hst : st.active = st₀.active ∧ st.sub = st₀.sub)
    (hops : u ∉ pendingNames ops) : Turn R₀ st₀ u spec svc r w ops

theorem pendingNames_cons {op : ReloadOp} {ops : List ReloadOp} (h : u ∉ pendingNames (op :: ops)) :
    op.name? ≠ some u ∧ u ∉ pendingNames ops := by
  unfold pendingNames at h ⊢
  rw [List.filterMap_cons] at h
  cases hn : op.name? with
  | none =>
    simp only [hn] at h
    exact ⟨by simp, h⟩
  | some n =>
    simp only [hn, List.mem_cons, not_or] at h
    exact ⟨fun he => h.1 (Option.some.inj he).symm, h.2⟩

/-- **The turn of another unit** leaves this one alone. -/
theorem reloadOp_other {op : ReloadOp} {rest : List ReloadOp} (hop : op.name? ≠ some u)
    (hs : w.reloadOp rest op = some w') : ∃ ops', w'.lock = .reload (ops' ++ rest) ∧
      u ∉ pendingNames ops' ∧ w'.mgr.services.get? u = w.mgr.services.get? u ∧
      w'.mgr.status.get? u = w.mgr.status.get? u := by
  obtain ⟨n, spec, copies, st, new, rfl, hcopies, -, hmgr, hlock⟩ | ⟨-, hmgr, hlock⟩ |
    ⟨n, spec, st, new, rfl, hmgr, hlock⟩ := reloadOp_cases hs
  · have hn : u ≠ n := fun he => hop (he ▸ rfl)
    refine ⟨copies ++ [.install n spec st new], by simpa using hlock, ?_, by rw [hmgr], ?_⟩
    · rw [pendingNames_copies hcopies]
      simpa [pendingNames, ReloadOp.name?] using hn
    · rw [hmgr]
      exact IndexMap.get?_erase_ne hn _
  · exact ⟨[], by simpa using hlock, by simp [pendingNames], by rw [hmgr], by rw [hmgr]⟩
  · have hn : u ≠ n := fun he => hop (he ▸ rfl)
    refine ⟨[], by simpa using hlock, by simp [pendingNames], ?_, ?_⟩
    · rw [hmgr]
      cases new with
      | none => rfl
      | some q => exact IndexMap.get?_insert_ne hn _ _
    · rw [hmgr]
      exact IndexMap.get?_insert_ne hn _ _

theorem pendingNames_append {ops ops' : List ReloadOp} (h : u ∉ pendingNames ops)
    (h' : u ∉ pendingNames ops') : u ∉ pendingNames (ops ++ ops') := by
  unfold pendingNames at h h' ⊢
  rw [List.filterMap_append, List.mem_append, not_or]
  exact ⟨h, h'⟩

theorem Turn.reloadOp {op : ReloadOp} {rest : List ReloadOp} (hw : Sound w) (ho : Ordered w)
    (hkind : spec.kind = .service svc) (hl : w.lock = .reload (op :: rest))
    (h : Turn R₀ st₀ u spec svc r w (op :: rest)) (hs : w.reloadOp rest op = some w') :
    ∃ ops', w'.lock = .reload ops' ∧ Turn R₀ st₀ u spec svc r w' ops' := by
  have happly := ho _ (reloading_of_lock hl)
  have hstep : w.step .reloadStep = some w' := by
    simp only [World.step, reloadStep, hl]
    exact hs
  -- a runner in `services` is not copied to
  have hnew : ∀ {q : RunnerId}, w.mgr.services.get? u = some q → ∀ new old, op ∈ copies new old →
      new ≠ q := fun hq new old hop he => (happly.unused hop).services u (he ▸ hq)
  have hlives : w.mgr.services.get? u = some r → Live R₀ r w → Live R₀ r w' := by
    intro hserv hlive
    refine hlive.step hw (reloading_of_lock hl) ?_ (fun _ _ _ he => absurd he (by simp)) hstep
    intro o ho
    obtain rfl := Option.some.inj ho
    exact hnew hserv
  generalize hops : op :: rest = ops at h happly
  cases h with
  | waits front l hserv hst hlive hfront hpend =>
    cases front with
    | nil =>
      obtain ⟨rfl, rfl⟩ := List.cons.inj hops
      have hlive' := hlives hserv hlive
      simp only [World.reloadOp, hkind, hserv, reloadedStatus, hst] at hs
      obtain rfl := Option.some.inj hs
      exact ⟨_, rfl, .takes (copies w.runners.length r) rest w.runners.length _ _ hserv hlive'
        ⟨rfl, rfl⟩ List.getElem?_concat_length rfl List.suffix_rfl
        ⟨by simp [copies], by simp [copies], by simp [copies]⟩ hpend⟩
    | cons o front =>
      obtain ⟨rfl, rfl⟩ := List.cons.inj hops
      obtain ⟨hname, hfront⟩ := pendingNames_cons hfront
      obtain ⟨ops', hlock, hops', hserv', hst'⟩ := reloadOp_other hname hs
      refine ⟨_, hlock, ?_⟩
      rw [List.append_eq, ← List.append_assoc]
      exact .waits (ops' ++ front) l (hserv'.trans hserv) (hst'.trans hst) (hlives hserv hlive)
        (pendingNames_append hops' hfront) hpend
  | takes front l new N st hserv hlive hst hN hsvc hsuf hgiven hpend =>
    cases front with
    | nil =>
      obtain ⟨rfl, rfl⟩ := List.cons.inj hops
      have hunused := happly.unused_of_install
      obtain rfl := Option.some.inj hs
      exact ⟨_, rfl, .took _ new N st (IndexMap.get?_insert_self _ _ _) hN hsvc
        ⟨hgiven.mainPid (by simp), hgiven.state (by simp), hgiven.sub (by simp)⟩ hunused.tasks
        (IndexMap.get?_insert_self _ _ _) hst hpend⟩
    | cons c front =>
      obtain ⟨rfl, rfl⟩ := List.cons.inj hops
      obtain ⟨hcopy, hsuf'⟩ := suffix_copies hsuf
      obtain ⟨R, hR, halike⟩ := hlive.runner
      obtain ⟨N', hN', hsame, hgiven'⟩ := hgiven.reloadOp hsuf hR halike hN hs
      obtain ⟨_, _, _, _, _, rfl, -⟩ | ⟨-, hmgr, hlock⟩ | ⟨_, _, _, _, rfl, -⟩ := reloadOp_cases hs
      · exact absurd hcopy (by simp [ReloadOp.isCopy])
      · refine ⟨_, hlock, .takes front l new N' st ?_ (hlives hserv hlive) hst hN'
          (hsame.trans hsvc) hsuf' hgiven' hpend⟩
        rw [hmgr]
        exact hserv
      · exact absurd hcopy (by simp [ReloadOp.isCopy])
  | took _ new N st hserv hN hsvc halike htasks hget hst hpend =>
    subst hops
    obtain ⟨hname, hpend⟩ := pendingNames_cons hpend
    obtain ⟨ops', hlock, hops', hserv', hst'⟩ := reloadOp_other hname hs
    have htasks' : ∀ t ∈ w'.tasks, t.runner ≠ new := by
      rw [reloadOp_tasks hs]
      exact htasks
    refine ⟨_, hlock, ?_⟩
    cases reloadOp_runner hN (hnew hserv) hs with
    | inl he =>
      exact .took _ new N st (hserv'.trans hserv) he hsvc halike htasks' (hst'.trans hget) hst
        (pendingNames_append hops' hpend)
    | inr he =>
      exact .took _ new _ st (hserv'.trans hserv) he hsvc
        ⟨halike.mainPid, halike.state, halike.sub⟩ htasks' (hst'.trans hget) hst
        (pendingNames_append hops' hpend)

/-- **Every step while the reload is in progress.** -/
theorem Turn.step {l : Label} {ops : List ReloadOp} (hw : Sound w) (ho : Ordered w)
    (hkind : spec.kind = .service svc) (hre : w.reloading = some ops)
    (h : Turn R₀ st₀ u spec svc r w ops) (hup : StaysUp r w l) (hs : w.step l = some w') :
    (ops = [] ∧ w'.lock = .free ∧ Turn R₀ st₀ u spec svc r w' []) ∨
      ∃ ops', w'.reloading = some ops' ∧ Turn R₀ st₀ u spec svc r w' ops' := by
  by_cases hr : l = .reloadStep
  · subst hr
    obtain ⟨hl, rfl⟩ | ⟨op, rest, hl, hop⟩ := reloadStep_cases hs
    · obtain rfl := Option.some.inj ((reloading_of_lock hl).symm.trans hre)
      refine Or.inl ⟨rfl, rfl, ?_⟩
      generalize hnil : ([] : List ReloadOp) = ops at h
      cases h with
      | waits front l => exact absurd hnil (by simp)
      | takes front l => exact absurd hnil (by simp)
      | took _ new N st hserv hN hsvc halike htasks hget hst hpend =>
        exact .took _ new N st hserv hN hsvc halike htasks hget hst hpend
    · obtain rfl := Option.some.inj ((reloading_of_lock hl).symm.trans hre)
      obtain ⟨ops', hlock, hturn⟩ := h.reloadOp hw ho hkind hl hop
      exact Or.inr ⟨ops', reloading_of_lock hlock, hturn⟩
  · have hd : ∀ disk, l ≠ .daemonReload disk := by
      rintro disk rfl
      obtain he | ⟨_, _, he⟩ | ⟨_, he⟩ := beneath_cases hre hs <;> exact absurd he (by simp)
    have hserv' : w'.mgr.services = w.mgr.services := (sameRegistry_step hs hd hr).services
    have happly := ho ops hre
    obtain ⟨hstatus, hidle⟩ := beneath_same hw hre hr hs
    have hlives : w.mgr.services.get? u = some r → Live R₀ r w → Live R₀ r w' := by
      intro hserv hlive
      refine hlive.step hw hre ?_ hup hs
      intro op hop new old hcopy he
      cases ops with
      | nil => exact absurd hop (by simp)
      | cons o ops =>
        obtain rfl := Option.some.inj hop
        exact (happly.unused hcopy).services u (he ▸ hserv)
    refine Or.inr ⟨ops, (reloading_step hs hd hr).trans hre, ?_⟩
    cases h with
    | waits front l hserv hst hlive hfront hpend =>
      exact .waits front l (hserv' ▸ hserv) (hstatus ▸ hst) (hlives hserv hlive) hfront hpend
    | takes front l new N st hserv hlive hst hN hsvc hsuf hgiven hpend =>
      have hunused : Unused w new := by
        cases front with
        | nil => exact happly.unused_of_install
        | cons c front => exact happly.unused (hsuf.subset List.mem_cons_self)
      exact .takes front l new N st (hserv' ▸ hserv) (hlives hserv hlive) hst
        ((hidle new hunused.tasks).1.trans hN) hsvc hsuf hgiven hpend
    | took _ new N st hserv hN hsvc halike htasks hget hst hpend =>
      exact .took _ new N st (hserv' ▸ hserv) ((hidle new htasks).1.trans hN) hsvc halike
        (hidle new htasks).2 (hstatus ▸ hget) hst hpend

/-! ## Units that are not found -/

/-- The unit is out of the registry, and the reload does not put it in. -/
structure Dropped (u : UnitName) (w : World) (ops : List ReloadOp) : Prop where
  services : w.mgr.services.get? u = none
  status : w.mgr.status.get? u = none
  pending : u ∉ pendingNames ops

theorem Dropped.step {l : Label} {ops : List ReloadOp} (hw : Sound w) (hre : w.reloading = some ops)
    (h : Dropped u w ops) (hs : w.step l = some w') :
    (ops = [] ∧ w'.lock = .free ∧ Dropped u w' []) ∨
      ∃ ops', w'.reloading = some ops' ∧ Dropped u w' ops' := by
  by_cases hr : l = .reloadStep
  · subst hr
    obtain ⟨hl, rfl⟩ | ⟨op, rest, hl, hop⟩ := reloadStep_cases hs
    · obtain rfl := Option.some.inj ((reloading_of_lock hl).symm.trans hre)
      exact Or.inl ⟨rfl, rfl, h.services, h.status, h.pending⟩
    · obtain rfl := Option.some.inj ((reloading_of_lock hl).symm.trans hre)
      obtain ⟨hname, hpend⟩ := pendingNames_cons h.pending
      obtain ⟨ops', hlock, hops', hserv', hst'⟩ := reloadOp_other hname hop
      exact Or.inr ⟨_, reloading_of_lock hlock, hserv'.trans h.services, hst'.trans h.status,
        pendingNames_append hops' hpend⟩
  · have hd : ∀ disk, l ≠ .daemonReload disk := by
      rintro disk rfl
      obtain he | ⟨_, _, he⟩ | ⟨_, he⟩ := beneath_cases hre hs <;> exact absurd he (by simp)
    refine Or.inr ⟨ops, (reloading_step hs hd hr).trans hre, ?_, ?_, h.pending⟩
    · rw [(sameRegistry_step hs hd hr).services]
      exact h.services
    · rw [(beneath_same hw hre hr hs).1]
      exact h.status

/-- Dropping units leaves the entries of the others, -/
theorem foldl_dropUnit_of_notMem : ∀ {l : List UnitName} {m : Manager}, u ∉ l →
    (l.foldl dropUnit m).services.get? u = m.services.get? u ∧
      (l.foldl dropUnit m).status.get? u = m.status.get? u
  | [], _, _ => ⟨rfl, rfl⟩
  | n :: l, m, h => by
    obtain ⟨hn, hl⟩ := not_or.mp (List.mem_cons.not.mp h)
    obtain ⟨hserv, hst⟩ := foldl_dropUnit_of_notMem (m := dropUnit m n) hl
    exact ⟨hserv.trans (IndexMap.get?_erase_ne hn _), hst.trans (IndexMap.get?_erase_ne hn _)⟩

/-- and takes theirs out. -/
theorem foldl_dropUnit_of_mem {l : List UnitName} {m : Manager} (h : u ∈ l) :
    (l.foldl dropUnit m).services.get? u = none ∧ (l.foldl dropUnit m).status.get? u = none := by
  obtain ⟨-, hst, hserv, -⟩ := foldl_dropUnit l m
  exact ⟨IndexMap.get?_eq_none.mpr fun hu => ((hserv u).mp hu).1 h,
    IndexMap.get?_eq_none.mpr fun hu => ((hst u).mp hu).1 h⟩

/-! ## The whole reload -/

/-- The step is one of a reload or beneath it, and the main process of the runner stays up. -/
def DuringReload (r : RunnerId) (w : World) (l : Label) : Prop :=
  w.reloading.isSome = true ∧ StaysUp r w l

/-- The service is up: its runner recorded the pid of the main process, no call that drives
the runner is in flight, and no supervisor learned yet that the process has ended. -/
structure Up (u : UnitName) (r : RunnerId) (p : Int) (R : Runner) (st : UnitStatus) (w : World) :
    Prop where
  service : w.mgr.services.get? u = some r
  runner : w.runners[r]? = some R
  mainPid : R.mainPid = some p
  status : w.mgr.status.get? u = some st
  tasks : ∀ t ∈ w.tasks, t.runner = r →
    t.ops = [] ∨ (t.kind = .supervise ∧ ∀ o ∈ t.ops, o.watches = true)

/-- The service has the same main process and the same state, and a runner with the
definition. -/
structure Kept (u : UnitName) (p : Int) (R : Runner) (st : UnitStatus) (svc : ServiceUnit)
    (w : World) : Prop where
  runner : ∃ r' R', w.mgr.services.get? u = some r' ∧ w.runners[r']? = some R' ∧
    R'.mainPid = some p ∧ R'.state = R.state ∧ R'.sub = R.sub ∧ R'.svc = svc
  status : ∃ st', w.mgr.status.get? u = some st' ∧ st'.active = st.active ∧ st'.sub = st.sub

theorem turn_daemonReload {disk : Disk} {p : Int} {R : Runner} {st : UnitStatus}
    (hup : Up u r p R st w) (hspec : (newUnits disk).get? u = some spec) :
    ∃ ops, (w.daemonReload disk).reloading = some ops ∧
      Turn R st u spec svc r (w.daemonReload disk) ops := by
  obtain ⟨front, l, he⟩ := List.append_of_mem (IndexMap.mem_entries.mpr hspec)
  have hnodup := (newUnits disk).nodup
  rw [he, List.map_append, List.map_cons, List.nodup_append] at hnodup
  obtain ⟨-, hl, hdisj⟩ := hnodup
  have hgone : u ∉ gone w disk := fun hu =>
    (mem_gone.mp hu).2 (IndexMap.mem_keys.mpr ⟨spec, hspec⟩)
  obtain ⟨hserv, hst⟩ := foldl_dropUnit_of_notMem (m := w.mgr) hgone
  refine ⟨_, reloading_of_lock rfl, ?_⟩
  rw [he, List.map_append, List.map_cons]
  refine .waits _ _ (hserv.trans hup.service) (hst.trans hup.status)
    ⟨⟨R, hup.runner, .refl R⟩, hup.tasks⟩ ?_ ?_
  · rw [pendingNames_units]
    exact fun hu => hdisj u hu u List.mem_cons_self rfl
  · rw [pendingNames_units]
    exact (List.nodup_cons.mp hl).1

/-- **A reload keeps a live service that it finds**, and drops the units it does not. -/
theorem reload_keeps {w₀ w₁ v : World} {ls₀ ls : List Label} {disk : Disk} {p : Int} {R : Runner}
    {st : UnitStatus} (hw : w₀.Booted) (hrun₀ : runs step w₀ ls₀ = some w) (hup : Up u r p R st w)
    (hs : w.step (.daemonReload disk) = some w₁) (hls : Along step (DuringReload r) w₁ ls)
    (hrun : runs step w₁ ls = some v) (hfree : v.lock = .free) :
    (∀ spec svc, (newUnits disk).get? u = some spec → spec.kind = .service svc →
      Kept u p R st svc v) ∧
    ((newUnits disk).get? u = none → u ∈ w.mgr.units.keys →
      v.mgr.services.get? u = none ∧ v.mgr.status.get? u = none) := by
  have hsound : Sound w₁ ∧ Ordered w₁ := by
    have hall := runs_inv (f := step) (A := fun _ _ => True) (P := fun x => Sound x ∧ Ordered x)
      (fun _ _ _ hx _ hs => ⟨sound_step hx.1 hs, ordered_step hx.1.wired hx.2 hs⟩)
      ⟨hw.sound, ordered_of_free hw.lock⟩ (Along.of_labels fun _ _ => trivial) hrun₀
    exact ⟨sound_step hall.1 hs, ordered_step hall.1.wired hall.2 hs⟩
  obtain ⟨-, rfl⟩ := ifFree_eq hs
  -- both parts follow the reload to its end
  have hfollow : ∀ (Q : World → List ReloadOp → Prop),
      (∀ x l y ops, Sound x → Ordered x → x.reloading = some ops → Q x ops → StaysUp r x l →
        x.step l = some y → (ops = [] ∧ y.lock = .free ∧ Q y []) ∨
          ∃ ops', y.reloading = some ops' ∧ Q y ops') →
      (∃ ops, (w.daemonReload disk).reloading = some ops ∧ Q (w.daemonReload disk) ops) → Q v [] := by
    intro Q hQ hinit
    have hinv := runs_inv (f := step) (A := DuringReload r)
      (P := fun x => Sound x ∧ Ordered x ∧ ((x.lock = .free ∧ Q x []) ∨
        ∃ ops, x.reloading = some ops ∧ Q x ops)) (fun x l y hx hl hs => ?_)
      ⟨hsound.1, hsound.2, Or.inr hinit⟩ hls hrun
    · obtain ⟨-, hq⟩ | ⟨ops, hops, -⟩ := hinv.2.2
      · exact hq
      · rw [reloading_of_free hfree] at hops
        exact absurd hops (by simp)
    · refine ⟨sound_step hx.1 hs, ordered_step hx.1.wired hx.2.1 hs, ?_⟩
      obtain ⟨hfree', -⟩ | ⟨ops, hops, hq⟩ := hx.2.2
      · have hsome := hl.1
        rw [reloading_of_free hfree'] at hsome
        exact absurd hsome (by simp)
      · obtain ⟨-, hfree', hq'⟩ | hnext := hQ x l y ops hx.1 hx.2.1 hops hq hl.2 hs
        · exact Or.inl ⟨hfree', hq'⟩
        · exact Or.inr hnext
  refine ⟨?_, ?_⟩
  · intro spec svc hspec hkind
    have hturn := hfollow (fun x ops => Turn R st u spec svc r x ops)
      (fun x l y ops hx ho hre hq hup hs => hq.step hx ho hkind hre hup hs)
      (turn_daemonReload hup hspec)
    generalize hnil : ([] : List ReloadOp) = ops at hturn
    cases hturn with
    | waits front l => exact absurd hnil (by simp)
    | takes front l => exact absurd hnil (by simp)
    | took _ new N st' hserv hN hsvc halike htasks hget hst hpend =>
      exact ⟨⟨new, N, hserv, hN, halike.mainPid.trans hup.mainPid, halike.state, halike.sub, hsvc⟩,
        st', hget, hst⟩
  · intro hnone hu
    have hnew := IndexMap.get?_eq_none.mp hnone
    have hmem := mem_gone.mpr ⟨hu, hnew⟩
    obtain ⟨hserv, hst⟩ := foldl_dropUnit_of_mem (m := w.mgr) hmem
    have hdrop := hfollow (fun x ops => Dropped u x ops)
      (fun x l y ops hx _ hre hq _ hs => hq.step hx hre hs)
      ⟨_, reloading_of_lock rfl, hserv, hst, by rw [pendingNames_units]; exact hnew⟩
    exact ⟨hdrop.services, hdrop.status⟩

/-! ## A service that runs -/

theorem during_reloadSteps {n : Nat} {v : World} : ∀ {w : World},
    runs step w (List.replicate n .reloadStep) = some v →
      Along step (DuringReload r) w (List.replicate n .reloadStep) := by
  induction n with
  | zero => exact fun _ => trivial
  | succ n ih =>
    intro w hrun
    rw [List.replicate_succ] at hrun ⊢
    obtain ⟨w', hs, hrest⟩ := runs_cons.mp hrun
    refine Along.cons ⟨?_, fun _ _ _ he => absurd he (by simp)⟩ hs (ih hrest)
    obtain ⟨hl, -⟩ | ⟨op, rest, hl, -⟩ := reloadStep_cases hs
    · rw [reloading_of_lock hl]
      rfl
    · rw [reloading_of_lock hl]
      rfl

/-- A simple service comes up with the pid 5, and its supervisor waits. -/
def runningRun : List Label :=
  .startUnit serviceName :: List.replicate 5 (.task 0 .ok) ++ .task 0 (.spawned 5) ::
    List.replicate 7 (.task 0 .ok) ++ [.task 1 .ok]

def runningRunner : Runner :=
  { unit := serviceName, svc := { execStart := [cmd] }, mainPid := some 5, state := .active,
    sub := .running }

def runningStatus : UnitStatus :=
  { unit := some serviceName, load := .loaded, active := .active, sub := .running }

theorem up_runningRun : ∃ w, runs step (single { execStart := [cmd] }) runningRun = some w ∧
    w.lock = .free ∧ Up serviceName 0 5 runningRunner runningStatus w := by
  obtain ⟨w, hw⟩ : ∃ w, runs step (single { execStart := [cmd] }) runningRun = some w := ⟨_, rfl⟩
  have htasks : (runs step (single { execStart := [cmd] }) runningRun).map tasks =
    some [⟨.start ⟨1⟩, serviceName, 0, []⟩, ⟨.supervise, serviceName, 0, [.waitMain 0]⟩] := rfl
  have hrunners : (runs step (single { execStart := [cmd] }) runningRun).map runners =
    some [runningRunner] := rfl
  have hserv : (runs step (single { execStart := [cmd] }) runningRun).map
    (fun w => w.mgr.services.get? serviceName) = some (some 0) := rfl
  have hst : (runs step (single { execStart := [cmd] }) runningRun).map
    (fun w => w.mgr.status.get? serviceName) = some (some runningStatus) := rfl
  have hlock : (runs step (single { execStart := [cmd] }) runningRun).map lock = some .free := rfl
  rw [hw] at htasks hrunners hserv hst hlock
  refine ⟨w, hw, Option.some.inj hlock, Option.some.inj hserv, ?_, rfl, Option.some.inj hst, ?_⟩
  · have hr : w.runners = [runningRunner] := Option.some.inj hrunners
    rw [hr]
    rfl
  · have ht : w.tasks = _ := Option.some.inj htasks
    rw [ht]
    simp [Op.watches]

/-- Its file, which now wants a restart. -/
def changedService : ServiceUnit := { execStart := [cmd], restart := .always }

def changedDisk : Disk := [(serviceName, some { name := serviceName, kind := .service changedService })]

theorem reload_keeps_changed : ∃ w v, runs step (single { execStart := [cmd] }) runningRun = some w ∧
    Up serviceName 0 5 runningRunner runningStatus w ∧
    runs step w (.daemonReload changedDisk :: List.replicate 7 .reloadStep) = some v ∧
    Kept serviceName 5 runningRunner runningStatus changedService v := by
  obtain ⟨w, hw, hfree, hup⟩ := up_runningRun
  have hv : ((runs step (single { execStart := [cmd] }) runningRun).bind fun w =>
    runs step w (.daemonReload changedDisk :: List.replicate 7 .reloadStep)).map lock =
      some .free := rfl
  rw [hw] at hv
  obtain ⟨v, hrun, hend⟩ := Option.map_eq_some_iff.mp hv
  have hrun' : runs step w (.daemonReload changedDisk :: List.replicate 7 .reloadStep) = some v := hrun
  obtain ⟨w₁, hs, hrest⟩ := runs_cons.mp hrun'
  have hkept := (reload_keeps (booted_single _) hw hup hs (during_reloadSteps hrest) hrest hend).1
  exact ⟨w, v, hw, hup, hrun', hkept _ changedService rfl rfl⟩

/-- A running service whose file was removed is dropped. -/
theorem not_all_reloads_keep : ¬ ∀ (w₀ w w₁ v : World) (ls₀ ls : List Label) (disk : Disk)
    (u : UnitName) (r : RunnerId) (p : Int) (R : Runner) (st : UnitStatus), w₀.Booted →
    runs step w₀ ls₀ = some w → Up u r p R st w → w.step (.daemonReload disk) = some w₁ →
    Along step (DuringReload r) w₁ ls → runs step w₁ ls = some v → v.lock = .free →
    ∃ svc, Kept u p R st svc v := by
  intro h
  obtain ⟨w, hw, hfree, hup⟩ := up_runningRun
  have hv : ((runs step (single { execStart := [cmd] }) runningRun).bind fun w =>
    runs step w [.daemonReload [], .reloadStep]).map (fun v => (v.lock, v.mgr.services.entries)) =
      some (.free, []) := rfl
  rw [hw] at hv
  obtain ⟨v, hrun, hend⟩ := Option.map_eq_some_iff.mp hv
  have hrun' : runs step w (.daemonReload [] :: List.replicate 1 .reloadStep) = some v := hrun
  obtain ⟨w₁, hs, hrest⟩ := runs_cons.mp hrun'
  obtain ⟨svc, hkept⟩ := h _ w w₁ v runningRun _ [] serviceName 0 5 runningRunner runningStatus
    (booted_single _) hw hup hs (during_reloadSteps hrest) hrest (Prod.mk.inj hend).1
  obtain ⟨r', R', hserv, -⟩ := hkept.runner
  unfold IndexMap.get? at hserv
  rw [(Prod.mk.inj hend).2] at hserv
  exact absurd hserv (by simp [getL])

end World

end Systeml.Runtime
