import Systeml.Deps.Routes

/-!
# Hard requirements of a transaction

A unit is expanded when it is first queued, by the kind it was first asked for.
A later start request only raises its kind: what it requires is not pulled then.
And a start expansion whose failure a soft pull swallows leaves its unit queued
with some of its requirements unserved.

`hardClosed_of_pullsRequired`: the jobs of a transaction are closed under `Requires=`
and `BindsTo=` unless one of these two happens to a unit that is started.
-/

namespace Systeml.Deps

open Systeml.Lib Systeml.Unit

variable {g : DepGraph} {v : ManagerView}

/-- Every unit with a starting job has its `Requires=` and `BindsTo=` targets
loaded and with a starting job of their own. -/
def HardClosed (g : DepGraph) (v : ManagerView) (t : Transaction) : Prop :=
  ∀ j ∈ t.jobs, j.kind.isStarting = true → ∀ e tgt, (e, tgt) ∈ g.outgoing j.unit →
    e.isHard = true → v.isLoaded tgt = true ∧
      ∃ j' ∈ t.jobs, j'.unit = tgt ∧ j'.kind.isStarting = true

/-- The kinds under which a unit that is entered pulls what it requires. -/
def StartExpands (v : ManagerView) (u : UnitName) (k : JobType) : Prop :=
  k.isStarting = true ∨ k = .tryRestart ∧ v.isActive u = true

section

variable (g : DepGraph) (v : ManagerView) (root : UnitName) (kind : JobType) (mode : JobMode)

/-- Every unit that is raised asks itself for the start of each unit it requires: a
pull of its own list, under the kind it is first asked for and with no failing pull
before it. -/
def PullsRequired : Prop :=
  ∃ E, FirstRoutes g v root kind mode E ∧ ∀ u, RaisedBy g v root kind mode E u →
    ∀ e tgt, (e, tgt) ∈ g.outgoing u → e.isHard = true →
      OwnPull g v root kind mode E u (.hard tgt .start)

/-- A unit with a starting job requires others, and it was queued by a request that
does not pull them or its expansion was cut by a failure that was swallowed. -/
def MissesRequired (t : Transaction) : Prop :=
  ∃ j ∈ t.jobs, j.kind.isStarting = true ∧
    (∃ e tgt, (e, tgt) ∈ g.outgoing j.unit ∧ e.isHard = true) ∧
    ∃ vis, (visits g v root kind mode).get? j.unit = some vis ∧
      (¬ StartExpands v j.unit vis.first ∨ vis.carried = false)

end

theorem startPull_hard {x : DepEdge × UnitName} (h : x.1.isHard = true) :
    startPull v x =
      if v.isLoaded x.2 then some (.hard x.2 .start) else some (.abort (.notLoaded x.2)) := by
  obtain ⟨e, t⟩ := x
  cases e <;> simp_all [DepEdge.isHard, startPull]

theorem expandStart_sub {u : UnitName} {k : JobType} (hk : StartExpands v u k) :
    ∀ p ∈ expandStart g v u, p ∈ expansion g v u k := by
  intro p hp
  rcases hk with hk | ⟨rfl, ha⟩
  · cases k with
    | start | reloadOrStart => exact hp
    | restart => exact List.mem_append_left _ hp
    | stop | tryRestart | reload | verifyActive | nop => exact absurd hk (by decide)
  · show p ∈ if v.isActive u = true then _ else _
    rw [if_pos ha]
    exact List.mem_append_left _ hp

/-- Only loaded units are started by a hard pull. -/
theorem isLoaded_of_hard_start {u tgt : UnitName} {k : JobType}
    (h : .hard tgt .start ∈ expansion g v u k) : v.isLoaded tgt = true := by
  have hsoft : ∀ sel j (l : List (DepEdge × UnitName)),
      .hard tgt .start ∉ l.filterMap (softPull v sel j) := by
    intro sel j l hm
    obtain ⟨x, -, hx⟩ := List.mem_filterMap.mp hm
    unfold softPull at hx
    split at hx <;> simp at hx
  have hstart : .hard tgt .start ∈ expandStart g v u → v.isLoaded tgt = true := by
    intro hm
    obtain ⟨x, -, hx⟩ := List.mem_filterMap.mp hm
    unfold startPull at hx
    split at hx <;> (try split at hx) <;> simp_all
  have hrestart : .hard tgt .start ∈ expandStart g v u ++ expandStopPropagation g v u true →
      v.isLoaded tgt = true := fun hm =>
    (List.mem_append.mp hm).elim hstart fun hm => absurd hm (hsoft _ _ _)
  cases k with
  | start | reloadOrStart => exact hstart h
  | restart => exact hrestart h
  | stop =>
    exact (List.mem_append.mp h).elim (fun hm => absurd hm (hsoft _ _ _)) fun hm =>
      absurd hm (hsoft _ _ _)
  | tryRestart =>
    simp only [expansion] at h
    split at h
    next => exact hrestart h
    next => exact absurd h (by simp)
  | reload => exact absurd h (hsoft _ _ _)
  | verifyActive | nop => exact absurd h (by simp [expansion])

section Built

variable {root : UnitName} {kind : JobType} {mode : JobMode} {alloc : JobIdAlloc}
  {t : Transaction} {E : Entries}

/-- A unit that pulls what it requires has it loaded and with a starting job. -/
theorem Built.served (hb : Built g v alloc root kind mode t)
    (hE : FirstRoutes g v root kind mode E) {u tgt : UnitName}
    (hpull : OwnPull g v root kind mode E u (.hard tgt .start)) :
    v.isLoaded tgt = true ∧ ∃ j' ∈ t.jobs, j'.unit = tgt ∧ j'.kind.isStarting = true := by
  obtain ⟨k, hk⟩ := hpull.mem hE
  have hl := isLoaded_of_hard_start (pulls_sub_expansion hk)
  have hmem := hpull.asked hl (.inl rfl) ((visits_follow hE hb.asked).1 tgt)
  obtain ⟨vis, hvis⟩ := IndexMap.mem_keys.mp (mem_keys_iff_kindsAt.mpr (List.ne_nil_of_mem hmem))
  rw [get?_of_kindsAt hvis] at hmem
  exact ⟨hl, (hb.jobs_iff (·.isStarting = true) tgt).mpr
    ⟨vis, hvis, starting_of_start_request hvis hmem⟩⟩

/-- A unit that does not pull a unit it requires was entered under another kind, or
one of its pulls failed. -/
theorem misses_of_not_pulls (hmode : mode ≠ .ignoreDependencies)
    (hb : Built g v alloc root kind mode t) (hE : FirstRoutes g v root kind mode E)
    {u tgt : UnitName} {e : DepEdge} (hr : RaisedBy g v root kind mode E u)
    (he : (e, tgt) ∈ g.outgoing u) (hhard : e.isHard = true)
    (hno : ¬ OwnPull g v root kind mode E u (.hard tgt .start)) :
    MissesRequired g v root kind mode t := by
  obtain ⟨j, hj, rfl, hs⟩ := (hb.starting_iff hE u).mpr hr
  refine ⟨j, hj, hs, ⟨e, tgt, he, hhard⟩, ?_⟩
  obtain ⟨ks, hks, hraised⟩ := hr
  obtain ⟨vis, hvis, rfl⟩ := hks.visit hb.asked hE (raised_ne_nil hraised)
  refine ⟨vis, hvis, ?_⟩
  by_cases hexp : StartExpands v j.unit vis.first
  swap
  · exact .inl hexp
  right
  obtain ⟨ρ, hentry⟩ := hks.entry hE
  -- its list holds the pull, or the abort that stands for a unit that is not loaded
  have hpulls : (pullSystem g v mode).pulls j.unit vis.first =
      expansion g v j.unit vis.first := by
    simp only [pullSystem, if_neg hmode]
  have hmem : ∀ p, startPull v (e, tgt) = some p →
      p ∈ (pullSystem g v mode).pulls j.unit vis.first := by
    intro p hp
    rw [hpulls]
    exact expandStart_sub hexp p (List.mem_filterMap.mpr ⟨(e, tgt), he, hp⟩)
  have hfails : ∃ n, FailsAt g v root kind mode E ρ n := by
    have hpull := startPull_hard (v := v) (x := (e, tgt)) hhard
    cases hl : v.isLoaded tgt with
    | false =>
      rw [if_neg (by simp [hl])] at hpull
      obtain ⟨i, hi⟩ := List.mem_iff_getElem?.mp (hmem _ hpull)
      exact ⟨i, .abort (.node hentry) hi⟩
    | true =>
      rw [if_pos hl] at hpull
      obtain ⟨i, hi⟩ := List.mem_iff_getElem?.mp (hmem _ hpull)
      by_contra hnone
      exact hno ⟨vis.first, ρ, i, hentry, ⟨⟨_, .node hentry, hi⟩, fun n _ hn => hnone ⟨n, hn⟩⟩⟩
  obtain ⟨n, hn⟩ := hfails
  obtain ⟨vis', hvis', hc⟩ := (visits_follow hE hb.asked).2 hentry hn
  exact Option.some.inj (hvis.symm.trans hvis') ▸ hc

end Built

/-- **Hard closure.** Where every unit that is raised pulls what it requires, the jobs
of a transaction are closed under `Requires=` and `BindsTo=`; where one does not, the
transaction starts a unit without having asked for what the unit requires. -/
theorem hardClosed_of_pullsRequired {alloc alloc' : JobIdAlloc} {root : UnitName}
    {kind : JobType} {mode : JobMode} {t : Transaction} (hmode : mode ≠ .ignoreDependencies)
    (h : Transaction.build g v alloc root kind mode = .ok (t, alloc')) :
    (Unwalked v root kind mode ∨ PullsRequired g v root kind mode → HardClosed g v t) ∧
      (¬ (Unwalked v root kind mode ∨ PullsRequired g v root kind mode) →
        MissesRequired g v root kind mode t) := by
  rcases built_or_empty h with ⟨hun, rfl⟩ | ⟨hun, hb⟩
  · exact ⟨fun _ j hj => absurd hj (by simp), fun hno => absurd (.inl hun) hno⟩
  refine ⟨fun hc => ?_, fun hno => ?_⟩
  · obtain ⟨E, hE, hpulls⟩ := hc.resolve_left hun
    intro j hj hs e tgt he hhard
    exact hb.served hE (hpulls j.unit ((hb.starting_iff hE _).mp ⟨j, hj, rfl, hs⟩) e tgt he hhard)
  · obtain ⟨E, hE⟩ := exists_routes g v root kind mode
    by_contra hmiss
    refine hno (.inr ⟨E, hE, fun u hu e tgt he hhard => ?_⟩)
    by_contra hpull
    exact hmiss (misses_of_not_pulls hmode hb hE hu he hhard hpull)

/-! ## Requirements that are served -/

/-- `name.service`. -/
def svc (name : String) : UnitName := .plain name.toList .service

/-- `r.service` with `Requires=t.service` and `Wants=u.service`, `u.service` with
`BindsTo=t.service` and `Requisite=r.service`. -/
def servedUnits : IndexMap UnitName UnitSpec := .ofList
  [(svc "r", { UnitSpec.empty (svc "r") with
      deps := { requires := [svc "t"], wants := [svc "u"] } }),
   (svc "t", UnitSpec.empty (svc "t")),
   (svc "u", { UnitSpec.empty (svc "u") with
      deps := { bindsTo := [svc "t"], requisite := [svc "r"] } })]

/-- The three units are loaded, nothing is active, no job is queued. -/
def servedView : ManagerView where
  isLoaded := servedUnits.contains
  isActive := fun _ => false
  allowIsolate := fun _ => false
  existingJobs := []

/-- What `Transaction.build` returns for `start r.service`. -/
def servedTransaction : Transaction where
  jobs := [⟨⟨1⟩, svc "r", .start, .replace⟩, ⟨⟨2⟩, svc "u", .start, .replace⟩,
    ⟨⟨3⟩, svc "t", .start, .replace⟩]

theorem served_build : Transaction.build (DepGraph.build servedUnits) servedView .new
    (svc "r") .start .replace = .ok (servedTransaction, ⟨4⟩) := rfl

theorem hardClosed_of_pullsRequired_served :
    HardClosed (DepGraph.build servedUnits) servedView servedTransaction := by
  have h := hardClosed_of_pullsRequired (by decide) served_build
  refine h.1 ?_
  by_contra hno
  obtain ⟨j, hj, -, -, vis, hvis, hmiss⟩ := h.2 hno
  have hall : ∀ j ∈ servedTransaction.jobs,
      ∀ vis ∈ (visits (DepGraph.build servedUnits) servedView (svc "r") .start .replace).get? j.unit,
        vis.first.isStarting = true ∧ vis.carried = true := by decide
  obtain ⟨hfirst, hcarried⟩ := hall j hj vis hvis
  rcases hmiss with hmiss | hmiss
  · exact hmiss (.inl hfirst)
  · simp [hcarried] at hmiss

/-! ## A shortfall

`r` wants `u`, `u` requires `t`, and there is no unit file for `t`: the start of
`u` fails, the soft pull swallows the failure, and the job of `u` stays. -/

/-- `r.service` with `Wants=u.service`, `u.service` with `Requires=t.service`. -/
def shortfallUnits : IndexMap UnitName UnitSpec := .ofList
  [(svc "r", { UnitSpec.empty (svc "r") with deps := { wants := [svc "u"] } }),
   (svc "u", { UnitSpec.empty (svc "u") with deps := { requires := [svc "t"] } })]

/-- The two units are loaded, nothing is active, no job is queued. -/
def shortfallView : ManagerView where
  isLoaded := shortfallUnits.contains
  isActive := fun _ => false
  allowIsolate := fun _ => false
  existingJobs := []

/-- What `Transaction.build` returns for `start r.service`. -/
def shortfallTransaction : Transaction where
  jobs := [⟨⟨1⟩, svc "r", .start, .replace⟩, ⟨⟨2⟩, svc "u", .start, .replace⟩]

theorem shortfall_build : Transaction.build (DepGraph.build shortfallUnits) shortfallView .new
    (svc "r") .start .replace = .ok (shortfallTransaction, ⟨3⟩) := rfl

/-- Hard closure does not hold of every successful build. -/
theorem not_all_hardClosed : ¬ ∀ (g : DepGraph) (v : ManagerView) (alloc alloc' : JobIdAlloc)
    (root : UnitName) (kind : JobType) (mode : JobMode) (t : Transaction),
    mode ≠ .ignoreDependencies → Transaction.build g v alloc root kind mode = .ok (t, alloc') →
    HardClosed g v t := by
  intro h
  have hc := h _ _ _ _ _ _ _ _ (by decide) shortfall_build
  have hu := hc ⟨⟨2⟩, svc "u", .start, .replace⟩ (by decide) (by decide) .requires
    (svc "t") (by decide) (by decide)
  exact absurd hu.1 (by decide)

end Systeml.Deps
