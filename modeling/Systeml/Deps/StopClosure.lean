import Systeml.Deps.Merge
import Systeml.Deps.Soundness

/-!
# Stops spread

A unit that is entered by a stop asks everything bound to it, part of it or
reached by `PropagatesStopTo=` to stop. A unit that was entered under another kind
and only merged to a stop asks nobody, and a request that comes after a stop can
replace it. `stopClosed_of_stopsSpread`: the jobs of a transaction are closed under the
spread of stops unless one of the two happens to them.
-/

namespace Systeml.Deps

open Systeml.Lib Systeml.Unit

variable {g : DepGraph} {v : ManagerView} {root : UnitName} {kind : JobType} {mode : JobMode}

/-- A stop of `u` is to spread to `s`. -/
def SpreadsStop (g : DepGraph) (u s : UnitName) : Prop :=
  (∃ e, (e, s) ∈ g.incoming u ∧ e.stopsSource = true) ∨ (.propagatesStopTo, s) ∈ g.outgoing u

/-- With every unit that stops, every loaded unit that this is to spread to stops or
restarts. -/
def StopClosed (g : DepGraph) (v : ManagerView) (t : Transaction) : Prop :=
  ∀ j ∈ t.jobs, j.kind = .stop → ∀ s, SpreadsStop g j.unit s → v.isLoaded s = true →
    ∃ j' ∈ t.jobs, j'.unit = s ∧ Stopping j'.kind

/-- The requests on `u` merge to a stop or a restart. -/
def EndsStopping (v : ManagerView) (m : IndexMap UnitName (Visit JobType)) (u : UnitName) :
    Prop :=
  ∃ vis, m.get? u = some vis ∧ Stopping (kindOf v u vis)

/-- Where a unit is left stopped, it was first asked for that, and what its stop
spreads to is asked for nothing later that replaces the stop. -/
def StopsSpread (g : DepGraph) (v : ManagerView) (root : UnitName) (kind : JobType)
    (mode : JobMode) : Prop :=
  ∃ E, FirstRoutes g v root kind mode E ∧ ∀ u ks, AskedKinds g v root kind mode E u ks →
    LeftStopped v u ks → ∀ s, SpreadsStop g u s → v.isLoaded s = true →
    (∃ ρ, E u = some (.stop, ρ)) ∧
      ∀ ls, AskedKinds g v root kind mode E s ls → ¬ StopReplaced v s ls

/-- A unit that stops and has units to pass this on to was queued by another request,
so that the stop was only merged in. -/
def MergesStop (g : DepGraph) (v : ManagerView) (root : UnitName) (kind : JobType)
    (mode : JobMode) (t : Transaction) : Prop :=
  ∃ j ∈ t.jobs, j.kind = .stop ∧ (∃ s, SpreadsStop g j.unit s ∧ v.isLoaded s = true) ∧
    ∃ vis, (visits g v root kind mode).get? j.unit = some vis ∧ vis.first ≠ .stop

/-- What a stop spreads to is pulled. -/
theorem spread_pulled {u s : UnitName} (h : SpreadsStop g u s) (hl : v.isLoaded s = true) :
    .soft s .stop ∈ expandStop g v u := by
  rcases h with ⟨e, he, hs⟩ | he
  · refine List.mem_append_left _ (List.mem_filterMap.mpr ⟨(e, s), he, ?_⟩)
    cases e <;> simp_all [DepEdge.stopsSource, softPull]
  · refine List.mem_append_right _ (List.mem_filterMap.mpr ⟨(.propagatesStopTo, s), he, ?_⟩)
    simp [softPull, hl]

variable {E : Entries} {alloc : JobIdAlloc} {t : Transaction}

/-- A unit that is first asked to stop asks those it spreads to: no pull of a stop
fails. -/
theorem ownPull_of_stop (hmode : mode ≠ .ignoreDependencies)
    (hE : FirstRoutes g v root kind mode E) {u s : UnitName} {ρ : List Nat}
    (hu : E u = some (.stop, ρ)) (h : SpreadsStop g u s) (hl : v.isLoaded s = true) :
    OwnPull g v root kind mode E u (.soft s .stop) := by
  have hp : .soft s .stop ∈ (pullSystem g v mode).pulls u .stop := by
    simp only [pullSystem, if_neg hmode]
    exact spread_pulled h hl
  obtain ⟨i, hi⟩ := List.mem_iff_getElem?.mp hp
  refine ⟨.stop, ρ, i, hu, ⟨⟨_, .node hu, hi⟩, fun n _ hf => ?_⟩⟩
  have hsoft : ∀ {ps p}, (pullSystem g v mode).Block (initialPulls g v root kind mode) E ρ ps →
      ps[n]? = some p → ∃ b, p = .soft b .stop := by
    intro ps p hb hp
    obtain rfl := hE.block_unique _ rfl hb (.node hu)
    exact stop_softOnly u p (List.mem_of_getElem? hp)
  cases hf with
  | abort hb hp | rejected hb hp _ | inner hb hp _ _ =>
    obtain ⟨b, hb⟩ := hsoft hb hp
    simp at hb

/-- A unit that is asked to stop has a stop or a restart exactly if nothing replaces
its stop. -/
theorem Built.stopping_iff (hb : Built g v alloc root kind mode t)
    (hE : FirstRoutes g v root kind mode E) {s : UnitName} {ls : List JobType}
    (hls : AskedKinds g v root kind mode E s ls) (hs : .stop ∈ ls) :
    (∃ j' ∈ t.jobs, j'.unit = s ∧ Stopping j'.kind) ↔ ¬ StopReplaced v s ls := by
  obtain ⟨vis, hvis, rfl⟩ := hls.visit hb.asked hE (List.ne_nil_of_mem hs)
  rw [hb.jobs_iff Stopping s, ← kindOf_stopping_iff hvis hs]
  refine ⟨?_, fun hk => ⟨vis, hvis, hk⟩⟩
  rintro ⟨vis', hvis', hk⟩
  exact Option.some.inj (hvis.symm.trans hvis') ▸ hk

/-- The units whose job is a stop are those that are left stopped. -/
theorem Built.stop_iff (hb : Built g v alloc root kind mode t)
    (hE : FirstRoutes g v root kind mode E) (u : UnitName) :
    (∃ j ∈ t.jobs, j.unit = u ∧ j.kind = .stop) ↔
      ∃ ks, AskedKinds g v root kind mode E u ks ∧ LeftStopped v u ks := by
  rw [hb.jobs_iff (· = .stop) u]
  constructor
  · rintro ⟨vis, hvis, hk⟩
    exact ⟨vis.kinds, get?_of_kindsAt hvis ▸ (visits_follow hE hb.asked).1 u,
      (kindOf_stop_iff hvis).mp hk⟩
  · rintro ⟨ks, hks, hstop⟩
    have hne : ks ≠ [] := by
      rintro rfl
      obtain ⟨l₁, l₂, hl, -⟩ := hstop
      simp at hl
    obtain ⟨vis, hvis, rfl⟩ := hks.visit hb.asked hE hne
    exact ⟨vis, hvis, (kindOf_stop_iff hvis).mpr hstop⟩

/-- A stop that does not reach a unit it is to spread to was merged in, or replaced. -/
theorem merges_of_not_spread (hmode : mode ≠ .ignoreDependencies)
    (hb : Built g v alloc root kind mode t) (hE : FirstRoutes g v root kind mode E)
    {u s : UnitName} {ks : List JobType} (hks : AskedKinds g v root kind mode E u ks)
    (hstop : LeftStopped v u ks) (hs : SpreadsStop g u s) (hl : v.isLoaded s = true)
    (hno : ¬ ((∃ ρ, E u = some (.stop, ρ)) ∧
      ∀ ls, AskedKinds g v root kind mode E s ls → ¬ StopReplaced v s ls)) :
    ¬ StopClosed g v t ∨ MergesStop g v root kind mode t := by
  obtain ⟨j, hj, rfl, hk⟩ := (hb.stop_iff hE u).mpr ⟨ks, hks, hstop⟩
  by_cases hfirst : ∃ ρ, E j.unit = some (.stop, ρ)
  · obtain ⟨ρ, hu⟩ := hfirst
    refine .inl fun hcl => hno ⟨⟨ρ, hu⟩, fun ls hls => ?_⟩
    have hasked := (ownPull_of_stop hmode hE hu hs hl).asked hl (.inr rfl) hls
    exact (hb.stopping_iff hE hls hasked).mp (hcl j hj hk s hs hl)
  · obtain ⟨vis, hvis, -⟩ := (hb.jobs_iff (· = .stop) j.unit).mp ⟨j, hj, rfl, hk⟩
    refine .inr ⟨j, hj, hk, ⟨s, hs, hl⟩, vis, hvis, fun hstop => hfirst ?_⟩
    have hseq := (visits_follow hE hb.asked).1 j.unit
    rw [get?_of_kindsAt hvis] at hseq
    obtain ⟨ρ, he⟩ := AskedKinds.entry hE hseq
    exact ⟨ρ, hstop ▸ he⟩

/-- **Stop propagation.** Where stops spread, the jobs of a transaction are closed
under the spread of stops; where they do not, the jobs are not, or the transaction
stops a unit whose stop was only merged in. -/
theorem stopClosed_of_stopsSpread {alloc' : JobIdAlloc} (hmode : mode ≠ .ignoreDependencies)
    (h : Transaction.build g v alloc root kind mode = .ok (t, alloc')) :
    (Unwalked v root kind mode ∨ StopsSpread g v root kind mode → StopClosed g v t) ∧
      (¬ (Unwalked v root kind mode ∨ StopsSpread g v root kind mode) →
        ¬ StopClosed g v t ∨ MergesStop g v root kind mode t) := by
  rcases built_or_empty h with ⟨hun, rfl⟩ | ⟨hun, hb⟩
  · exact ⟨fun _ j hj => absurd hj (by simp), fun hno => absurd (.inl hun) hno⟩
  refine ⟨fun hc => ?_, fun hno => ?_⟩
  · obtain ⟨E, hE, hspread⟩ := hc.resolve_left hun
    intro j hj hk s hs hl
    obtain ⟨ks, hks, hstop⟩ := (hb.stop_iff hE j.unit).mp ⟨j, hj, rfl, hk⟩
    obtain ⟨⟨ρ, hu⟩, hkeep⟩ := hspread j.unit ks hks hstop s hs hl
    have hls := (visits_follow hE hb.asked).1 s
    have hasked := (ownPull_of_stop hmode hE hu hs hl).asked hl (.inr rfl) hls
    exact (hb.stopping_iff hE hls hasked).mpr (hkeep _ hls)
  · obtain ⟨E, hE⟩ := exists_routes g v root kind mode
    by_contra hnone
    refine hno (.inr ⟨E, hE, fun u ks hks hstop s hs hl => ?_⟩)
    by_contra hfail
    exact hnone (merges_of_not_spread hmode hb hE hks hstop hs hl hfail)

/-! ## A stop that spreads -/

/-- `s.service` with `PartOf=r.service`, `x.service` with `BindsTo=s.service`. -/
def spreadUnits : IndexMap UnitName UnitSpec := .ofList
  [(svc "r", UnitSpec.empty (svc "r")),
   (svc "s", { UnitSpec.empty (svc "s") with deps := { partOf := [svc "r"] } }),
   (svc "x", { UnitSpec.empty (svc "x") with deps := { bindsTo := [svc "s"] } })]

/-- The three units are loaded and active, no job is queued. -/
def spreadView : ManagerView where
  isLoaded := spreadUnits.contains
  isActive := spreadUnits.contains
  allowIsolate := fun _ => false
  existingJobs := []

/-- What `Transaction.build` returns for `stop r.service`. -/
def spreadTransaction : Transaction where
  jobs := [⟨⟨1⟩, svc "r", .stop, .replace⟩, ⟨⟨2⟩, svc "s", .stop, .replace⟩,
    ⟨⟨3⟩, svc "x", .stop, .replace⟩]

theorem spread_build : Transaction.build (DepGraph.build spreadUnits) spreadView .new (svc "r")
    .stop .replace = .ok (spreadTransaction, ⟨4⟩) := rfl

/-- No stop is replaced where nothing but stops is asked for. -/
theorem not_stopReplaced {u : UnitName} {l : List JobType} (h : ∀ k ∈ l, k = .stop) :
    ¬ StopReplaced v u l := by
  rintro ⟨l₁, l₂, rfl, hno, -, k, rest, hk, -⟩
  have hmem : k ∈ l₂ := List.mem_of_mem_filter (hk ▸ List.mem_cons_self)
  exact hno (h k (by simp [hmem]) ▸ hmem)

theorem stopClosed_of_stopsSpread_spread :
    StopClosed (DepGraph.build spreadUnits) spreadView spreadTransaction := by
  have hdone : (rootAsk (DepGraph.build spreadUnits) spreadView (svc "r") .stop .replace).1 =
      .done := rfl
  have hall : ∀ p ∈ (visits (DepGraph.build spreadUnits) spreadView (svc "r") .stop
      .replace).entries, ∀ k ∈ p.2.kinds, k = .stop := by decide
  refine (stopClosed_of_stopsSpread (by decide) spread_build).1 (.inr ?_)
  obtain ⟨E, hE⟩ := exists_routes (DepGraph.build spreadUnits) spreadView (svc "r") .stop
    .replace
  have hstops : ∀ u ks, AskedKinds (DepGraph.build spreadUnits) spreadView (svc "r") .stop .replace
      E u ks → ∀ k ∈ ks, k = .stop := by
    intro u ks hks k hk
    obtain ⟨vis, hvis, rfl⟩ := hks.visit hdone hE (List.ne_nil_of_mem hk)
    exact hall _ (IndexMap.mem_entries.mpr hvis) k hk
  refine ⟨E, hE, fun u ks hks hstop s _ _ => ⟨?_, fun ls hls => not_stopReplaced (hstops s ls hls)⟩⟩
  obtain ⟨l₁, l₂, rfl, -⟩ := hstop
  obtain ⟨vis, hvis, hkinds⟩ := hks.visit hdone hE (by simp)
  rw [← hkinds] at hks
  obtain ⟨ρ, he⟩ := AskedKinds.entry hE hks
  rw [hstops u _ hks vis.first (List.mem_cons_self ..)] at he
  exact ⟨ρ, he⟩

/-! ## A stop that does not spread

`r` checks `u` and conflicts with it: `u` is entered by the check, and the stop is
only merged in. `s` is part of `u`. -/

/-- `r.service` with `Requisite=u.service` and `Conflicts=u.service`, `s.service` with
`PartOf=u.service`. -/
def mergedStopUnits : IndexMap UnitName UnitSpec := .ofList
  [(svc "r", { UnitSpec.empty (svc "r") with
      deps := { requisite := [svc "u"], conflicts := [svc "u"] } }),
   (svc "u", UnitSpec.empty (svc "u")),
   (svc "s", { UnitSpec.empty (svc "s") with deps := { partOf := [svc "u"] } })]

/-- The three units are loaded, nothing is active, no job is queued. -/
def mergedStopView : ManagerView where
  isLoaded := mergedStopUnits.contains
  isActive := fun _ => false
  allowIsolate := fun _ => false
  existingJobs := []

/-- What `Transaction.build` returns for `start r.service`. -/
def mergedStopTransaction : Transaction where
  jobs := [⟨⟨1⟩, svc "r", .start, .replace⟩, ⟨⟨2⟩, svc "u", .stop, .replace⟩]

theorem mergedStop_build : Transaction.build (DepGraph.build mergedStopUnits) mergedStopView
    .new (svc "r") .start .replace = .ok (mergedStopTransaction, ⟨3⟩) := rfl

/-- Not every transaction is closed under the spread of stops. -/
theorem not_all_stopClosed : ¬ ∀ (g : DepGraph) (v : ManagerView) (alloc alloc' : JobIdAlloc)
    (root : UnitName) (kind : JobType) (mode : JobMode) (t : Transaction),
    mode ≠ .ignoreDependencies → Transaction.build g v alloc root kind mode = .ok (t, alloc') →
    StopClosed g v t := by
  intro h
  have hc := h _ _ _ _ _ _ _ _ (by decide) mergedStop_build
  have hspread : SpreadsStop (DepGraph.build mergedStopUnits) (svc "u") (svc "s") :=
    Or.inl ⟨.partOf, by decide, rfl⟩
  obtain ⟨j, hj, hu, -⟩ := hc ⟨⟨2⟩, svc "u", .stop, .replace⟩ (by decide) rfl (svc "s") hspread
    (by decide)
  have hno : ∀ j ∈ mergedStopTransaction.jobs, j.unit ≠ svc "s" := by decide
  exact hno j hj hu

end Systeml.Deps
