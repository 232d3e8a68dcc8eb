import Systeml.Deps.Merge
import Systeml.Deps.HardClosure

/-!
# Conflicting units in a transaction

Starting a unit asks its `Conflicts=` targets to stop. A target that something
else asks to start is not stopped by that: the two requests merge to a restart.
`exclusive_iff`: a transaction keeps conflicting units apart exactly when what the
dependency lists ask of the two does not raise both.
-/

namespace Systeml.Deps

open Systeml.Lib Systeml.Unit

variable {g : DepGraph} {v : ManagerView} {root : UnitName} {kind : JobType} {mode : JobMode}

/-- No two conflicting units both have a starting job. -/
def Exclusive (g : DepGraph) (t : Transaction) : Prop :=
  ∀ u tgt, (.conflicts, tgt) ∈ g.outgoing u → u ≠ tgt → ∀ j ∈ t.jobs, ∀ j' ∈ t.jobs,
    j.unit = u → j'.unit = tgt → ¬ (j.kind.isStarting = true ∧ j'.kind.isStarting = true)

/-- No two conflicting units are both raised by what they are asked for. -/
def NoRivals (g : DepGraph) (v : ManagerView) (root : UnitName) (kind : JobType)
    (mode : JobMode) : Prop :=
  ∃ E, FirstRoutes g v root kind mode E ∧ ∀ u tgt, (.conflicts, tgt) ∈ g.outgoing u → u ≠ tgt →
    ¬ (RaisedBy g v root kind mode E u ∧ RaisedBy g v root kind mode E tgt)

/-- **Mutual exclusion, exactly.** A transaction keeps conflicting units apart if and
only if no two of them are raised by the requests that the dependency lists make. -/
theorem exclusive_iff {alloc alloc' : JobIdAlloc} {t : Transaction}
    (h : Transaction.build g v alloc root kind mode = .ok (t, alloc')) :
    Exclusive g t ↔ Unwalked v root kind mode ∨ NoRivals g v root kind mode := by
  rcases built_or_empty h with ⟨hun, rfl⟩ | ⟨hun, hb⟩
  · exact ⟨fun _ => .inl hun, fun _ _ _ _ _ j hj => absurd hj (by simp)⟩
  rw [or_iff_right hun]
  constructor
  · intro hx
    obtain ⟨E, hE⟩ := exists_routes g v root kind mode
    refine ⟨E, hE, fun u tgt he hne ⟨hu, ht⟩ => ?_⟩
    obtain ⟨j, hj, hju, hs⟩ := (hb.starting_iff hE u).mpr hu
    obtain ⟨j', hj', hjt, hs'⟩ := (hb.starting_iff hE tgt).mpr ht
    exact hx u tgt he hne j hj j' hj' hju hjt ⟨hs, hs'⟩
  · rintro ⟨E, hE, hn⟩ u tgt he hne j hj j' hj' hju hjt hs
    exact hn u tgt he hne ⟨(hb.starting_iff hE u).mp ⟨j, hj, hju, hs.1⟩,
      (hb.starting_iff hE tgt).mp ⟨j', hj', hjt, hs.2⟩⟩

/-! ## Rivals

`r` wants `a` and `b`, and `a` conflicts with `b`: the start of `b` that `r` asks
for turns its stop into a restart. -/

/-- `r.service` with `Wants=a.service b.service`, `a.service` with
`Conflicts=b.service`. -/
def rivalUnits : IndexMap UnitName UnitSpec := .ofList
  [(svc "r", { UnitSpec.empty (svc "r") with deps := { wants := [svc "a", svc "b"] } }),
   (svc "a", { UnitSpec.empty (svc "a") with deps := { conflicts := [svc "b"] } }),
   (svc "b", UnitSpec.empty (svc "b"))]

/-- The three units are loaded, nothing is active, no job is queued. -/
def rivalView : ManagerView where
  isLoaded := rivalUnits.contains
  isActive := fun _ => false
  allowIsolate := fun _ => false
  existingJobs := []

/-- What `Transaction.build` returns for `start r.service`. -/
def rivalTransaction : Transaction where
  jobs := [⟨⟨1⟩, svc "r", .start, .replace⟩, ⟨⟨2⟩, svc "a", .start, .replace⟩,
    ⟨⟨3⟩, svc "b", .restart, .replace⟩]

theorem rival_build : Transaction.build (DepGraph.build rivalUnits) rivalView .new (svc "r")
    .start .replace = .ok (rivalTransaction, ⟨4⟩) := rfl

theorem exclusive_iff_rivals : Exclusive (DepGraph.build rivalUnits) rivalTransaction ↔
    Unwalked rivalView (svc "r") .start .replace ∨
      NoRivals (DepGraph.build rivalUnits) rivalView (svc "r") .start .replace :=
  exclusive_iff rival_build

/-- Not every transaction keeps conflicting units apart. -/
theorem not_all_exclusive : ¬ ∀ (g : DepGraph) (v : ManagerView) (alloc alloc' : JobIdAlloc)
    (root : UnitName) (kind : JobType) (mode : JobMode) (t : Transaction),
    mode ≠ .ignoreDependencies → Transaction.build g v alloc root kind mode = .ok (t, alloc') →
    Exclusive g t := by
  intro h
  have hx := h _ _ _ _ _ _ _ _ (by decide) rival_build
  exact hx (svc "a") (svc "b") (by decide) (by decide) ⟨⟨2⟩, svc "a", .start, .replace⟩
    (by decide) ⟨⟨3⟩, svc "b", .restart, .replace⟩ (by decide) rfl rfl (by decide)

end Systeml.Deps
