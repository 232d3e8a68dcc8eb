import Systeml.Lib.VisitRun
import Systeml.Deps.Requests

/-!
# The expansion ends

The builder expands a unit only when its job is new, so the walk ends on every
graph, with cycles of every kind of edge: `add_job_and_deps` has a finite run
from every map of jobs, and so have the stops of `add_isolate_stops` and the
closure they are computed from. A run expands the units it adds jobs for, each
once, and a swallowed failure leaves their jobs in the map, where they keep
stopping the walk.
-/

namespace Systeml.Deps

open Systeml.Lib Systeml.Unit

variable (g : DepGraph) (v : ManagerView)

/-- The loop of `add_isolate_stops`: a stop for each unit, failures ignored. -/
def stopPulls (root : UnitName) : List (Pull UnitName JobType TransactionError) :=
  (isolateStops g v root).map fun n => .soft n .stop

/-- The closure has a finite run, and it expands no unit twice. -/
def ClosesOnce (root : UnitName) : Prop :=
  ∃ log, ClosureEnds (closureSucc g) [root] .empty (depClosure g root) log ∧ log.Nodup

variable {g v}

theorem addJobAndDeps_ends (mode : JobMode) (unit : UnitName) (kind : JobType)
    (jobs : IndexMap UnitName Job) :
    ∃ log, (pullSystem g v mode).Ends (jobLabels v mode) (.ask unit kind) jobs
      (addJobAndDeps g v mode unit kind jobs).1.error? (addJobAndDeps g v mode unit kind jobs).2
      log :=
  PullSystem.ends_of_ask (fuel g) unit kind jobs
    (ask_has_fuel unit (jobLabels v mode) (Or.inl rfl) kind jobs)

theorem foldl_stops_ends : ∀ (ns : List UnitName) (jobs : IndexMap UnitName Job),
    ∃ log, (pullSystem g v .replace).Ends (jobLabels v .replace)
      (.pulls (ns.map fun n => .soft n .stop)) jobs none
      (ns.foldl (fun jobs n => (addJobAndDeps g v .replace n .stop jobs).2) jobs) log
  | [], jobs => ⟨[], .done⟩
  | n :: ns, jobs => by
    obtain ⟨log₁, hask⟩ := addJobAndDeps_ends (g := g) (v := v) .replace n .stop jobs
    obtain ⟨log₂, hrest⟩ := foldl_stops_ends ns (addJobAndDeps g v .replace n .stop jobs).2
    exact ⟨log₁ ++ log₂, .soft hask hrest⟩

theorem depClosure_ends (root : UnitName) : ClosesOnce g root := by
  have hU : ∀ a ∈ root :: g.nodes.elems, ∀ b ∈ closureSucc g a, b ∈ root :: g.nodes.elems := by
    intro a _ b hb
    obtain ⟨x, hx, rfl⟩ := List.mem_map.mp hb
    exact List.mem_cons_of_mem _ (DepGraph.mem_nodes_of_outgoing (List.mem_of_mem_filter hx))
  obtain ⟨log, hrun⟩ := closureEnds_root (List.mem_cons_self ..) hU
  have hnod := (depClosure g root).nodup
  have helems : (depClosure g root).elems = log := hrun.elems
  rw [helems] at hnod
  exact ⟨log, hrun, hnod⟩

/-- **Transaction expansion always ends**, from every map of jobs, and expands a
unit at most once. -/
theorem expansion_ends (g : DepGraph) (v : ManagerView) (mode : JobMode) (unit : UnitName)
    (kind : JobType) (jobs : IndexMap UnitName Job) :
    (pullSystem g v mode).ExpandsOnce (jobLabels v mode) (.ask unit kind) jobs
      (addJobAndDeps g v mode unit kind jobs).1.error? (addJobAndDeps g v mode unit kind jobs).2 ∧
    ClosesOnce g unit ∧
    (pullSystem g v .replace).ExpandsOnce (jobLabels v .replace) (.pulls (stopPulls g v unit)) jobs
      none (addIsolateStops g v unit jobs) := by
  obtain ⟨log, hask⟩ := addJobAndDeps_ends (g := g) (v := v) mode unit kind jobs
  obtain ⟨log', hstops⟩ := foldl_stops_ends (g := g) (v := v) (isolateStops g v unit) jobs
  exact ⟨hask.expandsOnce, depClosure_ends unit, hstops.expandsOnce⟩

end Systeml.Deps
