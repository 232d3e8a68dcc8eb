import Systeml.Lib.SoftPhase
import Systeml.Deps.LoadOrder
import Systeml.Deps.StopClosure

/-!
# What isolating stops

After the expansion of the root, `Isolate` queues a stop for every active unit
outside of its closure. The stops go through the same expander as every other
request, so they spread: to what is bound to a stopped unit or part of it, even if
it is to be ignored, and along `PropagatesStopTo=`, even into the closure.

The stops are a phase of soft requests, so the units they reach are the swept ones.
`isolateExact_iff`: isolating adds the stops of the outside units and nothing else
exactly when every other swept unit stops or restarts anyway.
-/

namespace Systeml.Deps

open Systeml.Lib Systeml.Unit

variable {g : DepGraph} {v : ManagerView} {root : UnitName}

/-- The outside units have stop jobs, and every other unit has the job that it has
among the jobs of a `Replace`. -/
def IsolateExact (g : DepGraph) (v : ManagerView) (root : UnitName) (t : Transaction)
    (replaced : IndexMap UnitName Job) : Prop :=
  (∀ u ∈ isolateStops g v root, (u, .stop) ∈ t.jobs.map Job.pair) ∧
    ∀ u, u ∉ isolateStops g v root → ∀ k, (u, k) ∈ t.jobs.map Job.pair ↔
      (replaced.get? u).map Job.kind = some k

/-- The units that the stops reach: the outside units, and what the stop of a unit
spreads to that has no job in a `Replace`. -/
inductive SweptByStops (g : DepGraph) (v : ManagerView) (root : UnitName) : UnitName → Prop
  | stop {u : UnitName} (h : u ∈ isolateStops g v root) : SweptByStops g v root u
  | spread {u s : UnitName} (h : SweptByStops g v root u)
      (hnew : u ∉ (visits g v root .start .replace).keys) (hs : SpreadsStop g u s)
      (hl : v.isLoaded s = true) : SweptByStops g v root s

/-- Every swept unit is an outside unit, or the requests of a `Replace` stop or
restart it. -/
def SweepConfined (g : DepGraph) (v : ManagerView) (root : UnitName) : Prop :=
  ∀ u, SweptByStops g v root u →
    u ∈ isolateStops g v root ∨ EndsStopping v (visits g v root .start .replace) u

/-! ## The stops as a phase -/

theorem visits_isolate : visits g v root .start .isolate =
    (pullSystem g v .replace).phase .stop (fuel g) (isolateStops g v root)
      (visits g v root .start .replace) := by
  unfold visits rootAsk PullSystem.phase
  simp only [if_true, reduceCtorEq, if_false]
  rw [pullSystem_isolate]

theorem isLoaded_of_isolateStops {u : UnitName} (h : u ∈ isolateStops g v root) :
    v.isLoaded u = true := by
  have hc := (List.mem_filter.mp h).2
  simp only [Bool.and_eq_true] at hc
  exact hc.1.1.1

theorem pulled_iff_spreads {u s : UnitName} (hl : v.isLoaded s = true) :
    .soft s .stop ∈ (pullSystem g v .replace).pulls u .stop ↔ SpreadsStop g u s := by
  refine ⟨fun hp => ?_, fun h => ?_⟩
  · rcases List.mem_append.mp (pulls_sub_expansion hp) with hp | hp
    · obtain ⟨⟨e, n⟩, he, hp⟩ := List.mem_filterMap.mp hp
      obtain ⟨hsel, rfl, -⟩ := softPull_some hp (Or.inr rfl)
      refine Or.inl ⟨e, he, ?_⟩
      cases e <;> simp_all [DepEdge.stopsSource]
    · obtain ⟨⟨e, n⟩, he, hp⟩ := List.mem_filterMap.mp hp
      obtain ⟨hsel, rfl, -⟩ := softPull_some hp (Or.inr rfl)
      obtain rfl : e = .propagatesStopTo := by simpa using hsel
      exact Or.inr he
  · exact spread_pulled h hl

/-- The swept units are those of the phase. -/
theorem swept_iff {u : UnitName} : Swept (pullSystem g v .replace) .stop
    (visits g v root .start .replace) (isolateStops g v root) u ↔ SweptByStops g v root u := by
  constructor
  · intro h
    induction h with
    | base h _ => exact .stop h
    | spread _ hnew hp hrej ih =>
      have hl := reject_eq_none.mp hrej
      exact .spread ih hnew ((pulled_iff_spreads hl).mp hp) hl
  · intro h
    induction h with
    | stop h => exact .base h (reject_eq_none.mpr (isLoaded_of_isolateStops h))
    | spread _ hnew hs hl ih =>
      exact .spread ih hnew ((pulled_iff_spreads hl).mpr hs) (reject_eq_none.mpr hl)

theorem isolate_asked {u : UnitName} (h : SweptByStops g v root u) :
    LastAsked .stop (visits g v root .start .isolate) u := by
  rw [visits_isolate]
  exact PullSystem.phase_asked stop_softOnly
    (fun a ha m => ask_has_fuel root _ (Or.inr (isolateStops_sub ha)) _ _) (swept_iff.mpr h)

theorem isolate_frame {u : UnitName} (h : ¬ SweptByStops g v root u) :
    (visits g v root .start .isolate).get? u = (visits g v root .start .replace).get? u := by
  rw [visits_isolate]
  exact PullSystem.phase_frame stop_softOnly _ _ (mt swept_iff.mp h)

theorem isolate_gains :
    Gains .stop (visits g v root .start .replace) (visits g v root .start .isolate) := by
  rw [visits_isolate]
  exact PullSystem.phase_kinds stop_softOnly _ _ _

/-! ## What a swept unit ends with -/

/-- The kind that the requests on a unit merge to. -/
def kindAt (v : ManagerView) (m : IndexMap UnitName (Visit JobType)) (u : UnitName) : JobType :=
  mergeAll v u (kindsAt m u)

theorem kindAt_of_get {m : IndexMap UnitName (Visit JobType)} {u : UnitName}
    {vis : Visit JobType} (h : m.get? u = some vis) : kindAt v m u = kindOf v u vis := by
  rw [kindOf_eq_mergeAll]
  unfold kindAt kindsAt
  rw [h]
  rfl

/-- Merging a stop once or more often is the same. -/
theorem mergeNext_stop (u : UnitName) (a : JobType) : mergeNext v u a .stop =
    if a = .start ∨ a = .restart then .restart else .stop := by
  rw [mergeNext, collapse_of_ne (by simp)]
  cases a <;> rfl

theorem mergeAll_stops {u : UnitName} {l : List JobType} (n : Nat) :
    mergeAll v u (l ++ List.replicate (n + 1) .stop) = mergeNext v u (mergeAll v u l) .stop := by
  induction n with
  | zero => exact mergeAll_snoc l .stop
  | succ n ih =>
    rw [List.replicate_succ', ← List.append_assoc, mergeAll_snoc, ih, mergeNext_stop,
      mergeNext_stop]
    split <;> simp

/-- A swept unit ends with its kind in a `Replace` and a stop merged in. -/
theorem kindAt_of_swept {u : UnitName} (h : SweptByStops g v root u) :
    kindAt v (visits g v root .start .isolate) u =
      mergeNext v u (kindAt v (visits g v root .start .replace) u) .stop := by
  have hgains : Gains .stop (visits g v root .start .replace) (visits g v root .start .isolate) :=
    isolate_gains
  obtain ⟨n, hn⟩ := hgains u
  obtain ⟨l, hl⟩ := isolate_asked h
  unfold kindAt
  cases n with
  | succ n => rw [hn, mergeAll_stops]
  | zero =>
    -- it was not asked again, and its last request was a stop
    simp only [List.replicate_zero, List.append_nil] at hn
    rw [← hn, hl, mergeAll_snoc, mergeNext_stop, mergeNext_stop]
    split <;> simp

/-! ## The outside units -/

theorem closure_step {a b : UnitName} {e : DepEdge} (ha : a ∈ (depClosure g root).elems)
    (he : (e, b) ∈ g.outgoing a) (hc : closureEdge e = true) : b ∈ (depClosure g root).elems := by
  refine mem_depClosure.mpr ((mem_depClosure.mp ha).tail ?_)
  exact List.mem_map.mpr ⟨(e, b), List.mem_filter.mpr ⟨he, hc⟩, rfl⟩

/-- Outside of its closure, a start asks for nothing but stops. -/
theorem derives_outside {u : UnitName} {k : JobType} (h : Derives g v root .start u k) :
    k = .stop ∨ ((k = .start ∨ k = .verifyActive) ∧ u ∈ (depClosure g root).elems) := by
  have hexp : ∀ {a : UnitName} {k : JobType}, StartExpands v a k → k = .stop ∨
      ((k = .start ∨ k = .verifyActive) ∧ a ∈ (depClosure g root).elems) →
      a ∈ (depClosure g root).elems := by
    rintro a k hk (rfl | ⟨-, ha⟩)
    · exact absurd hk (by simp [StartExpands, JobType.isStarting])
    · exact ha
  induction h with
  | root => exact Or.inr ⟨Or.inl rfl, mem_depClosure.mpr .refl⟩
  | @start a b k e _ hk he hp ih =>
    have hc : closureEdge e = true := by cases e <;> simp_all [DepEdge.pullsStart, closureEdge]
    exact Or.inr ⟨Or.inl rfl, closure_step (hexp hk ih) he hc⟩
  | verify _ hk he ih => exact Or.inr ⟨Or.inr rfl, closure_step (hexp hk ih) he rfl⟩
  | conflict | stopSource | stopTarget => exact Or.inl rfl
  | restart _ hk _ ih =>
    rcases hk with rfl | ⟨rfl, -⟩ <;> exact absurd ih (by simp)
  | reload _ _ ih => exact absurd ih (by simp)

/-- An outside unit ends with a stop. -/
theorem kindAt_of_outside {u : UnitName} (h : u ∈ isolateStops g v root) :
    kindAt v (visits g v root .start .isolate) u = .stop := by
  have hout : u ∉ (depClosure g root).elems := by
    have hc := (List.mem_filter.mp h).2
    simp only [Bool.and_eq_true, Bool.not_eq_true'] at hc
    simpa [IndexSet.contains] using hc.1.1.2
  have hstops : ∀ k ∈ kindsAt (visits g v root .start .replace) u, k = .reload ∨ k = .stop := by
    intro k hk
    unfold kindsAt at hk
    cases hvis : (visits g v root .start .replace).get? u with
    | none =>
      rw [hvis] at hk
      exact absurd hk (by simp)
    | some vis =>
      rw [hvis] at hk
      have hd := derives_of_requested (by simp) (visits_requested u k ⟨vis, hvis, hk⟩).1
      exact Or.inr ((derives_outside hd).resolve_right fun hc => hout hc.2)
  rw [kindAt_of_swept (.stop h), mergeNext_stop, if_neg]
  unfold kindAt
  rcases mergeAll_reload (v := v) (u := u) hstops with h | h | h <;> rw [h] <;> simp

/-! ## Exactly the outside units -/

/-- The job that a unit has by the visits of a walk. -/
theorem job_iff_kindAt {m : IndexMap UnitName (Visit JobType)} {u : UnitName} {k : JobType} :
    (∃ vis, m.get? u = some vis ∧ kindOf v u vis = k) ↔ u ∈ m.keys ∧ kindAt v m u = k := by
  rw [IndexMap.mem_keys]
  constructor
  · rintro ⟨vis, hvis, rfl⟩
    exact ⟨⟨vis, hvis⟩, kindAt_of_get hvis⟩
  · rintro ⟨⟨vis, hvis⟩, rfl⟩
    exact ⟨vis, hvis, (kindAt_of_get hvis).symm⟩

theorem endsStopping_iff_kindAt {m : IndexMap UnitName (Visit JobType)} {u : UnitName} :
    EndsStopping v m u ↔ u ∈ m.keys ∧ Stopping (kindAt v m u) := by
  constructor
  · rintro ⟨vis, hvis, hs⟩
    exact ⟨IndexMap.mem_keys.mpr ⟨vis, hvis⟩, by rwa [kindAt_of_get hvis]⟩
  · rintro ⟨hk, hs⟩
    obtain ⟨vis, hvis⟩ := IndexMap.mem_keys.mp hk
    exact ⟨vis, hvis, by rwa [kindAt_of_get hvis] at hs⟩

/-- Sweeping a unit changes nothing exactly when its requests stop or restart it
anyway. -/
theorem same_iff_endsStopping {u : UnitName} (h : SweptByStops g v root u) :
    (∀ k, (u ∈ (visits g v root .start .isolate).keys ∧
        kindAt v (visits g v root .start .isolate) u = k) ↔
      (u ∈ (visits g v root .start .replace).keys ∧
        kindAt v (visits g v root .start .replace) u = k)) ↔
      EndsStopping v (visits g v root .start .replace) u := by
  have hkeys : u ∈ (visits g v root .start .isolate).keys := by
    obtain ⟨l, hl⟩ := isolate_asked h
    exact mem_keys_iff_kindsAt.mpr (by simp [hl])
  rw [endsStopping_iff_kindAt, kindAt_of_swept h, mergeNext_stop]
  simp only [hkeys, true_and]
  constructor
  · intro hsame
    obtain ⟨hk, he⟩ := (hsame _).mp rfl
    refine ⟨hk, ?_⟩
    rw [he]
    split
    · exact Or.inr rfl
    · exact Or.inl rfl
  · rintro ⟨hk, hs⟩ k
    rcases hs with hs | hs <;> rw [hs] <;> simp [hk]

/-- **Isolate, exactly.** An isolating start adds the stops of the outside units to
the jobs of a replacing one, and nothing else, if and only if every other unit that
these stops reach is stopped or restarted by the replacing one. -/
theorem isolateExact_iff {alloc alloc' : JobIdAlloc} {t : Transaction}
    (h : Transaction.build g v alloc root .start .isolate = .ok (t, alloc')) :
    ∃ replaced, expand g v root .start .replace = .ok replaced ∧
      (IsolateExact g v root t replaced ↔ SweepConfined g v root) := by
  have hb : Built g v alloc root .start .isolate t := (build_ok h).resolve_left (by simp)
  have hdone : (rootAsk g v root .start .replace).1 = .done := by
    have hd := hb.asked
    unfold rootAsk at hd ⊢
    rwa [pullSystem_isolate] at hd
  rcases expand_spec g v root .start .replace with ⟨e, he, -⟩ | ⟨-, replaced, hx, hag⟩
  · exact absurd (he.symm.trans hdone) (by simp)
  refine ⟨replaced, hx, ?_⟩
  have hjobs : ∀ u k, (u, k) ∈ t.jobs.map Job.pair ↔
      u ∈ (visits g v root .start .isolate).keys ∧
        kindAt v (visits g v root .start .isolate) u = k :=
    fun u k => (hb.kinds u k).trans job_iff_kindAt
  have hrep : ∀ u k, (replaced.get? u).map Job.kind = some k ↔
      u ∈ (visits g v root .start .replace).keys ∧
        kindAt v (visits g v root .start .replace) u = k := by
    intro u k
    rw [← job_iff_kindAt]
    have hp := congrArg (Option.map Prod.snd) (hag.get? u)
    rw [Option.map_map, Option.map_map] at hp
    rw [show Job.kind = Prod.snd ∘ Job.pair from rfl, hp]
    simp
  have hstops : ∀ u ∈ isolateStops g v root, (u, .stop) ∈ t.jobs.map Job.pair := fun u hu => by
    obtain ⟨l, hl⟩ := isolate_asked (.stop hu)
    exact (hjobs u .stop).mpr ⟨mem_keys_iff_kindsAt.mpr (by simp [hl]), kindAt_of_outside hu⟩
  unfold IsolateExact SweepConfined
  simp only [hjobs, hrep] at hstops ⊢
  constructor
  · rintro ⟨-, hsame⟩ u hu
    by_cases hout : u ∈ isolateStops g v root
    · exact Or.inl hout
    · exact Or.inr ((same_iff_endsStopping hu).mp (hsame u hout))
  · intro hc
    refine ⟨hstops, fun u hout => ?_⟩
    by_cases hu : SweptByStops g v root u
    · exact (same_iff_endsStopping hu).mpr ((hc u hu).resolve_left hout)
    · intro k
      rw [← job_iff_kindAt, ← job_iff_kindAt, isolate_frame hu]

/-! ## An ignored unit that is stopped

`r` may isolate, `q` is active and outside of its closure, and `i` is to be ignored
but part of `q`. -/

/-- `r.service` with `AllowIsolate=yes`, `q.service`, and `i.service` with
`IgnoreOnIsolate=yes` and `PartOf=q.service`. -/
def ignoredUnits : IndexMap UnitName UnitSpec := .ofList
  [(svc "r", { UnitSpec.empty (svc "r") with allowIsolate := true }),
   (svc "q", UnitSpec.empty (svc "q")),
   (svc "i", { UnitSpec.empty (svc "i") with
      ignoreOnIsolate := true, deps := { partOf := [svc "q"] } })]

/-- The three units are loaded, `q.service` is active, no job is queued. -/
def ignoredView : ManagerView where
  isLoaded := ignoredUnits.contains
  isActive := fun n => n = svc "q"
  allowIsolate := fun n => n = svc "r"
  existingJobs := []

/-- What `Transaction.build` returns for an isolating `start r.service`. -/
def ignoredTransaction : Transaction where
  jobs := [⟨⟨1⟩, svc "r", .start, .isolate⟩, ⟨⟨2⟩, svc "q", .stop, .isolate⟩,
    ⟨⟨3⟩, svc "i", .stop, .isolate⟩]

theorem ignored_build : Transaction.build (DepGraph.build ignoredUnits) ignoredView .new
    (svc "r") .start .isolate = .ok (ignoredTransaction, ⟨4⟩) := rfl

theorem isolateExact_iff_ignored : ∃ replaced,
    expand (DepGraph.build ignoredUnits) ignoredView (svc "r") .start .replace = .ok replaced ∧
      (IsolateExact (DepGraph.build ignoredUnits) ignoredView (svc "r") ignoredTransaction
        replaced ↔ SweepConfined (DepGraph.build ignoredUnits) ignoredView (svc "r")) :=
  isolateExact_iff ignored_build

/-- Isolating does more than to add the outside stops. -/
theorem not_all_isolateExact : ¬ ∀ (g : DepGraph) (v : ManagerView) (alloc alloc' : JobIdAlloc)
    (root : UnitName) (t : Transaction) (replaced : IndexMap UnitName Job),
    Transaction.build g v alloc root .start .isolate = .ok (t, alloc') →
    expand g v root .start .replace = .ok replaced → IsolateExact g v root t replaced := by
  intro h
  have hx : expand (DepGraph.build ignoredUnits) ignoredView (svc "r") .start .replace =
      .ok (.ofList [(svc "r", ⟨.placeholder, svc "r", .start, .replace⟩)]) := rfl
  obtain ⟨-, hsame⟩ := h _ _ _ _ _ _ _ ignored_build hx
  have hjob := (hsame (svc "i") (by decide) .stop).mp (by decide)
  exact absurd hjob (by decide)

end Systeml.Deps
