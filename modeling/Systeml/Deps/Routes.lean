import Systeml.Lib.FollowsRoutes
import Systeml.Deps.Merge

/-!
# What a request asks the units for

The requests of a transaction, from the dependency lists alone. `FirstRoutes` says
where in these lists each unit is first asked for something: the first unit of the
root's list comes before what that unit's own list asks for, and this before the
second unit of the root's list. `AskedKinds` reads off what a unit is asked for, in
this order, and `FailsAt` which pulls fail.

The builder asks for just that (`visits_follow`), and its root request succeeds
exactly if it does by the lists (`rootAsk_done_iff_lists`); so the jobs are told by
the lists too (`Built.job_iff`).
-/

namespace Systeml.Deps

open Systeml.Lib Systeml.Unit

/-- The build answers without a walk: a check of an active root, a root that is not
loaded, or one that may not be isolated. -/
def Unwalked (v : ManagerView) (root : UnitName) (kind : JobType) (mode : JobMode) : Prop :=
  (kind = .verifyActive ∧ v.isActive root = true) ∨ v.isLoaded root = false ∨
    (mode = .isolate ∧ v.allowIsolate root = false)

/-- The first request on each unit: its kind and its place in the lists. -/
abbrev Entries := PullSystem.Entries UnitName JobType

section

variable (g : DepGraph) (v : ManagerView) (root : UnitName) (kind : JobType) (mode : JobMode)

/-- The root request and, under `Isolate`, the stops after it. -/
def initialPulls : List (Pull UnitName JobType TransactionError) :=
  .hard root kind ::
    if mode = .isolate then (isolateStops g v root).map fun u => .soft u .stop else []

/-- `E` says for each unit where and for what it is first asked. -/
def FirstRoutes (E : Entries) : Prop :=
  (pullSystem g v mode).FirstRoutes (initialPulls g v root kind mode) E

/-- The kinds that `u` is asked for, in the order of the lists. -/
def AskedKinds (E : Entries) (u : UnitName) (ks : List JobType) : Prop :=
  (pullSystem g v mode).Sequence (initialPulls g v root kind mode) E u ks

/-- The `i`-th pull below `ρ` fails. -/
def FailsAt (E : Entries) (ρ : List Nat) (i : Nat) : Prop :=
  (pullSystem g v mode).Fails (initialPulls g v root kind mode) E ρ i

/-- The pull `p` stands in the list of `u` under the kind that `u` is first asked for,
and no pull before it fails. -/
def OwnPull (E : Entries) (u : UnitName) (p : Pull UnitName JobType TransactionError) : Prop :=
  ∃ k ρ i, E u = some (k, ρ) ∧
    (pullSystem g v mode).Made (initialPulls g v root kind mode) E ρ i p

/-- What `u` is asked for brings it up. -/
def RaisedBy (E : Entries) (u : UnitName) : Prop :=
  ∃ ks, AskedKinds g v root kind mode E u ks ∧ Raised v u ks

end

variable {g : DepGraph} {v : ManagerView} {root : UnitName} {kind : JobType} {mode : JobMode}
  {E : Entries}

theorem initialPulls_requests {u : UnitName} {k : JobType} :
    (∃ p ∈ initialPulls g v root kind mode, p.Requests u k) ↔ Initial g v root kind mode u k := by
  unfold initialPulls Initial
  constructor
  · rintro ⟨p, hp, hr⟩
    rcases List.mem_cons.mp hp with rfl | hp
    · rcases hr with hr | hr <;> simp_all
    · split at hp
      next hm =>
        obtain ⟨n, hn, rfl⟩ := List.mem_map.mp hp
        rcases hr with hr | hr <;> simp_all
      next => simp at hp
  · rintro (⟨rfl, rfl⟩ | ⟨hm, hu, rfl⟩)
    · exact ⟨_, List.mem_cons_self, .inl rfl⟩
    · refine ⟨.soft u .stop, List.mem_cons_of_mem _ ?_, .inr rfl⟩
      rw [if_pos hm]
      exact List.mem_map.mpr ⟨u, hu, rfl⟩

variable (g v root kind mode) in
/-- Every request has first routes. -/
theorem exists_routes : ∃ E, FirstRoutes g v root kind mode E := by
  refine PullSystem.exists_firstRoutes (U := root :: g.nodes.elems) ?_ ?_
  · intro a k p hp b j hr
    exact List.mem_cons_of_mem _ (expansion_requests (pulls_sub_expansion hp) hr).1
  · intro p hp b j hr
    rcases initialPulls_requests.mp ⟨p, hp, hr⟩ with ⟨rfl, -⟩ | ⟨-, hb, -⟩
    · exact List.mem_cons_self
    · exact List.mem_cons_of_mem _ (isolateStops_sub hb)

/-! ## The walk of the builder -/

/-- Once the root request is done, the stops of `Isolate` cannot fail. -/
theorem runPulls_initial (hdone : (rootAsk g v root kind mode).1 = .done) :
    runPulls ((pullSystem g v mode).ask (visitLabels _ _) (fuel g)) (initialPulls g v root kind mode)
      .empty = (.done, visits g v root kind mode) := by
  have hstops : ∀ (l : List UnitName) (m : IndexMap UnitName (Visit JobType)),
      (∀ u ∈ l, u ∈ isolateStops g v root) →
      runPulls ((pullSystem g v mode).ask (visitLabels _ _) (fuel g))
        (l.map fun u => .soft u .stop) m =
        (.done, l.foldl (fun m u => ((pullSystem g v mode).ask (visitLabels _ _) (fuel g) u .stop m).2)
          m) := by
    intro l
    induction l with
    | nil => exact fun m _ => rfl
    | cons u l ih =>
      intro m hl
      have hu := hl u List.mem_cons_self
      rw [List.map_cons, runPulls_soft (ask_has_fuel root _ (Or.inr (isolateStops_sub hu)) _ _)]
      exact ih _ fun n hn => hl n (List.mem_cons_of_mem u hn)
  unfold initialPulls
  rw [runPulls_hard_done hdone]
  unfold visits
  simp only
  split
  next hm =>
    rw [hstops _ _ fun _ h => h, hm, pullSystem_isolate]
    rfl
  next => rfl

/-- **The walk asks what the lists say.** -/
theorem visits_follow (hE : FirstRoutes g v root kind mode E)
    (hdone : (rootAsk g v root kind mode).1 = .done) :
    (∀ u, AskedKinds g v root kind mode E u (kindsAt (visits g v root kind mode) u)) ∧
      ∀ {u k ρ n}, E u = some (k, ρ) → FailsAt g v root kind mode E ρ n →
        PullSystem.Cut (visits g v root kind mode) u := by
  obtain ⟨hseq, hcut, -⟩ := PullSystem.runPulls_follows hE (runPulls_initial hdone) (by simp)
  exact ⟨hseq, hcut⟩

theorem FailsAt.block {ρ : List Nat} {i : Nat} (h : FailsAt g v root kind mode E ρ i) :
    ∃ ps, (pullSystem g v mode).Block (initialPulls g v root kind mode) E ρ ps := by
  cases h with
  | abort hb _ | rejected hb _ _ | inner hb _ _ _ => exact ⟨_, hb⟩

/-- The stops of `Isolate` do not fail. -/
theorem not_failsAt_stop (hE : FirstRoutes g v root kind mode E) {n : Nat} :
    ¬ FailsAt g v root kind mode E [] (n + 1) := by
  intro hf
  have hlist : ∀ p, (initialPulls g v root kind mode)[n + 1]? = some p →
      ∃ u, p = .soft u .stop := by
    intro p hp
    unfold initialPulls at hp
    rw [List.getElem?_cons_succ] at hp
    split at hp
    next =>
      obtain ⟨u, -, rfl⟩ := List.mem_map.mp (List.mem_of_getElem? hp)
      exact ⟨u, rfl⟩
    next => simp at hp
  have hblock : ∀ {ps}, (pullSystem g v mode).Block (initialPulls g v root kind mode) E [] ps →
      ps = initialPulls g v root kind mode := fun hb => hE.block_unique _ rfl hb .top
  cases hf with
  | abort hb hp | rejected hb hp _ | inner hb hp _ _ =>
    obtain ⟨u, hu⟩ := hlist _ (hblock hb ▸ hp)
    simp at hu

theorem rootAsk_done_iff_lists (hE : FirstRoutes g v root kind mode E) :
    (rootAsk g v root kind mode).1 = .done ↔ ¬ FailsAt g v root kind mode E [] 0 := by
  constructor
  · intro hdone hf
    obtain ⟨-, -, hfails⟩ := PullSystem.runPulls_follows hE (runPulls_initial hdone) (by simp)
    exact hfails.mpr ⟨0, hf⟩ rfl
  · intro hno
    by_contra hd
    have hstop : runPulls ((pullSystem g v mode).ask (visitLabels _ _) (fuel g))
        (initialPulls g v root kind mode) .empty = rootAsk g v root kind mode :=
      runPulls_hard_stop hd
    obtain ⟨-, -, hfails⟩ := PullSystem.runPulls_follows hE hstop rootAsk_fuel
    obtain ⟨n, hn⟩ := hfails.mp hd
    cases n with
    | zero => exact hno hn
    | succ n => exact not_failsAt_stop hE hn

/-- Every unit has a sequence of kinds that it is asked for, possibly empty. -/
theorem exists_askedKinds (hE : FirstRoutes g v root kind mode E) (u : UnitName) :
    ∃ ks, AskedKinds g v root kind mode E u ks := by
  by_cases hd : (rootAsk g v root kind mode).1 = .done
  · exact ⟨_, (visits_follow hE hd).1 u⟩
  · have hstop : runPulls ((pullSystem g v mode).ask (visitLabels _ _) (fuel g))
        (initialPulls g v root kind mode) .empty = rootAsk g v root kind mode :=
      runPulls_hard_stop hd
    exact ⟨_, (PullSystem.runPulls_follows hE hstop rootAsk_fuel).1 u⟩

/-! ## The jobs of a transaction -/

/-- What is built without a walk is empty. -/
theorem built_or_empty {alloc alloc' : JobIdAlloc} {t : Transaction}
    (h : Transaction.build g v alloc root kind mode = .ok (t, alloc')) :
    (Unwalked v root kind mode ∧ t = {}) ∨
      (¬ Unwalked v root kind mode ∧ Built g v alloc root kind mode t) := by
  by_cases hun : Unwalked v root kind mode
  · refine .inl ⟨hun, ?_⟩
    unfold Transaction.build at h
    split at h
    next => exact (Prod.mk.inj (Except.ok.inj h)).1.symm
    next hcol =>
      split at h
      next => exact absurd h (by simp)
      next hl =>
        split at h
        next => exact absurd h (by simp)
        next hiso => exact absurd hun (by rintro (h | h | h) <;> contradiction)
  · exact .inr ⟨hun, (build_ok h).resolve_left fun hc => hun (.inl ⟨hc.1, hc.2.1⟩)⟩

theorem get?_of_kindsAt {m : IndexMap UnitName (Visit JobType)} {u : UnitName}
    {vis : Visit JobType} (h : m.get? u = some vis) : kindsAt m u = vis.kinds := by
  unfold kindsAt
  rw [h]
  rfl

/-- A unit has the job that the kinds it is asked for merge to. -/
theorem Built.job_iff {alloc : JobIdAlloc} {t : Transaction}
    (hb : Built g v alloc root kind mode t) (hE : FirstRoutes g v root kind mode E)
    (p : JobType → Prop) (u : UnitName) : (∃ j ∈ t.jobs, j.unit = u ∧ p j.kind) ↔
      ∃ ks, AskedKinds g v root kind mode E u ks ∧ ks ≠ [] ∧ p (mergeAll v u ks) := by
  obtain ⟨hseq, -⟩ := visits_follow hE hb.asked
  rw [hb.jobs_iff p u]
  constructor
  · rintro ⟨vis, hvis, hp⟩
    refine ⟨vis.kinds, get?_of_kindsAt hvis ▸ hseq u, by simp [Visit.kinds], ?_⟩
    rwa [← kindOf_eq_mergeAll]
  · rintro ⟨ks, hks, hne, hp⟩
    obtain rfl := hks.unique (hseq u)
    obtain ⟨vis, hvis⟩ := IndexMap.mem_keys.mp (mem_keys_iff_kindsAt.mpr hne)
    refine ⟨vis, hvis, ?_⟩
    rw [get?_of_kindsAt hvis] at hp
    rwa [kindOf_eq_mergeAll]

/-- The visit of a unit that is asked for something. -/
theorem AskedKinds.visit (hdone : (rootAsk g v root kind mode).1 = .done)
    (hE : FirstRoutes g v root kind mode E) {u : UnitName} {ks : List JobType}
    (h : AskedKinds g v root kind mode E u ks) (hne : ks ≠ []) :
    ∃ vis, (visits g v root kind mode).get? u = some vis ∧ vis.kinds = ks := by
  obtain rfl := h.unique ((visits_follow hE hdone).1 u)
  obtain ⟨vis, hvis⟩ := IndexMap.mem_keys.mp (mem_keys_iff_kindsAt.mpr hne)
  exact ⟨vis, hvis, (get?_of_kindsAt hvis).symm⟩

/-- It begins with the kind of the unit's first route. -/
theorem AskedKinds.entry (hE : FirstRoutes g v root kind mode E) {u : UnitName}
    {vis : Visit JobType} (h : AskedKinds g v root kind mode E u vis.kinds) :
    ∃ ρ, E u = some (vis.first, ρ) := by
  obtain ⟨π, hπ⟩ := h.mem_iff.mp (List.mem_cons_self ..)
  obtain ⟨k, ρ, he, -⟩ := hE.least hπ
  obtain ⟨rest, hrest⟩ := h.first hE he
  exact ⟨ρ, (List.cons.inj hrest).1 ▸ he⟩

theorem OwnPull.mem {u : UnitName} {p : Pull UnitName JobType TransactionError}
    (hE : FirstRoutes g v root kind mode E) (h : OwnPull g v root kind mode E u p) :
    ∃ k, p ∈ (pullSystem g v mode).pulls u k := by
  obtain ⟨k, ρ, i, he, ⟨⟨ps, hb, hp⟩, -⟩⟩ := h
  obtain rfl := hE.block_unique _ rfl hb (.node he)
  exact ⟨k, List.mem_of_getElem? hp⟩

/-- What a unit pulls is asked for. -/
theorem OwnPull.asked {u b : UnitName} {j : JobType}
    {p : Pull UnitName JobType TransactionError} (h : OwnPull g v root kind mode E u p)
    (hl : v.isLoaded b = true) (hr : p.Requests b j) {ks : List JobType}
    (hks : AskedKinds g v root kind mode E b ks) : j ∈ ks := by
  obtain ⟨k, ρ, i, -, hm⟩ := h
  exact hks.mem_iff.mpr ⟨_, hm.asked (reject_eq_none.mpr hl) hr⟩

theorem raised_ne_nil {u : UnitName} {ks : List JobType} (h : Raised v u ks) : ks ≠ [] := by
  rintro rfl
  exact not_raised_reload (fun k hk => absurd hk (by simp)) h

/-- The units with a starting job are those that are raised. -/
theorem Built.starting_iff {alloc : JobIdAlloc} {t : Transaction}
    (hb : Built g v alloc root kind mode t) (hE : FirstRoutes g v root kind mode E)
    (u : UnitName) : (∃ j ∈ t.jobs, j.unit = u ∧ j.kind.isStarting = true) ↔
      RaisedBy g v root kind mode E u := by
  rw [hb.job_iff hE (·.isStarting = true) u]
  refine exists_congr fun ks => and_congr_right fun hks => ?_
  constructor
  · rintro ⟨hne, hs⟩
    obtain ⟨vis, hvis, rfl⟩ := hks.visit hb.asked hE hne
    rw [← kindOf_eq_mergeAll] at hs
    exact (kindOf_starting_iff hvis).mp hs
  · intro hr
    have hne := raised_ne_nil hr
    obtain ⟨vis, hvis, rfl⟩ := hks.visit hb.asked hE hne
    rw [← kindOf_eq_mergeAll]
    exact ⟨hne, (kindOf_starting_iff hvis).mpr hr⟩

end Systeml.Deps
