import Systeml.Deps.Transaction

/-!
# The requests a transaction makes

The walk of the builder, with every request kept. `visits` is the visit
labelling of the root request and, under `Isolate`, of the stops after it; the
job of a unit has the merge of the kinds the unit was asked for (`expand_spec`).

Every node whose expansion ran to the end has its pulls honoured
(`visits_carried`), only requests derived from the root request and the stops
are made (`visits_requested`), and the walk never runs out of fuel
(`rootAsk_fuel`). Once a unit was asked to start it ends with a starting kind,
whatever else it was asked for (`starting_of_start_request`).
-/

namespace Systeml.Deps

open Systeml.Lib Systeml.Unit

variable (g : DepGraph) (v : ManagerView)

/-- The root request with its visits. -/
def rootAsk (root : UnitName) (kind : JobType) (mode : JobMode) :
    Outcome TransactionError × IndexMap UnitName (Visit JobType) :=
  (pullSystem g v mode).ask (visitLabels _ _) (fuel g) root kind .empty

/-- The visits of the root request and, under `Isolate`, of the stops. -/
def visits (root : UnitName) (kind : JobType) (mode : JobMode) :
    IndexMap UnitName (Visit JobType) :=
  let m := (rootAsk g v root kind mode).2
  if mode = .isolate then
    (isolateStops g v root).foldl
      (fun m n => ((pullSystem g v .replace).ask (visitLabels _ _) (fuel g) n .stop m).2) m
  else m

/-- The kind a unit ends with: the kinds it was asked for, merged in order. -/
def kindOf (u : UnitName) (vis : Visit JobType) : JobType :=
  vis.later.foldl (fun a k => mergeKinds a (collapse v u k)) (collapse v u vis.first)

/-- The requests the walk starts from. -/
def Initial (root : UnitName) (kind : JobType) (mode : JobMode) (u : UnitName)
    (k : JobType) : Prop :=
  (u = root ∧ k = kind) ∨ (mode = .isolate ∧ u ∈ isolateStops g v root ∧ k = .stop)

variable {g v}

/-! ## What is pulled -/

/-- The kinds a unit entered under `k` asks for. -/
def KindPulls (k j : JobType) : Prop :=
  match k with
  | .reload => j = .reload
  | .stop => j = .stop
  | _ => j = .start ∨ j = .verifyActive ∨ j = .stop ∨ j = .tryRestart

theorem startPull_requests {x : DepEdge × UnitName} {b : UnitName} {j : JobType}
    {p : Pull UnitName JobType TransactionError} (hp : startPull v x = some p)
    (hr : p.Requests b j) : b = x.2 ∧ (j = .start ∨ j = .verifyActive ∨ j = .stop) := by
  unfold startPull at hp
  unfold Pull.Requests at hr
  split at hp <;> (try split at hp) <;> simp only [Option.some.injEq, reduceCtorEq] at hp <;>
    subst hp <;> simp only [Pull.hard.injEq, Pull.soft.injEq, reduceCtorEq, or_false, false_or]
      at hr <;> obtain ⟨rfl, rfl⟩ := hr <;> simp

theorem softPull_requests {sel : DepEdge → Bool} {kind j : JobType} {x : DepEdge × UnitName}
    {b : UnitName} {p : Pull UnitName JobType TransactionError}
    (hp : softPull v sel kind x = some p) (hr : p.Requests b j) : b = x.2 ∧ j = kind := by
  unfold softPull at hp
  split at hp
  next =>
    obtain rfl := Option.some.inj hp
    rcases hr with hr | hr
    · exact absurd hr (by simp)
    · obtain ⟨rfl, rfl⟩ := Pull.soft.inj hr
      exact ⟨rfl, rfl⟩
  next => exact absurd hp (by simp)

theorem expandStart_requests {u b : UnitName} {j : JobType}
    {p : Pull UnitName JobType TransactionError} (hp : p ∈ expandStart g v u)
    (hr : p.Requests b j) :
    b ∈ g.nodes.elems ∧ (j = .start ∨ j = .verifyActive ∨ j = .stop) := by
  obtain ⟨x, hx, hp⟩ := List.mem_filterMap.mp hp
  obtain ⟨rfl, hj⟩ := startPull_requests hp hr
  exact ⟨DepGraph.mem_nodes_of_outgoing hx, hj⟩

theorem soft_outgoing_requests {sel : DepEdge → Bool} {kind j : JobType} {u b : UnitName}
    {p : Pull UnitName JobType TransactionError}
    (hp : p ∈ (g.outgoing u).filterMap (softPull v sel kind)) (hr : p.Requests b j) :
    b ∈ g.nodes.elems ∧ j = kind := by
  obtain ⟨x, hx, hp⟩ := List.mem_filterMap.mp hp
  obtain ⟨rfl, hj⟩ := softPull_requests hp hr
  exact ⟨DepGraph.mem_nodes_of_outgoing hx, hj⟩

theorem soft_incoming_requests {sel : DepEdge → Bool} {kind j : JobType} {u b : UnitName}
    {p : Pull UnitName JobType TransactionError}
    (hp : p ∈ (g.incoming u).filterMap (softPull v sel kind)) (hr : p.Requests b j) :
    b ∈ g.nodes.elems ∧ j = kind := by
  obtain ⟨x, hx, hp⟩ := List.mem_filterMap.mp hp
  obtain ⟨rfl, hj⟩ := softPull_requests hp hr
  exact ⟨DepGraph.mem_nodes_of_incoming hx, hj⟩

/-- Expansions ask for nodes, under the kinds their own kind allows. -/
theorem expansion_requests {u b : UnitName} {k j : JobType}
    {p : Pull UnitName JobType TransactionError} (hp : p ∈ expansion g v u k)
    (hr : p.Requests b j) : b ∈ g.nodes.elems ∧ KindPulls k j := by
  have hrestart : p ∈ expandStart g v u ++ expandStopPropagation g v u true →
      b ∈ g.nodes.elems ∧ (j = .start ∨ j = .verifyActive ∨ j = .stop ∨ j = .tryRestart) := by
    intro h
    rcases List.mem_append.mp h with h | h
    · obtain ⟨hb, hj⟩ := expandStart_requests h hr
      exact ⟨hb, hj.imp id (Or.imp id Or.inl)⟩
    · obtain ⟨hb, rfl⟩ := soft_incoming_requests h hr
      exact ⟨hb, by simp⟩
  cases k with
  | start | reloadOrStart =>
    obtain ⟨hb, hj⟩ := expandStart_requests hp hr
    exact ⟨hb, hj.imp id (Or.imp id Or.inl)⟩
  | restart => exact hrestart hp
  | stop =>
    rcases List.mem_append.mp hp with hp | hp
    · exact soft_incoming_requests hp hr
    · exact soft_outgoing_requests hp hr
  | tryRestart =>
    simp only [expansion] at hp
    split at hp
    next => exact hrestart hp
    next => exact absurd hp (by simp)
  | reload => exact soft_outgoing_requests hp hr
  | verifyActive | nop => exact absurd hp (by simp [expansion])

/-- Only a requirement that is not loaded aborts an expansion. -/
theorem expansion_aborts {u : UnitName} {k : JobType} {e : TransactionError}
    (h : .abort e ∈ expansion g v u k) : ∃ n, e = .notLoaded n := by
  have hsoft : ∀ {sel : DepEdge → Bool} {j : JobType} {l : List (DepEdge × UnitName)},
      .abort e ∉ l.filterMap (softPull v sel j) := by
    intro sel j l hm
    obtain ⟨x, -, hx⟩ := List.mem_filterMap.mp hm
    unfold softPull at hx
    split at hx <;> simp at hx
  have hstart : .abort e ∈ expandStart g v u → ∃ n, e = .notLoaded n := by
    intro hm
    obtain ⟨x, -, hx⟩ := List.mem_filterMap.mp hm
    unfold startPull at hx
    split at hx <;> (try split at hx) <;>
      simp only [Option.some.injEq, reduceCtorEq, Pull.abort.injEq] at hx
    all_goals exact ⟨x.2, hx.symm⟩
  have hrestart : .abort e ∈ expandStart g v u ++ expandStopPropagation g v u true →
      ∃ n, e = .notLoaded n := fun hm =>
    (List.mem_append.mp hm).elim hstart fun hm => absurd hm hsoft
  cases k with
  | start | reloadOrStart => exact hstart h
  | restart => exact hrestart h
  | stop => exact (List.mem_append.mp h).elim (fun hm => absurd hm hsoft) fun hm => absurd hm hsoft
  | tryRestart =>
    simp only [expansion] at h
    split at h
    next => exact hrestart h
    next => exact absurd h (by simp)
  | reload => exact absurd h hsoft
  | verifyActive | nop => exact absurd h (by simp [expansion])

theorem pulls_sub_expansion {mode : JobMode} {u : UnitName} {k : JobType}
    {p : Pull UnitName JobType TransactionError} (hp : p ∈ (pullSystem g v mode).pulls u k) :
    p ∈ expansion g v u k := by
  simp only [pullSystem] at hp
  split at hp
  next => exact absurd hp (by simp)
  next => exact hp

theorem reject_eq_none {mode : JobMode} {u : UnitName} :
    (pullSystem g v mode).reject u = none ↔ v.isLoaded u = true := by
  simp [pullSystem]

/-- A stop pulls soft stops only. -/
theorem stop_softOnly {mode : JobMode} : (pullSystem g v mode).SoftOnly .stop := by
  intro a p hp
  have hsoft : ∀ sel x, softPull v sel .stop x = some p → ∃ b, p = .soft b .stop := by
    intro sel x hx
    unfold softPull at hx
    split at hx
    next => exact ⟨x.2, (Option.some.inj hx).symm⟩
    next => exact absurd hx (by simp)
  rcases List.mem_append.mp (pulls_sub_expansion hp) with h | h
  · obtain ⟨x, -, hx⟩ := List.mem_filterMap.mp h
    exact hsoft _ x hx
  · obtain ⟨x, -, hx⟩ := List.mem_filterMap.mp h
    exact hsoft _ x hx

/-- The stops of `Isolate` are walked under the rules of the root request. -/
theorem pullSystem_isolate : pullSystem g v .isolate = pullSystem g v .replace := by
  simp [pullSystem]

/-! ## The walk as a whole -/

section Walk

variable {root : UnitName} {kind : JobType} {mode : JobMode}

variable (root) in
/-- The walk never runs out of fuel, from any map. -/
theorem ask_has_fuel {β : Type} (L : Labels UnitName JobType β) {u : UnitName}
    (hu : u = root ∨ u ∈ g.nodes.elems) (k : JobType) (m : IndexMap UnitName β) :
    ((pullSystem g v mode).ask L (fuel g) u k m).1 ≠ .outOfFuel := by
  refine PullSystem.ask_fuel (U := root :: g.nodes.elems) ?_ (fuel g) u k m
    (List.mem_cons.mpr hu) ?_
  · intro a k' _ p hp b j hr
    exact List.mem_cons_of_mem _ (expansion_requests (pulls_sub_expansion hp) hr).1
  · have h := List.length_filter_le (fun x => !m.contains x) (root :: g.nodes.elems)
    rw [List.length_cons] at h
    unfold PullSystem.unseen fuel
    omega

theorem rootAsk_fuel : (rootAsk g v root kind mode).1 ≠ .outOfFuel :=
  ask_has_fuel root _ (Or.inl rfl) kind .empty

theorem isolateStops_sub {u : UnitName} (h : u ∈ isolateStops g v root) : u ∈ g.nodes.elems :=
  (List.mem_filter.mp h).1

/-- What every initial request preserves holds of the visits. -/
theorem visits_induction {I : IndexMap UnitName (Visit JobType) → Prop}
    (hroot : I (rootAsk g v root kind mode).2)
    (hstop : ∀ u m, mode = .isolate → u ∈ isolateStops g v root → I m →
      I ((pullSystem g v mode).ask (visitLabels _ _) (fuel g) u .stop m).2) :
    I (visits g v root kind mode) := by
  unfold visits
  simp only
  split
  next hm =>
    rw [hm, pullSystem_isolate] at hstop
    refine List.foldlRecOn _ _ hroot fun m hIm u hu => ?_
    exact hstop u m rfl hu hIm
  next => exact hroot

theorem visits_carried :
    (pullSystem g v mode).CarriedHonoured (visits g v root kind mode) :=
  visits_induction (PullSystem.ask_carried _ _ _ _ PullSystem.carriedHonoured_empty)
    fun u m _ _ h => PullSystem.ask_carried (fuel g) u .stop m h

/-- Only requests derived from the root request and the stops are made. -/
theorem visits_requested : (pullSystem g v mode).OnlyRequested
    (Initial g v root kind mode) (visits g v root kind mode) := by
  refine visits_induction ?_ fun u m hm hu h => ?_
  · refine PullSystem.ask_requested _ _ _ _ (.base (Or.inl ⟨rfl, rfl⟩)) ?_
    rintro b k ⟨vis, hvis, -⟩
    simp at hvis
  · exact PullSystem.ask_requested _ _ _ _ (.base (Or.inr ⟨hm, hu, rfl⟩)) h

/-! ## Kinds -/

/-- Requests derived from a root that is no `Reload` ask for no `Reload`, those
derived from a `Reload` root ask for `Reload` and `Stop` only. -/
theorem requested_kinds {u : UnitName} {k : JobType}
    (h : (pullSystem g v mode).Requested (Initial g v root kind mode) u k) :
    if kind = .reload then k = .reload ∨ k = .stop else k ≠ .reload := by
  induction h with
  | base h =>
    rcases h with ⟨-, rfl⟩ | ⟨-, -, rfl⟩
    · split
      next h => exact Or.inl h
      next h => exact h
    · simp
  | @pull a b k j p _ _ hp hr ih =>
    have hj := (expansion_requests (pulls_sub_expansion hp) hr).2
    split at ih
    next hk =>
      rw [if_pos hk]
      rcases ih with rfl | rfl
      · exact Or.inl hj
      · exact Or.inr hj
    next hk =>
      rw [if_neg hk]
      cases k with
      | reload => exact absurd rfl ih
      | stop =>
        rw [show j = .stop from hj]
        simp
      | start | restart | tryRestart | reloadOrStart | verifyActive | nop =>
        rcases hj with rfl | rfl | rfl | rfl <;> simp

/-- After its first request no unit is asked for `ReloadOrStart`. -/
def NoLaterReloadOrStart (m : IndexMap UnitName (Visit JobType)) : Prop :=
  ∀ u vis, m.get? u = some vis → ∀ k ∈ vis.later, k ≠ .reloadOrStart

theorem noLater_leave {u : UnitName} {m : IndexMap UnitName (Visit JobType)}
    (h : NoLaterReloadOrStart m) :
    NoLaterReloadOrStart (m.modify u ((visitLabels UnitName JobType).leave u)) := by
  intro x vis hvis k hk
  rw [IndexMap.get?_modify] at hvis
  split at hvis
  next hx =>
    obtain ⟨w, hw, rfl⟩ := Option.map_eq_some_iff.mp hvis
    exact h u w (hx ▸ hw) k hk
  next => exact h x vis hvis k hk

theorem noLater_record {u : UnitName} {j : JobType} {m : IndexMap UnitName (Visit JobType)}
    (hj : m.contains u = true → j ≠ .reloadOrStart) (h : NoLaterReloadOrStart m) :
    NoLaterReloadOrStart ((visitLabels UnitName JobType).record u j m) := by
  intro x vis hvis k hk
  unfold Labels.record at hvis
  by_cases hx : x = u
  · subst hx
    rw [IndexMap.get?_upsert_self] at hvis
    cases hm : m.get? x with
    | none =>
      rw [hm] at hvis
      obtain rfl : (⟨j, [], false⟩ : Visit JobType) = vis := Option.some.inj hvis
      exact absurd hk (by simp)
    | some w =>
      rw [hm] at hvis
      obtain rfl : ({ w with later := w.later ++ [j] } : Visit JobType) = vis :=
        Option.some.inj hvis
      rcases List.mem_append.mp hk with hk | hk
      · exact h x w hm k hk
      · rw [List.mem_singleton.mp hk]
        exact hj (by simp [IndexMap.contains, hm])
  · rw [IndexMap.get?_upsert_ne hx] at hvis
    exact h x vis hvis k hk

theorem kindPulls_ne {k j : JobType} (h : KindPulls k j) : j ≠ .reloadOrStart := by
  cases k <;> simp only [KindPulls] at h <;> rcases h with rfl | rfl | rfl | rfl <;> simp

/-- Pulled requests keep the invariant; only the root is asked for
`ReloadOrStart`, and on an empty map. -/
theorem ask_noLater {n : Nat} {u : UnitName} {k : JobType}
    {m : IndexMap UnitName (Visit JobType)} (hk : k ≠ .reloadOrStart)
    (h : NoLaterReloadOrStart m) :
    NoLaterReloadOrStart ((pullSystem g v mode).ask (visitLabels _ _) n u k m).2 :=
  PullSystem.ask_rel (P := pullSystem g v mode) (L := visitLabels _ _)
    (R := fun m m' => NoLaterReloadOrStart m → NoLaterReloadOrStart m')
    (T := fun _ k => k ≠ .reloadOrStart) (fun _ h => h) (fun _ _ _ h1 h2 h => h2 (h1 h))
    (fun _ _ _ _ _ hp _ _ hr => kindPulls_ne (expansion_requests (pulls_sub_expansion hp) hr).2)
    (fun _ _ _ hk _ h => noLater_record (fun _ => hk) h)
    (fun _ _ _ _ _ _ _ _ _ hm h => noLater_leave (hm h)) n u k m hk h

theorem rootAsk_noLater : NoLaterReloadOrStart (rootAsk g v root kind mode).2 := by
  have hempty : NoLaterReloadOrStart .empty := fun u vis h => by simp at h
  have hrec : NoLaterReloadOrStart
      ((visitLabels UnitName JobType).record root kind .empty) :=
    noLater_record (by simp [IndexMap.contains]) hempty
  have hrun := PullSystem.runPulls_rel (R := fun m m' => NoLaterReloadOrStart m → NoLaterReloadOrStart m')
    (T := fun _ k => k ≠ .reloadOrStart)
    (f := (pullSystem g v mode).ask (visitLabels _ _) (g.nodes.elems.length + 1))
    (fun _ h => h) (fun _ _ _ h1 h2 h => h2 (h1 h)) (fun _ _ _ hk => ask_noLater hk)
    ((pullSystem g v mode).pulls root kind)
    ((visitLabels UnitName JobType).record root kind .empty)
    (fun p hp b k hr => kindPulls_ne (expansion_requests (pulls_sub_expansion hp) hr).2) hrec
  unfold rootAsk fuel
  cases hrej : (pullSystem g v mode).reject root with
  | some e =>
    rw [PullSystem.ask_reject hrej]
    exact hempty
  | none =>
    rw [PullSystem.ask_new hrej (by simp [IndexMap.contains])]
    split
    next m' he =>
      rw [he] at hrun
      exact noLater_leave hrun
    next => exact hrun

theorem visits_noLater : NoLaterReloadOrStart (visits g v root kind mode) :=
  visits_induction rootAsk_noLater fun _ _ _ _ h => ask_noLater (by simp) h

/-! ## Merging -/

theorem mergeKinds_start {a : JobType} (ha : a ≠ .reload) :
    mergeKinds a .start = .start ∨ mergeKinds a .start = .restart := by
  cases a <;> simp_all [mergeKinds, JobType.resultsInActive]

theorem mergeKinds_up {a b : JobType} (ha : a = .start ∨ a = .restart) (hb : b ≠ .reload)
    (hb' : b ≠ .reloadOrStart) : mergeKinds a b = .start ∨ mergeKinds a b = .restart := by
  rcases ha with rfl | rfl <;> cases b <;> simp_all [mergeKinds, JobType.resultsInActive]

theorem mergeKinds_ne_reload {a b : JobType} (ha : a ≠ .reload) (hb : b ≠ .reload) :
    mergeKinds a b ≠ .reload := by
  cases a <;> cases b <;> simp_all [mergeKinds, JobType.resultsInActive]

theorem collapse_cases (v : ManagerView) (u : UnitName) (k : JobType) :
    collapse v u k = k ∨ collapse v u k = .nop := by
  unfold collapse
  split <;> simp

theorem collapse_ne {u : UnitName} {k k' : JobType} (hk : k ≠ k') (hn : k' ≠ .nop) :
    collapse v u k ≠ k' := by
  rcases collapse_cases v u k with h | h
  · rw [h]
    exact hk
  · rw [h]
    exact Ne.symm hn

/-- Merging stays up once it is up, as long as nothing asks for a reload. -/
theorem foldl_up {u : UnitName} : ∀ (l : List JobType) (a : JobType),
    (∀ k ∈ l, k ≠ .reload ∧ k ≠ .reloadOrStart) → a ≠ .reload →
    (a = .start ∨ a = .restart) ∨ .start ∈ l →
    l.foldl (fun a k => mergeKinds a (collapse v u k)) a = .start ∨
      l.foldl (fun a k => mergeKinds a (collapse v u k)) a = .restart
  | [], a, _, _, h => h.resolve_right (by simp)
  | k :: l, a, hl, ha, h => by
    have hk := hl k (List.mem_cons_self ..)
    have hc := collapse_ne (v := v) (u := u) hk.1 (by simp)
    have hc' := collapse_ne (v := v) (u := u) hk.2 (by simp)
    rw [List.foldl_cons]
    refine foldl_up l _ (fun j hj => hl j (List.mem_cons_of_mem k hj))
      (mergeKinds_ne_reload ha hc) ?_
    rcases h with h | h
    · exact Or.inl (mergeKinds_up h hc hc')
    · rcases List.mem_cons.mp h with rfl | h
      · exact Or.inl (mergeKinds_start ha)
      · exact Or.inr h

/-- A unit that was asked to start ends with a starting kind. -/
theorem starting_of_start_request {u : UnitName} {vis : Visit JobType}
    (hvis : (visits g v root kind mode).get? u = some vis) (h : .start ∈ vis.kinds) :
    (kindOf v u vis).isStarting = true := by
  have hreq : ∀ k ∈ vis.kinds, (pullSystem g v mode).Requested
      (Initial g v root kind mode) u k := fun k hk => (visits_requested u k ⟨vis, hvis, hk⟩).1
  have hkind : kind ≠ .reload := by
    intro hk
    have := requested_kinds (hreq _ h)
    rw [if_pos hk] at this
    exact absurd this (by simp)
  have hne : ∀ k ∈ vis.kinds, k ≠ .reload := by
    intro k hk
    have := requested_kinds (hreq k hk)
    rw [if_neg hkind] at this
    exact this
  have hfirst : vis.first ∈ vis.kinds := List.mem_cons_self ..
  have hup := foldl_up (v := v) (u := u) vis.later (collapse v u vis.first)
    (fun k hk => ⟨hne k (List.mem_cons_of_mem _ hk), visits_noLater u vis hvis k hk⟩)
    (collapse_ne (hne _ hfirst) (by simp))
    ((List.mem_cons.mp h).imp (fun e => by simp [← e, collapse]) id)
  unfold kindOf
  rcases hup with hup | hup <;> rw [hup] <;> rfl

/-! ## The jobs are the merged requests -/

/-- Unit and merged kind, as a labelling of its own. -/
def pairLabels (v : ManagerView) : Labels UnitName JobType (UnitName × JobType) where
  fresh := fun u k => (u, collapse v u k)
  merge := fun u p k => (p.1, mergeKinds p.2 (collapse v u k))

/-- Unit and kind of a job. -/
def Job.pair (j : Job) : UnitName × JobType := (j.unit, j.kind)

theorem pair_hom : Labels.Hom (jobLabels v mode) (pairLabels v) fun _ => Job.pair where
  fresh := fun _ _ => rfl
  merge := fun _ _ _ => rfl
  leave := fun _ _ => rfl

theorem pairLabels_eval (u : UnitName) (vis : Visit JobType) :
    (pairLabels v).eval u vis = (u, kindOf v u vis) := by
  have h : ∀ (l : List JobType) (k : JobType), l.foldl ((pairLabels v).merge u) (u, k) =
      (u, l.foldl (fun a k => mergeKinds a (collapse v u k)) k) := by
    intro l
    induction l with
    | nil => exact fun _ => rfl
    | cons j l ih => exact fun k => ih _
  exact h vis.later _

/-- The jobs and the visits tell the same units and kinds. -/
def Agree (v : ManagerView) (jobs : IndexMap UnitName Job)
    (m : IndexMap UnitName (Visit JobType)) : Prop :=
  jobs.mapVal (fun _ => Job.pair) = m.mapVal (pairLabels v).eval

variable (mode) in
theorem ask_agree {jobs : IndexMap UnitName Job} {m : IndexMap UnitName (Visit JobType)}
    (h : Agree v jobs m) (u : UnitName) (k : JobType) :
    (addJobAndDeps g v mode u k jobs).1 =
        ((pullSystem g v mode).ask (visitLabels _ _) (fuel g) u k m).1 ∧
      Agree v (addJobAndDeps g v mode u k jobs).2
        ((pullSystem g v mode).ask (visitLabels _ _) (fuel g) u k m).2 := by
  have h1 := PullSystem.ask_mapVal (P := pullSystem g v mode) 
    (pair_hom : Labels.Hom (jobLabels v mode) (pairLabels v) _) (fuel g) u k jobs
  have h2 := PullSystem.ask_mapVal (P := pullSystem g v mode)
    (PullSystem.hom_eval (L := pairLabels v) fun _ _ => rfl) (fuel g) u k m
  unfold Agree at h
  rw [h, h2] at h1
  exact ⟨(congrArg Prod.fst h1).symm, (congrArg Prod.snd h1).symm⟩

theorem addIsolateStops_agree {jobs : IndexMap UnitName Job}
    {m : IndexMap UnitName (Visit JobType)} (h : Agree v jobs m) :
    Agree v (addIsolateStops g v root jobs) ((isolateStops g v root).foldl
      (fun m n => ((pullSystem g v .replace).ask (visitLabels _ _) (fuel g) n .stop m).2) m) := by
  unfold addIsolateStops
  induction isolateStops g v root generalizing jobs m with
  | nil => exact h
  | cons n l ih => exact ih (ask_agree _ h n .stop).2

variable (g v root kind mode) in
/-- **The jobs are the merged requests.** The expansion fails exactly when the
root request does, and otherwise holds one job for each visited unit, of the
kind its requests merge to. -/
theorem expand_spec :
    (∃ e, (rootAsk g v root kind mode).1 = .failed e ∧ expand g v root kind mode = .error e) ∨
    ((rootAsk g v root kind mode).1 = .done ∧ ∃ jobs, expand g v root kind mode = .ok jobs ∧
      Agree v jobs (visits g v root kind mode)) := by
  obtain ⟨h1, h2⟩ := ask_agree (g := g) mode
    (show Agree v .empty .empty from rfl) root kind
  have hfuel : (rootAsk g v root kind mode).1 ≠ .outOfFuel := rootAsk_fuel
  unfold expand
  unfold rootAsk at hfuel
  cases hr : addJobAndDeps g v mode root kind .empty with
  | mk o jobs =>
    rw [hr] at h1 h2
    cases o with
    | failed e => exact Or.inl ⟨e, h1.symm, rfl⟩
    | outOfFuel => exact absurd h1.symm hfuel
    | done =>
      refine Or.inr ⟨h1.symm, _, rfl, ?_⟩
      unfold visits rootAsk
      simp only
      split
      next => exact addIsolateStops_agree h2
      next => exact h2

theorem Agree.get? {jobs : IndexMap UnitName Job} {m : IndexMap UnitName (Visit JobType)}
    (h : Agree v jobs m) (u : UnitName) :
    (jobs.get? u).map Job.pair = (m.get? u).map fun vis => (u, kindOf v u vis) := by
  have he := congrArg (fun x => IndexMap.get? x u) h
  simp only [IndexMap.get?_mapVal] at he
  rw [he]
  cases m.get? u with
  | none => rfl
  | some vis => simp [pairLabels_eval]

theorem Agree.keys {jobs : IndexMap UnitName Job} {m : IndexMap UnitName (Visit JobType)}
    (h : Agree v jobs m) : jobs.keys = m.keys := by
  have he := congrArg IndexMap.keys h
  simpa using he

end Walk

/-! ## The built transaction -/

/-- Taking the jobs out in an order without repetition keeps units and kinds. -/
theorem mem_finalise {mode : JobMode} {u : UnitName} {k : JobType} : ∀ (order : List UnitName)
    (jobs : IndexMap UnitName Job) (alloc : JobIdAlloc), order.Nodup →
    ((u, k) ∈ (finalise mode order jobs alloc).1.map Job.pair ↔
      ∃ n ∈ order, (jobs.get? n).map Job.pair = some (u, k))
  | [], _, _, _ => by simp [finalise]
  | n :: order, jobs, alloc, hn => by
    obtain ⟨hnot, hnod⟩ := List.nodup_cons.mp hn
    unfold finalise
    cases hj : jobs.get? n with
    | none =>
      rw [mem_finalise order jobs alloc hnod]
      simp [hj]
    | some j =>
      have hrest : ∀ x ∈ order, (jobs.erase n).get? x = jobs.get? x := fun x hx =>
        IndexMap.get?_erase_ne (fun e : x = n => hnot (e ▸ hx)) jobs
      simp only [List.map_cons, List.mem_cons]
      rw [mem_finalise order (jobs.erase n) _ hnod]
      constructor
      · rintro (he | ⟨x, hx, he⟩)
        · exact ⟨n, Or.inl rfl, by simp [hj, he, Job.pair]⟩
        · exact ⟨x, Or.inr hx, by rw [← hrest x hx]; exact he⟩
      · rintro ⟨x, rfl | hx, he⟩
        · rw [hj] at he
          exact Or.inl (Option.some.inj he).symm
        · exact Or.inr ⟨x, hx, by rw [hrest x hx]; exact he⟩

theorem orderJobs_perm {mode : JobMode} {names order : List UnitName} (hn : names.Nodup)
    (h : orderJobs g mode names = .ok order) : order.Perm names := by
  unfold orderJobs at h
  split at h
  next =>
    obtain rfl := Except.ok.inj h
    exact List.Perm.refl _
  next =>
    split at h
    next o ho =>
      obtain rfl := Except.ok.inj h
      exact DepGraph.topoOrder_perm hn ho
    next => exact absurd h (by simp)

/-- What `assemble` returns: the jobs of the map, sorted, and what the mode cancels. -/
theorem assemble_ok {alloc alloc' : JobIdAlloc} {mode : JobMode} {jobs : IndexMap UnitName Job}
    {t : Transaction} (h : assemble g v alloc mode jobs = .ok (t, alloc')) :
    applyMode v mode jobs = .ok t.cancel ∧
      (∃ order, orderJobs g mode jobs.keys = .ok order) ∧
      ∀ u k, (u, k) ∈ t.jobs.map Job.pair ↔
        ∃ n, (jobs.get? n).map Job.pair = some (u, k) := by
  simp only [assemble, bind, Except.bind, pure, Except.pure] at h
  split at h
  next => exact absurd h (by simp)
  next cancel hc =>
    split at h
    next => exact absurd h (by simp)
    next order ho =>
      obtain ⟨rfl, -⟩ := Prod.mk.inj (Except.ok.inj h)
      have hperm := orderJobs_perm jobs.keys_nodup ho
      refine ⟨hc, ⟨order, ho⟩, fun u k => ?_⟩
      rw [mem_finalise order jobs alloc (hperm.nodup_iff.mpr jobs.keys_nodup)]
      constructor
      · rintro ⟨n, -, hp⟩
        exact ⟨n, hp⟩
      · rintro ⟨n, hp⟩
        obtain ⟨j, hj, -⟩ := Option.map_eq_some_iff.mp hp
        exact ⟨n, hperm.mem_iff.mpr (IndexMap.mem_keys.mpr ⟨j, hj⟩), hp⟩

/-- It fails only where the mode or the sort does. -/
theorem assemble_error {alloc : JobIdAlloc} {mode : JobMode} {jobs : IndexMap UnitName Job}
    {e : TransactionError} (h : assemble g v alloc mode jobs = .error e) :
    (∃ e, applyMode v mode jobs = .error e) ∨
      ¬ ∃ order, orderJobs g mode jobs.keys = .ok order := by
  simp only [assemble, bind, Except.bind, pure, Except.pure] at h
  split at h
  next e' he => exact Or.inl ⟨e', he⟩
  next =>
    split at h
    next e' he => exact Or.inr (by simp [he])
    next => exact absurd h (by simp)

/-- What a successful build returned, past the collapsed `VerifyActive`. -/
structure Built (g : DepGraph) (v : ManagerView) (alloc : JobIdAlloc) (root : UnitName)
    (kind : JobType) (mode : JobMode) (t : Transaction) : Prop where
  loaded : v.isLoaded root = true
  asked : (rootAsk g v root kind mode).1 = .done
  kinds : ∀ u k, (u, k) ∈ t.jobs.map Job.pair ↔
    ∃ vis, (visits g v root kind mode).get? u = some vis ∧ kindOf v u vis = k

/-- **A built transaction holds the merged requests**: either the empty one of a
collapsed `VerifyActive`, or one job for each visited unit. -/
theorem build_ok {alloc alloc' : JobIdAlloc} {root : UnitName} {kind : JobType} {mode : JobMode}
    {t : Transaction} (h : Transaction.build g v alloc root kind mode = .ok (t, alloc')) :
    (kind = .verifyActive ∧ v.isActive root = true ∧ t = {}) ∨
      Built g v alloc root kind mode t := by
  unfold Transaction.build at h
  split at h
  next hva =>
    obtain ⟨rfl, -⟩ := Prod.mk.inj (Except.ok.inj h)
    exact Or.inl ⟨hva.1, hva.2, rfl⟩
  next =>
    split at h
    next => exact absurd h (by simp)
    next hl =>
      split at h
      next => exact absurd h (by simp)
      next =>
        rcases expand_spec g v root kind mode with
          ⟨e, -, he⟩ | ⟨hdone, jobs, he, hag⟩
        · rw [he] at h
          exact absurd h (by simp [bind, Except.bind])
        · rw [he] at h
          obtain ⟨-, -, hmem⟩ := assemble_ok h
          refine Or.inr ⟨by simpa using hl, hdone, fun u k => (hmem u k).trans ?_⟩
          constructor
          · rintro ⟨n, hp⟩
            rw [hag.get? n] at hp
            obtain ⟨vis, hvis, hpair⟩ := Option.map_eq_some_iff.mp hp
            obtain ⟨rfl, rfl⟩ := Prod.mk.inj hpair
            exact ⟨vis, hvis, rfl⟩
          · rintro ⟨vis, hvis, rfl⟩
            exact ⟨u, by rw [hag.get? u, hvis]; rfl⟩

/-- The units with a job of a kind are those whose requests merge to it. -/
theorem Built.jobs_iff {alloc : JobIdAlloc} {root : UnitName} {kind : JobType}
    {mode : JobMode} {t : Transaction} (h : Built g v alloc root kind mode t)
    (p : JobType → Prop) (u : UnitName) : (∃ j ∈ t.jobs, j.unit = u ∧ p j.kind) ↔
      ∃ vis, (visits g v root kind mode).get? u = some vis ∧ p (kindOf v u vis) := by
  constructor
  · rintro ⟨j, hj, rfl, hp⟩
    obtain ⟨vis, hvis, hk⟩ := (h.kinds _ _).mp (List.mem_map.mpr ⟨j, hj, rfl⟩)
    exact ⟨vis, hvis, hk ▸ hp⟩
  · rintro ⟨vis, hvis, hp⟩
    obtain ⟨j, hj, he⟩ := List.mem_map.mp ((h.kinds u _).mpr ⟨vis, hvis, rfl⟩)
    obtain ⟨rfl, hk⟩ := Prod.mk.inj he
    exact ⟨j, hj, rfl, hk ▸ hp⟩

end Systeml.Deps
