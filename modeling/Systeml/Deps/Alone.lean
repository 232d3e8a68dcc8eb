import Systeml.Deps.Isolate

/-!
# Starts that nothing comes along with

A start makes requests of three kinds only, and none of them merges to a `Nop`
(`requested_start`, `kindOf_ne_nop`). The unit asked for is entered and expanded
(`root_carried`), so every edge its expansion follows to a loaded unit leaves a
request behind.

`build_alone_iff`: the jobs of a start are the start itself and no other exactly
when there is no such edge and nothing to isolate from.
-/

namespace Systeml.Deps

open Systeml.Lib Systeml.Unit

variable {g : DepGraph} {v : ManagerView} {root : UnitName} {mode : JobMode}

/-- The edges that the expansion of a start follows. -/
def DepEdge.followed : DepEdge → Bool
  | wants | requires | requisite | bindsTo | upholds | conflicts => true
  | _ => false

/-- A start of the unit pulls nothing in: the edges it follows lead to units that
are not loaded, or back to itself, and no unit is outside of its closure. -/
structure PullsNothing (g : DepGraph) (v : ManagerView) (u : UnitName) (mode : JobMode) :
    Prop where
  edges : mode ≠ .ignoreDependencies → ∀ e b, (e, b) ∈ g.outgoing u → e.followed = true →
    v.isLoaded b = true → b = u ∧ e ≠ .conflicts
  outside : mode = .isolate → isolateStops g v u = []

/-! ## The requests of a start -/

/-- The kinds that a start asks for. -/
def AskedByStart (k : JobType) : Prop := k = .start ∨ k = .verifyActive ∨ k = .stop

theorem requested_start {u : UnitName} {k : JobType}
    (h : (pullSystem g v mode).Requested (Initial g v root .start mode) u k) : AskedByStart k := by
  induction h with
  | base h =>
    rcases h with ⟨-, rfl⟩ | ⟨-, -, rfl⟩
    · exact Or.inl rfl
    · exact Or.inr (Or.inr rfl)
  | pull _ _ hp hr ih =>
    have hp := pulls_sub_expansion hp
    rcases ih with rfl | rfl | rfl
    · exact (expandStart_requests hp hr).2
    · exact absurd hp (by simp [expansion])
    · exact Or.inr (Or.inr (expansion_requests hp hr).2)

theorem visits_start_kinds {u : UnitName} {vis : Visit JobType}
    (h : (visits g v root .start mode).get? u = some vis) : ∀ k ∈ vis.kinds, AskedByStart k := by
  intro k hk
  exact requested_start (visits_requested u k ⟨vis, h, hk⟩).1

/-- Nothing collapses, so the requests merge as they are. -/
theorem kindOf_askedByStart {u : UnitName} {vis : Visit JobType}
    (h : ∀ k ∈ vis.kinds, AskedByStart k) :
    kindOf v u vis = vis.later.foldl mergeKinds vis.first := by
  have hplain : ∀ k ∈ vis.kinds, collapse v u k = k := by
    intro k hk
    refine collapse_of_ne ?_
    rcases h k hk with rfl | rfl | rfl <;> simp
  have hfold : ∀ (l : List JobType) (a : JobType), (∀ k ∈ l, collapse v u k = k) →
      l.foldl (fun a k => mergeKinds a (collapse v u k)) a = l.foldl mergeKinds a := by
    intro l
    induction l with
    | nil => exact fun _ _ => rfl
    | cons k l ih =>
      intro a hl
      rw [List.foldl_cons, List.foldl_cons, hl k List.mem_cons_self]
      exact ih _ fun j hj => hl j (List.mem_cons_of_mem k hj)
  unfold kindOf
  rw [hplain vis.first List.mem_cons_self]
  exact hfold _ _ fun k hk => hplain k (List.mem_cons_of_mem vis.first hk)

/-- No job of a start is a `Nop`. -/
theorem kindOf_ne_nop {u : UnitName} {vis : Visit JobType}
    (h : (visits g v root .start mode).get? u = some vis) : kindOf v u vis ≠ .nop := by
  have hkinds := visits_start_kinds h
  have hmerge : vis.later.foldl mergeKinds vis.first = .restart ∨
      AskedByStart (vis.later.foldl mergeKinds vis.first) := by
    refine List.foldlRecOn (motive := fun k : JobType => k = .restart ∨ AskedByStart k)
      vis.later _ (Or.inr (hkinds _ List.mem_cons_self)) ?_
    intro a ha k hk
    have hk := hkinds k (List.mem_cons_of_mem _ hk)
    unfold AskedByStart at ha hk ⊢
    rcases ha with rfl | rfl | rfl | rfl <;> rcases hk with rfl | rfl | rfl <;> decide
  rw [kindOf_askedByStart hkinds]
  intro he
  rw [he] at hmerge
  exact absurd hmerge (by simp [AskedByStart])

/-- A unit asked to start and not to stop is started, -/
theorem kindOf_eq_start {u : UnitName} {vis : Visit JobType}
    (h : (visits g v root .start mode).get? u = some vis) (hs : .start ∈ vis.kinds)
    (hno : .stop ∉ vis.kinds) : kindOf v u vis = .start := by
  have hkinds : ∀ k ∈ vis.kinds, k = .start ∨ k = .verifyActive := by
    intro k hk
    rcases visits_start_kinds h k hk with hk' | hk' | rfl
    · exact Or.inl hk'
    · exact Or.inr hk'
    · exact absurd hk hno
  have hmerge : vis.later.foldl mergeKinds vis.first = .start ∨
      vis.later.foldl mergeKinds vis.first = .verifyActive := by
    refine List.foldlRecOn (motive := fun k : JobType => k = .start ∨ k = .verifyActive)
      vis.later _ (hkinds _ List.mem_cons_self) ?_
    intro a ha k hk
    rcases ha with rfl | rfl <;> rcases hkinds k (List.mem_cons_of_mem _ hk) with rfl | rfl <;>
      decide
  have hup := starting_of_start_request h hs
  rw [← kindOf_askedByStart (v := v) (u := u) (visits_start_kinds h)] at hmerge
  rcases hmerge with hk | hk
  · exact hk
  · rw [hk] at hup
    exact absurd hup (by decide)

/-- and one entered by a start and then asked to stop is restarted. -/
theorem foldl_start_stop : ∀ (l : List JobType), (∀ k ∈ l, AskedByStart k) → .stop ∈ l →
    l.foldl mergeKinds .start = .restart
  | k :: l, hl, hmem => by
    rw [List.foldl_cons]
    rcases hl k List.mem_cons_self with rfl | rfl | rfl
    · exact foldl_start_stop l (fun j hj => hl j (List.mem_cons_of_mem _ hj)) (by simpa using hmem)
    · exact foldl_start_stop l (fun j hj => hl j (List.mem_cons_of_mem _ hj)) (by simpa using hmem)
    · exact foldl_restart l

/-! ## The unit asked for -/

theorem root_grows : Grows (rootAsk g v root .start mode).2 (visits g v root .start mode) := by
  refine visits_induction (Grows.refl _) ?_
  intro u m _ _ h
  exact h.trans (PullSystem.ask_grows (fuel g) u .stop m)

/-- It is entered by the start, and its expansion runs to the end. -/
theorem root_carried (hd : (rootAsk g v root .start mode).1 = .done) :
    Carried (visits g v root .start mode) root .start := by
  obtain ⟨vis, hvis, hf, hc⟩ := PullSystem.ask_carries (P := pullSystem g v mode)
    (m := .empty) (by simp [IndexMap.contains]) hd
  obtain ⟨vis', hvis', hf', -, hc'⟩ := root_grows root vis hvis
  exact ⟨vis', hvis', hf'.trans hf, hc' hc⟩

/-- What an edge that is followed asks of its loaded target. -/
def DepEdge.asks : DepEdge → JobType
  | conflicts => .stop
  | requisite => .verifyActive
  | _ => .start

theorem startPull_asks {e : DepEdge} {n b : UnitName} {j : JobType}
    {p : Pull UnitName JobType TransactionError} (hp : startPull v (e, n) = some p)
    (hr : p.Requests b j) : b = n ∧ e.followed = true ∧ j = e.asks := by
  obtain ⟨rfl, -⟩ := startPull_requests hp hr
  have hj : ∀ {q : JobType}, (p = .hard b q ∨ p = .soft b q) → j = q := by
    intro q hq
    rcases hq with rfl | rfl <;> simpa [Pull.Requests, eq_comm] using hr
  refine ⟨rfl, ?_⟩
  cases e with
  | requires | bindsTo =>
    simp only [startPull] at hp
    split at hp
    · exact ⟨rfl, hj (Or.inl (Option.some.inj hp).symm)⟩
    · obtain rfl := Option.some.inj hp
      exact absurd hr (by simp [Pull.Requests])
  | wants | upholds =>
    simp only [startPull] at hp
    split at hp
    · exact ⟨rfl, hj (Or.inr (Option.some.inj hp).symm)⟩
    · exact absurd hp (by simp)
  | conflicts =>
    simp only [startPull] at hp
    split at hp
    · exact ⟨rfl, hj (Or.inl (Option.some.inj hp).symm)⟩
    · exact absurd hp (by simp)
  | requisite => exact ⟨rfl, hj (Or.inl (Option.some.inj hp).symm)⟩
  | partOf | after | before | onFailure | onSuccess | propagatesReloadTo | propagatesStopTo =>
    exact absurd hp (by simp [startPull])

theorem recorded_of_edge (hmode : mode ≠ .ignoreDependencies)
    (hd : (rootAsk g v root .start mode).1 = .done) {e : DepEdge} {b : UnitName}
    (he : (e, b) ∈ g.outgoing root) (hf : e.followed = true) (hl : v.isLoaded b = true) :
    Recorded (visits g v root .start mode) b e.asks := by
  have hmem : ∀ p, startPull v (e, b) = some p → p ∈ (pullSystem g v mode).pulls root .start := by
    intro p hp
    simp only [pullSystem, if_neg hmode]
    exact List.mem_filterMap.mpr ⟨(e, b), he, hp⟩
  have hall : (pullSystem g v mode).CarriedHonoured (visits g v root .start mode) := visits_carried
  have hhon := hall root .start (root_carried hd)
  have hacc : (pullSystem g v mode).reject b = none := reject_eq_none.mpr hl
  cases e with
  | requires | bindsTo => exact (hhon (.hard b .start) (hmem _ (by simp [startPull, hl]))).2
  | conflicts => exact (hhon (.hard b .stop) (hmem _ (by simp [startPull, hl]))).2
  | requisite => exact (hhon (.hard b .verifyActive) (hmem _ rfl)).2
  | wants | upholds => exact hhon (.soft b .start) (hmem _ (by simp [startPull, hl])) hacc
  | partOf | after | before | onFailure | onSuccess | propagatesReloadTo | propagatesStopTo =>
    exact absurd hf (by simp [DepEdge.followed])

/-- If it pulls nothing in, no other unit is asked for anything, nor is it asked to
stop. -/
theorem requested_of_pullsNothing (h : PullsNothing g v root mode) {u : UnitName} {k : JobType}
    (hr : (pullSystem g v mode).Requested (Initial g v root .start mode) u k)
    (hl : v.isLoaded u = true) : u = root ∧ (k = .start ∨ k = .verifyActive) := by
  induction hr with
  | base hi =>
    rcases hi with ⟨rfl, rfl⟩ | ⟨hm, hu, -⟩
    · exact ⟨rfl, Or.inl rfl⟩
    · rw [h.outside hm] at hu
      exact absurd hu (by simp)
  | @pull a b k j p _ hrej hp hreq ih =>
    obtain ⟨rfl, hk⟩ := ih (reject_eq_none.mp hrej)
    simp only [pullSystem] at hp
    split at hp
    next => exact absurd hp (by simp)
    next hmode =>
      rcases hk with rfl | rfl
      · obtain ⟨⟨e, n⟩, he, hp⟩ := List.mem_filterMap.mp hp
        obtain ⟨rfl, hfollow, rfl⟩ := startPull_asks hp hreq
        obtain ⟨hu, hne⟩ := h.edges hmode e _ he hfollow hl
        refine ⟨hu, ?_⟩
        cases e with
        | conflicts => exact absurd rfl hne
        | requisite => exact Or.inr rfl
        | _ => exact Or.inl rfl
      · exact absurd hp (by simp [expansion])

/-! ## The jobs of a start -/

/-- The jobs are the start of the unit, and no other. -/
theorem pairs_eq_iff {alloc alloc' : JobIdAlloc} {t : Transaction}
    (h : Transaction.build g v alloc root .start mode = .ok (t, alloc')) :
    t.jobs.map Job.pair = [(root, .start)] ↔
      ∀ u vis, (visits g v root .start mode).get? u = some vis →
        u = root ∧ kindOf v u vis = .start := by
  obtain ⟨hva, -, -⟩ | hb := build_ok h
  · exact absurd hva (by simp)
  obtain ⟨vis, hvis, -⟩ := root_carried hb.asked
  constructor
  · intro he u vis' hvis'
    have hmem := (hb.kinds u _).mpr ⟨vis', hvis', rfl⟩
    rw [he] at hmem
    exact Prod.mk.inj (List.mem_singleton.mp hmem)
  · intro hall
    have hnodup : (t.jobs.map Job.pair).Nodup := by
      have hunits := build_nodup h
      rw [show Job.unit = Prod.fst ∘ Job.pair from rfl, ← List.map_map] at hunits
      exact hunits.of_map _
    refine List.perm_singleton.mp ((List.perm_ext_iff_of_nodup hnodup (List.nodup_singleton _)).mpr ?_)
    intro ⟨u, k⟩
    rw [hb.kinds u k, List.mem_singleton]
    constructor
    · intro ⟨vis', hvis', hk⟩
      obtain ⟨rfl, hstart⟩ := hall u vis' hvis'
      rw [← hk, hstart]
    · intro he
      obtain ⟨rfl, rfl⟩ := Prod.mk.inj he
      exact ⟨vis, hvis, (hall u vis hvis).2⟩

/-- **A start has no other job, exactly** when it pulls nothing in. -/
theorem build_alone_iff {alloc alloc' : JobIdAlloc} {t : Transaction}
    (h : Transaction.build g v alloc root .start mode = .ok (t, alloc')) :
    t.jobs.map Job.pair = [(root, .start)] ↔ PullsNothing g v root mode := by
  rw [pairs_eq_iff h]
  obtain ⟨hva, -, -⟩ | hb := build_ok h
  · exact absurd hva (by simp)
  constructor
  · intro hall
    refine ⟨?_, ?_⟩
    · intro hmode e b he hf hl
      obtain ⟨vis, hvis, hk⟩ := recorded_of_edge hmode hb.asked he hf hl
      obtain ⟨rfl, hstart⟩ := hall b vis hvis
      refine ⟨rfl, ?_⟩
      rintro rfl
      -- asked to stop after its start, the unit would be restarted
      obtain ⟨vis', hvis', hf', -⟩ := root_carried hb.asked
      obtain rfl := Option.some.inj (hvis.symm.trans hvis')
      have hkinds := visits_start_kinds hvis
      have hlater : .stop ∈ vis.later := by
        rcases List.mem_cons.mp hk with hk | hk
        · rw [hf'] at hk
          exact absurd hk (by decide)
        · exact hk
      rw [kindOf_askedByStart hkinds, hf',
        foldl_start_stop _ (fun k hk => hkinds k (List.mem_cons_of_mem _ hk)) hlater] at hstart
      exact absurd hstart (by decide)
    · rintro rfl
      refine List.eq_nil_iff_forall_not_mem.mpr ?_
      intro u hu
      obtain ⟨l, hl⟩ := isolate_asked (.stop hu)
      have hkeys := mem_keys_iff_kindsAt.mpr (by rw [hl]; simp)
      obtain ⟨vis, hvis⟩ := IndexMap.mem_keys.mp hkeys
      obtain ⟨rfl, -⟩ := hall u vis hvis
      have hout : u ∉ (depClosure g u).elems := by
        have hc := (List.mem_filter.mp hu).2
        simp only [Bool.and_eq_true, Bool.not_eq_true'] at hc
        simpa [IndexSet.contains] using hc.1.1.2
      exact hout (mem_depClosure.mpr .refl)
  · intro hp u vis hvis
    have hreq : ∀ k ∈ vis.kinds, u = root ∧ (k = .start ∨ k = .verifyActive) := by
      intro k hk
      obtain ⟨hr, hrej⟩ := visits_requested u k ⟨vis, hvis, hk⟩
      exact requested_of_pullsNothing hp hr (reject_eq_none.mp hrej)
    obtain ⟨rfl, -⟩ := hreq vis.first List.mem_cons_self
    obtain ⟨vis', hvis', hf', -⟩ := root_carried hb.asked
    obtain rfl := Option.some.inj (hvis.symm.trans hvis')
    refine ⟨rfl, kindOf_eq_start hvis (hf' ▸ List.mem_cons_self) ?_⟩
    intro hstop
    exact absurd (hreq _ hstop).2 (by simp)

theorem jobs_ne_nop {alloc alloc' : JobIdAlloc} {t : Transaction}
    (h : Transaction.build g v alloc root .start mode = .ok (t, alloc')) :
    ∀ j ∈ t.jobs, j.kind ≠ .nop := by
  intro j hj
  obtain ⟨hva, -, -⟩ | hb := build_ok h
  · exact absurd hva (by simp)
  obtain ⟨vis, hvis, hk⟩ := (hb.kinds _ _).mp (List.mem_map.mpr ⟨j, hj, rfl⟩)
  exact hk ▸ kindOf_ne_nop hvis

end Systeml.Deps
