import Systeml.Deps.HardClosure

/-!
# Every job is derived from the root request

`Derives` is the documented expansion rules as a derivation relation on requests.
What the builder pulls is one step of it (`derives_of_expansion`), so outside of
`Isolate` a transaction holds at most one job for each unit, for loaded units
only, and of a kind that merges derived requests (`build_sound`).
-/

namespace Systeml.Deps

open Systeml.Lib Systeml.Unit

variable {g : DepGraph} {v : ManagerView} {root : UnitName} {kind : JobType} {mode : JobMode}

/-- The edges along which a start asks for a start. -/
def DepEdge.pullsStart : DepEdge → Bool
  | wants | requires | bindsTo | upholds => true
  | _ => false

/-- The edges from which a stop of their target spreads to their source. -/
def DepEdge.stopsSource : DepEdge → Bool
  | bindsTo | partOf => true
  | _ => false

/-- The kinds that restart a unit that is up. -/
def RestartExpands (v : ManagerView) (u : UnitName) (k : JobType) : Prop :=
  k = .restart ∨ k = .tryRestart ∧ v.isActive u = true

/-- A unit is asked for a kind by the documented rules. -/
inductive Derives (g : DepGraph) (v : ManagerView) (root : UnitName) (kind : JobType) :
    UnitName → JobType → Prop
  | root : Derives g v root kind root kind
  /-- A start pulls in `Wants=`, `Requires=`, `BindsTo=` and `Upholds=`. -/
  | start {a b : UnitName} {k : JobType} {e : DepEdge} (h : Derives g v root kind a k)
      (hk : StartExpands v a k) (he : (e, b) ∈ g.outgoing a) (hp : e.pullsStart = true) :
      Derives g v root kind b .start
  /-- It checks `Requisite=`, -/
  | verify {a b : UnitName} {k : JobType} (h : Derives g v root kind a k)
      (hk : StartExpands v a k) (he : (.requisite, b) ∈ g.outgoing a) :
      Derives g v root kind b .verifyActive
  /-- and stops `Conflicts=`. -/
  | conflict {a b : UnitName} {k : JobType} (h : Derives g v root kind a k)
      (hk : StartExpands v a k) (he : (.conflicts, b) ∈ g.outgoing a) :
      Derives g v root kind b .stop
  /-- A stop spreads to what is bound to the unit or part of it, -/
  | stopSource {a b : UnitName} {e : DepEdge} (h : Derives g v root kind a .stop)
      (he : (e, b) ∈ g.incoming a) (hp : e.stopsSource = true) : Derives g v root kind b .stop
  /-- and along `PropagatesStopTo=`. -/
  | stopTarget {a b : UnitName} (h : Derives g v root kind a .stop)
      (he : (.propagatesStopTo, b) ∈ g.outgoing a) : Derives g v root kind b .stop
  /-- A restart tries to restart what is part of the unit. -/
  | restart {a b : UnitName} {k : JobType} (h : Derives g v root kind a k)
      (hk : RestartExpands v a k) (he : (.partOf, b) ∈ g.incoming a) :
      Derives g v root kind b .tryRestart
  /-- A reload spreads along `PropagatesReloadTo=`. -/
  | reload {a b : UnitName} (h : Derives g v root kind a .reload)
      (he : (.propagatesReloadTo, b) ∈ g.outgoing a) : Derives g v root kind b .reload

/-! ## The rules are those of the builder -/

theorem softPull_some {sel : DepEdge → Bool} {k j : JobType} {x : DepEdge × UnitName}
    {b : UnitName} {p : Pull UnitName JobType TransactionError}
    (hp : softPull v sel k x = some p) (hr : p.Requests b j) :
    sel x.1 = true ∧ b = x.2 ∧ j = k := by
  have hreq := softPull_requests hp hr
  unfold softPull at hp
  split at hp
  next hsel => exact ⟨hsel.1, hreq⟩
  next => exact absurd hp (by simp)

/-- What a start pulls is derived from it. -/
theorem derives_of_expandStart {a b : UnitName} {k j : JobType}
    {p : Pull UnitName JobType TransactionError} (h : Derives g v root kind a k)
    (hk : StartExpands v a k) (hp : p ∈ expandStart g v a) (hr : p.Requests b j) :
    Derives g v root kind b j := by
  obtain ⟨⟨e, n⟩, he, hp⟩ := List.mem_filterMap.mp hp
  have hpulls : ∀ {q : JobType}, (p = .hard n q ∨ p = .soft n q) → b = n ∧ j = q := by
    intro q hq
    rcases hq with rfl | rfl <;> simpa [Pull.Requests, eq_comm] using hr
  cases e with
  | wants | upholds =>
    simp only [startPull] at hp
    split at hp
    · obtain ⟨rfl, rfl⟩ := hpulls (Or.inr (Option.some.inj hp).symm)
      exact .start h hk he rfl
    · exact absurd hp (by simp)
  | requires | bindsTo =>
    simp only [startPull] at hp
    split at hp
    · obtain ⟨rfl, rfl⟩ := hpulls (Or.inl (Option.some.inj hp).symm)
      exact .start h hk he rfl
    · obtain rfl := Option.some.inj hp
      exact absurd hr (by simp [Pull.Requests])
  | requisite =>
    obtain ⟨rfl, rfl⟩ := hpulls (Or.inl (Option.some.inj hp).symm)
    exact .verify h hk he
  | conflicts =>
    simp only [startPull] at hp
    split at hp
    · obtain ⟨rfl, rfl⟩ := hpulls (Or.inl (Option.some.inj hp).symm)
      exact .conflict h hk he
    · exact absurd hp (by simp)
  | partOf | after | before | onFailure | onSuccess | propagatesReloadTo | propagatesStopTo =>
    exact absurd hp (by simp [startPull])

/-- What a restart spreads is derived from it. -/
theorem derives_of_expandStopPropagation {a b : UnitName} {k j : JobType}
    {p : Pull UnitName JobType TransactionError} (h : Derives g v root kind a k)
    (hk : RestartExpands v a k) (hp : p ∈ expandStopPropagation g v a true)
    (hr : p.Requests b j) : Derives g v root kind b j := by
  obtain ⟨⟨e, n⟩, he, hp⟩ := List.mem_filterMap.mp hp
  obtain ⟨hsel, rfl, rfl⟩ := softPull_some hp hr
  obtain rfl : e = .partOf := by simpa using hsel
  exact .restart h hk he

/-- **One step of the builder is one step of the rules.** -/
theorem derives_of_expansion {a b : UnitName} {k j : JobType}
    {p : Pull UnitName JobType TransactionError} (h : Derives g v root kind a k)
    (hp : p ∈ expansion g v a k) (hr : p.Requests b j) : Derives g v root kind b j := by
  have hrestart : StartExpands v a k → RestartExpands v a k →
      p ∈ expandStart g v a ++ expandStopPropagation g v a true → Derives g v root kind b j := by
    intro hs hx hp
    rcases List.mem_append.mp hp with hp | hp
    · exact derives_of_expandStart h hs hp hr
    · exact derives_of_expandStopPropagation h hx hp hr
  cases k with
  | start | reloadOrStart => exact derives_of_expandStart h (Or.inl rfl) hp hr
  | restart => exact hrestart (Or.inl rfl) (Or.inl rfl) hp
  | tryRestart =>
    simp only [expansion] at hp
    split at hp
    next ha => exact hrestart (Or.inr ⟨rfl, ha⟩) (Or.inr ⟨rfl, ha⟩) hp
    next => exact absurd hp (by simp)
  | stop =>
    rcases List.mem_append.mp hp with hp | hp
    · obtain ⟨⟨e, n⟩, he, hp⟩ := List.mem_filterMap.mp hp
      obtain ⟨hsel, rfl, rfl⟩ := softPull_some hp hr
      have hsource : e.stopsSource = true := by
        cases e <;> simp_all [DepEdge.stopsSource]
      exact .stopSource h he hsource
    · obtain ⟨⟨e, n⟩, he, hp⟩ := List.mem_filterMap.mp hp
      obtain ⟨hsel, rfl, rfl⟩ := softPull_some hp hr
      obtain rfl : e = .propagatesStopTo := by simpa using hsel
      exact .stopTarget h he
  | reload =>
    obtain ⟨⟨e, n⟩, he, hp⟩ := List.mem_filterMap.mp hp
    obtain ⟨hsel, rfl, rfl⟩ := softPull_some hp hr
    obtain rfl : e = .propagatesReloadTo := by simpa using hsel
    exact .reload h he
  | verifyActive | nop => exact absurd hp (by simp [expansion])

/-- Outside of `Isolate` only derived requests are made. -/
theorem derives_of_requested (hmode : mode ≠ .isolate) {u : UnitName} {k : JobType}
    (h : (pullSystem g v mode).Requested (Initial g v root kind mode) u k) :
    Derives g v root kind u k := by
  induction h with
  | base h =>
    rcases h with ⟨rfl, rfl⟩ | ⟨hm, -, -⟩
    · exact .root
    · exact absurd hm hmode
  | pull _ _ hp hr ih => exact derives_of_expansion ih (pulls_sub_expansion hp) hr

/-! ## One job for each unit -/

/-- Each job is stored under its unit. -/
def Keyed (jobs : IndexMap UnitName Job) : Prop :=
  ∀ n j, jobs.get? n = some j → j.unit = n

theorem Keyed.erase {jobs : IndexMap UnitName Job} (h : Keyed jobs) (n : UnitName) :
    Keyed (jobs.erase n) := by
  intro x j hx
  by_cases hxn : x = n
  · rw [hxn, IndexMap.get?_erase_self] at hx
    exact absurd hx (by simp)
  · rw [IndexMap.get?_erase_ne hxn] at hx
    exact h x j hx

theorem Agree.keyed {jobs : IndexMap UnitName Job} {m : IndexMap UnitName (Visit JobType)}
    (h : Agree v jobs m) : Keyed jobs := by
  intro n j hj
  have hpair := h.get? n
  rw [hj] at hpair
  obtain ⟨vis, -, he⟩ := Option.map_eq_some_iff.mp hpair.symm
  exact (congrArg Prod.fst he).symm

/-- The jobs come in the given order. -/
theorem finalise_sublist : ∀ (order : List UnitName) (jobs : IndexMap UnitName Job)
    (alloc : JobIdAlloc), Keyed jobs →
    ((finalise mode order jobs alloc).1.map Job.unit).Sublist order
  | [], _, _, _ => List.Sublist.refl _
  | n :: order, jobs, alloc, hk => by
    unfold finalise
    cases hj : jobs.get? n with
    | none => exact (finalise_sublist order jobs alloc hk).cons n
    | some j =>
      have hn := hk n j hj
      have ih := finalise_sublist order (jobs.erase n) alloc.alloc.2 (hk.erase n)
      simp only [List.map_cons, hn]
      exact ih.cons_cons n

theorem assemble_nodup {alloc alloc' : JobIdAlloc} {jobs : IndexMap UnitName Job}
    {t : Transaction} (hk : Keyed jobs) (h : assemble g v alloc mode jobs = .ok (t, alloc')) :
    (t.jobs.map Job.unit).Nodup := by
  simp only [assemble, bind, Except.bind, pure, Except.pure] at h
  split at h
  next => exact absurd h (by simp)
  next =>
    split at h
    next => exact absurd h (by simp)
    next order ho =>
      obtain ⟨rfl, -⟩ := Prod.mk.inj (Except.ok.inj h)
      have horder := (orderJobs_perm jobs.keys_nodup ho).nodup_iff.mpr jobs.keys_nodup
      exact horder.sublist (finalise_sublist order jobs alloc hk)

theorem build_nodup {alloc alloc' : JobIdAlloc} {t : Transaction}
    (h : Transaction.build g v alloc root kind mode = .ok (t, alloc')) :
    (t.jobs.map Job.unit).Nodup := by
  unfold Transaction.build at h
  split at h
  next =>
    obtain ⟨rfl, -⟩ := Prod.mk.inj (Except.ok.inj h)
    exact List.nodup_nil
  next =>
    split at h
    next => exact absurd h (by simp)
    next =>
      split at h
      next => exact absurd h (by simp)
      next =>
        rcases expand_spec g v root kind mode with ⟨e, -, he⟩ | ⟨-, jobs, he, hag⟩
        · rw [he] at h
          exact absurd h (by simp [bind, Except.bind])
        · rw [he] at h
          exact assemble_nodup hag.keyed h

/-! ## Soundness -/

/-- The kind of a job merges requests that are derived for its unit. -/
def MergesDerived (g : DepGraph) (v : ManagerView) (root : UnitName) (kind : JobType)
    (j : Job) : Prop :=
  ∃ k ks, (∀ k' ∈ k :: ks, Derives g v root kind j.unit k') ∧
    j.kind = ks.foldl (fun a k => mergeKinds a (collapse v j.unit k)) (collapse v j.unit k)

/-- **Nothing unrelated is touched.** No unit has two jobs, and each job is for a
loaded unit and merges requests derived for it. -/
theorem build_sound {alloc alloc' : JobIdAlloc} {t : Transaction} (hmode : mode ≠ .isolate)
    (h : Transaction.build g v alloc root kind mode = .ok (t, alloc')) :
    (t.jobs.map Job.unit).Nodup ∧
      ∀ j ∈ t.jobs, v.isLoaded j.unit = true ∧ MergesDerived g v root kind j := by
  refine ⟨build_nodup h, fun j hj => ?_⟩
  rcases build_ok h with ⟨-, -, rfl⟩ | hb
  · exact absurd hj (by simp)
  obtain ⟨vis, hvis, hkind⟩ := (hb.kinds _ _).mp (List.mem_map.mpr ⟨j, hj, rfl⟩)
  have hreq : ∀ k ∈ vis.kinds, Derives g v root kind j.unit k ∧ v.isLoaded j.unit = true := by
    intro k hk
    obtain ⟨hr, hrej⟩ := visits_requested j.unit k ⟨vis, hvis, hk⟩
    exact ⟨derives_of_requested hmode hr, reject_eq_none.mp hrej⟩
  exact ⟨(hreq vis.first List.mem_cons_self).2, vis.first, vis.later,
    fun k hk => (hreq k hk).1, hkind.symm⟩

theorem build_sound_shortfall :
    (shortfallTransaction.jobs.map Job.unit).Nodup ∧
      ∀ j ∈ shortfallTransaction.jobs, shortfallView.isLoaded j.unit = true ∧
        MergesDerived (DepGraph.build shortfallUnits) shortfallView (svc "r") .start j :=
  build_sound (by decide) shortfall_build

end Systeml.Deps
