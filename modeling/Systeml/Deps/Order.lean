import Systeml.Deps.Soundness

/-!
# The order of the jobs

`topoOrder` is a topological sort: it succeeds exactly on acyclic constraints,
and its result is a permutation of the list that respects every one of them.
A transaction holds its jobs in the order of the sort, taken out of the map one
by one (`finalise_units`), so outside of `IgnoreRequirements` the jobs respect
the `After`/`Before` edges between their units whatever their kinds are.

There is one order for all kinds: stops run in start order too.
-/

namespace Systeml.Deps

open Systeml.Lib Systeml.Unit

section

variable {α : Type}

/-- `a` stands before `b` in the list. -/
def StandsBefore (l : List α) (a b : α) : Prop := [a, b].Sublist l

theorem standsBefore_of_split {l r : List α} {a b : α} (h : a ∈ l) :
    StandsBefore (l ++ b :: r) a b := by
  show ([a] ++ [b]).Sublist (l ++ b :: r)
  apply List.Sublist.append
  · exact List.singleton_sublist.mpr h
  · exact List.singleton_sublist.mpr (List.mem_cons_self ..)

/-- In a list without repetition two elements stand in one order only. -/
theorem StandsBefore.asymm {l : List α} {a b : α} (hn : l.Nodup)
    (h : StandsBefore l a b) : ¬ StandsBefore l b a := by
  intro h'
  unfold StandsBefore at h h'
  induction l with
  | nil => cases h
  | cons x l ih =>
    obtain ⟨hx, hl⟩ := List.nodup_cons.mp hn
    rcases List.sublist_cons_iff.mp h with htail | ⟨r, hr, htail⟩
    · have hb : b ∈ l := htail.subset (by simp)
      rcases List.sublist_cons_iff.mp h' with htail' | ⟨r', hr', -⟩
      · exact ih hl htail htail'
      · -- `b` is the head, but it stands after `a` in the tail
        obtain ⟨rfl, -⟩ := List.cons.inj hr'
        exact hx hb
    · obtain ⟨rfl, rfl⟩ := List.cons.inj hr
      have hb : b ∈ l := htail.subset (by simp)
      rcases List.sublist_cons_iff.mp h' with htail' | ⟨r', hr', -⟩
      · exact hx (htail'.subset (by simp))
      · obtain ⟨rfl, -⟩ := List.cons.inj hr'
        exact hx hb

/-- Read through a function that no two elements share the value of. -/
theorem StandsBefore.of_map {β : Type} {f : α → β} {l : List α} {a b : α}
    (hn : (l.map f).Nodup) (ha : a ∈ l) (hb : b ∈ l) (h : StandsBefore (l.map f) (f a) (f b)) :
    StandsBefore l a b := by
  obtain ⟨r, hr, he⟩ := List.sublist_map_iff.mp h
  match r, he with
  | [], he => exact absurd he (by simp)
  | [_], he => exact absurd he (by simp)
  | _ :: _ :: _ :: _, he => exact absurd he (by simp)
  | [x, y], he =>
    have hxa : f a = f x := (List.cons.inj he).1
    have hyb : f b = f y := (List.cons.inj (List.cons.inj he).2).1
    have hinj := List.inj_on_of_nodup_map hn
    have hx : x = a := hinj (hr.subset (by simp)) ha hxa.symm
    have hy : y = b := hinj (hr.subset (by simp)) hb hyb.symm
    rw [← hx, ← hy]
    exact hr

theorem StandsBefore.map {β : Type} (f : α → β) {l : List α} {a b : α}
    (h : StandsBefore l a b) : StandsBefore (l.map f) (f a) (f b) :=
  List.Sublist.map f h

end

namespace DepGraph

variable {g : DepGraph} {units order : List UnitName}

/-- In a successful sort every constraint is respected. -/
theorem standsBefore_of_topoOrder (hn : units.Nodup) (h : g.topoOrder units = .ok order)
    {a b : UnitName} (hab : g.MustPrecede units a b) : StandsBefore order a b := by
  have hmem : b ∈ order := (topoOrder_perm hn h).mem_iff.mpr hab.1
  unfold topoOrder at h
  split at h
  next => exact absurd hab.1 (by simp)
  next first rest =>
    simp only at h
    split at h
    next =>
      obtain rfl := Except.ok.inj h
      obtain ⟨l, r, hsplit⟩ := List.append_of_mem hmem
      have hpred : a ∈ g.predsOf (first :: rest) b := (precedes_iff.mpr hab).2
      have hal := (kahn_sorted hn (predsOf_nodup g _)).2.2 l b r hsplit a hpred
      rw [hsplit]
      exact standsBefore_of_split hal
    next => exact absurd h (by simp)

/-- Every constraint between the listed units is respected. -/
def Respects (g : DepGraph) (order : List UnitName) : Prop :=
  ∀ a b, g.MustPrecede order a b → StandsBefore order a b

/-- Constraints look at the listed units as a set. -/
theorem MustPrecede.of_perm {units' : List UnitName} (hp : units.Perm units') {a b : UnitName}
    (h : g.MustPrecede units a b) : g.MustPrecede units' a b :=
  ⟨hp.mem_iff.mp h.1, hp.mem_iff.mp h.2.1, h.2.2⟩

end DepGraph

variable {g : DepGraph} {v : ManagerView} {root : UnitName} {kind : JobType} {mode : JobMode}
  {alloc alloc' : JobIdAlloc} {t : Transaction}

/-- The jobs come out in exactly the given order when all of its names have one. -/
theorem finalise_units (mode : JobMode) : ∀ (order : List UnitName) (jobs : IndexMap UnitName Job)
    (alloc : JobIdAlloc), Keyed jobs → order.Nodup → (∀ n ∈ order, n ∈ jobs.keys) →
    (finalise mode order jobs alloc).1.map Job.unit = order
  | [], _, _, _, _, _ => rfl
  | n :: order, jobs, alloc, hk, hn, hsub => by
    obtain ⟨hnot, hnod⟩ := List.nodup_cons.mp hn
    obtain ⟨j, hj⟩ := IndexMap.mem_keys.mp (hsub n (List.mem_cons_self ..))
    have hrest : ∀ x ∈ order, x ∈ (jobs.erase n).keys := by
      intro x hx
      obtain ⟨i, hi⟩ := IndexMap.mem_keys.mp (hsub x (List.mem_cons_of_mem n hx))
      refine IndexMap.mem_keys.mpr ⟨i, ?_⟩
      rw [IndexMap.get?_erase_ne (fun e : x = n => hnot (e ▸ hx))]
      exact hi
    have ih := finalise_units mode order (jobs.erase n) alloc.alloc.2 (hk.erase n) hnod hrest
    unfold finalise
    rw [hj]
    show j.unit :: (finalise mode order (jobs.erase n) alloc.alloc.2).1.map Job.unit = n :: order
    rw [ih, hk n j hj]

/-- A transaction is empty or assembled from a map of jobs. -/
theorem build_assembled (h : Transaction.build g v alloc root kind mode = .ok (t, alloc')) :
    t = {} ∨ ∃ jobs, Keyed jobs ∧ assemble g v alloc mode jobs = .ok (t, alloc') := by
  unfold Transaction.build at h
  split at h
  next =>
    obtain ⟨rfl, -⟩ := Prod.mk.inj (Except.ok.inj h)
    exact Or.inl rfl
  next =>
    split at h
    next => exact absurd h (by simp)
    next =>
      split at h
      next => exact absurd h (by simp)
      next =>
        rcases expand_spec g v root kind mode with ⟨e, -, he⟩ | ⟨-, jobs, he, hag⟩
        · rw [he] at h
          exact absurd h (by simp [bind, Except.bind])
        · rw [he] at h
          exact Or.inr ⟨jobs, hag.keyed, h⟩

/-- What is assembled: the jobs of the map in the order of the sort. -/
theorem assemble_units {jobs : IndexMap UnitName Job} (hk : Keyed jobs)
    (h : assemble g v alloc mode jobs = .ok (t, alloc')) :
    orderJobs g mode jobs.keys = .ok (t.jobs.map Job.unit) := by
  simp only [assemble, bind, Except.bind, pure, Except.pure] at h
  split at h
  next => exact absurd h (by simp)
  next =>
    split at h
    next => exact absurd h (by simp)
    next order ho =>
      obtain ⟨rfl, -⟩ := Prod.mk.inj (Except.ok.inj h)
      have hperm := orderJobs_perm jobs.keys_nodup ho
      have hunits := finalise_units mode order jobs alloc hk
        (hperm.nodup_iff.mpr jobs.keys_nodup) fun n hn => hperm.mem_iff.mp hn
      rw [ho]
      exact congrArg Except.ok hunits.symm

/-- The jobs of a transaction respect every ordering edge between their units. -/
theorem build_ordered (hmode : mode ≠ .ignoreRequirements)
    (h : Transaction.build g v alloc root kind mode = .ok (t, alloc')) :
    g.Respects (t.jobs.map Job.unit) := by
  intro a b hab
  rcases build_assembled h with rfl | ⟨jobs, hk, hasm⟩
  · exact absurd hab.1 (by simp)
  · have horder := assemble_units hk hasm
    unfold orderJobs at horder
    rw [if_neg hmode] at horder
    split at horder
    next order ho =>
      obtain rfl := Except.ok.inj horder
      have hperm := DepGraph.topoOrder_perm jobs.keys_nodup ho
      exact DepGraph.standsBefore_of_topoOrder jobs.keys_nodup ho (hab.of_perm hperm)
    next => exact absurd horder (by simp)

/-- **The sort is a topological sort**: it succeeds exactly when no chain of
constraints leads from a unit back to itself, and what it returns is the list in
an order that respects every constraint, whichever side declared it. So do the
jobs of every transaction that is sorted. -/
theorem topoOrder_correct (g : DepGraph) (units : List UnitName) (hn : units.Nodup) :
    ((∃ order, g.topoOrder units = .ok order) ↔
      ∀ n, ¬ Relation.TransGen (g.MustPrecede units) n n) ∧
    (∀ order, g.topoOrder units = .ok order → order.Perm units ∧
      ∀ a b, g.MustPrecede units a b → StandsBefore order a b) ∧
    ∀ v alloc root kind mode t alloc', mode ≠ .ignoreRequirements →
      Transaction.build g v alloc root kind mode = .ok (t, alloc') →
      g.Respects (t.jobs.map Job.unit) := by
  refine ⟨DepGraph.topoOrder_ok_iff hn, ?_, ?_⟩
  · intro order ho
    exact ⟨DepGraph.topoOrder_perm hn ho,
      fun a b hab => DepGraph.standsBefore_of_topoOrder hn ho hab⟩
  · intro v alloc root kind mode t alloc' hmode hb
    exact build_ordered hmode hb

/-! ## Part of another unit, and ordered after it -/

/-- `s.service` with `PartOf=p.service` and `After=p.service`. -/
def partUnits : IndexMap UnitName UnitSpec := .ofList
  [(svc "s", { UnitSpec.empty (svc "s") with deps := { partOf := [svc "p"], after := [svc "p"] } }),
   (svc "p", UnitSpec.empty (svc "p"))]

/-- Both units are loaded and active, no job is queued. -/
def partView : ManagerView where
  isLoaded := partUnits.contains
  isActive := partUnits.contains
  allowIsolate := fun _ => false
  existingJobs := []

/-- What `Transaction.build` returns for `stop p.service`. -/
def partTransaction : Transaction where
  jobs := [⟨⟨1⟩, svc "p", .stop, .replace⟩, ⟨⟨2⟩, svc "s", .stop, .replace⟩]

theorem part_build : Transaction.build (DepGraph.build partUnits) partView .new (svc "p")
    .stop .replace = .ok (partTransaction, ⟨3⟩) := rfl

theorem topoOrder_correct_part :
    ((∃ order, (DepGraph.build partUnits).topoOrder [svc "s", svc "p"] = .ok order) ↔
      ∀ n, ¬ Relation.TransGen
        ((DepGraph.build partUnits).MustPrecede [svc "s", svc "p"]) n n) ∧
    (∀ order, (DepGraph.build partUnits).topoOrder [svc "s", svc "p"] = .ok order →
      order.Perm [svc "s", svc "p"] ∧
      ∀ a b, (DepGraph.build partUnits).MustPrecede [svc "s", svc "p"] a b →
        StandsBefore order a b) ∧
    ∀ v alloc root kind mode t alloc', mode ≠ .ignoreRequirements →
      Transaction.build (DepGraph.build partUnits) v alloc root kind mode = .ok (t, alloc') →
      (DepGraph.build partUnits).Respects (t.jobs.map Job.unit) :=
  topoOrder_correct (DepGraph.build partUnits) [svc "s", svc "p"] (by decide)

/-- **Stops run in start order.** When a unit is ordered after another and both
have a job, the job of the other one stands first. The sort does not look at the
kinds: of two stops, too, the one of the unit ordered after comes second. -/
theorem stops_in_start_order (g : DepGraph) (v : ManagerView) (alloc : JobIdAlloc)
    (root : UnitName) (kind : JobType) (mode : JobMode) (t : Transaction) (alloc' : JobIdAlloc)
    (hmode : mode ≠ .ignoreRequirements)
    (h : Transaction.build g v alloc root kind mode = .ok (t, alloc')) (ju jv : Job)
    (hu : ju ∈ t.jobs) (hv : jv ∈ t.jobs)
    (hafter : (.after, jv.unit) ∈ g.outgoing ju.unit ∨ (.before, ju.unit) ∈ g.outgoing jv.unit) :
    StandsBefore t.jobs jv ju ∧ ¬ StandsBefore t.jobs ju jv := by
  have hnod := build_nodup h
  have hmust : g.MustPrecede (t.jobs.map Job.unit) jv.unit ju.unit :=
    ⟨List.mem_map_of_mem hu, List.mem_map_of_mem hv, hafter⟩
  have hunits := build_ordered hmode h _ _ hmust
  constructor
  · exact hunits.of_map hnod hv hu
  · intro hrev
    exact (hrev.map Job.unit).asymm hnod hunits

theorem stops_in_start_order_part :
    StandsBefore partTransaction.jobs ⟨⟨1⟩, svc "p", .stop, .replace⟩
        ⟨⟨2⟩, svc "s", .stop, .replace⟩ ∧
      ¬ StandsBefore partTransaction.jobs ⟨⟨2⟩, svc "s", .stop, .replace⟩
        ⟨⟨1⟩, svc "p", .stop, .replace⟩ :=
  stops_in_start_order _ _ _ _ _ _ _ _ (by decide) part_build
    ⟨⟨2⟩, svc "s", .stop, .replace⟩ ⟨⟨1⟩, svc "p", .stop, .replace⟩ (by decide) (by decide)
    (Or.inl (by decide))

/-- Stops are not in reverse order. -/
theorem not_stops_in_reverse : ¬ ∀ (g : DepGraph) (v : ManagerView) (alloc : JobIdAlloc)
    (root : UnitName) (kind : JobType) (mode : JobMode) (t : Transaction) (alloc' : JobIdAlloc),
    mode ≠ .ignoreRequirements → Transaction.build g v alloc root kind mode = .ok (t, alloc') →
    ∀ ju ∈ t.jobs, ∀ jv ∈ t.jobs, ju.kind = .stop → jv.kind = .stop →
    (.after, jv.unit) ∈ g.outgoing ju.unit ∨ (.before, ju.unit) ∈ g.outgoing jv.unit →
    StandsBefore t.jobs ju jv := by
  intro h
  have hrev := h _ _ _ _ _ _ _ _ (by decide) part_build
    ⟨⟨2⟩, svc "s", .stop, .replace⟩ (by decide) ⟨⟨1⟩, svc "p", .stop, .replace⟩ (by decide)
    rfl rfl (Or.inl (by decide))
  exact absurd hrev (by unfold StandsBefore; decide)

end Systeml.Deps
