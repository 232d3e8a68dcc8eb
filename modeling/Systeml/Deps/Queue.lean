import Systeml.Deps.Order

/-!
# The queue across transactions

Applying a transaction to the queue it was built against: the jobs it cancels go,
its own are appended. `applyMode` compares kinds: a queued job whose unit gets a
job of another kind is cancelled, one of the same kind stays beside the new one.
So what an application keeps is that the jobs of a unit are of one kind
(`OneKind.applied`), over any sequence of transactions; at most one job for each
unit is kept where no job is asked for again (`applied_nodup`).
-/

namespace Systeml.Deps

open Systeml.Lib Systeml.Unit

/-- The queue after the transaction is applied. -/
def applied (queue : List Job) (t : Transaction) : List Job :=
  queue.filter (fun j => decide (j.id ∉ t.cancel)) ++ t.jobs

/-- Any two queued jobs of a unit are of the same kind. -/
def OneKind (queue : List Job) : Prop :=
  ∀ a ∈ queue, ∀ b ∈ queue, a.unit = b.unit → a.kind = b.kind

/-- No job of the transaction is already queued. -/
def Fresh (queue : List Job) (t : Transaction) : Prop :=
  ∀ ej ∈ queue, ∀ j ∈ t.jobs, j.unit = ej.unit → j.kind ≠ ej.kind

theorem oneKind_of_nodup {queue : List Job} (h : (queue.map Job.unit).Nodup) :
    OneKind queue := by
  intro a ha b hb hu
  rw [List.inj_on_of_nodup_map h ha hb hu]

variable {g : DepGraph} {v : ManagerView} {root : UnitName} {kind : JobType} {mode : JobMode}
  {alloc alloc' : JobIdAlloc} {t : Transaction}

/-! ## What is cancelled -/

/-- A queued job is in conflict when its unit gets a job of another kind. -/
theorem conflicting_iff {jobs : IndexMap UnitName Job} {ej : Job} :
    conflicting jobs ej = true ↔ ∃ j, jobs.get? ej.unit = some j ∧ j.kind ≠ ej.kind := by
  unfold conflicting
  cases jobs.get? ej.unit with
  | none => simp
  | some j => simp

/-- What the mode cancels, read off the jobs of the transaction. -/
structure Cancels (v : ManagerView) (mode : JobMode) (t : Transaction) : Prop where
  flush : mode = .flush → t.jobs = [] ∨ t.cancel = v.existingJobs.map Job.id
  only : mode ≠ .flush → ∀ id ∈ t.cancel, ∃ ej ∈ v.existingJobs, ej.id = id ∧
    ∃ j ∈ t.jobs, j.unit = ej.unit ∧ j.kind ≠ ej.kind
  all : ∀ ej ∈ v.existingJobs, ∀ j ∈ t.jobs, j.unit = ej.unit → j.kind ≠ ej.kind →
    ej.id ∈ t.cancel

/-- Cancelling what is in conflict. -/
theorem cancels_conflicting {jobs : IndexMap UnitName Job} (hmode : mode ≠ .flush)
    (hc : t.cancel = (v.existingJobs.filter (conflicting jobs)).map Job.id)
    (hj : ∀ ej : Job, conflicting jobs ej = true ↔
      ∃ j ∈ t.jobs, j.unit = ej.unit ∧ j.kind ≠ ej.kind) : Cancels v mode t where
  flush := fun h => absurd h hmode
  only := by
    intro _ id hid
    rw [hc] at hid
    obtain ⟨ej, hej, rfl⟩ := List.mem_map.mp hid
    obtain ⟨hmem, hconf⟩ := List.mem_filter.mp hej
    exact ⟨ej, hmem, rfl, (hj ej).mp hconf⟩
  all := by
    intro ej hej j hjt hu hk
    rw [hc]
    apply List.mem_map_of_mem
    exact List.mem_filter.mpr ⟨hej, (hj ej).mpr ⟨j, hjt, hu, hk⟩⟩

/-- What a transaction cancels. -/
theorem build_cancels (h : Transaction.build g v alloc root kind mode = .ok (t, alloc')) :
    Cancels v mode t := by
  rcases build_assembled h with rfl | ⟨jobs, hk, hasm⟩
  · exact ⟨fun _ => Or.inl rfl, fun _ _ hid => absurd hid (by simp),
      fun _ _ _ hj => absurd hj (by simp)⟩
  obtain ⟨hmode, -, hpair⟩ := assemble_ok hasm
  have hj : ∀ ej : Job, conflicting jobs ej = true ↔
      ∃ j ∈ t.jobs, j.unit = ej.unit ∧ j.kind ≠ ej.kind := by
    intro ej
    rw [conflicting_iff]
    constructor
    · rintro ⟨j, hget, hne⟩
      have hu := hk _ _ hget
      obtain ⟨j', hj', he⟩ := List.mem_map.mp ((hpair ej.unit j.kind).mpr
        ⟨ej.unit, by rw [hget, ← hu]; rfl⟩)
      obtain ⟨hju, hjk⟩ := Prod.mk.inj he
      exact ⟨j', hj', hju, by rw [hjk]; exact hne⟩
    · rintro ⟨j, hjt, hu, hne⟩
      obtain ⟨n, hn⟩ := (hpair j.unit j.kind).mp (List.mem_map.mpr ⟨j, hjt, rfl⟩)
      obtain ⟨i, hi, he⟩ := Option.map_eq_some_iff.mp hn
      obtain ⟨hiu, hik⟩ := Prod.mk.inj he
      refine ⟨i, ?_, by rw [hik]; exact hne⟩
      rw [← hu, ← hiu, hk n i hi]
      exact hi
  cases mode with
  | flush =>
    have hc : t.cancel = v.existingJobs.map Job.id := (Except.ok.inj hmode).symm
    refine ⟨fun _ => Or.inr hc, fun hne => absurd rfl hne, fun ej hej _ _ _ _ => ?_⟩
    rw [hc]
    exact List.mem_map_of_mem hej
  | fail =>
    -- nothing is in conflict, or there would be no transaction
    unfold applyMode at hmode
    simp only at hmode
    split at hmode
    next => exact absurd hmode (by simp)
    next hany =>
      have hc : t.cancel = [] := (Except.ok.inj hmode).symm
      refine ⟨fun hf => absurd hf (by simp), fun _ id hid => ?_, fun ej hej j hjt hu hne => ?_⟩
      · rw [hc] at hid
        exact absurd hid (by simp)
      · exact absurd (List.any_eq_true.mpr ⟨ej, hej, (hj ej).mpr ⟨j, hjt, hu, hne⟩⟩) hany
  | replace | replaceIrreversibly | isolate | ignoreDependencies | ignoreRequirements =>
    exact cancels_conflicting (by simp) (Except.ok.inj hmode).symm hj

/-! ## One application -/

theorem mem_applied {queue : List Job} {j : Job} :
    j ∈ applied queue t ↔ (j ∈ queue ∧ j.id ∉ t.cancel) ∨ j ∈ t.jobs := by
  simp [applied]

/-- A queued job that stays beside a new one of its unit is of the same kind. -/
theorem Cancels.kept_kind (h : Cancels v mode t) {ej j : Job} (hej : ej ∈ v.existingJobs)
    (hkeep : ej.id ∉ t.cancel) (hj : j ∈ t.jobs) (hu : j.unit = ej.unit) : j.kind = ej.kind := by
  by_contra hne
  exact hkeep (h.all ej hej j hj hu hne)

/-- Applying a transaction keeps the jobs of a unit of one kind. -/
theorem OneKind.applied (hq : OneKind v.existingJobs)
    (h : Transaction.build g v alloc root kind mode = .ok (t, alloc')) :
    OneKind (applied v.existingJobs t) := by
  have hcan := build_cancels h
  intro a ha b hb hu
  rcases mem_applied.mp ha with ⟨ha, hka⟩ | ha
  · rcases mem_applied.mp hb with ⟨hb, -⟩ | hb
    · exact hq a ha b hb hu
    · exact (hcan.kept_kind ha hka hb hu.symm).symm
  · rcases mem_applied.mp hb with ⟨hb, hkb⟩ | hb
    · exact hcan.kept_kind hb hkb ha hu
    · exact oneKind_of_nodup (build_nodup h) a ha b hb hu

/-- It keeps one job for each unit when it flushes the queue or asks for nothing
that is queued. -/
theorem applied_nodup (hq : (v.existingJobs.map Job.unit).Nodup)
    (h : Transaction.build g v alloc root kind mode = .ok (t, alloc'))
    (hf : mode = .flush ∨ Fresh v.existingJobs t) :
    ((applied v.existingJobs t).map Job.unit).Nodup := by
  have hcan := build_cancels h
  unfold applied
  rw [List.map_append, List.nodup_append]
  refine ⟨(List.filter_sublist.map Job.unit).nodup hq, build_nodup h, ?_⟩
  intro x hx y hy hxy
  obtain ⟨ej, hej, rfl⟩ := List.mem_map.mp hx
  obtain ⟨j, hj, rfl⟩ := List.mem_map.mp hy
  obtain ⟨hmem, hkeep⟩ := List.mem_filter.mp hej
  have hkeep : ej.id ∉ t.cancel := by simpa using hkeep
  rcases hf with hflush | hfresh
  · rcases hcan.flush hflush with hnone | hall
    · rw [hnone] at hj
      exact absurd hj (by simp)
    · rw [hall] at hkeep
      exact hkeep (List.mem_map_of_mem hmem)
  · exact hkeep (hcan.all ej hmem j hj hxy.symm (hfresh ej hmem j hj hxy.symm))

/-- Without `Flush` a job of a unit the transaction leaves alone is kept, unless
another job goes by the same id. -/
theorem Cancels.spares (h : Cancels v mode t) (hmode : mode ≠ .flush) {ej : Job}
    (hout : ej.unit ∉ t.jobs.map Job.unit)
    (hid : ∀ other ∈ v.existingJobs, other.id = ej.id → other = ej) : ej.id ∉ t.cancel := by
  intro hmem
  obtain ⟨other, hother, he, j, hj, hu, -⟩ := h.only hmode _ hmem
  rw [hid other hother he] at hu
  exact hout (List.mem_map.mpr ⟨j, hj, hu⟩)

/-! ## Runs -/

/-- A transaction is built against the queue, by any request under any graph and
view, and applied. -/
def QueueStep (q q' : List Job) : Prop :=
  ∃ g v alloc root kind mode t alloc', v.existingJobs = q ∧
    Transaction.build g v alloc root kind mode = .ok (t, alloc') ∧ q' = applied q t

/-- A step that flushes the queue or asks for nothing that is queued. -/
def FreshStep (q q' : List Job) : Prop :=
  ∃ g v alloc root kind mode t alloc', v.existingJobs = q ∧
    Transaction.build g v alloc root kind mode = .ok (t, alloc') ∧ q' = applied q t ∧
    (mode = .flush ∨ Fresh q t)

/-- Over any sequence of applied transactions the jobs of a unit are of one kind. -/
theorem OneKind.run {q q' : List Job} (hq : OneKind q)
    (hr : Relation.ReflTransGen QueueStep q q') : OneKind q' := by
  induction hr with
  | refl => exact hq
  | tail _ hs ih =>
    obtain ⟨g, v, alloc, root, kind, mode, t, alloc', rfl, hb, rfl⟩ := hs
    exact ih.applied hb

theorem run_nodup {q q' : List Job} (hq : (q.map Job.unit).Nodup)
    (hr : Relation.ReflTransGen FreshStep q q') : (q'.map Job.unit).Nodup := by
  induction hr with
  | refl => exact hq
  | tail _ hs ih =>
    obtain ⟨g, v, alloc, root, kind, mode, t, alloc', rfl, hb, rfl, hf⟩ := hs
    exact applied_nodup ih hb hf

/-- **The queue holds one kind of job for each unit.** Applied to a queue with at
most one job for each unit, a transaction leaves an old job beside a new one only
when both are of the same kind; it leaves one job for each unit when it flushes
or asks for nothing queued; and without `Flush` it cancels no job of a unit it
has no job for. The same holds over any sequence of transactions. -/
theorem queue_oneKind (g : DepGraph) (v : ManagerView) (alloc : JobIdAlloc) (root : UnitName)
    (kind : JobType) (mode : JobMode) (t : Transaction) (alloc' : JobIdAlloc)
    (hq : (v.existingJobs.map Job.unit).Nodup)
    (h : Transaction.build g v alloc root kind mode = .ok (t, alloc')) :
    OneKind (applied v.existingJobs t) ∧
    (mode = .flush ∨ Fresh v.existingJobs t →
      ((applied v.existingJobs t).map Job.unit).Nodup) ∧
    (mode ≠ .flush → ∀ ej ∈ v.existingJobs, ej.unit ∉ t.jobs.map Job.unit →
      (∀ other ∈ v.existingJobs, other.id = ej.id → other = ej) → ej.id ∉ t.cancel) ∧
    (∀ q', Relation.ReflTransGen QueueStep v.existingJobs q' → OneKind q') ∧
    ∀ q', Relation.ReflTransGen FreshStep v.existingJobs q' → (q'.map Job.unit).Nodup := by
  have hkind := oneKind_of_nodup hq
  refine ⟨hkind.applied h, applied_nodup hq h, ?_, fun q' hr => hkind.run hr,
    fun q' hr => run_nodup hq hr⟩
  intro hmode ej _ hout hid
  exact (build_cancels h).spares hmode hout hid

/-! ## The same job twice -/

/-- `a.service` is loaded, and its start is queued. -/
def startedView : ManagerView where
  isLoaded := (· == svc "a")
  isActive := fun _ => false
  allowIsolate := fun _ => false
  existingJobs := [⟨⟨42⟩, svc "a", .start, .replace⟩]

/-- What `Transaction.build` returns for `start a.service`. -/
def startTransaction : Transaction where
  jobs := [⟨⟨1⟩, svc "a", .start, .replace⟩]

theorem started_build : Transaction.build .new startedView .new (svc "a") .start .replace =
    .ok (startTransaction, ⟨2⟩) := rfl

theorem queue_oneKind_started :
    OneKind (applied startedView.existingJobs startTransaction) ∧
    (JobMode.replace = .flush ∨ Fresh startedView.existingJobs startTransaction →
      ((applied startedView.existingJobs startTransaction).map Job.unit).Nodup) ∧
    (JobMode.replace ≠ .flush → ∀ ej ∈ startedView.existingJobs,
      ej.unit ∉ startTransaction.jobs.map Job.unit →
      (∀ other ∈ startedView.existingJobs, other.id = ej.id → other = ej) →
      ej.id ∉ startTransaction.cancel) ∧
    (∀ q', Relation.ReflTransGen QueueStep startedView.existingJobs q' → OneKind q') ∧
    ∀ q', Relation.ReflTransGen FreshStep startedView.existingJobs q' →
      (q'.map Job.unit).Nodup :=
  queue_oneKind _ _ _ _ _ _ _ _ (by decide) started_build

/-- A transaction can queue a second job for a unit. -/
theorem not_all_one_job : ¬ ∀ (g : DepGraph) (v : ManagerView) (alloc : JobIdAlloc)
    (root : UnitName) (kind : JobType) (mode : JobMode) (t : Transaction) (alloc' : JobIdAlloc),
    (v.existingJobs.map Job.unit).Nodup →
    Transaction.build g v alloc root kind mode = .ok (t, alloc') →
    ((applied v.existingJobs t).map Job.unit).Nodup := by
  intro h
  have hn := h _ _ _ _ _ _ _ _ (by decide) started_build
  have happ : applied startedView.existingJobs startTransaction =
      [⟨⟨42⟩, svc "a", .start, .replace⟩, ⟨⟨1⟩, svc "a", .start, .replace⟩] := rfl
  rw [happ] at hn
  exact absurd hn (by decide)

end Systeml.Deps
