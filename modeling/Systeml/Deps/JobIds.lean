import Systeml.Lib.Counter
import Systeml.Deps.Transaction

/-!
# The ids of jobs

The allocator is shared by all builds and counts in 32 bits. Only a build that succeeds
takes ids, one for each of its jobs, and how many it takes does not depend on where the
allocator stands (`build_ids`).

`starting_at` keeps the allocator from starting at the sentinel, but nothing keeps it from
coming there when it wraps: the ids are fresh exactly while it does not
(`idsFresh_iff`).
-/

namespace Systeml.Deps

open Systeml.Lib Systeml.Unit

/-- The arguments of `Transaction::build`, less the allocator. -/
structure BuildRequest where
  graph : DepGraph
  manager : ManagerView
  root : UnitName
  kind : JobType
  mode : JobMode

/-- `Transaction::build` for a request. -/
def BuildRequest.build (r : BuildRequest) (alloc : JobIdAlloc) :
    Except TransactionError (Transaction × JobIdAlloc) :=
  Transaction.build r.graph r.manager alloc r.root r.kind r.mode

/-- Builds that share an allocator, one after the other: the transactions built. -/
def buildAll : JobIdAlloc → List BuildRequest → List Transaction × JobIdAlloc
  | alloc, [] => ([], alloc)
  | alloc, r :: rs =>
    match r.build alloc with
    | .ok (t, alloc) =>
      let (ts, alloc) := buildAll alloc rs
      (t :: ts, alloc)
    | .error _ => buildAll alloc rs

/-- The ids of all their jobs. -/
def jobIds (ts : List Transaction) : List JobId := ts.flatMap fun t => t.jobs.map Job.id

/-- No job has the sentinel, and no two jobs have the same id. -/
structure IdsFresh (ts : List Transaction) : Prop where
  genuine : JobId.placeholder ∉ jobIds ts
  distinct : (jobIds ts).Nodup

/-- How many ids a build takes, wherever the allocator stands. -/
def BuildRequest.size (r : BuildRequest) : Nat :=
  match r.build .new with
  | .ok (t, _) => t.jobs.length
  | .error _ => 0

/-- How many ids are allocated in all. -/
def allocated (rs : List BuildRequest) : Nat := (rs.map BuildRequest.size).sum

/-! ## What a build takes -/

/-- A number as it stands in the allocator. -/
def JobId.toNat (id : JobId) : Nat := id.id.toNat

theorem JobId.toNat_injective : Function.Injective JobId.toNat := by
  intro a b h
  cases a
  cases b
  exact congrArg JobId.mk (UInt32.toNat.inj h)

/-- The ids are the next ones, and the allocator stands behind them. -/
def Takes (alloc alloc' : JobIdAlloc) (ids : List JobId) : Prop :=
  ids.map JobId.toNat = ticks (2 ^ 32) alloc.next.toNat ids.length ∧
    alloc'.next.toNat = (alloc.next.toNat + ids.length) % 2 ^ 32

theorem takes_nil (alloc : JobIdAlloc) : Takes alloc alloc [] :=
  ⟨rfl, (Nat.mod_eq_of_lt alloc.next.toNat_lt).symm⟩

theorem takes_cons {alloc alloc' : JobIdAlloc} {ids : List JobId}
    (h : Takes alloc.alloc.2 alloc' ids) : Takes alloc alloc' (alloc.alloc.1 :: ids) := by
  obtain ⟨hids, hnext⟩ := h
  have hstep : alloc.alloc.2.next.toNat = (alloc.next.toNat + 1) % 2 ^ 32 := UInt32.toNat_add _ _
  refine ⟨?_, ?_⟩
  · rw [List.map_cons, List.length_cons, ticks_succ, hids, hstep,
      ticks_congr (Nat.mod_mod (alloc.next.toNat + 1) (2 ^ 32))]
    exact congrArg (· :: _) (Nat.mod_eq_of_lt alloc.next.toNat_lt).symm
  · rw [hnext, hstep, Nat.mod_add_mod, List.length_cons]
    congr 1
    omega

theorem takes_append {a b c : JobIdAlloc} {ids ids' : List JobId} (h : Takes a b ids)
    (h' : Takes b c ids') : Takes a c (ids ++ ids') := by
  obtain ⟨hids, hnext⟩ := h
  obtain ⟨hids', hnext'⟩ := h'
  refine ⟨?_, ?_⟩
  · rw [List.map_append, List.length_append, ticks_append, hids, hids', hnext,
      ticks_congr (Nat.mod_mod _ _)]
  · rw [hnext', hnext, Nat.mod_add_mod, List.length_append, Nat.add_assoc]

/-- Taking the jobs out takes an id for each. -/
theorem takes_finalise {mode : JobMode} : ∀ (order : List UnitName) (jobs : IndexMap UnitName Job)
    (alloc : JobIdAlloc), Takes alloc (finalise mode order jobs alloc).2
      ((finalise mode order jobs alloc).1.map Job.id)
  | [], _, alloc => takes_nil alloc
  | n :: order, jobs, alloc => by
    unfold finalise
    cases jobs.get? n with
    | none => exact takes_finalise order jobs alloc
    | some j => exact takes_cons (takes_finalise order (jobs.erase n) alloc.alloc.2)

/-- How many there are does not depend on the allocator. -/
theorem length_finalise {mode : JobMode} : ∀ (order : List UnitName)
    (jobs : IndexMap UnitName Job) (a b : JobIdAlloc),
    (finalise mode order jobs a).1.length = (finalise mode order jobs b).1.length
  | [], _, _, _ => rfl
  | n :: order, jobs, a, b => by
    unfold finalise
    cases jobs.get? n with
    | none => exact length_finalise order jobs a b
    | some j => exact congrArg (· + 1) (length_finalise order (jobs.erase n) a.alloc.2 b.alloc.2)

/-- A build that got to taking the jobs out. -/
def finalised (mode : JobMode) (order : List UnitName) (jobs : IndexMap UnitName Job)
    (cancel : List JobId) (alloc : JobIdAlloc) : Transaction × JobIdAlloc :=
  ({ jobs := (finalise mode order jobs alloc).1, cancel := cancel },
    (finalise mode order jobs alloc).2)

theorem assemble_cases (g : DepGraph) (v : ManagerView) (mode : JobMode)
    (jobs : IndexMap UnitName Job) :
    (∃ e, ∀ alloc, assemble g v alloc mode jobs = .error e) ∨
      ∃ order cancel, ∀ alloc, assemble g v alloc mode jobs =
        .ok (finalised mode order jobs cancel alloc) := by
  unfold assemble
  cases applyMode v mode jobs with
  | error e => exact Or.inl ⟨e, fun _ => rfl⟩
  | ok cancel =>
    cases orderJobs g mode jobs.keys with
    | error e => exact Or.inl ⟨e, fun _ => rfl⟩
    | ok order => exact Or.inr ⟨order, cancel, fun _ => rfl⟩

/-- Whether a build fails, and which jobs it takes out, is decided without the allocator. -/
theorem BuildRequest.build_cases (r : BuildRequest) :
    (∃ e, ∀ alloc, r.build alloc = .error e) ∨
      ∃ order jobs cancel, ∀ alloc, r.build alloc =
        .ok (finalised r.mode order jobs cancel alloc) := by
  unfold BuildRequest.build Transaction.build
  split
  · -- the root is active already: there are no jobs to take out
    exact Or.inr ⟨[], .empty, [], fun _ => rfl⟩
  split
  · exact Or.inl ⟨_, fun _ => rfl⟩
  split
  · exact Or.inl ⟨_, fun _ => rfl⟩
  cases expand r.graph r.manager r.root r.kind r.mode with
  | error e => exact Or.inl ⟨e, fun _ => rfl⟩
  | ok jobs =>
    obtain ⟨e, he⟩ | ⟨order, cancel, he⟩ := assemble_cases r.graph r.manager r.mode jobs
    · exact Or.inl ⟨e, he⟩
    · exact Or.inr ⟨order, jobs, cancel, he⟩

/-- **What a build takes**: nothing if it fails, else an id for each job. -/
theorem build_ids (r : BuildRequest) (alloc : JobIdAlloc) :
    (∃ e, r.build alloc = .error e ∧ r.size = 0) ∨ ∃ t alloc', r.build alloc = .ok (t, alloc') ∧
      Takes alloc alloc' (t.jobs.map Job.id) ∧ t.jobs.length = r.size := by
  unfold BuildRequest.size
  obtain ⟨e, he⟩ | ⟨order, jobs, cancel, he⟩ := r.build_cases
  · refine Or.inl ⟨e, he alloc, ?_⟩
    rw [he .new]
  · refine Or.inr ⟨_, _, he alloc, takes_finalise order jobs alloc, ?_⟩
    rw [he .new]
    exact length_finalise order jobs alloc .new

theorem takes_buildAll : ∀ (rs : List BuildRequest) (alloc : JobIdAlloc),
    Takes alloc (buildAll alloc rs).2 (jobIds (buildAll alloc rs).1) ∧
      (jobIds (buildAll alloc rs).1).length = allocated rs
  | [], alloc => ⟨takes_nil alloc, rfl⟩
  | r :: rs, alloc => by
    have hsum : allocated (r :: rs) = r.size + allocated rs := List.sum_cons
    obtain ⟨e, he, hsize⟩ | ⟨t, alloc', he, htakes, hsize⟩ := build_ids r alloc
    · have hall : buildAll alloc (r :: rs) = buildAll alloc rs := by
        simp only [buildAll, he]
      rw [hall, hsum, hsize, Nat.zero_add]
      exact takes_buildAll rs alloc
    · have hall : buildAll alloc (r :: rs) =
          (t :: (buildAll alloc' rs).1, (buildAll alloc' rs).2) := by
        simp only [buildAll, he]
      obtain ⟨hrest, hlen⟩ := takes_buildAll rs alloc'
      rw [hall, hsum]
      refine ⟨takes_append htakes hrest, ?_⟩
      show (t.jobs.map Job.id ++ jobIds (buildAll alloc' rs).1).length = _
      rw [List.length_append, List.length_map, hsize, hlen]

theorem toNat_startingAt (start : UInt32) :
    (JobIdAlloc.startingAt start).next.toNat = max start.toNat 1 := by
  show (if start ≤ 1 then (1 : UInt32) else start).toNat = _
  split
  next h => exact (Nat.max_eq_right (UInt32.le_iff_toNat_le.mp h)).symm
  next h =>
    rw [UInt32.le_iff_toNat_le, Nat.not_le] at h
    exact (Nat.max_eq_left (Nat.le_of_lt h)).symm

/-- **The ids are fresh exactly while the allocator does not wrap.** -/
theorem idsFresh_iff (start : UInt32) (rs : List BuildRequest) (hfew : allocated rs < 2 ^ 32 - 1) :
    IdsFresh (buildAll (.startingAt start) rs).1 ↔ max start.toNat 1 + allocated rs ≤ 2 ^ 32 := by
  obtain ⟨⟨hids, -⟩, hlen⟩ := takes_buildAll rs (.startingAt start)
  rw [hlen, toNat_startingAt] at hids
  have hzero : JobId.placeholder ∈ jobIds (buildAll (.startingAt start) rs).1 ↔
      2 ^ 32 < max start.toNat 1 + allocated rs := by
    rw [← List.mem_map_of_injective JobId.toNat_injective, hids]
    -- the first 0 is where the counter wraps
    have hle := start.toNat_lt
    exact zero_mem_ticks (by omega) (by omega)
  have hdistinct : (jobIds (buildAll (.startingAt start) rs).1).Nodup := by
    refine List.Nodup.of_map JobId.toNat ?_
    rw [hids]
    exact nodup_ticks (by omega)
  rw [← Nat.not_lt, ← hzero]
  exact ⟨fun h => h.genuine, fun h => ⟨h, hdistinct⟩⟩

/-! ## At the wrap -/

/-- `a.service` is loaded, and is to be started. -/
def startA : BuildRequest where
  graph := .new
  manager :=
    { isLoaded := fun u => u == .plain "a".toList .service
      isActive := fun _ => false
      allowIsolate := fun _ => false
      existingJobs := [] }
  root := .plain "a".toList .service
  kind := .start
  mode := .replace

theorem idsFresh_startA : IdsFresh (buildAll (.startingAt 4294967294) [startA, startA]).1 ↔
    max (4294967294 : UInt32).toNat 1 + allocated [startA, startA] ≤ 2 ^ 32 :=
  idsFresh_iff 4294967294 [startA, startA] (by decide)

/-- Resumed from the last id, the second job has the sentinel. -/
theorem not_all_idsFresh : ¬ ∀ (start : UInt32) (rs : List BuildRequest),
    allocated rs < 2 ^ 32 - 1 → IdsFresh (buildAll (.startingAt start) rs).1 := by
  intro h
  have hfresh := h 4294967295 [startA, startA] (by decide)
  have hids : jobIds (buildAll (.startingAt 4294967295) [startA, startA]).1 =
      [⟨4294967295⟩, .placeholder] := rfl
  have hgenuine := hfresh.genuine
  rw [hids] at hgenuine
  exact hgenuine (by simp)

end Systeml.Deps
