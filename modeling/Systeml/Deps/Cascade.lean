import Systeml.Lib.SoftPhase
import Systeml.Deps.Modes
import Systeml.Deps.StopClosure

/-!
# What a stop or a reload reaches

A stop asks for nothing but stops and a reload for nothing but reloads, and both only
softly. So a transaction for either has one job of that kind for every unit that the
request reaches through loaded units, and no other job, whatever the edges are and
whether they form cycles. It fails only where the root is not loaded, where the queue
is not to be touched, or where the jobs cannot be sorted (`build_cascade`).
-/

namespace Systeml.Deps

open Systeml.Lib Systeml.Unit

variable {g : DepGraph} {v : ManagerView} {root : UnitName} {kind : JobType} {mode : JobMode}

/-- A job of the kind on `a` asks for one on `b`. -/
def Spreads (g : DepGraph) (kind : JobType) (a b : UnitName) : Prop :=
  match kind with
  | .stop => SpreadsStop g a b
  | .reload => (.propagatesReloadTo, b) ∈ g.outgoing a
  | _ => False

/-- The units that a request on the root reaches through loaded units. -/
def Reaches (g : DepGraph) (v : ManagerView) (kind : JobType) (root u : UnitName) : Prop :=
  Relation.ReflTransGen (fun a b => Spreads g kind a b ∧ v.isLoaded b = true) root u

/-- A stop or a reload. -/
def JobType.cascades : JobType → Bool
  | stop | reload => true
  | _ => false

theorem reload_softOnly : (pullSystem g v mode).SoftOnly .reload := by
  intro a p hp
  obtain ⟨x, -, hx⟩ := List.mem_filterMap.mp (pulls_sub_expansion hp)
  unfold softPull at hx
  split at hx
  next => exact ⟨x.2, (Option.some.inj hx).symm⟩
  next => exact absurd hx (by simp)

theorem cascades_softOnly (hk : kind.cascades = true) : (pullSystem g v mode).SoftOnly kind := by
  cases kind with
  | stop => exact stop_softOnly
  | reload => exact reload_softOnly
  | start | restart | tryRestart | reloadOrStart | verifyActive | nop => exact absurd hk (by decide)

/-- What a loaded unit is asked for is what the request spreads to. -/
theorem pulled_iff {a b : UnitName} (hk : kind.cascades = true) (hm : mode.follows = true)
    (hl : v.isLoaded b = true) :
    .soft b kind ∈ (pullSystem g v mode).pulls a kind ↔ Spreads g kind a b := by
  have hpulls : (pullSystem g v mode).pulls a kind = expansion g v a kind := by
    rw [pullSystem_follows hm (show JobMode.replace.follows = true from rfl)]
    rfl
  rw [hpulls]
  cases kind with
  | stop =>
    refine ⟨fun hp => ?_, fun h => spread_pulled h hl⟩
    rcases List.mem_append.mp hp with hp | hp
    · obtain ⟨⟨e, n⟩, he, hp⟩ := List.mem_filterMap.mp hp
      obtain ⟨hsel, rfl, -⟩ := softPull_some hp (Or.inr rfl)
      refine Or.inl ⟨e, he, ?_⟩
      cases e <;> simp_all [DepEdge.stopsSource]
    · obtain ⟨⟨e, n⟩, he, hp⟩ := List.mem_filterMap.mp hp
      obtain ⟨hsel, rfl, -⟩ := softPull_some hp (Or.inr rfl)
      obtain rfl : e = .propagatesStopTo := by simpa using hsel
      exact Or.inr he
  | reload =>
    constructor
    · intro hp
      obtain ⟨⟨e, n⟩, he, hp⟩ := List.mem_filterMap.mp hp
      obtain ⟨hsel, rfl, -⟩ := softPull_some hp (Or.inr rfl)
      obtain rfl : e = .propagatesReloadTo := by simpa using hsel
      exact he
    · intro he
      exact List.mem_filterMap.mpr ⟨_, he, by simp [softPull, hl]⟩
  | start | restart | tryRestart | reloadOrStart | verifyActive | nop => exact absurd hk (by decide)

/-- The nodes the walk sweeps are the units that are reached. -/
theorem swept_iff_reaches {u : UnitName} (hk : kind.cascades = true) (hm : mode.follows = true)
    (hl : v.isLoaded root = true) :
    Swept (pullSystem g v mode) kind .empty [root] u ↔ Reaches g v kind root u := by
  constructor
  · intro h
    induction h with
    | base ha _ =>
      rw [List.mem_singleton.mp ha]
      exact .refl
    | spread _ _ hp hrej ih =>
      have hlb := reject_eq_none.mp hrej
      exact ih.tail ⟨(pulled_iff hk hm hlb).mp hp, hlb⟩
  · intro h
    induction h with
    | refl => exact .base List.mem_cons_self (reject_eq_none.mpr hl)
    | tail _ hstep ih =>
      exact .spread ih (by simp) ((pulled_iff hk hm hstep.2).mpr hstep.1)
        (reject_eq_none.mpr hstep.2)

theorem visits_phase (hm : mode.follows = true) : visits g v root kind mode =
    (pullSystem g v mode).phase kind (fuel g) [root] .empty := by
  unfold visits
  rw [if_neg]
  · rfl
  · rintro rfl
    exact absurd hm (by decide)

theorem mergeAll_replicate (hk : kind.cascades = true) (u : UnitName) : ∀ n : Nat,
    mergeAll v u (List.replicate (n + 1) kind) = kind
  | 0 => by
    cases kind with
    | stop | reload => rfl
    | start | restart | tryRestart | reloadOrStart | verifyActive | nop =>
      exact absurd hk (by decide)
  | n + 1 => by
    rw [List.replicate_succ', mergeAll_snoc, mergeAll_replicate hk u n]
    cases kind with
    | stop | reload => rfl
    | start | restart | tryRestart | reloadOrStart | verifyActive | nop =>
      exact absurd hk (by decide)

/-- The visits of a cascade: the units that are reached, all of the one kind. -/
theorem visits_cascade (hk : kind.cascades = true) (hm : mode.follows = true)
    (hl : v.isLoaded root = true) {u : UnitName} {k : JobType} :
    (∃ vis, (visits g v root kind mode).get? u = some vis ∧ kindOf v u vis = k) ↔
      k = kind ∧ Reaches g v kind root u := by
  have hs : (pullSystem g v mode).SoftOnly kind := cascades_softOnly hk
  have hgains := PullSystem.phase_kinds hs (fuel g) [root] .empty
  rw [visits_phase hm, ← swept_iff_reaches hk hm hl]
  have hkind : ∀ vis, ((pullSystem g v mode).phase kind (fuel g) [root] .empty).get? u = some vis →
      kindOf v u vis = kind := by
    intro vis hvis
    obtain ⟨n, hn⟩ := hgains u
    have hkinds : vis.kinds = List.replicate n kind := by
      simpa [kindsAt, hvis] using hn
    rw [kindOf_eq_mergeAll, hkinds]
    cases n with
    | zero => exact absurd hkinds (by simp [Visit.kinds])
    | succ n => exact mergeAll_replicate hk u n
  constructor
  · rintro ⟨vis, hvis, rfl⟩
    refine ⟨hkind vis hvis, ?_⟩
    by_contra hno
    rw [PullSystem.phase_frame hs (fuel g) [root] hno] at hvis
    exact absurd hvis (by simp)
  · rintro ⟨rfl, hreach⟩
    have hasked := PullSystem.phase_asked hs (n := fuel g)
      (fun a ha m => ask_has_fuel root _ (Or.inl (List.mem_singleton.mp ha)) k m) hreach
    obtain ⟨l, hlast⟩ := hasked
    have hmem := mem_keys_iff_kindsAt.mpr (by rw [hlast]; simp)
    obtain ⟨vis, hvis⟩ := IndexMap.mem_keys.mp hmem
    exact ⟨vis, hvis, hkind vis hvis⟩

/-- The expansion of a cascade does not fail. -/
theorem expand_cascade (hk : kind.cascades = true) (hl : v.isLoaded root = true) :
    ∃ jobs, expand g v root kind mode = .ok jobs := by
  obtain ⟨e, hr, -⟩ | ⟨-, jobs, he, -⟩ := expand_spec g v root kind mode
  · have hs : (pullSystem g v mode).SoftOnly kind := cascades_softOnly hk
    have hdone := (PullSystem.ask_noFail hs.noFail
      (fun a k hak _ p hp b j hr => (hs.requests (hak ▸ hp) hr).2) (fuel g) root kind .empty rfl
      rootAsk_fuel).1 (reject_eq_none.mpr hl)
    exact absurd (hr.symm.trans hdone) (by simp)
  · exact ⟨jobs, he⟩

theorem applyMode_error {jobs : IndexMap UnitName Job} {e : TransactionError}
    (h : applyMode v mode jobs = .error e) : mode = .fail ∧ e = .wouldReplaceFail := by
  cases mode with
  | fail =>
    unfold applyMode at h
    simp only at h
    split at h
    · exact ⟨rfl, (Except.error.inj h).symm⟩
    · exact absurd h (by simp)
  | flush | replace | replaceIrreversibly | isolate | ignoreDependencies | ignoreRequirements =>
    exact absurd h (by simp [applyMode])

theorem orderJobs_error {names : List UnitName} {e : TransactionError}
    (h : orderJobs g mode names = .error e) : ∃ n, e = .cycle n := by
  unfold orderJobs at h
  split at h
  · exact absurd h (by simp)
  · split at h
    · exact absurd h (by simp)
    · exact ⟨_, (Except.error.inj h).symm⟩

/-- What a transaction for a stop or a reload is. -/
def CascadeExact (g : DepGraph) (v : ManagerView) (root : UnitName) (kind : JobType)
    (mode : JobMode) : Except TransactionError (Transaction × JobIdAlloc) → Prop
  | .ok (t, _) => (t.jobs.map Job.unit).Nodup ∧
      ∀ u k, (u, k) ∈ t.jobs.map Job.pair ↔ k = kind ∧ Reaches g v kind root u
  | .error e => v.isLoaded root = false ∧ e = .notLoaded root ∨
      mode = .fail ∧ e = .wouldReplaceFail ∨ ∃ n, e = .cycle n

/-- **A stop or a reload reaches what it spreads to, and nothing else.** -/
theorem build_cascade (g : DepGraph) (v : ManagerView) (alloc : JobIdAlloc) (root : UnitName)
    (hk : kind.cascades = true) (hm : mode.follows = true) :
    CascadeExact g v root kind mode (Transaction.build g v alloc root kind mode) := by
  have hcol : ¬ Collapses v root kind := by
    rintro ⟨rfl, -⟩
    exact absurd hk (by decide)
  cases hb : Transaction.build g v alloc root kind mode with
  | ok r =>
    obtain ⟨t, alloc'⟩ := r
    refine ⟨build_nodup hb, fun u k => ?_⟩
    obtain ⟨hva, hact, -⟩ | hbuilt := build_ok hb
    · exact absurd ⟨hva, hact⟩ hcol
    · rw [hbuilt.kinds, visits_cascade hk hm hbuilt.loaded]
  | error e =>
    rw [build_follows hm, if_neg hcol] at hb
    split at hb
    next hl => exact Or.inl ⟨hl, (Except.error.inj hb).symm⟩
    next hl =>
      rw [Bool.not_eq_false] at hl
      obtain ⟨jobs, he⟩ : ∃ jobs, expand g v root kind mode = .ok jobs := expand_cascade hk hl
      rw [he] at hb
      have hasm : assemble g v alloc mode jobs = .error e := hb
      rw [assemble_eq] at hasm
      cases hc : applyMode v mode jobs with
      | error e' =>
        rw [hc] at hasm
        obtain rfl := Except.error.inj hasm
        exact Or.inr (Or.inl (applyMode_error hc))
      | ok cancel =>
        cases ho : orderJobs g mode jobs.keys with
        | error e' =>
          rw [hc, ho] at hasm
          obtain rfl := Except.error.inj hasm
          exact Or.inr (Or.inr (orderJobs_error ho))
        | ok order =>
          rw [hc, ho] at hasm
          exact absurd hasm (by simp [Except.bind])

theorem build_cascade_part : CascadeExact (DepGraph.build partUnits) partView (svc "p") .stop
    .replace (.ok (partTransaction, ⟨3⟩)) := by
  rw [← part_build]
  exact build_cascade _ _ .new (svc "p") rfl rfl

end Systeml.Deps
