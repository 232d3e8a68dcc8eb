import Systeml.Deps.JobIds
import Systeml.Deps.Queue

/-!
# How the modes differ

All modes but `Isolate` and `IgnoreDependencies` expand a request into the same jobs. They
differ in what they do about the queue, and `IgnoreRequirements` in that it does not sort
(`modes_agree`). A request whose transaction was applied can be made again: it gives the
same jobs, and cancels nothing unless everything is flushed (`build_again`).
-/

namespace Systeml.Deps

open Systeml.Lib Systeml.Unit

variable {g : DepGraph} {v : ManagerView} {root : UnitName} {kind : JobType}
  {mode mode' : JobMode} {alloc alloc' : JobIdAlloc} {t : Transaction}

/-- The modes that follow all dependencies and add no jobs of their own. -/
def JobMode.follows : JobMode → Bool
  | isolate | ignoreDependencies => false
  | _ => true

/-- The job in another mode. -/
def Job.inMode (mode : JobMode) (j : Job) : Job := { j with mode := mode }

/-! ## The jobs -/

/-- The same units and kinds, in the same order. -/
def SamePairs (jobs jobs' : IndexMap UnitName Job) : Prop :=
  jobs.mapVal (fun _ => Job.pair) = jobs'.mapVal (fun _ => Job.pair)

theorem SamePairs.keys {jobs jobs' : IndexMap UnitName Job} (h : SamePairs jobs jobs') :
    jobs.keys = jobs'.keys := by
  have hk := congrArg IndexMap.keys h
  simpa using hk

theorem SamePairs.get? {jobs jobs' : IndexMap UnitName Job} (h : SamePairs jobs jobs')
    (n : UnitName) : (jobs.get? n).map Job.pair = (jobs'.get? n).map Job.pair := by
  have hn := congrArg (fun m => IndexMap.get? m n) h
  simpa only [IndexMap.get?_mapVal] using hn

theorem SamePairs.conflicting {jobs jobs' : IndexMap UnitName Job} (h : SamePairs jobs jobs') :
    conflicting jobs = conflicting jobs' := by
  funext ej
  have hn := h.get? ej.unit
  unfold Deps.conflicting
  cases hj : jobs.get? ej.unit with
  | none =>
    rw [hj] at hn
    rw [Option.map_eq_none_iff.mp hn.symm]
  | some j =>
    rw [hj] at hn
    obtain ⟨j', hj', he⟩ := Option.map_eq_some_iff.mp hn.symm
    rw [hj']
    simp only [(Prod.mk.inj he).2]

theorem pullSystem_follows (h : mode.follows = true) (h' : mode'.follows = true) :
    pullSystem g v mode = pullSystem g v mode' := by
  have hne : ∀ {m : JobMode}, m.follows = true → m ≠ .ignoreDependencies := by
    rintro m hm rfl
    exact absurd hm (by decide)
  unfold pullSystem
  simp only [if_neg (hne h), if_neg (hne h')]

/-- The modes expand a request alike. -/
theorem expand_follows (g : DepGraph) (v : ManagerView) (root : UnitName) (kind : JobType)
    (h : mode.follows = true) (h' : mode'.follows = true) :
    (∃ e, expand g v root kind mode = .error e ∧ expand g v root kind mode' = .error e) ∨
      ∃ jobs jobs', expand g v root kind mode = .ok jobs ∧
        expand g v root kind mode' = .ok jobs' ∧ Keyed jobs ∧ SamePairs jobs jobs' := by
  have hone : ∀ {m : JobMode}, m.follows = true → rootAsk g v root kind m =
      rootAsk g v root kind .replace ∧ visits g v root kind m = visits g v root kind .replace := by
    intro m hm
    have hpull : pullSystem g v m = pullSystem g v .replace := pullSystem_follows hm rfl
    have hiso : m ≠ .isolate := by
      rintro rfl
      exact absurd hm (by decide)
    have hask : rootAsk g v root kind m = rootAsk g v root kind .replace := by
      unfold rootAsk
      rw [hpull]
    refine ⟨hask, ?_⟩
    unfold visits
    rw [hask, if_neg hiso, if_neg (by decide)]
  obtain ⟨ha, hv⟩ := hone h
  obtain ⟨ha', hv'⟩ := hone h'
  have hspec := expand_spec g v root kind mode
  have hspec' := expand_spec g v root kind mode'
  rw [ha, hv] at hspec
  rw [ha', hv'] at hspec'
  obtain ⟨e, hr, he⟩ | ⟨hr, jobs, he, hag⟩ := hspec
  · obtain ⟨e', hr', he'⟩ | ⟨hr', -⟩ := hspec'
    · rw [hr] at hr'
      obtain rfl := Outcome.failed.inj hr'
      exact Or.inl ⟨e, he, he'⟩
    · rw [hr] at hr'
      exact absurd hr' (by simp)
  · obtain ⟨e', hr', -⟩ | ⟨-, jobs', he', hag'⟩ := hspec'
    · rw [hr] at hr'
      exact absurd hr' (by simp)
    · exact Or.inr ⟨jobs, jobs', he, he', hag.keyed, Eq.trans hag (Eq.symm hag')⟩

/-- Jobs that agree are taken out alike. -/
theorem finalise_inMode (mode mode' : JobMode) : ∀ (order : List UnitName) {jobs jobs' : IndexMap UnitName Job}
    (alloc : JobIdAlloc), (∀ n, (jobs.get? n).map Job.pair = (jobs'.get? n).map Job.pair) →
    finalise mode' order jobs' alloc = ((finalise mode order jobs alloc).1.map (Job.inMode mode'),
      (finalise mode order jobs alloc).2)
  | [], _, _, _, _ => rfl
  | n :: order, jobs, jobs', alloc, h => by
    unfold finalise
    cases hj : jobs.get? n with
    | none =>
      have hn := h n
      rw [hj] at hn
      rw [Option.map_eq_none_iff.mp hn.symm]
      exact finalise_inMode mode mode' order alloc h
    | some j =>
      have hn := h n
      rw [hj] at hn
      obtain ⟨j', hj', he⟩ := Option.map_eq_some_iff.mp hn.symm
      obtain ⟨hu, hk⟩ := Prod.mk.inj he
      have herase : ∀ x, ((jobs.erase n).get? x).map Job.pair =
          ((jobs'.erase n).get? x).map Job.pair := by
        intro x
        by_cases hx : x = n
        · rw [hx, IndexMap.get?_erase_self, IndexMap.get?_erase_self]
        · rw [IndexMap.get?_erase_ne hx, IndexMap.get?_erase_ne hx]
          exact h x
      rw [hj']
      simp only [finalise_inMode mode mode' order alloc.alloc.2 herase, List.map_cons, Job.inMode, hu, hk]

/-! ## The modes -/

/-- The request collapses: there is nothing to verify. -/
def Collapses (v : ManagerView) (root : UnitName) (kind : JobType) : Prop :=
  kind = .verifyActive ∧ v.isActive root = true

instance : Decidable (Collapses v root kind) := inferInstanceAs (Decidable (_ ∧ _))

theorem build_follows (h : mode.follows = true) :
    Transaction.build g v alloc root kind mode =
      if Collapses v root kind then .ok ({}, alloc)
      else if v.isLoaded root = false then .error (.notLoaded root)
      else (expand g v root kind mode).bind (assemble g v alloc mode) := by
  have hiso : ¬ (mode = .isolate ∧ v.allowIsolate root = false) := by
    rintro ⟨rfl, -⟩
    exact absurd h (by decide)
  unfold Transaction.build
  rw [if_neg hiso]
  rfl

theorem assemble_eq (jobs : IndexMap UnitName Job) : assemble g v alloc mode jobs =
    (applyMode v mode jobs).bind fun cancel => (orderJobs g mode jobs.keys).bind fun order =>
      .ok (finalised mode order jobs cancel alloc) := rfl

/-- The transaction in another mode, which cancels other jobs. -/
def Transaction.inMode (mode : JobMode) (cancel : List JobId) (t : Transaction) : Transaction :=
  { jobs := t.jobs.map (Job.inMode mode), cancel := cancel }

/-- Two modes that sort give the same jobs, if neither fails about the queue. -/
theorem assemble_inMode {jobs jobs' : IndexMap UnitName Job} {cancel cancel' : List JobId}
    (hp : SamePairs jobs jobs') (hs : mode ≠ .ignoreRequirements)
    (hs' : mode' ≠ .ignoreRequirements) (hc : applyMode v mode jobs = .ok cancel)
    (hc' : applyMode v mode' jobs' = .ok cancel') : assemble g v alloc mode' jobs' =
      (assemble g v alloc mode jobs).map fun r => (r.1.inMode mode' cancel', r.2) := by
  rw [assemble_eq, assemble_eq, hc, hc', ← hp.keys]
  unfold orderJobs
  rw [if_neg hs, if_neg hs']
  cases g.topoOrder jobs.keys with
  | error n => rfl
  | ok order =>
    show Except.ok (finalised mode' order jobs' cancel' alloc) = _
    unfold finalised
    rw [finalise_inMode mode mode' order alloc hp.get?]
    rfl

theorem nodup_pairs {jobs : List Job} (h : (jobs.map Job.unit).Nodup) :
    (jobs.map Job.pair).Nodup := by
  refine List.Nodup.of_map Prod.fst ?_
  rw [List.map_map]
  exact h

/-- What is taken out in another order: the same units and kinds, under the same ids. -/
theorem finalise_perm (mode mode' : JobMode) (alloc : JobIdAlloc)
    {jobs jobs' : IndexMap UnitName Job} {order order' : List UnitName}
    (hk : Keyed jobs) (hp : SamePairs jobs jobs') (ho : order.Perm jobs.keys)
    (ho' : order'.Perm jobs.keys) :
    ((finalise mode' order' jobs' alloc).1.map Job.pair).Perm
        ((finalise mode order jobs alloc).1.map Job.pair) ∧
      (finalise mode' order' jobs' alloc).1.map Job.id =
        (finalise mode order jobs alloc).1.map Job.id ∧
      (finalise mode' order' jobs' alloc).2 = (finalise mode order jobs alloc).2 := by
  have hnodup := ho.nodup_iff.mpr jobs.keys_nodup
  have hnodup' := ho'.nodup_iff.mpr jobs.keys_nodup
  rw [finalise_inMode mode mode' order' alloc hp.get?]
  -- the mode aside, both take the jobs of one map
  have hpairs : ((finalise mode order' jobs alloc).1.map Job.pair).Perm
      ((finalise mode order jobs alloc).1.map Job.pair) := by
    have hunits : ∀ {l : List UnitName}, l.Perm jobs.keys → l.Nodup →
        ((finalise mode l jobs alloc).1.map Job.pair).Nodup := by
      intro l hl hn
      refine nodup_pairs ?_
      rw [finalise_units mode l jobs alloc hk hn fun n hmem => hl.mem_iff.mp hmem]
      exact hn
    refine (List.perm_ext_iff_of_nodup (hunits ho' hnodup') (hunits ho hnodup)).mpr ?_
    rintro ⟨u, k⟩
    rw [mem_finalise order' jobs alloc hnodup', mem_finalise order jobs alloc hnodup]
    simp only [(ho'.trans ho.symm).mem_iff]
  have hlen : ((finalise mode order' jobs alloc).1.map Job.id).length =
      ((finalise mode order jobs alloc).1.map Job.id).length := by
    simpa using hpairs.length_eq
  have htakes : ∀ l : List UnitName, Takes alloc (finalise mode l jobs alloc).2
      ((finalise mode l jobs alloc).1.map Job.id) := fun l => takes_finalise l jobs alloc
  obtain ⟨hids, hnext⟩ := htakes order
  obtain ⟨hids', hnext'⟩ := htakes order'
  rw [hlen] at hids' hnext'
  have hsame : ∀ l : List Job, (l.map (Job.inMode mode')).map Job.pair = l.map Job.pair ∧
      (l.map (Job.inMode mode')).map Job.id = l.map Job.id := by
    intro l
    rw [List.map_map, List.map_map]
    exact ⟨rfl, rfl⟩
  refine ⟨?_, ?_, ?_⟩
  · rw [(hsame _).1]
    exact hpairs
  · rw [(hsame _).2]
    exact List.map_injective_iff.mpr JobId.toNat_injective (hids'.trans hids.symm)
  · have hnat := hnext'.trans hnext.symm
    cases hb : (finalise mode order jobs alloc).2
    cases hb' : (finalise mode order' jobs alloc).2
    rw [hb, hb'] at hnat
    exact congrArg JobIdAlloc.mk (UInt32.toNat.inj hnat)

/-- How the transactions of the modes compare. -/
structure ModesAgree (g : DepGraph) (v : ManagerView) (alloc : JobIdAlloc) (root : UnitName)
    (kind : JobType) : Prop where
  /-- `ReplaceIrreversibly` is `Replace`. -/
  irreversibly : Transaction.build g v alloc root kind .replaceIrreversibly =
    (Transaction.build g v alloc root kind .replace).map
      fun r => (r.1.inMode .replaceIrreversibly r.1.cancel, r.2)
  /-- `Flush` cancels the whole queue instead, unless there is nothing to do. -/
  flush : Transaction.build g v alloc root kind .flush =
    (Transaction.build g v alloc root kind .replace).map
      fun r => (r.1.inMode .flush
        (if Collapses v root kind then [] else v.existingJobs.map Job.id), r.2)
  /-- `Fail` is `Replace` if that cancels nothing. It looks before it sorts, so a cycle is
  reported only where nothing is to be replaced. -/
  fail : Transaction.build g v alloc root kind .fail =
    (Transaction.build g v alloc root kind .ignoreRequirements).bind fun r =>
      if r.1.cancel = [] then (Transaction.build g v alloc root kind .replace).map
        fun r => (r.1.inMode .fail [], r.2)
      else .error .wouldReplaceFail
  /-- `IgnoreRequirements` fails only where `Replace` does, -/
  sorted_error : ∀ e, Transaction.build g v alloc root kind .ignoreRequirements = .error e →
    Transaction.build g v alloc root kind .replace = .error e
  /-- never on a cycle, -/
  no_cycle : ∀ n, Transaction.build g v alloc root kind .ignoreRequirements ≠ .error (.cycle n)
  /-- and gives the same jobs out of order. -/
  sorted_ok : ∀ t alloc', Transaction.build g v alloc root kind .ignoreRequirements =
      .ok (t, alloc') →
    (∃ n, Transaction.build g v alloc root kind .replace = .error (.cycle n)) ∨
    ∃ t', Transaction.build g v alloc root kind .replace = .ok (t', alloc') ∧
      t'.cancel = t.cancel ∧ t'.jobs.map Job.id = t.jobs.map Job.id ∧
      (t'.jobs.map Job.pair).Perm (t.jobs.map Job.pair)

/-! ## One expansion -/

/-- The modes that follow dependencies assemble the jobs of one expansion. -/
structure Expands (g : DepGraph) (v : ManagerView) (alloc : JobIdAlloc) (root : UnitName)
    (kind : JobType) (jobs : IndexMap UnitName Job) : Prop where
  keyed : Keyed jobs
  same : ∀ m : JobMode, m.follows = true → ∃ jobs', SamePairs jobs jobs' ∧
    Transaction.build g v alloc root kind m = assemble g v alloc m jobs'

/-- An expansion fails on a unit that is not loaded. -/
theorem expand_error {e : TransactionError} (h : expand g v root kind mode = .error e) :
    ∃ n, e = .notLoaded n := by
  obtain ⟨e', hr, he⟩ | ⟨-, jobs, he, -⟩ := expand_spec g v root kind mode
  · obtain rfl := Except.error.inj (he.symm.trans h)
    refine PullSystem.ask_failed (E := fun e => ∃ n, e = .notLoaded n) ?_ ?_ _ _ _ _ e' hr
    · intro a e ha
      simp only [pullSystem] at ha
      split at ha
      next => exact absurd ha (by simp)
      next => exact ⟨a, (Option.some.inj ha).symm⟩
    · intro a k e hp
      exact expansion_aborts (pulls_sub_expansion hp)
  · exact absurd (he.symm.trans h) (by simp)

/-- What a build in a mode that follows dependencies comes to. -/
theorem build_follows_cases (g : DepGraph) (v : ManagerView) (alloc : JobIdAlloc)
    (root : UnitName) (kind : JobType) :
    (Collapses v root kind ∧ ∀ m : JobMode, m.follows = true →
      Transaction.build g v alloc root kind m = .ok ({}, alloc)) ∨
    (∃ e, (∃ n, e = .notLoaded n) ∧
      ∀ m : JobMode, m.follows = true → Transaction.build g v alloc root kind m = .error e) ∨
    ¬ Collapses v root kind ∧ ∃ jobs, Expands g v alloc root kind jobs := by
  by_cases hc : Collapses v root kind
  · exact Or.inl ⟨hc, fun m hm => by rw [build_follows hm, if_pos hc]⟩
  refine Or.inr ?_
  by_cases hl : v.isLoaded root = false
  · exact Or.inl ⟨.notLoaded root, ⟨root, rfl⟩, fun m hm => by rw [build_follows hm, if_neg hc, if_pos hl]⟩
  have hbuild : ∀ m : JobMode, m.follows = true → Transaction.build g v alloc root kind m =
      (expand g v root kind m).bind (assemble g v alloc m) := by
    intro m hm
    rw [build_follows hm, if_neg hc, if_neg hl]
  have hr : JobMode.replace.follows = true := rfl
  obtain ⟨e, he, -⟩ | ⟨jobs, -, he, -, hk, -⟩ :=
    expand_follows g v root kind hr hr
  · refine Or.inl ⟨e, expand_error he, fun m hm => ?_⟩
    obtain ⟨e', he', hm'⟩ | ⟨jobs, _, he', -⟩ :=
      expand_follows g v root kind hr hm
    · obtain rfl := Except.error.inj (he.symm.trans he')
      rw [hbuild m hm, hm']
      rfl
    · exact absurd (he.symm.trans he') (by simp)
  · refine Or.inr ⟨hc, jobs, hk, fun m hm => ?_⟩
    obtain ⟨e', he', -⟩ | ⟨jobs₁, jobs', he', hm', -, hp⟩ :=
      expand_follows g v root kind hr hm
    · exact absurd (he.symm.trans he') (by simp)
    · obtain rfl := Except.ok.inj (he.symm.trans he')
      refine ⟨jobs', hp, ?_⟩
      rw [hbuild m hm, hm']
      rfl

/-- The ids of the queued jobs that new ones take the place of. -/
def displaced (v : ManagerView) (jobs : IndexMap UnitName Job) : List JobId :=
  (v.existingJobs.filter (conflicting jobs)).map Job.id

/-- What is cancelled in all modes but `Flush` and `Fail`. -/
theorem applyMode_displaced {jobs jobs' : IndexMap UnitName Job} (hp : SamePairs jobs jobs')
    (hm : mode ≠ .flush) (hm' : mode ≠ .fail) :
    applyMode v mode jobs' = .ok (displaced v jobs) := by
  unfold displaced
  rw [hp.conflicting]
  cases mode with
  | flush => exact absurd rfl hm
  | fail => exact absurd rfl hm'
  | replace | replaceIrreversibly | isolate | ignoreDependencies | ignoreRequirements => rfl

theorem applyMode_fail {jobs jobs' : IndexMap UnitName Job} (hp : SamePairs jobs jobs') :
    applyMode v .fail jobs' =
      if displaced v jobs = [] then .ok [] else .error .wouldReplaceFail := by
  have hany : v.existingJobs.any (conflicting jobs') = true ↔ ¬ displaced v jobs = [] := by
    unfold displaced
    rw [← hp.conflicting, List.map_eq_nil_iff, List.filter_eq_nil_iff, List.any_eq_true]
    simp
  show (if v.existingJobs.any (conflicting jobs') = true then _ else _) = _
  by_cases hempty : displaced v jobs = []
  · rw [if_neg fun h => hany.mp h hempty, if_pos hempty]
  · rw [if_pos (hany.mpr hempty), if_neg hempty]

theorem Keyed.of_samePairs {jobs jobs' : IndexMap UnitName Job} (h : Keyed jobs)
    (hp : SamePairs jobs jobs') : Keyed jobs' := by
  intro n j hj
  have hn := hp.get? n
  rw [hj] at hn
  obtain ⟨j', hj', he⟩ := Option.map_eq_some_iff.mp hn
  exact (Prod.mk.inj he).1.symm.trans (h n j' hj')

namespace Expands

variable {jobs : IndexMap UnitName Job}

/-- Unsorted, the jobs come as they were entered. -/
theorem unsorted (h : Expands g v alloc root kind jobs) : ∃ jobs', SamePairs jobs jobs' ∧
    Transaction.build g v alloc root kind .ignoreRequirements =
      .ok (finalised .ignoreRequirements jobs'.keys jobs' (displaced v jobs) alloc) := by
  obtain ⟨jobs', hp, hb⟩ := h.same .ignoreRequirements rfl
  refine ⟨jobs', hp, ?_⟩
  rw [hb, assemble_eq, applyMode_displaced hp (by simp) (by simp)]
  rfl

/-- A mode that sorts gives the jobs of `Replace`, if it does not fail about the queue. -/
theorem sorted {cancel : List JobId} (h : Expands g v alloc root kind jobs)
    (hf : mode.follows = true) (hs : mode ≠ .ignoreRequirements)
    (hc : ∀ jobs', SamePairs jobs jobs' → applyMode v mode jobs' = .ok cancel) :
    Transaction.build g v alloc root kind mode =
      (Transaction.build g v alloc root kind .replace).map
        fun r => (r.1.inMode mode cancel, r.2) := by
  obtain ⟨jr, hpr, hr⟩ := h.same .replace rfl
  obtain ⟨jm, hpm, hm⟩ := h.same mode hf
  rw [hr, hm]
  exact assemble_inMode (Eq.trans (Eq.symm hpr) hpm) (by decide) hs
    (applyMode_displaced hpr (by simp) (by simp)) (hc jm hpm)

theorem cancel_replace (h : Expands g v alloc root kind jobs)
    (ht : Transaction.build g v alloc root kind .replace = .ok (t, alloc')) :
    t.cancel = displaced v jobs := by
  obtain ⟨jr, hpr, hr⟩ := h.same .replace rfl
  obtain ⟨hmode, -, -⟩ := assemble_ok (hr.symm.trans ht)
  rw [applyMode_displaced hpr (by simp) (by simp)] at hmode
  exact (Except.ok.inj hmode).symm

theorem sorted_perm (h : Expands g v alloc root kind jobs)
    (ht : Transaction.build g v alloc root kind .ignoreRequirements = .ok (t, alloc')) :
    (∃ n, Transaction.build g v alloc root kind .replace = .error (.cycle n)) ∨
    ∃ t', Transaction.build g v alloc root kind .replace = .ok (t', alloc') ∧
      t'.cancel = t.cancel ∧ t'.jobs.map Job.id = t.jobs.map Job.id ∧
      (t'.jobs.map Job.pair).Perm (t.jobs.map Job.pair) := by
  obtain ⟨ju, hpu, hu⟩ := h.unsorted
  obtain ⟨jr, hpr, hr⟩ := h.same .replace rfl
  rw [hu] at ht
  obtain ⟨rfl, rfl⟩ := Prod.mk.inj (Except.ok.inj ht)
  rw [hr, assemble_eq, applyMode_displaced hpr (by simp) (by simp)]
  unfold orderJobs
  rw [if_neg (by decide)]
  cases hto : g.topoOrder jr.keys with
  | error n => exact Or.inl ⟨n, rfl⟩
  | ok order =>
    have horder : order.Perm ju.keys := by
      have hperm := DepGraph.topoOrder_perm jr.keys_nodup hto
      rw [← hpr.keys, hpu.keys] at hperm
      exact hperm
    obtain ⟨hpairs, hids, hnext⟩ := finalise_perm .ignoreRequirements .replace alloc
      (h.keyed.of_samePairs hpu) (Eq.trans (Eq.symm hpu) hpr) (.refl _) horder
    exact Or.inr ⟨_, congrArg Except.ok (Prod.ext rfl hnext), rfl, hids, hpairs⟩

theorem modesAgree (h : Expands g v alloc root kind jobs) (hc : ¬ Collapses v root kind) :
    ModesAgree g v alloc root kind where
  irreversibly := by
    rw [h.sorted rfl (by decide) fun jobs' hp => applyMode_displaced hp (by simp) (by simp)]
    cases hr : Transaction.build g v alloc root kind .replace with
    | error e => rfl
    | ok r => simp only [Except.map, h.cancel_replace hr]
  flush := by
    rw [if_neg hc]
    exact h.sorted rfl (by decide) fun _ _ => rfl
  fail := by
    obtain ⟨ju, -, hu⟩ := h.unsorted
    rw [hu]
    show _ = if displaced v jobs = [] then _ else _
    split
    next hempty =>
      refine h.sorted rfl (by decide) fun jobs' hp => ?_
      rw [applyMode_fail hp, if_pos hempty]
    next hsome =>
      obtain ⟨jx, hpx, hx⟩ := h.same .fail rfl
      rw [hx, assemble_eq, applyMode_fail hpx, if_neg hsome]
      rfl
  sorted_error := by
    intro e he
    obtain ⟨ju, -, hu⟩ := h.unsorted
    exact absurd (hu.symm.trans he) (by simp)
  no_cycle := by
    intro n he
    obtain ⟨ju, -, hu⟩ := h.unsorted
    exact absurd (hu.symm.trans he) (by simp)
  sorted_ok := fun _ _ ht => h.sorted_perm ht

end Expands

/-- **How the modes differ.** -/
theorem modes_agree (g : DepGraph) (v : ManagerView) (alloc : JobIdAlloc) (root : UnitName)
    (kind : JobType) : ModesAgree g v alloc root kind := by
  obtain ⟨hc, hall⟩ | ⟨e, hnot, hall⟩ | ⟨hc, jobs, h⟩ := build_follows_cases g v alloc root kind
  · -- nothing is done in any mode
    refine ⟨?_, ?_, ?_, fun e he => ?_, fun n he => ?_, fun t alloc' ht => ?_⟩
    · rw [hall .replaceIrreversibly rfl, hall .replace rfl]
      rfl
    · rw [hall .flush rfl, hall .replace rfl, if_pos hc]
      rfl
    · rw [hall .fail rfl, hall .ignoreRequirements rfl, hall .replace rfl]
      rfl
    · rw [hall .ignoreRequirements rfl] at he
      exact absurd he (by simp)
    · rw [hall .ignoreRequirements rfl] at he
      exact absurd he (by simp)
    · rw [hall .ignoreRequirements rfl] at ht
      exact Or.inr ⟨t, (hall .replace rfl).trans ht, rfl, rfl, .refl _⟩
  · -- all fail alike
    refine ⟨?_, ?_, ?_, fun e' he => ?_, fun n he => ?_, fun t alloc' ht => ?_⟩
    · rw [hall .replaceIrreversibly rfl, hall .replace rfl]
      rfl
    · rw [hall .flush rfl, hall .replace rfl]
      rfl
    · rw [hall .fail rfl, hall .ignoreRequirements rfl]
      rfl
    · exact (hall .replace rfl).trans ((hall .ignoreRequirements rfl).symm.trans he)
    · obtain rfl := Except.error.inj ((hall .ignoreRequirements rfl).symm.trans he)
      obtain ⟨m, hm⟩ := hnot
      exact absurd hm (by simp)
    · rw [hall .ignoreRequirements rfl] at ht
      exact absurd ht (by simp)
  · exact h.modesAgree hc

/-! ## Asking again -/

/-- The same manager with other jobs queued. -/
def ManagerView.withQueue (v : ManagerView) (queue : List Job) : ManagerView :=
  { v with existingJobs := queue }

/-- The queue has a say only when the jobs are assembled. -/
theorem build_withQueue (h : Transaction.build g v alloc root kind mode = .ok (t, alloc')) :
    (t = {} ∧ ∀ q a, Transaction.build g (v.withQueue q) a root kind mode = .ok ({}, a)) ∨
    ∃ jobs, Keyed jobs ∧ assemble g v alloc mode jobs = .ok (t, alloc') ∧ ∀ q a,
      Transaction.build g (v.withQueue q) a root kind mode =
        assemble g (v.withQueue q) a mode jobs := by
  have hexpand : ∀ q, expand g (v.withQueue q) root kind mode = expand g v root kind mode :=
    fun _ => rfl
  have hload : ∀ q, (v.withQueue q).isLoaded = v.isLoaded ∧
      (v.withQueue q).isActive = v.isActive ∧ (v.withQueue q).allowIsolate = v.allowIsolate :=
    fun _ => ⟨rfl, rfl, rfl⟩
  unfold Transaction.build at h ⊢
  simp only [hexpand, hload]
  split at h
  next hc =>
    obtain ⟨rfl, -⟩ := Prod.mk.inj (Except.ok.inj h)
    exact Or.inl ⟨rfl, fun _ _ => if_pos hc⟩
  next hc =>
    split at h
    next => exact absurd h (by simp)
    next hl =>
      split at h
      next => exact absurd h (by simp)
      next hi =>
        simp only [if_neg hc, if_neg hl, if_neg hi]
        obtain ⟨e, -, he⟩ | ⟨-, jobs, he, hag⟩ := expand_spec g v root kind mode
        · rw [he] at h
          exact absurd h (by simp [bind, Except.bind])
        · rw [he] at h ⊢
          exact Or.inr ⟨jobs, hag.keyed, h, fun _ _ => rfl⟩

/-- A queued job in conflict with the map is in conflict with a job taken out of it. -/
theorem conflicting_assembled {jobs : IndexMap UnitName Job} {ej : Job} (hk : Keyed jobs)
    (h : assemble g v alloc mode jobs = .ok (t, alloc')) (hc : conflicting jobs ej = true) :
    ∃ j ∈ t.jobs, j.unit = ej.unit ∧ j.kind ≠ ej.kind := by
  obtain ⟨-, -, hpair⟩ := assemble_ok h
  obtain ⟨j, hget, hne⟩ := conflicting_iff.mp hc
  have hu := hk _ _ hget
  obtain ⟨j', hj', he⟩ := List.mem_map.mp ((hpair ej.unit j.kind).mpr
    ⟨ej.unit, by rw [hget, ← hu]; rfl⟩)
  obtain ⟨hju, hjk⟩ := Prod.mk.inj he
  exact ⟨j', hj', hju, by rw [hjk]; exact hne⟩

/-- Units and kinds do not depend on where the allocator stands. -/
theorem finalise_pairs : ∀ (order : List UnitName) (jobs : IndexMap UnitName Job)
    (a b : JobIdAlloc), (finalise mode order jobs a).1.map Job.pair =
      (finalise mode order jobs b).1.map Job.pair
  | [], _, _, _ => rfl
  | n :: order, jobs, a, b => by
    unfold finalise
    cases jobs.get? n with
    | none => exact finalise_pairs order jobs a b
    | some j =>
      exact congrArg ((j.unit, j.kind) :: ·) (finalise_pairs order (jobs.erase n) a.alloc.2 b.alloc.2)

/-- What a successful `assemble` went through. -/
theorem assemble_finalised {jobs : IndexMap UnitName Job}
    (h : assemble g v alloc mode jobs = .ok (t, alloc')) : ∃ order cancel,
      applyMode v mode jobs = .ok cancel ∧ orderJobs g mode jobs.keys = .ok order ∧
      (t, alloc') = finalised mode order jobs cancel alloc := by
  rw [assemble_eq] at h
  cases hc : applyMode v mode jobs with
  | error e =>
    rw [hc] at h
    exact absurd h (by simp [Except.bind])
  | ok cancel =>
    cases ho : orderJobs g mode jobs.keys with
    | error e =>
      rw [hc, ho] at h
      exact absurd h (by simp [Except.bind])
    | ok order =>
      rw [hc, ho] at h
      exact ⟨order, cancel, rfl, rfl, (Except.ok.inj h).symm⟩

/-- What the mode cancels when nothing queued is in conflict. -/
theorem applyMode_calm {jobs : IndexMap UnitName Job}
    (h : ∀ ej ∈ v.existingJobs, ¬ conflicting jobs ej = true) : applyMode v mode jobs =
      .ok (if mode = .flush then v.existingJobs.map Job.id else []) := by
  have hfilter : v.existingJobs.filter (conflicting jobs) = [] := List.filter_eq_nil_iff.mpr h
  have hany : ¬ v.existingJobs.any (conflicting jobs) = true := by
    intro hany
    obtain ⟨ej, hej, hc⟩ := List.any_eq_true.mp hany
    exact h ej hej hc
  cases mode with
  | flush => rfl
  | fail => exact if_neg hany
  | replace | replaceIrreversibly | isolate | ignoreDependencies | ignoreRequirements =>
    show Except.ok ((v.existingJobs.filter (conflicting jobs)).map Job.id) = _
    rw [hfilter]
    rfl

/-- Everything that was queued goes when the queue is flushed. -/
theorem applied_flush {queue : List Job} (h : t.cancel = queue.map Job.id) :
    applied queue t = t.jobs := by
  have hempty : queue.filter (fun j => decide (j.id ∉ t.cancel)) = [] := by
    refine List.filter_eq_nil_iff.mpr fun ej hej => ?_
    have hin : ej.id ∈ t.cancel := h ▸ List.mem_map_of_mem hej
    simp [hin]
  unfold applied
  rw [hempty, List.nil_append]

/-- **Asking again for what was applied gives the same jobs** and cancels nothing. `Flush`
cancels exactly the jobs of the first time. -/
theorem build_again (h : Transaction.build g v alloc root kind mode = .ok (t, alloc')) :
    ∃ t' alloc'', Transaction.build g (v.withQueue (applied v.existingJobs t)) alloc' root kind
        mode = .ok (t', alloc'') ∧
      t'.jobs.map Job.pair = t.jobs.map Job.pair ∧
      t'.cancel = if mode = .flush then t.jobs.map Job.id else [] := by
  obtain ⟨rfl, hall⟩ | ⟨jobs, hk, hasm, hall⟩ := build_withQueue h
  · exact ⟨_, _, hall _ _, rfl, (ite_self _).symm⟩
  have hcan := build_cancels h
  have hnodup := build_nodup h
  -- a job that stays was not in conflict, and a new one is not with itself
  have hcalm : ∀ ej ∈ applied v.existingJobs t, ¬ conflicting jobs ej = true := by
    intro ej hej hc
    obtain ⟨j, hj, hu, hne⟩ := conflicting_assembled hk hasm hc
    obtain ⟨hmem, hkeep⟩ | hmem := mem_applied.mp hej
    · exact hkeep (hcan.all ej hmem j hj hu hne)
    · exact hne (congrArg Job.kind (List.inj_on_of_nodup_map hnodup hj hmem hu))
  have hflush : mode = .flush → applied v.existingJobs t = t.jobs := by
    rintro rfl
    obtain ⟨hc, -, -⟩ := assemble_ok hasm
    exact applied_flush (Except.ok.inj hc).symm
  have hmode : applyMode (v.withQueue (applied v.existingJobs t)) mode jobs =
      .ok (if mode = .flush then (applied v.existingJobs t).map Job.id else []) :=
    applyMode_calm hcalm
  obtain ⟨order, cancel, -, horder, ht⟩ := assemble_finalised hasm
  obtain ⟨rfl, -⟩ := Prod.mk.inj ht
  rw [hall, assemble_eq, hmode, horder]
  refine ⟨_, _, rfl, finalise_pairs order jobs _ _, ?_⟩
  split
  next hf => exact congrArg (List.map Job.id) (hflush hf)
  next => rfl

theorem build_again_part : ∃ t' alloc'', Transaction.build (DepGraph.build partUnits)
      (partView.withQueue (applied partView.existingJobs partTransaction)) ⟨3⟩ (svc "p") .stop
        .replace = .ok (t', alloc'') ∧
      t'.jobs.map Job.pair = partTransaction.jobs.map Job.pair ∧
      t'.cancel = if JobMode.replace = .flush then partTransaction.jobs.map Job.id else [] :=
  build_again part_build

end Systeml.Deps
