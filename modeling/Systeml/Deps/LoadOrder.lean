import Systeml.Deps.Routes

/-!
# Transactions and the order in which units were loaded

Two orderings of one set of units give graphs with the same edges, listed in
different orders (`build_sameEdges`). The walk is depth-first and visit-once, so
the order decides under which kind a unit is entered first, how its kinds merge,
and what a swallowed failure leaves behind.

`OrderFree` rules these three out by the dependency lists of the two graphs: in
either the root request fails, or no pull fails and no unit pulls more under a later
request than under its first (`Settled`); and no unit is asked for kinds in two orders
that can merge differently. Settled requests are all that can be derived
(`Settled.asked_iff`), by either order, so both builds give the same result. Where the
requests are not order-free, a walk goes astray (`Strays`) or the merges come apart
(`MergesApart`): `build_sameResult` has both.
-/

namespace Systeml.Deps

open Systeml.Lib Systeml.Unit

/-! ## Graphs with the same edges -/

/-- Two graphs that differ in the order of their lists only. -/
structure SameEdges (g g' : DepGraph) : Prop where
  outgoing : ∀ n x, x ∈ g.outgoing n ↔ x ∈ g'.outgoing n
  incoming : ∀ n x, x ∈ g.incoming n ↔ x ∈ g'.incoming n
  nodes : ∀ n, n ∈ g.nodes.elems ↔ n ∈ g'.nodes.elems
  isolate : ∀ n, n ∈ g.ignoreOnIsolate.elems ↔ n ∈ g'.ignoreOnIsolate.elems

theorem SameEdges.symm {g g' : DepGraph} (h : SameEdges g g') : SameEdges g' g :=
  ⟨fun n x => (h.outgoing n x).symm, fun n x => (h.incoming n x).symm,
    fun n => (h.nodes n).symm, fun n => (h.isolate n).symm⟩

theorem build_sameEdges {units units' : IndexMap UnitName UnitSpec}
    (h : units.entries.Perm units'.entries) :
    SameEdges (DepGraph.build units) (DepGraph.build units') := by
  have hd : ∀ x, DepGraph.Declares units.entries x ↔ DepGraph.Declares units'.entries x := by
    intro x
    unfold DepGraph.Declares
    simp only [h.mem_iff]
  have hk : ∀ n, n ∈ units.keys ↔ n ∈ units'.keys := fun n => (h.map Prod.fst).mem_iff
  refine ⟨fun n x => ?_, fun n x => ?_, fun n => ?_, fun n => ?_⟩
  · rw [DepGraph.mem_outgoing_build, DepGraph.mem_outgoing_build, hd]
  · rw [DepGraph.mem_incoming_build, DepGraph.mem_incoming_build, hd]
  · rw [DepGraph.mem_nodes_build, DepGraph.mem_nodes_build, hk]
    simp only [hd]
  · rw [DepGraph.mem_ignoreOnIsolate_build, DepGraph.mem_ignoreOnIsolate_build]
    simp only [h.mem_iff]

section Same

variable {g g' : DepGraph} {v : ManagerView} (hs : SameEdges g g')
include hs

theorem mem_filterMap_outgoing {β : Type} (f : DepEdge × UnitName → Option β) (u : UnitName)
    (p : β) : p ∈ (g.outgoing u).filterMap f ↔ p ∈ (g'.outgoing u).filterMap f := by
  simp only [List.mem_filterMap, hs.outgoing]

theorem mem_filterMap_incoming {β : Type} (f : DepEdge × UnitName → Option β) (u : UnitName)
    (p : β) : p ∈ (g.incoming u).filterMap f ↔ p ∈ (g'.incoming u).filterMap f := by
  simp only [List.mem_filterMap, hs.incoming]

theorem mem_expansion (u : UnitName) (k : JobType)
    (p : Pull UnitName JobType TransactionError) :
    p ∈ expansion g v u k ↔ p ∈ expansion g' v u k := by
  have hout := fun f => mem_filterMap_outgoing hs (β := Pull UnitName JobType TransactionError) f u p
  have hin := fun f => mem_filterMap_incoming hs (β := Pull UnitName JobType TransactionError) f u p
  cases k with
  | start | reloadOrStart | reload => exact hout _
  | restart =>
    unfold expansion expandStart expandStopPropagation
    rw [List.mem_append, List.mem_append, hout, hin]
  | stop =>
    unfold expansion expandStop
    rw [List.mem_append, List.mem_append, hout, hin]
  | tryRestart =>
    simp only [expansion, expandStart, expandStopPropagation]
    split
    · rw [List.mem_append, List.mem_append, hout, hin]
    · rfl
  | verifyActive | nop => rfl

theorem mem_pulls (mode : JobMode) (u : UnitName) (k : JobType)
    (p : Pull UnitName JobType TransactionError) :
    p ∈ (pullSystem g v mode).pulls u k ↔ p ∈ (pullSystem g' v mode).pulls u k := by
  simp only [pullSystem]
  split
  · rfl
  · exact mem_expansion hs u k p

theorem mem_closureSucc (u t : UnitName) : t ∈ closureSucc g u ↔ t ∈ closureSucc g' u := by
  simp only [closureSucc, List.mem_map, List.mem_filter, hs.outgoing]

end Same

/-- The closure holds what the followed edges reach. -/
theorem mem_depClosure {g : DepGraph} {root n : UnitName} :
    n ∈ (depClosure g root).elems ↔
      Relation.ReflTransGen (fun a b => b ∈ closureSucc g a) root n := by
  refine mem_closure (List.mem_cons_self ..) fun a _ b hb => ?_
  obtain ⟨x, hx, rfl⟩ := List.mem_map.mp hb
  exact List.mem_cons_of_mem _ (DepGraph.mem_nodes_of_outgoing (List.mem_filter.mp hx).1)

theorem mem_isolateStops {g g' : DepGraph} {v : ManagerView} (hs : SameEdges g g')
    (root n : UnitName) : n ∈ isolateStops g v root ↔ n ∈ isolateStops g' v root := by
  have hrel : (fun a b => b ∈ closureSucc g a) = fun a b => b ∈ closureSucc g' a := by
    funext a b
    exact propext (mem_closureSucc hs a b)
  have hclo : (depClosure g root).contains n = (depClosure g' root).contains n := by
    unfold IndexSet.contains
    rw [decide_eq_decide, mem_depClosure, mem_depClosure, hrel]
  have hign : g.ignoreOnIsolate.contains n = g'.ignoreOnIsolate.contains n := by
    unfold IndexSet.contains
    rw [decide_eq_decide]
    exact hs.isolate n
  unfold isolateStops
  rw [List.mem_filter, List.mem_filter, hs.nodes, hclo, hign]

theorem initial_iff {g g' : DepGraph} {v : ManagerView} (hs : SameEdges g g') {root : UnitName}
    {kind : JobType} {mode : JobMode} (u : UnitName) (k : JobType) :
    Initial g v root kind mode u k ↔ Initial g' v root kind mode u k := by
  unfold Initial
  rw [mem_isolateStops hs]

/-- Graphs with the same edges derive the same requests. -/
theorem requested_of_sameEdges {g g' : DepGraph} {v : ManagerView} (hs : SameEdges g g')
    {mode : JobMode} {init init' : UnitName → JobType → Prop} (hi : ∀ u k, init u k → init' u k)
    {u : UnitName} {k : JobType} (h : (pullSystem g v mode).Requested init u k) :
    (pullSystem g' v mode).Requested init' u k := by
  induction h with
  | base h => exact .base (hi _ _ h)
  | pull _ hrej hp hr ih => exact .pull ih hrej ((mem_pulls hs mode _ _ _).mp hp) hr

/-- Graphs with the same edges sort the same sets of names. -/
theorem topoOrder_ok_congr {g g' : DepGraph} (hs : SameEdges g g') {names names' : List UnitName}
    (hn : names.Nodup) (hn' : names'.Nodup) (hmem : ∀ n, n ∈ names ↔ n ∈ names') :
    (∃ order, g.topoOrder names = .ok order) ↔ ∃ order, g'.topoOrder names' = .ok order := by
  have hrel : g.MustPrecede names = g'.MustPrecede names' := by
    funext p n
    unfold DepGraph.MustPrecede
    rw [hmem, hmem, hs.outgoing, hs.outgoing]
  rw [DepGraph.topoOrder_ok_iff hn, DepGraph.topoOrder_ok_iff hn', hrel]

/-- The requests that can be derived. -/
abbrev Derivable (g : DepGraph) (v : ManagerView) (root : UnitName) (kind : JobType)
    (mode : JobMode) : UnitName → JobType → Prop :=
  (pullSystem g v mode).Requested (Initial g v root kind mode)

theorem derivable_iff {g g' : DepGraph} {v : ManagerView} (hs : SameEdges g g') {root : UnitName}
    {kind : JobType} {mode : JobMode} {u : UnitName} {k : JobType} :
    Derivable g v root kind mode u k ↔ Derivable g' v root kind mode u k :=
  ⟨requested_of_sameEdges hs fun u k => (initial_iff hs u k).mp,
    requested_of_sameEdges hs.symm fun u k => (initial_iff hs u k).mpr⟩

/-! ## Settled requests -/

section

variable (g : DepGraph) (v : ManagerView) (root : UnitName) (kind : JobType) (mode : JobMode)

/-- No pull fails, and a unit pulls nothing under a later request that it does not pull
under the first one. -/
structure Settled (E : Entries) : Prop where
  noFail : ∀ ρ i, ¬ FailsAt g v root kind mode E ρ i
  covered : ∀ u k ρ ks, E u = some (k, ρ) → AskedKinds g v root kind mode E u ks → ∀ j ∈ ks,
    ∀ p ∈ (pullSystem g v mode).pulls u j, p ∈ (pullSystem g v mode).pulls u k

/-- The walk succeeds although an expansion was cut by a failure, or although a unit
was asked for a kind whose pulls it had not run. -/
def Strays : Prop :=
  (rootAsk g v root kind mode).1 = .done ∧
    ((∃ x, PullSystem.Cut (visits g v root kind mode) x) ∨
      ∃ u vis, (visits g v root kind mode).get? u = some vis ∧ ∃ j ∈ vis.later,
        ∃ p ∈ (pullSystem g v mode).pulls u j, p ∉ (pullSystem g v mode).pulls u vis.first)

end

/-- The two sequences are one, or what they ask for merges to one kind in every order. -/
def MergesAlike (v : ManagerView) (u : UnitName) (ks ks' : List JobType) : Prop :=
  ks = ks' ∨ ∀ l l', (∀ k, k ∈ l ↔ k ∈ ks) → (∀ k, k ∈ l' ↔ k ∈ ks) →
    mergeAll v u l = mergeAll v u l'

/-- By the lists of either graph the root request fails, or the requests are settled;
and no unit is asked for kinds in two orders that can merge differently. -/
def OrderFree (g g' : DepGraph) (v : ManagerView) (root : UnitName) (kind : JobType)
    (mode : JobMode) : Prop :=
  ∃ E E', FirstRoutes g v root kind mode E ∧ FirstRoutes g' v root kind mode E' ∧
    (FailsAt g v root kind mode E [] 0 ∨ Settled g v root kind mode E) ∧
    (FailsAt g' v root kind mode E' [] 0 ∨ Settled g' v root kind mode E') ∧
    (Settled g v root kind mode E → Settled g' v root kind mode E' →
      ∀ u ks ks', AskedKinds g v root kind mode E u ks →
        AskedKinds g' v root kind mode E' u ks' → MergesAlike v u ks ks')

/-- A unit is asked for kinds in two orders that can merge differently. -/
def MergesApart (g g' : DepGraph) (v : ManagerView) (root : UnitName) (kind : JobType)
    (mode : JobMode) : Prop :=
  ∃ u vis vis', (visits g v root kind mode).get? u = some vis ∧
    (visits g' v root kind mode).get? u = some vis' ∧ ¬ MergesAlike v u vis.kinds vis'.kinds

section Walk

variable {g : DepGraph} {v : ManagerView} {root : UnitName} {kind : JobType} {mode : JobMode}
  {E : Entries}

/-- Settled requests are all that can be derived. -/
theorem Settled.asked_iff (hE : FirstRoutes g v root kind mode E)
    (h : Settled g v root kind mode E) {u : UnitName} {ks : List JobType}
    (hks : AskedKinds g v root kind mode E u ks) {k : JobType} :
    k ∈ ks ↔ Derivable g v root kind mode u k ∧ v.isLoaded u = true := by
  have hinit : ∀ u k, (∃ p ∈ initialPulls g v root kind mode, p.Requests u k) ↔
      Initial g v root kind mode u k := fun u k => initialPulls_requests
  rw [hks.mem_iff]
  constructor
  · rintro ⟨π, hπ⟩
    have hder := hE.requested _ rfl hπ
    simp only [hinit] at hder
    exact ⟨hder, reject_eq_none.mp hπ.1⟩
  · rintro ⟨hder, hl⟩
    refine hE.asked_of_requested h.noFail ?_ (by simpa only [hinit] using hder)
      (reject_eq_none.mpr hl)
    intro a k ρ j π he hπ p hp
    obtain ⟨ks, hks⟩ := exists_askedKinds hE a
    exact h.covered a k ρ ks he hks j (hks.mem_iff.mpr ⟨π, hπ⟩) p hp

/-- So nothing that can be derived fails. -/
theorem Settled.noFail_derivable (hE : FirstRoutes g v root kind mode E)
    (h : Settled g v root kind mode E) :
    (pullSystem g v mode).NoFail (Derivable g v root kind mode) := by
  intro a k hder hrej p hp
  obtain ⟨ks, hks⟩ := exists_askedKinds hE a
  have hk : k ∈ ks := (h.asked_iff hE hks).mpr ⟨hder, reject_eq_none.mp hrej⟩
  obtain ⟨π, hπ⟩ := hks.mem_iff.mp hk
  obtain ⟨k', ρ, he, -⟩ := hE.least hπ
  obtain ⟨i, hi⟩ := List.mem_iff_getElem?.mp (h.covered a k' ρ ks he hks k hk p hp)
  refine ⟨fun e hab => h.noFail ρ i (.abort (.node he) (hab ▸ hi)), fun b j hb => ?_⟩
  by_contra hrej
  exact h.noFail ρ i (.rejected (.node he) (hb ▸ hi) hrej)

/-- Requests that are not settled, of a root request that succeeds, lead the walk
astray. -/
theorem strays_of_not_settled (hE : FirstRoutes g v root kind mode E)
    (hroot : ¬ FailsAt g v root kind mode E [] 0) (h : ¬ Settled g v root kind mode E) :
    Strays g v root kind mode := by
  have hdone := (rootAsk_done_iff_lists hE).mpr hroot
  obtain ⟨hseq, hcut⟩ := visits_follow hE hdone
  refine ⟨hdone, ?_⟩
  by_contra hno
  obtain ⟨hnc, hcov⟩ := not_or.mp hno
  refine h ⟨fun ρ i hf => ?_, fun u k ρ ks he hks j hj p hp => ?_⟩
  · obtain ⟨ps, hb⟩ := FailsAt.block hf
    cases hb with
    | top =>
      cases i with
      | zero => exact hroot hf
      | succ i => exact not_failsAt_stop hE hf
    | node he => exact hnc ⟨_, hcut he hf⟩
  · obtain ⟨vis, hvis, rfl⟩ := hks.visit hdone hE (List.ne_nil_of_mem hj)
    obtain ⟨ρ', he'⟩ := AskedKinds.entry hE hks
    obtain ⟨rfl, -⟩ := Prod.mk.inj (Option.some.inj (he.symm.trans he'))
    rcases List.mem_cons.mp hj with rfl | hj
    · exact hp
    · by_contra hnp
      exact hcov ⟨u, vis, hvis, j, hj, p, hp, hnp⟩

end Walk

/-! ## Two load orders -/

/-- Both builds fail, or both succeed with the same units and kinds and the same
cancelled ids. -/
inductive SameResult : Except TransactionError (Transaction × JobIdAlloc) →
    Except TransactionError (Transaction × JobIdAlloc) → Prop where
  | error (e e' : TransactionError) : SameResult (.error e) (.error e')
  | ok (t t' : Transaction) (alloc alloc' : JobIdAlloc)
      (jobs : ∀ u k, (u, k) ∈ t.jobs.map Job.pair ↔ (u, k) ∈ t'.jobs.map Job.pair)
      (cancel : ∀ id, id ∈ t.cancel ↔ id ∈ t'.cancel) :
      SameResult (.ok (t, alloc)) (.ok (t', alloc'))

theorem SameResult.refl (r : Except TransactionError (Transaction × JobIdAlloc)) :
    SameResult r r := by
  cases r with
  | error e => exact .error e e
  | ok x => exact .ok x.1 x.1 x.2 x.2 (fun _ _ => Iff.rfl) fun _ => Iff.rfl

theorem orderJobs_ok_congr {g g' : DepGraph} (hs : SameEdges g g') (mode : JobMode)
    {names names' : List UnitName} (hn : names.Nodup) (hn' : names'.Nodup)
    (hmem : ∀ n, n ∈ names ↔ n ∈ names') :
    (∃ order, orderJobs g mode names = .ok order) ↔
      ∃ order, orderJobs g' mode names' = .ok order := by
  have htopo := topoOrder_ok_congr hs hn hn' hmem
  unfold orderJobs
  split
  · exact ⟨fun _ => ⟨_, rfl⟩, fun _ => ⟨_, rfl⟩⟩
  · cases h : g.topoOrder names with
    | ok o =>
      obtain ⟨o', ho'⟩ := htopo.mp ⟨o, h⟩
      simp [ho']
    | error n =>
      cases h' : g'.topoOrder names' with
      | ok o' =>
        obtain ⟨o, ho⟩ := htopo.mpr ⟨o', h'⟩
        rw [h] at ho
        exact absurd ho (by simp)
      | error n' => simp

theorem applyMode_congr {v : ManagerView} (mode : JobMode) {jobs jobs' : IndexMap UnitName Job}
    (h : ∀ u, (jobs.get? u).map Job.pair = (jobs'.get? u).map Job.pair) :
    applyMode v mode jobs = applyMode v mode jobs' := by
  have hc : conflicting jobs = conflicting jobs' := by
    funext ej
    have hu := h ej.unit
    unfold conflicting
    cases hj : jobs.get? ej.unit <;> cases hj' : jobs'.get? ej.unit <;>
      simp_all [Job.pair]
  unfold applyMode
  rw [hc]

/-- Maps with the same units and kinds assemble to the same result. -/
theorem assemble_sameResult {g g' : DepGraph} (hs : SameEdges g g') {v : ManagerView}
    {alloc : JobIdAlloc} {mode : JobMode} {jobs jobs' : IndexMap UnitName Job}
    (h : ∀ u, (jobs.get? u).map Job.pair = (jobs'.get? u).map Job.pair) :
    SameResult (assemble g v alloc mode jobs) (assemble g' v alloc mode jobs') := by
  have hkeys : ∀ n, n ∈ jobs.keys ↔ n ∈ jobs'.keys := by
    intro n
    have hn := h n
    rw [IndexMap.mem_keys, IndexMap.mem_keys]
    cases hj : jobs.get? n <;> cases hj' : jobs'.get? n <;> simp_all
  have hmode := applyMode_congr (v := v) mode h
  have horder := orderJobs_ok_congr hs mode jobs.keys_nodup jobs'.keys_nodup hkeys
  cases hr : assemble g v alloc mode jobs with
  | ok x =>
    obtain ⟨t, alloc₁⟩ := x
    obtain ⟨hc, ho, hmem⟩ := assemble_ok hr
    cases hr' : assemble g' v alloc mode jobs' with
    | ok x' =>
      obtain ⟨t', alloc₂⟩ := x'
      obtain ⟨hc', -, hmem'⟩ := assemble_ok hr'
      rw [hmode, hc'] at hc
      refine .ok _ _ _ _ (fun u k => ?_) fun id => ?_
      · rw [hmem, hmem']
        simp only [h]
      · rw [Except.ok.inj hc]
    | error e =>
      rcases assemble_error hr' with ⟨e', he'⟩ | hno
      · rw [hmode, he'] at hc
        exact absurd hc (by simp)
      · exact absurd (horder.mp ho) hno
  | error e =>
    cases hr' : assemble g' v alloc mode jobs' with
    | ok x' =>
      obtain ⟨t', alloc₂⟩ := x'
      obtain ⟨hc', ho', -⟩ := assemble_ok hr'
      rcases assemble_error hr with ⟨e', he'⟩ | hno
      · rw [← hmode, he'] at hc'
        exact absurd hc' (by simp)
      · exact absurd (horder.mpr ho') hno
    | error e' => exact .error e e'

section Two

variable {g g' : DepGraph} {v : ManagerView} {root : UnitName} {kind : JobType} {mode : JobMode}
  {E E' : Entries}

/-- If the requests by one order are settled, the root request succeeds by the other
order too. -/
theorem Settled.rootAsk_done (hs : SameEdges g g') (hE : FirstRoutes g v root kind mode E)
    (h : Settled g v root kind mode E) (hl : v.isLoaded root = true) :
    (rootAsk g' v root kind mode).1 = .done := by
  have hno : (pullSystem g' v mode).NoFail (Derivable g' v root kind mode) := by
    intro a k hder hrej p hp
    exact h.noFail_derivable hE a k ((derivable_iff hs).mpr hder) hrej p
      ((mem_pulls hs mode a k p).mpr hp)
  exact (PullSystem.ask_noFail hno (fun _ _ ha hrej _ hp _ _ hr => .pull ha hrej hp hr)
    (fuel g') root kind .empty (.base (Or.inl ⟨rfl, rfl⟩)) rootAsk_fuel).1
    (reject_eq_none.mpr hl)

/-- Settled requests that merge alike give the same jobs. -/
theorem kinds_of_settled (hs : SameEdges g g') (hE : FirstRoutes g v root kind mode E)
    (hE' : FirstRoutes g' v root kind mode E') (h : Settled g v root kind mode E)
    (h' : Settled g' v root kind mode E')
    (hdone : (rootAsk g v root kind mode).1 = .done)
    (hdone' : (rootAsk g' v root kind mode).1 = .done)
    (halike : ∀ u ks ks', AskedKinds g v root kind mode E u ks →
      AskedKinds g' v root kind mode E' u ks' → MergesAlike v u ks ks') (u : UnitName) :
    ((visits g v root kind mode).get? u).map (kindOf v u) =
      ((visits g' v root kind mode).get? u).map (kindOf v u) := by
  have hks := (visits_follow hE hdone).1 u
  have hks' := (visits_follow hE' hdone').1 u
  have hsame : ∀ k, k ∈ kindsAt (visits g v root kind mode) u ↔
      k ∈ kindsAt (visits g' v root kind mode) u := by
    intro k
    rw [h.asked_iff hE hks, h'.asked_iff hE' hks', derivable_iff hs]
  have hmerge : mergeAll v u (kindsAt (visits g v root kind mode) u) =
      mergeAll v u (kindsAt (visits g' v root kind mode) u) := by
    rcases halike u _ _ hks hks' with he | hfree
    · rw [he]
    · exact hfree _ _ (fun _ => Iff.rfl) fun k => (hsame k).symm
  cases hvis : (visits g v root kind mode).get? u with
  | none =>
    cases hvis' : (visits g' v root kind mode).get? u with
    | none => rfl
    | some vis' =>
      have hmem := (hsame vis'.first).mpr (by rw [get?_of_kindsAt hvis']; exact List.mem_cons_self)
      simp [kindsAt, hvis] at hmem
  | some vis =>
    cases hvis' : (visits g' v root kind mode).get? u with
    | none =>
      have hmem := (hsame vis.first).mp (by rw [get?_of_kindsAt hvis]; exact List.mem_cons_self)
      simp [kindsAt, hvis'] at hmem
    | some vis' =>
      rw [get?_of_kindsAt hvis, get?_of_kindsAt hvis'] at hmerge
      rw [Option.map_some, Option.map_some, kindOf_eq_mergeAll, kindOf_eq_mergeAll, hmerge]

/-- What is answered without a walk is answered alike. -/
theorem sameResult_of_unwalked (g g' : DepGraph) (alloc : JobIdAlloc)
    (h : Unwalked v root kind mode) :
    SameResult (Transaction.build g v alloc root kind mode)
      (Transaction.build g' v alloc root kind mode) := by
  unfold Transaction.build
  split
  next => exact SameResult.refl _
  next hcol =>
    split
    next => exact SameResult.refl _
    next hl =>
      split
      next => exact SameResult.refl _
      next hiso => exact absurd h (by rintro (h | h | h) <;> contradiction)

theorem build_of_walked {alloc : JobIdAlloc} (h : ¬ Unwalked v root kind mode) :
    Transaction.build g v alloc root kind mode = (do
      let jobs ← expand g v root kind mode
      assemble g v alloc mode jobs) := by
  unfold Unwalked at h
  obtain ⟨hcol, hl, hiso⟩ := by simpa only [not_or] using h
  unfold Transaction.build
  rw [if_neg hcol, if_neg hl, if_neg hiso]

/-- Order-free requests have the same result by both graphs. -/
theorem sameResult_of_orderFree (hs : SameEdges g g') (alloc : JobIdAlloc)
    (hun : ¬ Unwalked v root kind mode) (h : OrderFree g g' v root kind mode) :
    SameResult (Transaction.build g v alloc root kind mode)
      (Transaction.build g' v alloc root kind mode) := by
  obtain ⟨E, E', hE, hE', hg, hg', halike⟩ := h
  have hl : v.isLoaded root = true := by
    by_contra hl
    exact hun (.inr (.inl (by simpa using hl)))
  -- a root request that fails by one order is not settled by the other
  have hset : (rootAsk g v root kind mode).1 = .done ∨ (rootAsk g' v root kind mode).1 = .done →
      Settled g v root kind mode E ∧ Settled g' v root kind mode E' ∧
        (rootAsk g v root kind mode).1 = .done ∧ (rootAsk g' v root kind mode).1 = .done := by
    rintro (hd | hd)
    · have hgs := hg.resolve_left ((rootAsk_done_iff_lists hE).mp hd)
      have hd' := hgs.rootAsk_done hs hE hl
      exact ⟨hgs, hg'.resolve_left ((rootAsk_done_iff_lists hE').mp hd'), hd, hd'⟩
    · have hgs' := hg'.resolve_left ((rootAsk_done_iff_lists hE').mp hd)
      have hd' := hgs'.rootAsk_done hs.symm hE' hl
      exact ⟨hg.resolve_left ((rootAsk_done_iff_lists hE).mp hd'), hgs', hd', hd⟩
  rw [build_of_walked hun, build_of_walked hun]
  rcases expand_spec g v root kind mode with ⟨e, hf, he⟩ | ⟨hd, jobs, he, hag⟩
  · rcases expand_spec g' v root kind mode with ⟨e', -, he'⟩ | ⟨hd', -, -, -⟩
    · rw [he, he']
      exact .error e e'
    · rw [(hset (.inr hd')).2.2.1] at hf
      exact absurd hf (by simp)
  · obtain ⟨hgs, hgs', -, hd'⟩ := hset (.inl hd)
    rcases expand_spec g' v root kind mode with ⟨e', hf', -⟩ | ⟨-, jobs', he', hag'⟩
    · rw [hd'] at hf'
      exact absurd hf' (by simp)
    · rw [he, he']
      refine assemble_sameResult hs fun u => ?_
      have hk := kinds_of_settled hs hE hE' hgs hgs' hd hd' (halike hgs hgs') u
      rw [hag.get? u, hag'.get? u]
      have hp := congrArg (Option.map fun k => (u, k)) hk
      simpa only [Option.map_map, Function.comp_def] using hp

/-- Requests that are not order-free lead one of the walks astray, or the walks ask a
unit in orders that can merge differently. -/
theorem strays_of_not_orderFree (hsame : SameEdges g g')
    (h : ¬ OrderFree g g' v root kind mode) :
    Strays g v root kind mode ∨ Strays g' v root kind mode ∨
      MergesApart g g' v root kind mode := by
  obtain ⟨E, hE⟩ := exists_routes g v root kind mode
  obtain ⟨E', hE'⟩ := exists_routes g' v root kind mode
  by_contra hno
  obtain ⟨hs, hs', hm⟩ := by simpa only [not_or] using hno
  have hset : ∀ {g E}, FirstRoutes g v root kind mode E → ¬ Strays g v root kind mode →
      FailsAt g v root kind mode E [] 0 ∨ Settled g v root kind mode E := by
    intro g E hE hs
    by_contra hboth
    obtain ⟨hroot, hns⟩ := not_or.mp hboth
    exact hs (strays_of_not_settled hE hroot hns)
  refine h ⟨E, E', hE, hE', hset hE hs, hset hE' hs', fun hg hg' u ks ks' hks hks' => ?_⟩
  by_contra hapart
  have hdone := (rootAsk_done_iff_lists hE).mpr (hg.noFail [] 0)
  have hdone' := (rootAsk_done_iff_lists hE').mpr (hg'.noFail [] 0)
  have hkinds : ∀ k, k ∈ ks ↔ k ∈ ks' := by
    intro k
    rw [hg.asked_iff hE hks, hg'.asked_iff hE' hks', derivable_iff hsame]
  have hne : ks ≠ [] ∧ ks' ≠ [] := by
    constructor <;> rintro rfl
    · exact hapart (.inl (List.eq_nil_iff_forall_not_mem.mpr fun k hk => by
        simpa using (hkinds k).mpr hk).symm)
    · exact hapart (.inl (List.eq_nil_iff_forall_not_mem.mpr fun k hk => by
        simpa using (hkinds k).mp hk))
  obtain ⟨vis, hvis, rfl⟩ := hks.visit hdone hE hne.1
  obtain ⟨vis', hvis', rfl⟩ := hks'.visit hdone' hE' hne.2
  exact hm ⟨u, vis, vis', hvis, hvis', hapart⟩

end Two

/-- A service with the given dependencies and `[Install]` section. -/
def plainService (name : String) (deps : UnitDeps := {}) (install : Install := {}) :
    UnitName × UnitSpec :=
  (.plain name.toList .service,
    { UnitSpec.empty (.plain name.toList .service) with deps := deps, install := install })

/-- A view in which every unit is loaded and nothing runs. -/
def idleView : ManagerView where
  isLoaded := fun _ => true
  isActive := fun _ => false
  allowIsolate := fun _ => false
  existingJobs := []

/-- `r.service`, wanted or required by none. -/
def wantsBoth : UnitName × UnitSpec := plainService "r"

/-- A service that `r.service` wants through `[Install]`. -/
def wantedByR (name : String) (deps : UnitDeps := {}) : UnitName × UnitSpec :=
  plainService name deps { wantedBy := [wantsBoth.1] }

theorem not_strays {g : DepGraph} {v : ManagerView} {root : UnitName} {kind : JobType}
    {mode : JobMode} (h : ∀ x ∈ (visits g v root kind mode).entries, x.2.carried = true ∧
      ∀ j ∈ x.2.later, ∀ p ∈ (pullSystem g v mode).pulls x.1 j,
        p ∈ (pullSystem g v mode).pulls x.1 x.2.first) : ¬ Strays g v root kind mode := by
  rintro ⟨-, ⟨u, vis, hvis, hc⟩ | ⟨u, vis, hvis, j, hj, p, hp, hno⟩⟩
  · exact absurd ((h _ (IndexMap.mem_entries.mpr hvis)).1) (by simp [hc])
  · exact hno ((h _ (IndexMap.mem_entries.mpr hvis)).2 j hj p hp)

/-- Starts and checks merge to a start, whatever their order. -/
theorem mergeAll_starts {v : ManagerView} {u : UnitName} {l : List JobType}
    (hl : ∀ k ∈ l, k = .start ∨ k = .verifyActive) (hs : .start ∈ l) : mergeAll v u l = .start := by
  induction l using List.reverseRecOn with
  | nil => exact absurd hs (by simp)
  | append_singleton l k ih =>
    have hl' : ∀ k ∈ l, k = .start ∨ k = .verifyActive := fun j hj => hl j (by simp [hj])
    rw [mergeAll_snoc]
    by_cases hm : .start ∈ l
    · rw [ih hl' hm]
      rcases hl k (by simp) with rfl | rfl <;> rfl
    · obtain rfl : .start = k := by simpa [hm] using hs
      -- before the first start there were checks only
      have hbefore : mergeAll v u l = .nop ∨ mergeAll v u l = .verifyActive := by
        refine List.foldlRecOn (motive := fun a : JobType => a = .nop ∨ a = .verifyActive) l _
          (.inl rfl) fun a ha k hk => ?_
        obtain rfl := (hl' k hk).resolve_left fun he => hm (he ▸ hk)
        rcases ha with rfl | rfl <;> exact .inr rfl
      rcases hbefore with h | h <;> rw [h] <;> rfl

/-- The view in which `a.service` runs. -/
def runningView : ManagerView := { idleView with isActive := (· == (plainService "a").1) }

/-- `a.service`, which `r.service` wants, is part of it, and requires `c.service`. -/
def partOfR : UnitName × UnitSpec :=
  wantedByR "a" { partOf := [wantsBoth.1], requires := [(plainService "c").1] }

/-- `b.service`, which `r.service` wants, requires and checks `c.service`. -/
def requiresTwice : UnitName × UnitSpec :=
  wantedByR "b" { requires := [(plainService "c").1], requisite := [(plainService "c").1] }

/-- `r` is to want `a` and `b`; `a` has `c` as requisite, `b` requires it, and
`c` requires `d`. Loaded first, `a` enters `c` for a check only, and the later
start of `c` does not pull `d`. -/
def requisiteFirst (first second : UnitName × UnitSpec) : IndexMap UnitName UnitSpec :=
  .ofList [wantsBoth, first, second,
    plainService "c" { requires := [(plainService "d").1] }, plainService "d"]

/-- `a.service` of the example. -/
def checksC : UnitName × UnitSpec := wantedByR "a" { requisite := [(plainService "c").1] }

/-- `b.service` of the example. -/
def requiresC : UnitName × UnitSpec := wantedByR "b" { requires := [(plainService "c").1] }

/-- The units with a job in the result of a build. -/
def builtUnits (r : Except TransactionError (Transaction × JobIdAlloc)) : List UnitName :=
  match r with
  | .ok x => x.1.jobs.map Job.unit
  | .error _ => []

theorem SameResult.builtUnits {r r' : Except TransactionError (Transaction × JobIdAlloc)}
    (h : SameResult r r') (u : UnitName) : u ∈ builtUnits r → u ∈ Deps.builtUnits r' := by
  cases h with
  | error e e' => simp [Deps.builtUnits]
  | ok t t' _ _ hjobs _ =>
    intro hu
    obtain ⟨j, hj, rfl⟩ := List.mem_map.mp hu
    obtain ⟨j', hj', hp⟩ := List.mem_map.mp
      ((hjobs j.unit j.kind).mp (List.mem_map.mpr ⟨j, hj, rfl⟩))
    exact List.mem_map.mpr ⟨j', hj', congrArg Prod.fst hp⟩

end Systeml.Deps
