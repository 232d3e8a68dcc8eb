import Systeml.Deps.HardClosure

/-!
# The graph and the declarations

What the unit files state about a pair of units, directive by directive and from
either side, against the edges `build` makes of them. Its own directives, the
`[Install]` lists and the implicit links of timers, paths and sockets all become
edges (`mem_outgoing_build_iff`). `StopPropagatedFrom=` and `ReloadPropagatedFrom=`
become none, so the graph tells the whole declared relation exactly when each of
them repeats what the other side states (`exact_iff_matched`).
-/

namespace Systeml.Deps

open Systeml.Lib Systeml.Unit

/-! ## The declared relation -/

/-- The units a `[Unit]` section names as targets of a kind of edge. -/
def targetsOf (d : UnitDeps) : DepEdge → List UnitName
  | .wants => d.wants
  | .requires => d.requires
  | .requisite => d.requisite
  | .bindsTo => d.bindsTo
  | .partOf => d.partOf
  | .upholds => d.upholds
  | .after => d.after
  | .before => d.before
  | .conflicts => d.conflicts
  | .onFailure => d.onFailure
  | .onSuccess => d.onSuccess
  | .propagatesReloadTo => d.propagatesReloadTo
  | .propagatesStopTo => d.propagatesStopTo

/-- The units it names as sources: the receiving sides of the propagations. -/
def sourcesOf (d : UnitDeps) : DepEdge → List UnitName
  | .propagatesReloadTo => d.reloadPropagatedFrom
  | .propagatesStopTo => d.stopPropagatedFrom
  | _ => []

/-- The units an `[Install]` section asks to pull this one. -/
def pulledBy (i : Install) : DepEdge → List UnitName
  | .wants => i.wantedBy
  | .requires => i.requiredBy
  | .upholds => i.upheldBy
  | _ => []

/-- The unit a timer, path or socket names. -/
def namedBy : UnitTypeData → Option UnitName
  | .timer t => t.unit
  | .path unit => unit
  | .socket service => service
  | _ => none

/-- The kinds of edge from a timer, path or socket to the unit it names. -/
def DepEdge.isImplicit : DepEdge → Bool
  | wants | before => true
  | _ => false

/-- An edge stated from its source, by an `[Install]` section of its target or
by an implicit link. -/
inductive Stated (l : List (UnitName × UnitSpec)) (a : UnitName) (e : DepEdge) (b : UnitName) :
    Prop
  | source {u : UnitSpec} (h : (a, u) ∈ l) (ht : b ∈ targetsOf u.deps e)
  | install {u : UnitSpec} (h : (b, u) ∈ l) (hd : u.defaultDependencies = true)
      (ht : a ∈ pulledBy u.install e)
  | implicit {u : UnitSpec} (h : (a, u) ∈ l) (he : e.isImplicit = true)
      (ht : namedBy u.kind = some b)

/-- An edge stated from either side. -/
def StatedByEither (l : List (UnitName × UnitSpec)) (a : UnitName) (e : DepEdge)
    (b : UnitName) : Prop :=
  Stated l a e b ∨ ∃ u, (b, u) ∈ l ∧ a ∈ sourcesOf u.deps e

/-! ## What is built -/

theorem mem_unitEdges {src a b : UnitName} {e : DepEdge} {d : UnitDeps} :
    (a, e, b) ∈ DepGraph.unitEdges src d ↔ a = src ∧ b ∈ targetsOf d e := by
  cases e <;> simp [DepGraph.unitEdges, targetsOf, eq_comm, and_comm]

theorem mem_installReverseEdges {src a b : UnitName} {e : DepEdge} {u : UnitSpec} :
    (a, e, b) ∈ DepGraph.installReverseEdges src u ↔
      b = src ∧ u.defaultDependencies = true ∧ a ∈ pulledBy u.install e := by
  unfold DepGraph.installReverseEdges
  by_cases hd : u.defaultDependencies = true
  · cases e <;> simp [hd, pulledBy, eq_comm, and_comm]
  · simp [hd]

theorem mem_implicitEdges {src a b : UnitName} {e : DepEdge} {u : UnitSpec} :
    (a, e, b) ∈ DepGraph.implicitEdges src u ↔
      a = src ∧ e.isImplicit = true ∧ namedBy u.kind = some b := by
  have hnone : namedBy u.kind = none → DepGraph.implicitEdges src u = [] := by
    unfold DepGraph.implicitEdges namedBy
    cases u.kind <;> intro h <;> simp_all
  have hsome : ∀ target, namedBy u.kind = some target → DepGraph.implicitEdges src u =
      [(src, .wants, target), (src, .before, target)] := by
    unfold DepGraph.implicitEdges namedBy
    cases u.kind <;> intro target h <;> simp_all
  cases h : namedBy u.kind with
  | none => simp [hnone h]
  | some target =>
    rw [hsome target h]
    cases e <;> simp [DepEdge.isImplicit, eq_comm]

/-- What the units contribute is what is stated from the source side. -/
theorem declares_iff_stated {l : List (UnitName × UnitSpec)} {a b : UnitName} {e : DepEdge} :
    DepGraph.Declares l (a, e, b) ↔ Stated l a e b := by
  unfold DepGraph.Declares DepGraph.declaredEdges
  constructor
  · rintro ⟨⟨n, u⟩, hu, hx⟩
    rcases List.mem_append.mp hx with hx | hx
    · rcases List.mem_append.mp hx with hx | hx
      · obtain ⟨rfl, ht⟩ := mem_unitEdges.mp hx
        exact .source hu ht
      · obtain ⟨rfl, hd, ht⟩ := mem_installReverseEdges.mp hx
        exact .install hu hd ht
    · obtain ⟨rfl, he, ht⟩ := mem_implicitEdges.mp hx
      exact .implicit hu he ht
  · intro h
    cases h with
    | @source u h ht =>
      refine ⟨(a, u), h, List.mem_append_left _ (List.mem_append_left _ ?_)⟩
      exact mem_unitEdges.mpr ⟨rfl, ht⟩
    | @install u h hd ht =>
      refine ⟨(b, u), h, List.mem_append_left _ (List.mem_append_right _ ?_)⟩
      exact mem_installReverseEdges.mpr ⟨rfl, hd, ht⟩
    | @implicit u h he ht =>
      refine ⟨(a, u), h, List.mem_append_right _ ?_⟩
      exact mem_implicitEdges.mpr ⟨rfl, he, ht⟩

variable {units units' : IndexMap UnitName UnitSpec}

/-- The edges that leave a unit are those stated from the source side. -/
theorem mem_outgoing_build_iff {a b : UnitName} {e : DepEdge} :
    (e, b) ∈ (DepGraph.build units).outgoing a ↔ Stated units.entries a e b :=
  DepGraph.mem_outgoing_build.trans declares_iff_stated

theorem mem_incoming_build_iff {a b : UnitName} {e : DepEdge} :
    (e, a) ∈ (DepGraph.build units).incoming b ↔ Stated units.entries a e b :=
  DepGraph.mem_incoming_build.trans declares_iff_stated

/-! ## Exactness -/

/-- The graph has exactly the edges stated from either side, seen from both ends. -/
def ExactGraph (units : IndexMap UnitName UnitSpec) : Prop :=
  ∀ a e b, ((e, b) ∈ (DepGraph.build units).outgoing a ↔ StatedByEither units.entries a e b) ∧
    ((e, a) ∈ (DepGraph.build units).incoming b ↔ StatedByEither units.entries a e b)

/-- Whatever is received is sent: a loaded unit that names `a` in
`StopPropagatedFrom=` (`ReloadPropagatedFrom=`) is itself named in
`PropagatesStopTo=` (`PropagatesReloadTo=`) of a loaded `a`. -/
def Matched (units : IndexMap UnitName UnitSpec) : Prop :=
  ∀ b u, (b, u) ∈ units.entries → ∀ e, ∀ a ∈ sourcesOf u.deps e,
    ∃ w, (a, w) ∈ units.entries ∧ b ∈ targetsOf w.deps e

/-- Only the source states an edge that its target can receive. -/
theorem Stated.source_of_received {l : List (UnitName × UnitSpec)} {a b : UnitName}
    {e : DepEdge} {d : UnitDeps} (h : Stated l a e b) (hr : a ∈ sourcesOf d e) :
    ∃ w, (a, w) ∈ l ∧ b ∈ targetsOf w.deps e := by
  cases h with
  | @source w hw ht => exact ⟨w, hw, ht⟩
  | install _ _ ht => cases e <;> simp [pulledBy, sourcesOf] at ht hr
  | implicit _ he _ => cases e <;> simp [DepEdge.isImplicit, sourcesOf] at he hr

/-- Where everything received is sent, the receiving side adds nothing. -/
theorem Matched.stated_iff (hm : Matched units) {a b : UnitName} {e : DepEdge} :
    Stated units.entries a e b ↔ StatedByEither units.entries a e b := by
  constructor
  · exact Or.inl
  · rintro (h | ⟨u, hu, hr⟩)
    · exact h
    · obtain ⟨w, hw, ht⟩ := hm b u hu e a hr
      exact .source hw ht

/-- **The graph is the declared relation exactly when nothing is declared on the
receiving side alone.** Two unit sets of this kind that state the same from
either side have the same edges, so every transaction spreads alike in both. -/
theorem exact_iff_matched (units : IndexMap UnitName UnitSpec) :
    (ExactGraph units ↔ Matched units) ∧
    ∀ units', Matched units → Matched units' →
      (∀ a e b, StatedByEither units.entries a e b ↔ StatedByEither units'.entries a e b) →
      ∀ a e b, (e, b) ∈ (DepGraph.build units).outgoing a ↔
        (e, b) ∈ (DepGraph.build units').outgoing a := by
  refine ⟨⟨?_, ?_⟩, ?_⟩
  · intro h b u hu e a hr
    have hedge := (h a e b).1.mpr (Or.inr ⟨u, hu, hr⟩)
    exact (mem_outgoing_build_iff.mp hedge).source_of_received hr
  · intro hm a e b
    exact ⟨mem_outgoing_build_iff.trans hm.stated_iff,
      mem_incoming_build_iff.trans hm.stated_iff⟩
  · intro units' hm hm' hs a e b
    rw [mem_outgoing_build_iff, mem_outgoing_build_iff, hm.stated_iff, hm'.stated_iff]
    exact hs a e b

/-! ## A stop that is only received -/

/-- `a.service`, and `b.service` with `StopPropagatedFrom=a.service`. -/
def receivedUnits : IndexMap UnitName UnitSpec := .ofList
  [(svc "a", UnitSpec.empty (svc "a")),
   (svc "b", { UnitSpec.empty (svc "b") with deps := { stopPropagatedFrom := [svc "a"] } })]

/-- The same propagation, declared as `PropagatesStopTo=b.service` on `a.service`. -/
def sentUnits : IndexMap UnitName UnitSpec := .ofList
  [(svc "a", { UnitSpec.empty (svc "a") with deps := { propagatesStopTo := [svc "b"] } }),
   (svc "b", UnitSpec.empty (svc "b"))]

/-- Both units are loaded and active, no job is queued. -/
def pairView : ManagerView where
  isLoaded := sentUnits.contains
  isActive := sentUnits.contains
  allowIsolate := fun _ => false
  existingJobs := []

/-- What is sent reaches `b`, -/
example : Transaction.build (DepGraph.build sentUnits) pairView .new (svc "a")
    .stop .replace = .ok ({ jobs := [⟨⟨1⟩, svc "a", .stop, .replace⟩,
      ⟨⟨2⟩, svc "b", .stop, .replace⟩] }, ⟨3⟩) := rfl

/-- what is only received does not. -/
example : Transaction.build (DepGraph.build receivedUnits) pairView .new
    (svc "a") .stop .replace = .ok ({ jobs := [⟨⟨1⟩, svc "a", .stop, .replace⟩] }, ⟨2⟩) := rfl

/-- The graph is not the declared relation for every set of units. -/
theorem not_all_exact : ¬ ∀ units, ExactGraph units := by
  intro h
  have hstated : StatedByEither receivedUnits.entries (svc "a") .propagatesStopTo (svc "b") :=
    Or.inr ⟨_, List.mem_cons_of_mem _ (List.mem_cons_self ..), List.mem_cons_self ..⟩
  have hedge := (h receivedUnits (svc "a") .propagatesStopTo (svc "b")).1.mpr hstated
  exact absurd hedge (by decide)

end Systeml.Deps
