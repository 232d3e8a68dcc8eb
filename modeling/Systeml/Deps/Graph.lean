import Systeml.Lib.IndexMap
import Systeml.Lib.Kahn
import Systeml.Deps.Job

/-!
# The dependency graph

A typed directed multigraph over unit names, stored forward and in reverse.
`build` walks a snapshot of loaded units and adds, unit by unit, the declared
edges, the `[Install]` reverse pulls and the implicit edges of timers, paths
and sockets. Every edge goes through `addEdge`, so what `outgoing` and
`incoming` enumerate is the set of triples added, each of them once (`HasEdges`),
whatever their order and repetition.

`topoOrder` restricts the `After`/`Before` edges to a list of units and runs
Kahn's algorithm on them; which edges it sees is `mem_precedences`.
-/

namespace Systeml.Deps

open Systeml.Lib Systeml.Unit

/-- Edge kind in the dependency graph. -/
inductive DepEdge where
  | wants | requires | requisite | bindsTo | partOf | upholds | after | before
  | conflicts | onFailure | onSuccess | propagatesReloadTo | propagatesStopTo
  deriving DecidableEq, Repr

/-- The hard pulls: `Requires=` and `BindsTo=`. -/
def DepEdge.isHard : DepEdge → Bool
  | requires | bindsTo => true
  | _ => false

/-- Adjacency: for each unit the list of edges with their other end. -/
abbrev Adjacency := IndexMap UnitName (List (DepEdge × UnitName))

/-- The edges stored for a unit. -/
def Adjacency.at (a : Adjacency) (n : UnitName) : List (DepEdge × UnitName) :=
  (a.get? n).getD []

/-- Append `x` unless it is present. -/
def pushNew (l : List (DepEdge × UnitName)) (x : DepEdge × UnitName) :
    List (DepEdge × UnitName) :=
  if x ∈ l then l else l ++ [x]

theorem mem_pushNew {l : List (DepEdge × UnitName)} {x y : DepEdge × UnitName} :
    y ∈ pushNew l x ↔ y = x ∨ y ∈ l := by
  unfold pushNew
  split
  next h => exact ⟨Or.inr, fun h' => h'.elim (fun e => e ▸ h) id⟩
  next => simp [or_comm]

theorem nodup_pushNew {l : List (DepEdge × UnitName)} {x : DepEdge × UnitName} (h : l.Nodup) :
    (pushNew l x).Nodup := by
  unfold pushNew
  split
  next => exact h
  next hx => exact List.nodup_append.mpr ⟨h, List.nodup_singleton x, by grind⟩

/-- `entry(n).or_default()` followed by a push of a new pair. -/
def Adjacency.push (a : Adjacency) (n : UnitName) (x : DepEdge × UnitName) : Adjacency :=
  a.upsert n fun o => pushNew (o.getD []) x

theorem Adjacency.mem_at_push {a : Adjacency} {n m : UnitName} {x y : DepEdge × UnitName} :
    y ∈ (a.push n x).at m ↔ (m = n ∧ y = x) ∨ y ∈ a.at m := by
  unfold Adjacency.at Adjacency.push
  by_cases h : m = n
  · subst h
    rw [IndexMap.get?_upsert_self, Option.getD_some, mem_pushNew]
    simp
  · rw [IndexMap.get?_upsert_ne h]
    simp [h]

theorem Adjacency.nodup_at_push {a : Adjacency} {n m : UnitName} {x : DepEdge × UnitName}
    (h : (a.at m).Nodup) : ((a.push n x).at m).Nodup := by
  unfold Adjacency.at Adjacency.push
  by_cases hm : m = n
  · subst hm
    rw [IndexMap.get?_upsert_self, Option.getD_some]
    exact nodup_pushNew h
  · rw [IndexMap.get?_upsert_ne hm]
    exact h

/-- The dependency graph. Every endpoint of an edge is a node. -/
structure DepGraph where
  forward : Adjacency
  reverse : Adjacency
  nodes : IndexSet UnitName
  ignoreOnIsolate : IndexSet UnitName
  closed : ∀ n e t, ((e, t) ∈ forward.at n → t ∈ nodes.elems) ∧
    ((e, t) ∈ reverse.at n → t ∈ nodes.elems)

namespace DepGraph

/-- Construct an empty graph. -/
def new : DepGraph where
  forward := .empty
  reverse := .empty
  nodes := .empty
  ignoreOnIsolate := .empty
  closed := by simp [Adjacency.at]

/-- `(edge, target)` pairs leaving `n`. -/
def outgoing (g : DepGraph) (n : UnitName) : List (DepEdge × UnitName) := g.forward.at n

/-- `(edge, source)` pairs entering `n`, the kind as declared on the source. -/
def incoming (g : DepGraph) (n : UnitName) : List (DepEdge × UnitName) := g.reverse.at n

theorem mem_nodes_of_outgoing {g : DepGraph} {n t : UnitName} {e : DepEdge}
    (h : (e, t) ∈ g.outgoing n) : t ∈ g.nodes.elems :=
  (g.closed n e t).1 h

theorem mem_nodes_of_incoming {g : DepGraph} {n t : UnitName} {e : DepEdge}
    (h : (e, t) ∈ g.incoming n) : t ∈ g.nodes.elems :=
  (g.closed n e t).2 h

/-- Register a node. -/
def addNode (g : DepGraph) (n : UnitName) : DepGraph where
  forward := g.forward
  reverse := g.reverse
  nodes := g.nodes.insert n
  ignoreOnIsolate := g.ignoreOnIsolate
  closed := fun m e t => ⟨fun h => IndexSet.mem_insert.mpr (Or.inr ((g.closed m e t).1 h)),
    fun h => IndexSet.mem_insert.mpr (Or.inr ((g.closed m e t).2 h))⟩

/-- Add a directed edge. Idempotent: duplicates are dropped. -/
def addEdge (g : DepGraph) (src : UnitName) (kind : DepEdge) (tgt : UnitName) : DepGraph where
  forward := g.forward.push src (kind, tgt)
  reverse := g.reverse.push tgt (kind, src)
  nodes := (g.nodes.insert src).insert tgt
  ignoreOnIsolate := g.ignoreOnIsolate
  closed := by
    intro n e t
    constructor
    · intro h
      rcases Adjacency.mem_at_push.mp h with ⟨-, he⟩ | h
      · obtain ⟨-, rfl⟩ : e = kind ∧ t = tgt := by simpa using he
        simp
      · simp [(g.closed n e t).1 h]
    · intro h
      rcases Adjacency.mem_at_push.mp h with ⟨-, he⟩ | h
      · obtain ⟨-, rfl⟩ : e = kind ∧ t = src := by simpa using he
        simp
      · simp [(g.closed n e t).2 h]

theorem mem_outgoing_addEdge {g : DepGraph} {src tgt n t : UnitName} {kind e : DepEdge} :
    (e, t) ∈ (g.addEdge src kind tgt).outgoing n ↔
      (n, e, t) = (src, kind, tgt) ∨ (e, t) ∈ g.outgoing n := by
  refine Adjacency.mem_at_push.trans ?_
  simp [outgoing]

theorem mem_incoming_addEdge {g : DepGraph} {src tgt n s : UnitName} {kind e : DepEdge} :
    (e, s) ∈ (g.addEdge src kind tgt).incoming n ↔
      (s, e, n) = (src, kind, tgt) ∨ (e, s) ∈ g.incoming n := by
  refine Adjacency.mem_at_push.trans ?_
  simp only [incoming, Prod.mk.injEq]
  constructor
  · rintro (⟨h1, h2, h3⟩ | h)
    · exact Or.inl ⟨h3, h2, h1⟩
    · exact Or.inr h
  · rintro (⟨h1, h2, h3⟩ | h)
    · exact Or.inl ⟨h3, h2, h1⟩
    · exact Or.inr h

/-! ## Building the graph -/

/-- An edge to add: source, kind, target. -/
abbrev Triple := UnitName × DepEdge × UnitName

/-- Add a list of edges in order. -/
def addEdges (g : DepGraph) (l : List Triple) : DepGraph :=
  l.foldl (fun g t => g.addEdge t.1 t.2.1 t.2.2) g

/-- What `add_unit_edges` adds: every entry of `unit.deps`, field by field. The
receiving sides `reload_propagated_from` and `stop_propagated_from` add
nothing. -/
def unitEdges (src : UnitName) (d : UnitDeps) : List Triple :=
  d.wants.map (fun t => (src, .wants, t)) ++
  d.requires.map (fun t => (src, .requires, t)) ++
  d.requisite.map (fun t => (src, .requisite, t)) ++
  d.bindsTo.map (fun t => (src, .bindsTo, t)) ++
  d.partOf.map (fun t => (src, .partOf, t)) ++
  d.upholds.map (fun t => (src, .upholds, t)) ++
  d.conflicts.map (fun t => (src, .conflicts, t)) ++
  d.onFailure.map (fun t => (src, .onFailure, t)) ++
  d.onSuccess.map (fun t => (src, .onSuccess, t)) ++
  d.propagatesReloadTo.map (fun t => (src, .propagatesReloadTo, t)) ++
  d.propagatesStopTo.map (fun t => (src, .propagatesStopTo, t)) ++
  d.after.map (fun t => (src, .after, t)) ++
  d.before.map (fun t => (src, .before, t))

/-- What `add_install_reverse_edges` adds: `[Install] WantedBy=foo` on `bar`
gives `foo Wants bar`, only under `DefaultDependencies=yes`. -/
def installReverseEdges (src : UnitName) (u : UnitSpec) : List Triple :=
  if !u.defaultDependencies then []
  else
    u.install.wantedBy.map (fun t => (t, .wants, src)) ++
    u.install.requiredBy.map (fun t => (t, .requires, src)) ++
    u.install.upheldBy.map (fun t => (t, .upholds, src))

/-- What `add_implicit_edges` adds: a timer, path or socket that names a unit
wants it and is ordered before it. -/
def implicitEdges (src : UnitName) (u : UnitSpec) : List Triple :=
  let named : Option UnitName := match u.kind with
    | .timer t => t.unit
    | .path unit => unit
    | .socket service => service
    | _ => none
  match named with
  | some target => [(src, .wants, target), (src, .before, target)]
  | none => []

/-- All edges one loaded unit contributes, in the order `build` adds them. -/
def declaredEdges (name : UnitName) (u : UnitSpec) : List Triple :=
  unitEdges name u.deps ++ installReverseEdges name u ++ implicitEdges name u

/-- Record the `IgnoreOnIsolate=yes` flag of a unit. -/
def flagIsolate (g : DepGraph) (name : UnitName) (u : UnitSpec) : DepGraph :=
  if u.ignoreOnIsolate then { g with ignoreOnIsolate := g.ignoreOnIsolate.insert name } else g

/-- One iteration of the loop of `build`. -/
def addUnit (g : DepGraph) (p : UnitName × UnitSpec) : DepGraph :=
  (g.flagIsolate p.1 p.2).addEdges (declaredEdges p.1 p.2)

/-- Build a graph from a snapshot of loaded units. -/
def build (units : IndexMap UnitName UnitSpec) : DepGraph :=
  units.entries.foldl addUnit (units.keys.foldl addNode new)

/-- Adding edges leaves the isolate flags and only adds nodes. -/
theorem addEdges_frame : ∀ (l : List Triple) (g : DepGraph),
    (g.addEdges l).ignoreOnIsolate = g.ignoreOnIsolate ∧
    ∀ n, n ∈ (g.addEdges l).nodes.elems ↔
      n ∈ g.nodes.elems ∨ ∃ x ∈ l, n = x.1 ∨ n = x.2.2
  | [], g => by simp [addEdges]
  | x :: l, g => by
    obtain ⟨ih1, ih2⟩ := addEdges_frame l (g.addEdge x.1 x.2.1 x.2.2)
    have hunf : g.addEdges (x :: l) = (g.addEdge x.1 x.2.1 x.2.2).addEdges l := rfl
    rw [hunf]
    refine ⟨ih1, fun n => ?_⟩
    rw [ih2]
    simp only [addEdge, IndexSet.mem_insert, List.mem_cons, exists_eq_or_imp]
    grind

@[simp] theorem outgoing_flagIsolate (g : DepGraph) (name n : UnitName) (u : UnitSpec) :
    (g.flagIsolate name u).outgoing n = g.outgoing n := by
  unfold flagIsolate
  split <;> rfl

@[simp] theorem incoming_flagIsolate (g : DepGraph) (name n : UnitName) (u : UnitSpec) :
    (g.flagIsolate name u).incoming n = g.incoming n := by
  unfold flagIsolate
  split <;> rfl

@[simp] theorem nodes_flagIsolate (g : DepGraph) (name : UnitName) (u : UnitSpec) :
    (g.flagIsolate name u).nodes = g.nodes := by
  unfold flagIsolate
  split <;> rfl

theorem mem_ignoreOnIsolate_flagIsolate {g : DepGraph} {name n : UnitName} {u : UnitSpec} :
    n ∈ (g.flagIsolate name u).ignoreOnIsolate.elems ↔
      (n = name ∧ u.ignoreOnIsolate = true) ∨ n ∈ g.ignoreOnIsolate.elems := by
  unfold flagIsolate
  split
  next h => simp [h]
  next h => simp [h]

/-- What a snapshot of units declares: every edge some unit contributes. -/
def Declares (l : List (UnitName × UnitSpec)) (x : Triple) : Prop :=
  ∃ p ∈ l, x ∈ declaredEdges p.1 p.2

theorem declares_cons {p : UnitName × UnitSpec} {l : List (UnitName × UnitSpec)} {x : Triple} :
    Declares (p :: l) x ↔ x ∈ declaredEdges p.1 p.2 ∨ Declares l x := by
  simp [Declares]

theorem mem_nodes_foldl {n : UnitName} : ∀ (l : List (UnitName × UnitSpec)) (g : DepGraph),
    n ∈ (l.foldl addUnit g).nodes.elems ↔
      n ∈ g.nodes.elems ∨ ∃ x, Declares l x ∧ (n = x.1 ∨ n = x.2.2)
  | [], g => by simp [Declares]
  | p :: l, g => by
    rw [List.foldl_cons, mem_nodes_foldl l, addUnit, (addEdges_frame _ _).2,
      nodes_flagIsolate, or_assoc]
    simp only [declares_cons, or_and_right, exists_or]

theorem mem_ignoreOnIsolate_foldl {n : UnitName} :
    ∀ (l : List (UnitName × UnitSpec)) (g : DepGraph),
      n ∈ (l.foldl addUnit g).ignoreOnIsolate.elems ↔
        (∃ p ∈ l, n = p.1 ∧ p.2.ignoreOnIsolate = true) ∨ n ∈ g.ignoreOnIsolate.elems
  | [], g => by simp
  | p :: l, g => by
    rw [List.foldl_cons, mem_ignoreOnIsolate_foldl l, addUnit, (addEdges_frame _ _).1,
      mem_ignoreOnIsolate_flagIsolate]
    simp only [List.mem_cons, exists_eq_or_imp]
    rw [or_left_comm, or_assoc]

/-- Seeding nodes adds no flag. -/
theorem foldl_addNode : ∀ (l : List UnitName) (g : DepGraph),
    (l.foldl addNode g).ignoreOnIsolate = g.ignoreOnIsolate ∧
    ∀ n, n ∈ (l.foldl addNode g).nodes.elems ↔ n ∈ l ∨ n ∈ g.nodes.elems
  | [], g => by simp
  | x :: l, g => by
    obtain ⟨ih, ih'⟩ := foldl_addNode l (g.addNode x)
    refine ⟨ih, fun n => ?_⟩
    rw [List.foldl_cons, ih']
    simp only [addNode, IndexSet.mem_insert, List.mem_cons]
    tauto

/-- The edges are those of `added`, once on either side and between nodes. -/
structure HasEdges (g : DepGraph) (added : Triple → Prop) : Prop where
  forward : ∀ s k t, (k, t) ∈ g.outgoing s ↔ added (s, k, t)
  reverse : ∀ s k t, (k, s) ∈ g.incoming t ↔ added (s, k, t)
  outgoing_nodup : ∀ s, (g.outgoing s).Nodup
  incoming_nodup : ∀ t, (g.incoming t).Nodup
  ends : ∀ x, added x → x.1 ∈ g.nodes.elems ∧ x.2.2 ∈ g.nodes.elems

section HasEdges

variable {g : DepGraph} {A B : Triple → Prop}

theorem HasEdges.congr (h : HasEdges g A) (hab : ∀ x, A x ↔ B x) : HasEdges g B :=
  ⟨fun s k t => (h.forward s k t).trans (hab _), fun s k t => (h.reverse s k t).trans (hab _),
    h.outgoing_nodup, h.incoming_nodup, fun x hx => h.ends x ((hab x).mpr hx)⟩

theorem hasEdges_new : HasEdges new fun _ => False := by
  refine ⟨?_, ?_, fun s => List.nodup_nil, fun t => List.nodup_nil, fun x hx => hx.elim⟩
  · simp [new, outgoing, Adjacency.at]
  · simp [new, incoming, Adjacency.at]

theorem HasEdges.addNode (h : HasEdges g A) (n : UnitName) : HasEdges (g.addNode n) A := by
  refine ⟨h.forward, h.reverse, h.outgoing_nodup, h.incoming_nodup, fun x hx => ?_⟩
  obtain ⟨hs, ht⟩ := h.ends x hx
  exact ⟨IndexSet.mem_insert.mpr (Or.inr hs), IndexSet.mem_insert.mpr (Or.inr ht)⟩

theorem HasEdges.flagIsolate (h : HasEdges g A) (name : UnitName) (u : UnitSpec) :
    HasEdges (g.flagIsolate name u) A := by
  refine ⟨?_, ?_, ?_, ?_, ?_⟩
  · simpa only [outgoing_flagIsolate] using h.forward
  · simpa only [incoming_flagIsolate] using h.reverse
  · simpa only [outgoing_flagIsolate] using h.outgoing_nodup
  · simpa only [incoming_flagIsolate] using h.incoming_nodup
  · simpa only [nodes_flagIsolate] using h.ends

/-- **One edge more**, or none if it was there. -/
theorem HasEdges.addEdge (h : HasEdges g A) (s : UnitName) (k : DepEdge) (t : UnitName) :
    HasEdges (g.addEdge s k t) fun x => x = (s, k, t) ∨ A x := by
  refine ⟨?_, ?_, ?_, ?_, ?_⟩
  · intro s' k' t'
    exact mem_outgoing_addEdge.trans (or_congr_right (h.forward s' k' t'))
  · intro s' k' t'
    exact mem_incoming_addEdge.trans (or_congr_right (h.reverse s' k' t'))
  · intro s'
    exact Adjacency.nodup_at_push (h.outgoing_nodup s')
  · intro t'
    exact Adjacency.nodup_at_push (h.incoming_nodup t')
  · rintro x (rfl | hx)
    · simp [DepGraph.addEdge]
    · obtain ⟨hs, ht⟩ := h.ends x hx
      simp [DepGraph.addEdge, hs, ht]

/-- **A sequence of edges**, in any order and repeated or not. -/
theorem HasEdges.addEdges : ∀ {l : List Triple} {g : DepGraph} {A : Triple → Prop},
    HasEdges g A → HasEdges (g.addEdges l) fun x => x ∈ l ∨ A x
  | [], _, _, h => h.congr fun x => by simp
  | (s, k, t) :: l, g, A, h => by
    refine ((h.addEdge s k t).addEdges (l := l)).congr fun x => ?_
    rw [List.mem_cons, or_assoc, or_left_comm]

theorem HasEdges.addUnit (h : HasEdges g A) (p : UnitName × UnitSpec) :
    HasEdges (g.addUnit p) fun x => x ∈ declaredEdges p.1 p.2 ∨ A x := by
  unfold DepGraph.addUnit
  exact (h.flagIsolate p.1 p.2).addEdges

theorem HasEdges.addUnits : ∀ {l : List (UnitName × UnitSpec)} {g : DepGraph} {A : Triple → Prop},
    HasEdges g A → HasEdges (l.foldl DepGraph.addUnit g) fun x => Declares l x ∨ A x
  | [], _, _, h => h.congr fun x => by simp [Declares]
  | p :: l, g, A, h => by
    rw [List.foldl_cons]
    refine ((h.addUnit p).addUnits (l := l)).congr fun x => ?_
    rw [declares_cons, or_assoc, or_left_comm]

theorem HasEdges.addNodes : ∀ {l : List UnitName} {g : DepGraph},
    HasEdges g A → HasEdges (l.foldl DepGraph.addNode g) A
  | [], _, h => h
  | n :: l, _, h => HasEdges.addNodes (l := l) (h.addNode n)

theorem hasEdges_build (units : IndexMap UnitName UnitSpec) :
    HasEdges (build units) (Declares units.entries) :=
  hasEdges_new.addNodes.addUnits.congr fun x => by rw [or_false]

end HasEdges

/-- The edges of a built graph, seen from the source. -/
theorem mem_outgoing_build {units : IndexMap UnitName UnitSpec} {n t : UnitName} {e : DepEdge} :
    (e, t) ∈ (build units).outgoing n ↔ Declares units.entries (n, e, t) :=
  (hasEdges_build units).forward n e t

/-- The edges of a built graph, seen from the target. -/
theorem mem_incoming_build {units : IndexMap UnitName UnitSpec} {n s : UnitName} {e : DepEdge} :
    (e, s) ∈ (build units).incoming n ↔ Declares units.entries (s, e, n) :=
  (hasEdges_build units).reverse s e n

/-- The nodes of a built graph: the loaded units and every endpoint. -/
theorem mem_nodes_build {units : IndexMap UnitName UnitSpec} {n : UnitName} :
    n ∈ (build units).nodes.elems ↔
      n ∈ units.keys ∨ ∃ x, Declares units.entries x ∧ (n = x.1 ∨ n = x.2.2) := by
  rw [build, mem_nodes_foldl, (foldl_addNode _ _).2]
  simp [new]

/-- The `IgnoreOnIsolate=` flags of a built graph. -/
theorem mem_ignoreOnIsolate_build {units : IndexMap UnitName UnitSpec} {n : UnitName} :
    n ∈ (build units).ignoreOnIsolate.elems ↔
      ∃ p ∈ units.entries, n = p.1 ∧ p.2.ignoreOnIsolate = true := by
  rw [build, mem_ignoreOnIsolate_foldl, (foldl_addNode _ _).1]
  simp [new]

/-! ## Topological order -/

/-- The constraint one edge of `u` puts on the listed units, as (node,
predecessor): `u After other` puts `other` before `u`, `u Before other` puts
`u` before `other`. -/
def precedence (units : List UnitName) (u : UnitName) (x : DepEdge × UnitName) :
    Option (UnitName × UnitName) :=
  if x.2 ∈ units then
    match x.1 with
    | .after => some (u, x.2)
    | .before => some (x.2, u)
    | _ => none
  else none

/-- All constraints between the listed units, in the order they are found. -/
def precedences (g : DepGraph) (units : List UnitName) : List (UnitName × UnitName) :=
  units.flatMap fun u => (g.outgoing u).filterMap (precedence units u)

/-- The predecessor sets, seeded with every listed unit. -/
def predsMap (g : DepGraph) (units : List UnitName) :
    IndexMap UnitName (IndexSet UnitName) :=
  (g.precedences units).foldl
    (fun m x => m.upsert x.1 fun o => (o.getD .empty).insert x.2)
    (units.foldl (fun m u => m.upsert u fun o => o.getD .empty) .empty)

/-- The units that must precede `n`. -/
def predsOf (g : DepGraph) (units : List UnitName) (n : UnitName) : List UnitName :=
  (((g.predsMap units).get? n).getD .empty).elems

/-- Topologically sort the given duplicate-free names by `After`/`Before`
edges. On a cycle, the first name that still waits for a predecessor. -/
def topoOrder (g : DepGraph) (units : List UnitName) : Except UnitName (List UnitName) :=
  match units with
  | [] => .ok []
  | first :: _ =>
    let st := kahn units (g.predsOf units)
    if st.out.length = units.length then .ok st.out
    else .error ((units.find? fun n => decide (0 < st.indeg n)).getD first)

theorem mem_precedences {g : DepGraph} {units : List UnitName} {n p : UnitName} :
    (n, p) ∈ g.precedences units ↔ n ∈ units ∧ p ∈ units ∧
      ((.after, p) ∈ g.outgoing n ∨ (.before, n) ∈ g.outgoing p) := by
  simp only [precedences, List.mem_flatMap, List.mem_filterMap, Prod.exists]
  constructor
  · rintro ⟨u, hu, e, t, het, hp⟩
    unfold precedence at hp
    split at hp
    next ht =>
      split at hp
      next he =>
        obtain ⟨rfl, rfl⟩ : u = n ∧ t = p := by simpa using hp
        exact ⟨hu, ht, Or.inl ((show e = .after from he) ▸ het)⟩
      next he =>
        -- a `Before` edge leaves the unit that is to precede
        obtain ⟨rfl, rfl⟩ : t = n ∧ u = p := by simpa using hp
        exact ⟨ht, hu, Or.inr ((show e = .before from he) ▸ het)⟩
      next => exact absurd hp (by simp)
    next => exact absurd hp (by simp)
  · rintro ⟨hn, hp, h | h⟩
    · exact ⟨n, hn, .after, p, h, by simp [precedence, hp]⟩
    · exact ⟨p, hp, .before, n, h, by simp [precedence, hn]⟩

private theorem mem_foldl_insert {n p : UnitName} : ∀ (l : List (UnitName × UnitName))
    (m : IndexMap UnitName (IndexSet UnitName)),
    p ∈ (((l.foldl (fun m x => m.upsert x.1 fun o => (o.getD .empty).insert x.2) m).get?
      n).getD .empty).elems ↔ (n, p) ∈ l ∨ p ∈ ((m.get? n).getD .empty).elems
  | [], m => by simp
  | x :: l, m => by
    rw [List.foldl_cons, mem_foldl_insert l]
    by_cases h : n = x.1
    · subst h
      rw [IndexMap.get?_upsert_self, Option.getD_some, IndexSet.mem_insert, List.mem_cons]
      have hx : (x.1, p) = x ↔ p = x.2 := by
        constructor
        · intro e
          rw [← e]
        · rintro rfl
          rfl
      rw [hx]
      tauto
    · have hx : ¬ (n, p) = x := fun e => h (by rw [← e])
      rw [IndexMap.get?_upsert_ne h, List.mem_cons]
      tauto

private theorem foldl_seed {n : UnitName} : ∀ (l : List UnitName)
    (m : IndexMap UnitName (IndexSet UnitName)), (∀ s, m.get? n = some s → s = .empty) →
    ((l.foldl (fun m u => m.upsert u fun o => o.getD .empty) m).get? n).getD .empty = .empty
  | [], m, h => by
    cases hm : m.get? n with
    | none => simp [hm]
    | some s => simp [hm, h s hm]
  | u :: l, m, h => by
    rw [List.foldl_cons]
    -- a name that comes twice keeps the empty set it has
    refine foldl_seed l _ fun s hs => ?_
    by_cases hu : n = u
    · subst hu
      rw [IndexMap.get?_upsert_self] at hs
      cases hm : m.get? n with
      | none => simpa [hm, eq_comm] using hs
      | some t => simpa [hm, h t hm, eq_comm] using hs
    · rw [IndexMap.get?_upsert_ne hu] at hs
      exact h s hs

/-- The predecessors of a unit are the constraints found for it. -/
theorem mem_predsOf {g : DepGraph} {units : List UnitName} {n p : UnitName} :
    p ∈ g.predsOf units n ↔ (n, p) ∈ g.precedences units := by
  rw [predsOf, predsMap, mem_foldl_insert, foldl_seed _ _ (by simp)]
  simp

theorem predsOf_nodup (g : DepGraph) (units : List UnitName) (n : UnitName) :
    (g.predsOf units n).Nodup :=
  (((g.predsMap units).get? n).getD .empty).nodup

theorem predsOf_sub {g : DepGraph} {units : List UnitName} {n p : UnitName}
    (h : p ∈ g.predsOf units n) : p ∈ units :=
  (mem_precedences.mp (mem_predsOf.mp h)).2.1

/-- `p` must stand before `n` in an order of the listed units: both are listed,
and an `After` edge of `n` or a `Before` edge of `p` says so. -/
def MustPrecede (g : DepGraph) (units : List UnitName) (p n : UnitName) : Prop :=
  n ∈ units ∧ p ∈ units ∧ ((.after, p) ∈ g.outgoing n ∨ (.before, n) ∈ g.outgoing p)

theorem precedes_iff {g : DepGraph} {units : List UnitName} {p n : UnitName} :
    Precedes units (g.predsOf units) p n ↔ g.MustPrecede units p n := by
  unfold Precedes MustPrecede
  rw [mem_predsOf, mem_precedences]
  tauto

theorem precedes_eq (g : DepGraph) (units : List UnitName) :
    Precedes units (g.predsOf units) = g.MustPrecede units := by
  funext p n
  exact propext precedes_iff

/-- A successful sort is a permutation of its input. -/
theorem topoOrder_perm {g : DepGraph} {units order : List UnitName} (hn : units.Nodup)
    (h : g.topoOrder units = .ok order) : order.Perm units := by
  unfold topoOrder at h
  split at h
  next =>
    obtain rfl : [] = order := by simpa using h
    exact List.Perm.refl _
  next first rest =>
    simp only at h
    split at h
    next hl =>
      obtain rfl : _ = order := Except.ok.inj h
      exact kahn_perm hn (predsOf_nodup g _) hl
    next => exact absurd h (by simp)

/-- The sort succeeds exactly when no chain of constraints leads from a unit
back to itself. -/
theorem topoOrder_ok_iff {g : DepGraph} {units : List UnitName} (hn : units.Nodup) :
    (∃ order, g.topoOrder units = .ok order) ↔
      ∀ n, ¬ Relation.TransGen (g.MustPrecede units) n n := by
  cases units with
  | nil =>
    -- nothing is listed, so nothing must precede
    refine ⟨fun _ n h => ?_, fun _ => ⟨[], rfl⟩⟩
    obtain ⟨m, hm, -⟩ := Relation.TransGen.head'_iff.mp h
    exact absurd hm.1 (by simp)
  | cons first rest =>
    have hk := kahn_complete_iff hn (predsOf_nodup g _) fun n p h => predsOf_sub h
    rw [precedes_eq] at hk
    rw [← hk, topoOrder]
    constructor
    · rintro ⟨order, h⟩
      split at h
      next hl => exact hl
      next => exact absurd h (by simp)
    · intro hl
      exact ⟨_, if_pos hl⟩

end DepGraph

end Systeml.Deps
