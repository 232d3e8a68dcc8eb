import Systeml.Deps.Graph

/-!
# The two adjacency maps

`forward` and `reverse` are kept apart, each with a check of its own for pairs that are
there already. Whatever edges are added, in whatever order and how often, each of them
is stored once on either side (`adjacency_mirrored`).
-/

namespace Systeml.Deps

open Systeml.Lib Systeml.Unit

namespace DepGraph

/-- All edges, as `outgoing` enumerates them for the nodes. -/
def outgoingEdges (g : DepGraph) : List Triple :=
  g.nodes.elems.flatMap fun s => (g.outgoing s).map fun x => (s, x.1, x.2)

/-- All edges, as `incoming` enumerates them for the nodes. -/
def incomingEdges (g : DepGraph) : List Triple :=
  g.nodes.elems.flatMap fun t => (g.incoming t).map fun x => (x.2, x.1, t)

/-- The two maps are converse to each other, and enumerate every edge exactly once. -/
structure Mirrored (g : DepGraph) (added : Triple → Prop) : Prop extends HasEdges g added where
  converse : ∀ s k t, (k, t) ∈ g.outgoing s ↔ (k, s) ∈ g.incoming t
  mem_edges : ∀ x, x ∈ g.outgoingEdges ↔ added x
  once : g.outgoingEdges.Nodup
  same : g.incomingEdges.Perm g.outgoingEdges

variable {g : DepGraph} {A : Triple → Prop}

/-! ## What is enumerated -/

theorem HasEdges.mem_outgoingEdges (h : HasEdges g A) (x : Triple) :
    x ∈ g.outgoingEdges ↔ A x := by
  obtain ⟨s, k, t⟩ := x
  simp only [outgoingEdges, List.mem_flatMap, List.mem_map, Prod.exists]
  constructor
  · rintro ⟨s', -, k', t', hx, he⟩
    obtain ⟨rfl, rfl, rfl⟩ : s' = s ∧ k' = k ∧ t' = t := by simpa using he
    exact (h.forward s' k' t').mp hx
  · intro hx
    exact ⟨s, (h.ends _ hx).1, k, t, (h.forward s k t).mpr hx, rfl⟩

theorem HasEdges.mem_incomingEdges (h : HasEdges g A) (x : Triple) :
    x ∈ g.incomingEdges ↔ A x := by
  obtain ⟨s, k, t⟩ := x
  simp only [incomingEdges, List.mem_flatMap, List.mem_map, Prod.exists]
  constructor
  · rintro ⟨t', -, k', s', hx, he⟩
    obtain ⟨rfl, rfl, rfl⟩ : s' = s ∧ k' = k ∧ t' = t := by simpa using he
    exact (h.reverse s' k' t').mp hx
  · intro hx
    exact ⟨t, (h.ends _ hx).2, k, s, (h.reverse s k t).mpr hx, rfl⟩

/-- Lists without duplicates, tagged with what they belong to, make one without. -/
theorem nodup_flatMap_tagged {α β γ : Type} {f : α → β → γ} (owner : γ → α) {l : List α}
    {items : α → List β} (hl : l.Nodup) (hitems : ∀ a, (items a).Nodup)
    (hf : ∀ a, Function.Injective (f a)) (howner : ∀ a b, owner (f a b) = a) :
    (l.flatMap fun a => (items a).map (f a)).Nodup := by
  refine List.nodup_flatMap.mpr ⟨fun a _ => (hitems a).map (hf a), hl.imp ?_⟩
  intro a a' hne c hc hc'
  obtain ⟨b, -, rfl⟩ := List.mem_map.mp hc
  obtain ⟨b', -, he⟩ := List.mem_map.mp hc'
  exact hne (by rw [← howner a b, ← he, howner])

theorem HasEdges.mirrored (h : HasEdges g A) : Mirrored g A := by
  have hout : g.outgoingEdges.Nodup :=
    nodup_flatMap_tagged Prod.fst g.nodes.nodup h.outgoing_nodup
      (fun s x y he => by grind) fun _ _ => rfl
  have hin : g.incomingEdges.Nodup :=
    nodup_flatMap_tagged (fun x => x.2.2) g.nodes.nodup h.incoming_nodup
      (fun t x y he => by grind) fun _ _ => rfl
  refine ⟨h, fun s k t => (h.forward s k t).trans (h.reverse s k t).symm, h.mem_outgoingEdges,
    hout, (List.perm_ext_iff_of_nodup hin hout).mpr fun x => ?_⟩
  exact (h.mem_incomingEdges x).trans (h.mem_outgoingEdges x).symm

/-- **The two indexes mirror each other** after any sequence of additions, to an empty graph
or to one that was built from any units. -/
theorem adjacency_mirrored (l : List Triple) (units : IndexMap UnitName UnitSpec) :
    Mirrored (new.addEdges l) (fun x => x ∈ l) ∧
      Mirrored (build units) (Declares units.entries) ∧
      Mirrored ((build units).addEdges l) fun x => x ∈ l ∨ Declares units.entries x :=
  ⟨(hasEdges_new.addEdges.congr fun x => by rw [or_false]).mirrored,
    (hasEdges_build units).mirrored, (hasEdges_build units).addEdges.mirrored⟩

end DepGraph

end Systeml.Deps
