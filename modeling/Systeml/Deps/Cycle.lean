import Systeml.Deps.Soundness

/-!
# The unit a failed sort names

When the sort gets stuck it names the first listed unit that still waits for a
predecessor. Those are the units on a cycle of the constraints and all units
downstream of one (`kahn_notMem_out`), so the unit named is on a cycle exactly
when the first of them in the list is (`topoOrder_names_cycle`): a unit that is
only ordered after a cycle is named if it comes first.
-/

namespace Systeml.Deps

open Systeml.Lib Systeml.Unit

namespace DepGraph

/-- `n` is on a cycle of the constraints between the listed units. -/
def OnCycle (g : DepGraph) (units : List UnitName) (n : UnitName) : Prop :=
  Relation.TransGen (g.MustPrecede units) n n

/-- `n` is on a cycle, or a chain of constraints leads to it from one. -/
def Downstream (g : DepGraph) (units : List UnitName) (n : UnitName) : Prop :=
  ∃ c, g.OnCycle units c ∧ Relation.ReflTransGen (g.MustPrecede units) c n

/-- The units left waiting are those on or downstream of a cycle. -/
theorem waiting_iff {g : DepGraph} {units : List UnitName} (hn : units.Nodup) {n : UnitName}
    (hm : n ∈ units) :
    0 < (kahn units (g.predsOf units)).indeg n ↔ g.Downstream units n := by
  rw [kahn_indeg_pos hn (predsOf_nodup g _) hm,
    kahn_notMem_out hn (predsOf_nodup g _) (fun n p h => predsOf_sub h) hm]
  unfold Lib.Downstream Lib.OnCycle Downstream OnCycle
  rw [precedes_eq]

/-- What a failed sort names: the first listed unit on or downstream of a cycle. -/
theorem topoOrder_error_iff {g : DepGraph} {units : List UnitName} (hn : units.Nodup)
    {n : UnitName} : g.topoOrder units = .error n ↔
      ∃ l r, units = l ++ n :: r ∧ g.Downstream units n ∧ ∀ m ∈ l, ¬ g.Downstream units m := by
  have hfind : ∀ m, (units.find? fun u => decide (0 < (kahn units (g.predsOf units)).indeg u)) =
      some m ↔ ∃ l r, units = l ++ m :: r ∧ g.Downstream units m ∧
        ∀ u ∈ l, ¬ g.Downstream units u := by
    intro m
    rw [List.find?_eq_some_iff_append]
    constructor
    · rintro ⟨hm, l, r, hu, hl⟩
      refine ⟨l, r, hu, ?_, fun u hul => ?_⟩
      · exact (waiting_iff hn (by rw [hu]; simp)).mp (by simpa using hm)
      · rw [← waiting_iff hn (by rw [hu]; simp [hul])]
        simpa using hl u hul
    · rintro ⟨l, r, hu, hm, hl⟩
      refine ⟨?_, l, r, hu, fun u hul => ?_⟩
      · simpa using (waiting_iff hn (by rw [hu]; simp)).mpr hm
      · have := hl u hul
        rw [← waiting_iff hn (by rw [hu]; simp [hul])] at this
        simpa using this
  rw [← hfind]
  cases hu : units with
  | nil => simp [topoOrder]
  | cons first rest =>
    rw [← hu]
    have hrun : g.topoOrder units =
        if (kahn units (g.predsOf units)).out.length = units.length then
          .ok (kahn units (g.predsOf units)).out
        else .error ((units.find? fun n =>
          decide (0 < (kahn units (g.predsOf units)).indeg n)).getD first) := by
      rw [hu]
      rfl
    rw [hrun]
    by_cases hl : (kahn units (g.predsOf units)).out.length = units.length
    · -- all are output, so none waits
      rw [if_pos hl]
      constructor
      · intro h
        exact absurd h (by simp)
      · intro h
        have hm := List.mem_of_find?_eq_some h
        have hpos : 0 < (kahn units (g.predsOf units)).indeg n := by
          simpa using List.find?_some h
        have hout := (kahn_perm hn (predsOf_nodup g _) hl).mem_iff.mpr hm
        exact absurd hout ((kahn_indeg_pos hn (predsOf_nodup g _) hm).mp hpos)
    · -- some unit is left out, so the search for one succeeds
      rw [if_neg hl]
      cases hf : units.find? fun n => decide (0 < (kahn units (g.predsOf units)).indeg n) with
      | some m => simp
      | none =>
        refine absurd ((kahn_length_iff hn (predsOf_nodup g _)).mpr fun m hm => ?_) hl
        by_contra hout
        have hpos := (kahn_indeg_pos hn (predsOf_nodup g _) hm).mpr hout
        exact List.find?_eq_none.mp hf m hm (by simpa using hpos)

/-- **The unit named is on a cycle** exactly when the first listed unit that is
on or downstream of one is on one itself. -/
theorem topoOrder_names_cycle (g : DepGraph) (units : List UnitName) (hn : units.Nodup) :
    (∀ n, g.topoOrder units = .error n → g.OnCycle units n) ↔
      ∀ l n r, units = l ++ n :: r → g.Downstream units n →
        (∀ m ∈ l, ¬ g.Downstream units m) → g.OnCycle units n := by
  constructor
  · intro h l n r hu hd hl
    exact h n ((topoOrder_error_iff hn).mpr ⟨l, r, hu, hd, hl⟩)
  · intro h n herr
    obtain ⟨l, r, hu, hd, hl⟩ := (topoOrder_error_iff hn).mp herr
    exact h l n r hu hd hl

/-- `a` is ordered after `b`, and `b` and `c` after each other. -/
def tailUnits : IndexMap UnitName UnitSpec := .ofList
  [(svc "a", { UnitSpec.empty (svc "a") with deps := { after := [svc "b"] } }),
   (svc "b", { UnitSpec.empty (svc "b") with deps := { after := [svc "c"] } }),
   (svc "c", { UnitSpec.empty (svc "c") with deps := { after := [svc "b"] } })]

/-- Without `a` the sort names `b`. -/
theorem topoOrder_names_cycle_tail :
    (∀ n, (build tailUnits).topoOrder [svc "b", svc "c"] = .error n →
      (build tailUnits).OnCycle [svc "b", svc "c"] n) ↔
    ∀ l n r, [svc "b", svc "c"] = l ++ n :: r →
      (build tailUnits).Downstream [svc "b", svc "c"] n →
      (∀ m ∈ l, ¬ (build tailUnits).Downstream [svc "b", svc "c"] m) →
      (build tailUnits).OnCycle [svc "b", svc "c"] n :=
  topoOrder_names_cycle (build tailUnits) [svc "b", svc "c"] (by decide)

/-- With it, `a` is named, and nothing is ordered after `a`. -/
theorem not_names_cycle : ¬ ∀ (g : DepGraph) (units : List UnitName), units.Nodup →
    ∀ n, g.topoOrder units = .error n → g.OnCycle units n := by
  intro h
  have hrun : (build tailUnits).topoOrder [svc "a", svc "b", svc "c"] = .error (svc "a") := rfl
  have hcyc := h (build tailUnits) [svc "a", svc "b", svc "c"] (by decide) _ hrun
  obtain ⟨m, ⟨hm, -, hedge⟩, -⟩ := Relation.TransGen.head'_iff.mp hcyc
  simp only [List.mem_cons, List.not_mem_nil, or_false] at hm
  rcases hm with rfl | rfl | rfl
  all_goals exact absurd hedge (by decide)

end DepGraph

end Systeml.Deps
