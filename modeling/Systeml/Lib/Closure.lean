import Systeml.Lib.IndexMap
import Mathlib.Logic.Relation
import Mathlib.Algebra.Ring.Nat

/-!
# Closure of a node under successors, by a stack

The loop pops a node, skips it when it was seen, and otherwise marks it and
pushes its successors. `mem_closure` says that what it collects is what
`Relation.ReflTransGen` reaches. The fuel bound is the number of pushes there
can be: one for the start and one for each successor of each node. `ClosureEnds`
is the loop without it.
-/

namespace Systeml.Lib

variable {α : Type} [DecidableEq α]

/-- Pop until the stack is empty. The head of the list is the top. -/
def closureLoop (succ : α → List α) : Nat → List α → IndexSet α → IndexSet α
  | 0, _, seen => seen
  | _ + 1, [], seen => seen
  | fuel + 1, u :: stack, seen =>
    if u ∈ seen.elems then closureLoop succ fuel stack seen
    else closureLoop succ fuel ((succ u).reverse ++ stack) (seen.insert u)

/-- The pushes a node still causes: none once it was seen. -/
def weight (succ : α → List α) (seen : IndexSet α) (u : α) : Nat :=
  if u ∈ seen.elems then 0 else (succ u).length

/-- Pushes left: the stack, and what the nodes of `U` still cause. -/
def pushesLeft (succ : α → List α) (U : List α) (stack : List α) (seen : IndexSet α) : Nat :=
  stack.length + (U.map (weight succ seen)).sum

/-- The closure of `root`, for a list `U` that holds every node reached. -/
def closure (succ : α → List α) (U : List α) (root : α) : IndexSet α :=
  closureLoop succ (pushesLeft succ U [root] .empty) [root] .empty

/-- What the loop maintains: marked nodes are reached, and the successors of a
marked node are marked or on the stack. -/
structure ClosureInv (succ : α → List α) (root : α) (stack : List α) (seen : IndexSet α) :
    Prop where
  start : root ∈ seen.elems ∨ root ∈ stack
  reached : ∀ x, x ∈ seen.elems ∨ x ∈ stack →
    Relation.ReflTransGen (fun a b => b ∈ succ a) root x
  closed : ∀ x ∈ seen.elems, ∀ y ∈ succ x, y ∈ seen.elems ∨ y ∈ stack

theorem ClosureInv.skip {succ : α → List α} {root u : α} {stack : List α} {seen : IndexSet α}
    (hu : u ∈ seen.elems) (h : ClosureInv succ root (u :: stack) seen) :
    ClosureInv succ root stack seen where
  start := h.start.elim Or.inl fun hr =>
    (List.mem_cons.mp hr).elim (fun e => Or.inl (e ▸ hu)) Or.inr
  reached := fun x hx => h.reached x (hx.imp id (List.mem_cons_of_mem u))
  closed := fun x hx y hy => (h.closed x hx y hy).elim Or.inl fun hr =>
    (List.mem_cons.mp hr).elim (fun e => Or.inl (e ▸ hu)) Or.inr

theorem ClosureInv.mark {succ : α → List α} {root u : α} {stack : List α} {seen : IndexSet α}
    (h : ClosureInv succ root (u :: stack) seen) :
    ClosureInv succ root ((succ u).reverse ++ stack) (seen.insert u) := by
  have hu := h.reached u (Or.inr (List.mem_cons_self ..))
  have hmove : ∀ y, y ∈ seen.elems ∨ y ∈ u :: stack →
      y ∈ (seen.insert u).elems ∨ y ∈ (succ u).reverse ++ stack := by
    intro y hy
    rcases hy with hy | hy
    · exact Or.inl (IndexSet.mem_insert.mpr (Or.inr hy))
    · rcases List.mem_cons.mp hy with rfl | hy
      · exact Or.inl (IndexSet.mem_insert.mpr (Or.inl rfl))
      · exact Or.inr (List.mem_append_right _ hy)
  refine ⟨hmove root h.start, fun x hx => ?_, fun x hx y hy => ?_⟩
  · rcases hx with hx | hx
    · rcases IndexSet.mem_insert.mp hx with rfl | hx
      · exact hu
      · exact h.reached x (Or.inl hx)
    · rcases List.mem_append.mp hx with hx | hx
      · exact hu.tail (List.mem_reverse.mp hx)
      · exact h.reached x (Or.inr (List.mem_cons_of_mem u hx))
  · rcases IndexSet.mem_insert.mp hx with rfl | hx
    · exact Or.inr (List.mem_append_left _ (List.mem_reverse.mpr hy))
    · exact hmove y (h.closed x hx y hy)

/-- Marking `u` takes its successors out of the sum. -/
theorem sum_weight_mark (succ : α → List α) {seen : IndexSet α} {u : α} (hn : u ∉ seen.elems) :
    ∀ l : List α, (l.map (weight succ (seen.insert u))).sum +
      (if u ∈ l then (succ u).length else 0) ≤ (l.map (weight succ seen)).sum
  | [] => by simp
  | x :: l => by
    have ih := sum_weight_mark succ hn l
    rw [List.map_cons, List.map_cons, List.sum_cons, List.sum_cons]
    by_cases hxu : x = u
    · subst hxu
      have h1 : weight succ (seen.insert x) x = 0 := by simp [weight]
      have h2 : weight succ seen x = (succ x).length := by simp [weight, hn]
      rw [h1, h2, if_pos (List.mem_cons_self ..)]
      omega
    · have h1 : weight succ (seen.insert u) x = weight succ seen x := by simp [weight, hxu]
      have h2 : (u ∈ x :: l) ↔ u ∈ l := by simp [Ne.symm hxu]
      rw [h1]
      simp only [h2]
      omega

theorem pushesLeft_mark (succ : α → List α) {U : List α} (stack : List α) {seen : IndexSet α} {u : α}
    (hu : u ∈ U) (hn : u ∉ seen.elems) :
    pushesLeft succ U ((succ u).reverse ++ stack) (seen.insert u) <
      pushesLeft succ U (u :: stack) seen := by
  have h := sum_weight_mark succ hn U
  rw [if_pos hu] at h
  simp only [pushesLeft, List.length_append, List.length_reverse, List.length_cons]
  omega

/-- A finite run of the loop, to the empty stack, and the nodes it marked. -/
inductive ClosureEnds (succ : α → List α) :
    List α → IndexSet α → IndexSet α → List α → Prop where
  | done {seen} : ClosureEnds succ [] seen seen []
  | skip {u stack seen seen' log} : u ∈ seen.elems →
      ClosureEnds succ stack seen seen' log → ClosureEnds succ (u :: stack) seen seen' log
  | mark {u stack seen seen' log} : u ∉ seen.elems →
      ClosureEnds succ ((succ u).reverse ++ stack) (seen.insert u) seen' log →
      ClosureEnds succ (u :: stack) seen seen' (u :: log)

/-- With enough fuel the loop runs to the empty stack. -/
theorem closureEnds_loop {succ : α → List α} {U : List α} (hU : ∀ a ∈ U, ∀ b ∈ succ a, b ∈ U) :
    ∀ (fuel : Nat) (stack : List α) (seen : IndexSet α), (∀ x ∈ stack, x ∈ U) →
      pushesLeft succ U stack seen ≤ fuel →
      ∃ log, ClosureEnds succ stack seen (closureLoop succ fuel stack seen) log
  | 0, stack, seen, _, hf => by
    have hs : stack = [] := by
      have : stack.length ≤ 0 := by
        unfold pushesLeft at hf
        omega
      exact List.length_eq_zero_iff.mp (Nat.le_zero.mp this)
    rw [hs]
    exact ⟨[], .done⟩
  | _ + 1, [], _, _, _ => ⟨[], .done⟩
  | fuel + 1, u :: stack, seen, hs, hf => by
    unfold closureLoop
    by_cases hu : u ∈ seen.elems
    · rw [if_pos hu]
      obtain ⟨log, hrun⟩ := closureEnds_loop hU fuel stack seen
        (fun x hx => hs x (List.mem_cons_of_mem u hx)) (by
          simp only [pushesLeft, List.length_cons] at hf ⊢
          omega)
      exact ⟨log, .skip hu hrun⟩
    · rw [if_neg hu]
      have huU := hs u (List.mem_cons_self ..)
      have hlt := pushesLeft_mark succ stack huU hu
      have hs' : ∀ x ∈ (succ u).reverse ++ stack, x ∈ U := by
        intro x hx
        rcases List.mem_append.mp hx with hx | hx
        · exact hU u huU x (List.mem_reverse.mp hx)
        · exact hs x (List.mem_cons_of_mem u hx)
      obtain ⟨log, hrun⟩ := closureEnds_loop hU fuel _ (seen.insert u) hs' (by omega)
      exact ⟨u :: log, .mark hu hrun⟩

theorem ClosureEnds.inv {succ : α → List α} {root : α} {stack log : List α}
    {seen seen' : IndexSet α} (h : ClosureEnds succ stack seen seen' log)
    (hinv : ClosureInv succ root stack seen) : ClosureInv succ root [] seen' := by
  induction h with
  | done => exact hinv
  | skip hu _ ih => exact ih (hinv.skip hu)
  | mark _ _ ih => exact ih hinv.mark

/-- A run marks the nodes of its log, in order, each once. -/
theorem ClosureEnds.elems {succ : α → List α} {stack log : List α} {seen seen' : IndexSet α}
    (h : ClosureEnds succ stack seen seen' log) : seen'.elems = seen.elems ++ log := by
  induction h with
  | done => rw [List.append_nil]
  | skip _ _ ih => exact ih
  | mark hu _ ih => rw [ih, IndexSet.elems_insert_new hu, List.append_assoc, List.singleton_append]

theorem closureEnds_root {succ : α → List α} {U : List α} {root : α} (hroot : root ∈ U)
    (hU : ∀ a ∈ U, ∀ b ∈ succ a, b ∈ U) :
    ∃ log, ClosureEnds succ [root] .empty (closure succ U root) log :=
  closureEnds_loop hU _ [root] .empty (fun _ hy => (List.mem_singleton.mp hy) ▸ hroot)
    (Nat.le_refl _)

/-- **The loop collects exactly what is reachable from the root.** -/
theorem mem_closure {succ : α → List α} {U : List α} {root x : α} (hroot : root ∈ U)
    (hU : ∀ a ∈ U, ∀ b ∈ succ a, b ∈ U) :
    x ∈ (closure succ U root).elems ↔ Relation.ReflTransGen (fun a b => b ∈ succ a) root x := by
  have hinit : ClosureInv succ root [root] .empty :=
    ⟨Or.inr (List.mem_singleton.mpr rfl), fun y hy => by
      obtain rfl : y = root := by simpa using hy
      rfl, by simp⟩
  obtain ⟨log, hrun⟩ := closureEnds_root hroot hU
  have h := hrun.inv hinit
  refine ⟨fun hx => h.reached x (Or.inl hx), fun hx => ?_⟩
  induction hx with
  | refl => exact h.start.resolve_right (by simp)
  | tail _ hy ih => exact (h.closed _ ih _ hy).resolve_right (by simp)

end Systeml.Lib
