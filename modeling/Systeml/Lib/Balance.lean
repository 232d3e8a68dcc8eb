import Mathlib.Algebra.BigOperators.Group.List.Basic
import Mathlib.Algebra.Ring.Int.Defs

/-!
# Openings and closings

A list whose elements open something, close something or do neither: `δ` is `1`, `-1`
or `0` for them. Its `net` is what is still open at the end. If it is negative at no
point, each closing has an opening of its own before it; if it is zero at the end as
well, each opening has a closing of its own behind it.
-/

namespace Systeml.Lib

variable {α : Type} {δ : α → Int}

/-- What is open after the list. -/
def net (δ : α → Int) (l : List α) : Int := (l.map δ).sum

@[simp] theorem net_nil : net δ [] = 0 := rfl

@[simp] theorem net_append (l l' : List α) : net δ (l ++ l') = net δ l + net δ l' := by
  unfold net
  rw [List.map_append, List.sum_append]

@[simp] theorem net_singleton (a : α) : net δ [a] = δ a := by
  simp [net]

/-- Nothing is closed before it was opened. -/
def NeverNegative (δ : α → Int) (l : List α) : Prop := ∀ p, p <+: l → 0 ≤ net δ p

theorem neverNegative_nil : NeverNegative δ [] := by
  intro p hp
  rw [List.prefix_nil.mp hp]
  exact Int.le_refl 0

theorem NeverNegative.snoc {l : List α} {a : α} (h : NeverNegative δ l) (ha : 0 ≤ net δ (l ++ [a])) :
    NeverNegative δ (l ++ [a]) := by
  intro p hp
  cases List.prefix_concat_iff.mp hp with
  | inl he => exact he ▸ ha
  | inr hp => exact h p hp

/-! ## Counting the elements with a property -/

theorem countP_append_singleton (p : α → Bool) (l : List α) (a : α) :
    ((l ++ [a]).countP p : Int) = l.countP p + if p a then 1 else 0 := by
  rw [List.countP_append, List.countP_singleton]
  split <;> simp

/-- One element is replaced. -/
theorem countP_set_of_getElem? {p : α → Bool} {l : List α} {i : Nat} {a : α} (h : l[i]? = some a)
    (b : α) : ((l.set i b).countP p : Int) + (if p a then 1 else 0) =
      l.countP p + if p b then 1 else 0 := by
  obtain ⟨hi, rfl⟩ := List.getElem?_eq_some_iff.mp h
  have hpos : p l[i] = true → 0 < l.countP p :=
    fun hp => List.countP_pos_iff.mpr ⟨l[i], List.getElem_mem hi, hp⟩
  rw [List.countP_set hi]
  by_cases hp : p l[i] = true
  · have := hpos hp
    rw [if_pos hp, if_pos hp]
    split <;> omega
  · rw [if_neg hp, if_neg hp]
    split <;> omega

end Systeml.Lib
