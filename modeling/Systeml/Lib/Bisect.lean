import Mathlib.Order.Lattice
import Mathlib.Data.List.Basic

/-!
# Binary search

The search of a sorted list by halving a window: `base` is its first index and `size`
its length. A value of the list stays in the window (`bisectLoop_of_getElem`), so on a
strictly increasing list the search finds exactly its members (`bisect_iff`).
-/

namespace Systeml.Lib

variable {α : Type} [LinearOrder α]

/-- Halve the window until one index is left. -/
def bisectLoop (xs : List α) (v : α) (base size : Nat) : Nat :=
  if 1 < size then
    let half := size / 2
    if xs[base + half]?.any fun x => decide (v < x) then bisectLoop xs v base (size - half)
    else bisectLoop xs v (base + half) (size - half)
  else base
termination_by size
decreasing_by all_goals omega

/-- The search finds `v`. -/
def bisect (xs : List α) (v : α) : Bool := xs[bisectLoop xs v 0 xs.length]? = some v

/-- The window ends at the index of the value. -/
theorem bisectLoop_of_getElem {xs : List α} (hs : xs.Pairwise (· < ·)) {v : α} {k : Nat}
    (hk : xs[k]? = some v) (base size : Nat) (hlo : base ≤ k) (hhi : k < base + size)
    (hend : base + size ≤ xs.length) : bisectLoop xs v base size = k := by
  induction size using Nat.strongRecOn generalizing base with
  | _ size ih =>
    obtain ⟨hlen, hv⟩ := List.getElem?_eq_some_iff.mp hk
    have hmono : ∀ i j (hi : i < xs.length) (hj : j < xs.length), i < j → xs[i] < xs[j] :=
      List.pairwise_iff_getElem.mp hs
    rw [bisectLoop]
    by_cases hsize : 1 < size
    · have hmid : base + size / 2 < xs.length := by omega
      rw [if_pos hsize]
      simp only [List.getElem?_eq_getElem hmid, Option.any_some, decide_eq_true_eq]
      by_cases hlt : v < xs[base + size / 2]
      · have hbelow : k < base + size / 2 := by
          by_contra hge
          rcases Nat.eq_or_lt_of_le (Nat.le_of_not_lt hge) with rfl | hgt
          · exact lt_irrefl v (hv ▸ hlt)
          · have habove := hmono _ _ hmid hlen hgt
            rw [hv] at habove
            exact lt_irrefl v (lt_trans hlt habove)
        rw [if_pos hlt]
        exact ih _ (by omega) base hlo (by omega) (by omega)
      · have habove : base + size / 2 ≤ k := by
          by_contra hlt'
          exact hlt (hv ▸ hmono _ _ hlen hmid (Nat.lt_of_not_le hlt'))
        rw [if_neg hlt]
        exact ih _ (by omega) _ habove (by omega) (by omega)
    · rw [if_neg hsize]
      omega

/-- **The search decides membership** in a strictly increasing list. -/
theorem bisect_iff {xs : List α} (hs : xs.Pairwise (· < ·)) (v : α) :
    bisect xs v = true ↔ v ∈ xs := by
  unfold bisect
  rw [decide_eq_true_eq]
  constructor
  · intro h
    exact List.mem_of_getElem? h
  · intro h
    obtain ⟨k, hk⟩ := List.mem_iff_getElem?.mp h
    have hlen := (List.getElem?_eq_some_iff.mp hk).1
    rw [bisectLoop_of_getElem hs hk 0 xs.length (Nat.zero_le k) (by omega) (by omega)]
    exact hk

end Systeml.Lib
