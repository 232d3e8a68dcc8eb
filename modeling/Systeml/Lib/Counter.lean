import Mathlib.Data.List.Range
import Mathlib.Data.List.Nodup
import Mathlib.Data.Int.ModEq
import Mathlib.Data.Nat.ModEq

/-!
# A counter that wraps

The values of a counter modulo `m`, from where it stands. They differ until it has gone
round once, and a counter that does not stand at zero comes to it exactly when it wraps.
-/

namespace Systeml.Lib

variable {m a n k : Nat}

/-- The next `n` values of a counter modulo `m` that stands at `a`. -/
def ticks (m a n : Nat) : List Nat := (List.range' a n).map (· % m)

@[simp] theorem ticks_zero (m a : Nat) : ticks m a 0 = [] := rfl

@[simp] theorem length_ticks (m a n : Nat) : (ticks m a n).length = n := by
  simp [ticks]

theorem ticks_succ (m a n : Nat) : ticks m a (n + 1) = a % m :: ticks m (a + 1) n := by
  simp [ticks, List.range'_succ]

theorem ticks_append (m a n k : Nat) : ticks m a (n + k) = ticks m a n ++ ticks m (a + n) k := by
  unfold ticks
  rw [← List.map_append, List.range'_append_1]

/-- Only where the counter stands modulo `m` matters. -/
theorem ticks_congr {b : Nat} (h : a % m = b % m) : ticks m a n = ticks m b n := by
  induction n generalizing a b with
  | zero => rfl
  | succ n ih =>
    have hnext : (a + 1) % m = (b + 1) % m := by rw [Nat.add_mod, h, ← Nat.add_mod]
    rw [ticks_succ, ticks_succ, h, ih hnext]

theorem mem_ticks {x : Nat} : x ∈ ticks m a n ↔ ∃ i, a ≤ i ∧ i < a + n ∧ i % m = x := by
  simp [ticks, List.mem_range'_1, and_assoc]

/-- The values differ until the counter has gone round. -/
theorem nodup_ticks (h : n ≤ m) : (ticks m a n).Nodup := by
  refine List.Nodup.map_on ?_ List.nodup_range'
  have hle : ∀ i j, i ∈ List.range' a n → j ∈ List.range' a n → i ≤ j → i % m = j % m → i = j := by
    intro i j hi hj hij he
    have hdvd : m ∣ j - i := (Nat.modEq_iff_dvd' hij).mp he
    have hlt : j - i < m := by
      rw [List.mem_range'_1] at hi hj
      omega
    have hzero := Nat.eq_zero_of_dvd_of_lt hdvd hlt
    omega
  intro i hi j hj he
  obtain hij | hji := Nat.le_total i j
  · exact hle i j hi hj hij he
  · exact (hle j i hj hi hji he.symm).symm

/-- From a value that is not zero, the counter comes to zero exactly when it wraps. -/
theorem zero_mem_ticks (hpos : 0 < a) (hle : a ≤ m) : 0 ∈ ticks m a n ↔ m < a + n := by
  rw [mem_ticks]
  constructor
  · rintro ⟨i, hai, hin, he⟩
    have hm : m ≤ i := Nat.le_of_dvd (by omega) (Nat.dvd_of_mod_eq_zero he)
    omega
  · intro h
    exact ⟨m, hle, h, Nat.mod_self m⟩

end Systeml.Lib
