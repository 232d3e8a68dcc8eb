import Mathlib.Order.MinMax
import Systeml.Unit.Service

/-!
# The delay before a restart

`next_restart_delay` doubles `RestartSec=` with every restart, up to a number of steps, and
bounds the result by `RestartMaxDelaySec=`. The first delay is taken before the bound is
looked at, so the delays grow below their bound exactly if `RestartSec=` itself is not
above it (`growsCapped_iff`).
-/

namespace Systeml.Runtime

open Systeml.Unit

/-! ## Arithmetic -/

/-- `1u64 << n`; it panics when the amount is not below 64. -/
def shiftOne (n : Nat) : Option Nat := if n < 64 then some (2 ^ n) else none

/-- `u32::try_from`. -/
def tryU32 (n : Nat) : Option Nat := if n < 2 ^ 32 then some n else none

/-- `Duration::saturating_mul`, in nanoseconds. -/
def saturatingMul (d k : Nat) : Nat := min (d * k) SdDuration.maxNanos

theorem saturatingMul_mono {k k' : Nat} (d : Nat) (h : k ≤ k') :
    saturatingMul d k ≤ saturatingMul d k' :=
  min_le_min_right _ (Nat.mul_le_mul_left d h)

/-- A duration is not above its multiples. -/
theorem le_saturatingMul {d k : Nat} (hd : d ≤ SdDuration.maxNanos) (hk : 0 < k) :
    d ≤ saturatingMul d k :=
  le_min (Nat.le_mul_of_pos_right d hk) hd

/-! ## The delay -/

/-- The delay that is doubled. -/
def restartBase (svc : ServiceUnit) : Nat :=
  match svc.restartSec with
  | .finite d => d
  | .infinity => 60 * 60 * 24 * nanosPerSec

/-- How often it is doubled after `n` restarts. -/
def restartDoublings (svc : ServiceUnit) (n : UInt32) : Nat :=
  min (min n.toNat (svc.restartSteps.toNat - 1)) 20

/-- `next_restart_delay` after `n` restarts; `none` is a panic. -/
def nextRestartDelay (svc : ServiceUnit) (n : UInt32) : Option Nat :=
  if svc.restartSteps = 0 ∨ n = 0 then some (restartBase svc)
  else
    (shiftOne (restartDoublings svc n)).map fun mult =>
      let candidate := saturatingMul (restartBase svc) ((tryU32 mult).getD 1)
      let cap := match svc.restartMaxDelaySec with
        | some d => d.asStd
        | none => candidate
      min candidate cap

/-- What the delays of a service are meant to be. -/
structure GrowsCapped (svc : ServiceUnit) : Prop where
  /-- No shift panics. -/
  returns : ∀ n, ∃ d, nextRestartDelay svc n = some d
  /-- No factor is too large. -/
  factor : ∀ n, tryU32 (2 ^ restartDoublings svc n) = some (2 ^ restartDoublings svc n)
  monotone : ∀ {m n d e}, m ≤ n → nextRestartDelay svc m = some d →
    nextRestartDelay svc n = some e → d ≤ e
  capped : ∀ {n d cap}, svc.restartMaxDelaySec = some cap → nextRestartDelay svc n = some d →
    d ≤ cap.asStd

section Delay

variable {svc : ServiceUnit} {m n : UInt32}

theorem restartDoublings_le : restartDoublings svc n ≤ 20 := Nat.min_le_right _ _

theorem restartDoublings_mono (h : m ≤ n) : restartDoublings svc m ≤ restartDoublings svc n :=
  min_le_min_right _ (min_le_min_right _ (UInt32.le_iff_toNat_le.mp h))

theorem tryU32_doublings :
    tryU32 (2 ^ restartDoublings svc n) = some (2 ^ restartDoublings svc n) := by
  have hle : restartDoublings svc n ≤ 20 := restartDoublings_le
  exact if_pos (Nat.pow_lt_pow_right (by decide) (by omega))

/-- The doubled delay, before the bound. -/
def candidateDelay (svc : ServiceUnit) (n : UInt32) : Nat :=
  saturatingMul (restartBase svc) (2 ^ restartDoublings svc n)

theorem candidateDelay_mono (h : m ≤ n) : candidateDelay svc m ≤ candidateDelay svc n :=
  saturatingMul_mono _ (Nat.pow_le_pow_right (by decide) (restartDoublings_mono h))

/-- The first delay is not bounded, -/
theorem nextRestartDelay_first (h : svc.restartSteps = 0 ∨ n = 0) :
    nextRestartDelay svc n = some (restartBase svc) := if_pos h

/-- the others are. -/
theorem nextRestartDelay_later (h : ¬ (svc.restartSteps = 0 ∨ n = 0)) :
    nextRestartDelay svc n = some (min (candidateDelay svc n)
      ((svc.restartMaxDelaySec.map SdDuration.asStd).getD (candidateDelay svc n))) := by
  have hle : restartDoublings svc n ≤ 20 := restartDoublings_le
  have hshift : shiftOne (restartDoublings svc n) = some (2 ^ restartDoublings svc n) :=
    if_pos (by omega)
  unfold nextRestartDelay
  rw [if_neg h, hshift, Option.map_some, tryU32_doublings]
  cases svc.restartMaxDelaySec <;> rfl

theorem nextRestartDelay_returns (svc : ServiceUnit) (n : UInt32) :
    ∃ d, nextRestartDelay svc n = some d := by
  by_cases h : svc.restartSteps = 0 ∨ n = 0
  · exact ⟨_, nextRestartDelay_first h⟩
  · exact ⟨_, nextRestartDelay_later h⟩

theorem restartBase_le (hrange : svc.restartSec.asStd ≤ SdDuration.maxNanos) :
    restartBase svc ≤ SdDuration.maxNanos := by
  unfold restartBase
  split
  next d hd =>
    rw [hd] at hrange
    exact hrange
  next => decide

/-- With a bound that is not below it, the first delay is the least. -/
theorem restartBase_le_delay (hrange : svc.restartSec.asStd ≤ SdDuration.maxNanos)
    (hcap : ∀ cap, svc.restartMaxDelaySec = some cap → restartBase svc ≤ cap.asStd) {d : Nat}
    (h : nextRestartDelay svc n = some d) : restartBase svc ≤ d := by
  by_cases hfirst : svc.restartSteps = 0 ∨ n = 0
  · rw [nextRestartDelay_first hfirst] at h
    exact le_of_eq (Option.some.inj h)
  · rw [nextRestartDelay_later hfirst] at h
    obtain rfl := Option.some.inj h
    have hcandidate : restartBase svc ≤ candidateDelay svc n :=
      le_saturatingMul (restartBase_le hrange) (Nat.two_pow_pos _)
    refine le_min hcandidate ?_
    cases hmax : svc.restartMaxDelaySec with
    | none => exact hcandidate
    | some cap => exact hcap cap hmax

/-- Later delays are bounded and grow. -/
theorem nextRestartDelay_mono (hm : ¬ (svc.restartSteps = 0 ∨ m = 0)) (h : m ≤ n) {d e : Nat}
    (hd : nextRestartDelay svc m = some d) (he : nextRestartDelay svc n = some e) : d ≤ e := by
  have hn : ¬ (svc.restartSteps = 0 ∨ n = 0) := by
    rintro (hs | rfl)
    · exact hm (Or.inl hs)
    · exact hm (Or.inr (UInt32.le_antisymm h (UInt32.zero_le)))
  rw [nextRestartDelay_later hm] at hd
  rw [nextRestartDelay_later hn] at he
  obtain rfl := Option.some.inj hd
  obtain rfl := Option.some.inj he
  refine min_le_min (candidateDelay_mono h) ?_
  cases svc.restartMaxDelaySec with
  | none => exact candidateDelay_mono h
  | some cap => exact le_refl _

end Delay

/-- **When the delays grow up to their bound**: exactly if `RestartSec=` is not above it. -/
theorem growsCapped_iff (svc : ServiceUnit)
    (hrange : svc.restartSec.asStd ≤ SdDuration.maxNanos) :
    GrowsCapped svc ↔
      ∀ cap, svc.restartMaxDelaySec = some cap → restartBase svc ≤ cap.asStd := by
  constructor
  · intro h cap hcap
    exact h.capped hcap (nextRestartDelay_first (Or.inr rfl))
  · intro hcap
    refine ⟨nextRestartDelay_returns svc, fun n => tryU32_doublings, ?_, ?_⟩
    · intro m n d e hmn hd he
      by_cases hm : svc.restartSteps = 0 ∨ m = 0
      · rw [nextRestartDelay_first hm] at hd
        obtain rfl := Option.some.inj hd
        exact restartBase_le_delay hrange hcap he
      · exact nextRestartDelay_mono hm hmn hd he
    · intro n d cap hmax hd
      by_cases hn : svc.restartSteps = 0 ∨ n = 0
      · rw [nextRestartDelay_first hn] at hd
        obtain rfl := Option.some.inj hd
        exact hcap cap hmax
      · rw [nextRestartDelay_later hn, hmax] at hd
        obtain rfl := Option.some.inj hd
        exact min_le_right _ _

/-- A second, doubled four times, up to ten seconds. -/
theorem growsCapped_iff_example :
    GrowsCapped { restartSec := .finite nanosPerSec, restartSteps := 5
                  restartMaxDelaySec := some (.finite (10 * nanosPerSec)) } ↔
      ∀ cap, some (SdDuration.finite (10 * nanosPerSec)) = some cap → nanosPerSec ≤ cap.asStd :=
  growsCapped_iff _ (by decide)

/-- Ten seconds, bounded by five: the first delay is longer than the second. -/
theorem first_delay_unbounded : ¬ ∀ svc : ServiceUnit, GrowsCapped svc := by
  intro h
  have hgrows := h { restartSec := .finite (10 * nanosPerSec), restartSteps := 5
                     restartMaxDelaySec := some (.finite (5 * nanosPerSec)) }
  have hle : 10 * nanosPerSec ≤ 5 * nanosPerSec :=
    hgrows.capped rfl (nextRestartDelay_first (n := 0) (Or.inr rfl))
  exact absurd hle (by decide)

end Systeml.Runtime
