import Systeml.Runtime.Triggers
import Systeml.Unit.Duration

/-!
# The arithmetic of a timer

`nextOverall` casts the seconds of each monotonic trigger to `i64` and adds them to an
instant with the addition that panics outside of the years -9999 to 9999. `CrashFree`
says that no addition panics, that no cast loses anything and that a trigger whose
instant does not exist is left out. It holds exactly when every such instant does exist
(`crashFree_iff`): nothing between the text of the unit file and the addition bounds the
seconds. The calendars are safe for all instants up to the year 9000.
-/

namespace Systeml.Runtime

open Systeml.Lib Systeml.Unit

/-- The year is between 1970 and 9000. -/
def Recent (t : DateTime) : Prop := 1970 ≤ (secDate t.sec).year ∧ (secDate t.sec).year ≤ 9000

/-- The triggers of a timer with the instants they count from, in the order in which
they are added. -/
def triggersOf (managerStart : DateTime)
    (activatedAt lastUnitActive lastUnitInactive : Option DateTime) (timer : TimerUnit) :
    List (Option SdDuration × Option DateTime) :=
  [(timer.onActiveSec, activatedAt), (timer.onStartupSec, some managerStart),
    (timer.onBootSec, some managerStart), (timer.onUnitActiveSec, lastUnitActive),
    (timer.onUnitInactiveSec, lastUnitInactive)]

section

variable (now managerStart : DateTime)
  (activatedAt lastUnitActive lastUnitInactive : Option DateTime) (timer : TimerUnit)
  (lastFire : Option DateTime)

/-- The computation adds `d` to `base`. -/
def Adds (d : SdDuration) (base : DateTime) : Prop :=
  (some d, some base) ∈ triggersOf managerStart activatedAt lastUnitActive lastUnitInactive timer

/-- The computation is safe on these instants. -/
structure CrashFree : Prop where
  /-- No addition panics. -/
  returns : ∃ r, nextOverall now managerStart activatedAt lastUnitActive lastUnitInactive timer
    lastFire = .ok r
  /-- The seconds of every trigger fit an `i64`. -/
  lossless : ∀ d base, Adds managerStart activatedAt lastUnitActive lastUnitInactive timer d base →
    d.asStd / nanosPerSec < 9223372036854775808
  /-- A trigger that is infinite, or out of range, contributes nothing. -/
  silent : ∀ d base, Adds managerStart activatedAt lastUnitActive lastUnitInactive timer d base →
    d = .infinity ∨ ¬ DateTime.InRange ⟨base.nanos + d.asStd⟩ →
    ∀ best, trigger now (some d) (some base) best = .ok best

/-- All instants are between 1970 and 9000. -/
structure AllRecent : Prop where
  now : Recent now
  managerStart : Recent managerStart
  bases : ∀ o ∈ [activatedAt, lastUnitActive, lastUnitInactive, lastFire], ∀ t ∈ o, Recent t

end

variable {now managerStart : DateTime}
  {activatedAt lastUnitActive lastUnitInactive : Option DateTime} {timer : TimerUnit}
  {lastFire : Option DateTime}

/-! ## The loop over the triggers -/

theorem nextOverall_eq_foldlM :
    nextOverall now managerStart activatedAt lastUnitActive lastUnitInactive timer lastFire =
      (if timer.persistent then catchUp now (lastFire.getD managerStart) timer.onCalendar none
        else .ok none) >>= fun b₀ => calendarLoop now lastFire timer.onCalendar b₀ >>= fun b₁ =>
      (triggersOf managerStart activatedAt lastUnitActive lastUnitInactive timer).foldlM
        (fun best x => trigger now x.1 x.2 best) b₁ := by
  simp only [nextOverall, triggersOf, List.foldlM_cons, List.foldlM_nil, bind_pure]

/-- What is added stays in range, if the computation goes through. -/
theorem inRange_of_ok {r : Option DateTime} {d : SdDuration} {base : DateTime}
    (h : nextOverall now managerStart activatedAt lastUnitActive lastUnitInactive timer lastFire =
      .ok r)
    (hadd : Adds managerStart activatedAt lastUnitActive lastUnitInactive timer d base) :
    DateTime.InRange ⟨base.nanos + duration d.asStd⟩ := by
  rw [nextOverall_eq_foldlM] at h
  obtain ⟨b₀, -, h⟩ := bind_ok.mp h
  obtain ⟨b₁, -, h⟩ := bind_ok.mp h
  obtain ⟨b, r', htrigger⟩ := ok_of_foldlM h hadd
  exact trigger_inRange htrigger

/-! ## Ranges -/

theorem Recent.sec_bounds {t : DateTime} (h : Recent t) : 0 ≤ t.sec ∧ t.sec < 2568020 * 86400 := by
  have hlo := not_congr (lt_yearStart_iff (y := 1970) (p := t.sec))
  have hhi := lt_yearStart_iff (y := 9001) (p := t.sec)
  rw [show dayNum ⟨1970, 1, 1⟩ = 0 by decide] at hlo
  rw [show dayNum ⟨9001, 1, 1⟩ = 2568020 by decide] at hhi
  have h1 := hlo.mpr (by have := h.1; omega)
  have h2 := hhi.mpr (by have := h.2; omega)
  omega

/-- Within these years the calendars do not leave the range. -/
theorem inReach_of_recent (hnow : Recent now) (hlast : ∀ t ∈ lastFire, Recent t) :
    InReach now lastFire := by
  have hmin : DateTime.minSec = -4371587 * 86400 := by decide
  have hend : DateTime.endSec = 2932897 * 86400 := by decide
  have hn := hnow.sec_bounds
  have hb : Recent (baselineOf now lastFire) := by
    unfold baselineOf
    split
    next l =>
      split
      · exact hlast l rfl
      · exact hnow
    next => exact hnow
  have hb := hb.sec_bounds
  unfold InReach DateTime.InRange
  rw [(DateTime.sec_add now _).1, (DateTime.sec_add (baselineOf now lastFire) _).1, hmin, hend]
  omega

/-- The schedules go through. -/
theorem schedules_ok (timer : TimerUnit) (hnow : Recent now) (hlast : ∀ t ∈ lastFire, Recent t) :
    ∃ b₀ b₁, (if timer.persistent then
        catchUp now (lastFire.getD managerStart) timer.onCalendar none else .ok none) = .ok b₀ ∧
      calendarLoop now lastFire timer.onCalendar b₀ = .ok b₁ := by
  obtain ⟨hwindow, hsearch⟩ := (inReach_of_recent hnow hlast).safe
  have hcatch : ∃ b₀, (if timer.persistent then
      catchUp now (lastFire.getD managerStart) timer.onCalendar none else .ok none) = .ok b₀ := by
    split
    next =>
      obtain ⟨-, hc⟩ | ⟨-, hc⟩ := catchUp_spec (lastFire.getD managerStart) hwindow timer.onCalendar
      · exact ⟨_, hc⟩
      · exact ⟨_, hc⟩
    next => exact ⟨none, rfl⟩
  obtain ⟨b₀, hb₀⟩ := hcatch
  obtain ⟨b₁, hb₁⟩ := calendarLoop_ok hsearch timer.onCalendar b₀
  exact ⟨b₀, b₁, hb₀, hb₁⟩

/-- A cast without loss. -/
theorem duration_eq {d : Nat} (h : d / nanosPerSec < 9223372036854775808) :
    duration d = (d : Int) := by
  have hcast : Int.bmod (d / nanosPerSec : Nat) (2 ^ 64) = (d / nanosPerSec : Nat) := by
    have h0 := Int.natCast_nonneg (d / nanosPerSec)
    rw [Int.bmod_eq_of_le]
    all_goals omega
  have hsplit := Nat.div_add_mod' d nanosPerSec
  unfold duration
  rw [hcast]
  exact_mod_cast hsplit

theorem Adds.recent (h : AllRecent now managerStart activatedAt lastUnitActive lastUnitInactive
    lastFire) {d : SdDuration} {base : DateTime}
    (hadd : Adds managerStart activatedAt lastUnitActive lastUnitInactive timer d base) :
    Recent base := by
  have hbases := h.bases
  simp only [Adds, triggersOf, List.mem_cons, List.not_mem_nil, or_false, Prod.mk.injEq] at hadd
  simp only [List.mem_cons, List.not_mem_nil, or_false, forall_eq_or_imp, forall_eq] at hbases
  obtain ⟨hact, huact, huinact, -⟩ := hbases
  rcases hadd with ⟨-, hb⟩ | ⟨-, hb⟩ | ⟨-, hb⟩ | ⟨-, hb⟩ | ⟨-, hb⟩
  · exact hact base hb.symm
  · exact Option.some.inj hb ▸ h.managerStart
  · exact Option.some.inj hb ▸ h.managerStart
  · exact huact base hb.symm
  · exact huinact base hb.symm

/-- An instant in range is less than `2^63` seconds after a recent one. -/
theorem secs_lt_of_inRange {d : SdDuration} {base : DateTime} (hb : Recent base)
    (h : DateTime.InRange ⟨base.nanos + d.asStd⟩) : d.asStd / nanosPerSec < 9223372036854775808 := by
  have hend : DateTime.endSec = 2932897 * 86400 := by decide
  have hlo := hb.sec_bounds.1
  have hhi := h.2
  rw [hend] at hhi
  unfold DateTime.sec at hlo hhi
  rw [Nat.div_lt_iff_lt_mul (by decide)]
  show d.asStd < 9223372036854775808 * 1000000000
  simp only at hhi
  omega

/-- **When the arithmetic of a timer is safe**: exactly when every trigger that has an
instant to count from leads to an instant before the year 10000, infinity read as
`Duration::MAX`. -/
theorem crashFree_iff (now managerStart : DateTime)
    (activatedAt lastUnitActive lastUnitInactive : Option DateTime) (timer : TimerUnit)
    (lastFire : Option DateTime)
    (h : AllRecent now managerStart activatedAt lastUnitActive lastUnitInactive lastFire) :
    CrashFree now managerStart activatedAt lastUnitActive lastUnitInactive timer lastFire ↔
      ∀ d base, Adds managerStart activatedAt lastUnitActive lastUnitInactive timer d base →
        DateTime.InRange ⟨base.nanos + d.asStd⟩ := by
  constructor
  · intro hfree d base hadd
    obtain ⟨r, hr⟩ := hfree.returns
    have hrange := inRange_of_ok hr hadd
    rw [duration_eq (hfree.lossless d base hadd)] at hrange
    exact hrange
  · intro hrange
    have hsecs : ∀ d base,
        Adds managerStart activatedAt lastUnitActive lastUnitInactive timer d base →
        d.asStd / nanosPerSec < 9223372036854775808 :=
      fun d base hadd => secs_lt_of_inRange (hadd.recent h) (hrange d base hadd)
    refine ⟨?_, hsecs, ?_⟩
    · obtain ⟨b₀, b₁, hb₀, hb₁⟩ := schedules_ok timer h.now (h.bases lastFire (by simp))
      rw [nextOverall_eq_foldlM, hb₀]
      show ∃ r, (calendarLoop now lastFire timer.onCalendar b₀ >>= _) = .ok r
      rw [hb₁]
      refine foldlM_ok (fun x hx best => ?_) b₁
      obtain ⟨d?, base?⟩ := x
      cases base? with
      | none => exact ⟨best, trigger_none d? best⟩
      | some base =>
        refine trigger_ok now best fun d hd => ?_
        subst hd
        rw [duration_eq (hsecs d base hx)]
        exact hrange d base hx
    · intro d base hadd hbad
      have hin := hrange d base hadd
      rcases hbad with rfl | hout
      · exact absurd (hsecs .infinity base hadd) (by decide)
      · exact absurd hin hout

/-- The start of 1970. -/
def epoch : DateTime := ⟨0⟩

theorem recent_epoch : Recent epoch := by
  unfold Recent
  decide

/-- The timer of `OnBootSec=300000000000`. -/
def farTimer : TimerUnit := { onBootSec := some (.finite 300000000000000000000) }

/-- `OnBootSec=` one hour. -/
theorem crashFree_iff_hour :
    CrashFree epoch epoch none none none { onBootSec := some (.finite 3600000000000) } none ↔
      ∀ d base, Adds epoch none none none { onBootSec := some (.finite 3600000000000) } d base →
        DateTime.InRange ⟨base.nanos + d.asStd⟩ :=
  crashFree_iff epoch epoch none none none _ none
    ⟨recent_epoch, recent_epoch, by simp⟩

/-- The text of `farTimer` is accepted, and its addition panics. -/
theorem not_crashFree : ¬ ∀ (now managerStart : DateTime)
    (activatedAt lastUnitActive lastUnitInactive : Option DateTime) (timer : TimerUnit)
    (lastFire : Option DateTime),
    AllRecent now managerStart activatedAt lastUnitActive lastUnitInactive lastFire →
    (∀ x ∈ triggersOf managerStart activatedAt lastUnitActive lastUnitInactive timer,
      ∀ d ∈ x.1, ∃ v, parseDuration v 1 = .ok d) →
    CrashFree now managerStart activatedAt lastUnitActive lastUnitInactive timer lastFire := by
  intro h
  have hparse : parseDuration "300000000000".toList 1 = .ok (.finite 300000000000000000000) := by
    decide
  have hparsed : ∀ x ∈ triggersOf epoch none none none farTimer, ∀ d ∈ x.1,
      ∃ v, parseDuration v 1 = .ok d := by
    intro x hx d hd
    simp only [triggersOf, farTimer, List.mem_cons, List.not_mem_nil, or_false] at hx
    rcases hx with rfl | rfl | rfl | rfl | rfl
    case inr.inr.inl =>
      obtain rfl := Option.some.inj hd
      exact ⟨_, hparse⟩
    all_goals exact absurd hd (by simp)
  have hfree := h epoch epoch none none none farTimer none ⟨recent_epoch, recent_epoch, by simp⟩
    hparsed
  have hadd : Adds epoch none none none farTimer (.finite 300000000000000000000) epoch := by
    simp [Adds, triggersOf, farTimer]
  obtain ⟨r, hr⟩ := hfree.returns
  exact absurd (inRange_of_ok hr hadd) (by decide)

end Systeml.Runtime
