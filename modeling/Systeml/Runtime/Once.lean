import Systeml.Runtime.NoDrop

/-!
# How often the scheduler starts a unit for one instant

Between two attempts of a timer lies an instant of its schedules, or the second one is
for a monotonic trigger (`once_per_instant`). Without `Persistent=yes` that is always so:
a deadline is in a later second than the computation. A persistent timer catches up on
what its last fire does not cover, so its starts must succeed, for a failed one is not
recorded, and its last fire must not be shadowed by the fraction of a second of the clock.
-/

namespace Systeml.Runtime

open Systeml.Lib Systeml.Unit

/-! ## Where a deadline comes from -/

section Cause

variable {now managerStart : DateTime} {timer : TimerUnit} {last : Option DateTime}

/-- **A new instant for each deadline**: if everything up to `x` is recorded, a deadline is
for an instant after `x`, or for a trigger. -/
theorem hasInstant_of_nextOverall {d x : DateTime}
    (h : nextOverall now managerStart none none none timer last = .ok (some d))
    (hx : x.nanos ≤ now.nanos)
    (hrecorded : timer.persistent = true → x.nanos ≤ (last.getD managerStart).nanos)
    (hwhole : timer.persistent = true →
      (∃ s ∈ timer.onCalendar, Shadowed now (last.getD managerStart) s) →
      Missed now (last.getD managerStart) timer.onCalendar) :
    (OfTrigger timer managerStart d ∧ now.nanos < d.nanos) ∨ HasInstant timer x d := by
  cases nextOverall_cause h with
  | missed hp hs hpass =>
    have hmissed : Missed now (last.getD managerStart) timer.onCalendar := by
      cases hpass with
      | inl hcov =>
        obtain ⟨p, hm, -⟩ := hcov
        exact ⟨_, hs, p, hm⟩
      | inr hshadow => exact hwhole hp ⟨_, hs, hshadow⟩
    obtain ⟨s, hs, p, hm⟩ := hmissed
    have hafter := hm.after
    have hlast := hrecorded hp
    exact Or.inr ⟨s, hs, p, hm.isMatch, by omega, hm.le⟩
  | calendar hs harrives =>
    -- the deadline is in a later second than `x`
    have hlater := harrives.later
    have hbase := le_baselineOf now last
    have hb := (baselineOf now last).nanos_eq
    have := (baselineOf now last).subsec_bounds
    have hd := d.nanos_eq
    have := d.subsec_bounds
    exact Or.inr ⟨_, hs, d.sec, harrives.isMatch, by omega, by omega⟩
  | trigger ht hlater => exact Or.inl ⟨ht, hlater⟩

end Cause

namespace TimerScheduler

variable {s s' : TimerScheduler} {T : UnitName} {t : TimerUnit}

/-! ## Steps of the scheduler -/

/-- The phase after a step, if the task waits for a deadline or fires: it did so before,
or has just computed the deadline, or has just waited for it. -/
inductive PhaseStep (s : TimerScheduler) (a : Action) : Phase → Prop
  | same : PhaseStep s a s.phase
  | computed (ha : a = .compute) (h : s.phase = .ready) (next : Option (DateTime × UnitName))
      (hn : s.computeNext = .ok next) : PhaseStep s a (.waiting next)
  | woken {d : DateTime} {n : UnitName} (h : s.phase = .waiting (some (d, n)))
      (hd : d.nanos ≤ s.clock.nanos) (u : UnitName) : PhaseStep s a (.firing n d u)
  | ready : PhaseStep s a .ready
  | stopped : PhaseStep s a .stopped
  | flipping (l : List UnitName) : PhaseStep s a (.flipping l)

theorem phaseStep_handleEvent (s : TimerScheduler) (a : Action) (e : Received) :
    PhaseStep s a (s.handleEvent e).phase := by
  unfold handleEvent
  cases e with
  | stateChanged unit state =>
    simp only
    split
    · exact .ready
    · split
      · exact .flipping _
      · exact .ready
  | unitRemoved unit =>
    simp only
    split
    · exact .flipping _
    · exact .ready
  | lagged => exact .flipping _
  | other => exact .ready

theorem phase_step {a : Action} (hs : s.step a = some s') : PhaseStep s a s'.phase := by
  cases a with
  | pass d | manager m => exact Option.some.inj hs ▸ .same
  | activate n saved =>
    obtain rfl := Option.some.inj hs
    rw [startUnit_phase]
    exact .same
  | compute =>
    simp only [step] at hs
    split at hs
    next hready =>
      split at hs
      next next hn => exact Option.some.inj hs ▸ .computed rfl hready next hn
      next => exact Option.some.inj hs ▸ .stopped
    next => exact absurd hs (by simp)
  | wake =>
    simp only [step] at hs
    split at hs
    next d n hwait =>
      split at hs
      next hd =>
        split at hs
        · exact Option.some.inj hs ▸ .woken hwait hd _
        · exact Option.some.inj hs ▸ .ready
      next => exact absurd hs (by simp)
    next => exact absurd hs (by simp)
  | fire n saved =>
    simp only [step] at hs
    split at hs
    · split at hs
      · exact Option.some.inj hs ▸ .ready
      · exact absurd hs (by simp)
    · exact absurd hs (by simp)
  | refresh =>
    simp only [step] at hs
    split at hs
    · exact Option.some.inj hs ▸ .ready
    · exact absurd hs (by simp)
  | shutdown =>
    simp only [step] at hs
    split at hs
    · exact Option.some.inj hs ▸ .stopped
    · exact absurd hs (by simp)
  | event e =>
    simp only [step] at hs
    split at hs
    · exact Option.some.inj hs ▸ phaseStep_handleEvent s _ e
    · exact absurd hs (by simp)
  | flip =>
    simp only [step] at hs
    split at hs
    · exact Option.some.inj hs ▸ .flipping _
    · exact Option.some.inj hs ▸ .ready
    · exact absurd hs (by simp)

/-- What no other task's step and no start of a unit touches: the cached fires and the start
of the manager. -/
structure SameFires (s s' : TimerScheduler) : Prop where
  lastFires : s'.lastFires = s.lastFires
  start : s'.managerStart = s.managerStart
  clock : s'.clock = s.clock

theorem sameFires_writeLastFire (s : TimerScheduler) (n : UnitName) (x : DateTime) (saved : Bool) :
    SameFires s (s.writeLastFire n x saved) := by
  unfold writeLastFire
  split <;> exact ⟨rfl, rfl, rfl⟩

theorem sameFires_startUnit (s : TimerScheduler) (n : UnitName) (saved : Bool) :
    SameFires s (s.startUnit n saved) := by
  unfold startUnit stampIfNeeded
  simp only
  split
  · split
    · split
      · obtain ⟨hfires, hstart, hclock⟩ := sameFires_writeLastFire
          { s with mgr := (s.mgr.startUnit n).mgr } n s.clock saved
        exact ⟨hfires, hstart, hclock⟩
      · exact ⟨rfl, rfl, rfl⟩
    · exact ⟨rfl, rfl, rfl⟩
  · exact ⟨rfl, rfl, rfl⟩

/-- The request to start the unit succeeds: it is no service, or has a runner, and the
manager can spawn its start. -/
def Startable (m : Manager) (u : UnitName) : Prop :=
  u.kind = .service → (m.services.get? u).isSome = true ∧ m.selfWeak = true

theorem startUnit_result (m : Manager) (u : UnitName) :
    Startable m u ↔ ∃ r, (m.startUnit u).result = .ok r := by
  unfold Startable
  simp only [Manager.startUnit]
  by_cases hk : u.kind = .service
  · simp only [hk, if_true, forall_const, Manager.spawnServiceStart, Manager.newJob_services]
    have hweak : (m.newJob u .start).2.selfWeak = m.selfWeak := rfl
    cases m.services.get? u with
    | none => simp [Except.map]
    | some r =>
      simp only [hweak, Option.isSome_some, true_and]
      cases m.selfWeak with
      | true => simp [Except.map]
      | false => simp [Except.map]
  · simp [hk]

/-- What firing a timer records: its deadline, unless the start fails. -/
theorem fire_records (s : TimerScheduler) (timer target : UnitName) (x : DateTime) (saved : Bool) :
    (s.fire timer x target saved).managerStart = s.managerStart ∧
      (s.fire timer x target saved).clock = s.clock ∧
      (Startable s.mgr target →
        (s.fire timer x target saved).lastFires = s.lastFires.insert timer x) ∧
      (¬ Startable s.mgr target → (s.fire timer x target saved).lastFires = s.lastFires) := by
  have hbase : SameFires s (({ s with mgr := s.mgr.markState timer .active .running }.startUnit
      target saved).watch timer target) := by
    have h := sameFires_startUnit { s with mgr := s.mgr.markState timer .active .running } target
      saved
    unfold watch
    split <;> exact ⟨h.lastFires, h.start, h.clock⟩
  have hmark : Startable (s.mgr.markState timer .active .running) target ↔ Startable s.mgr target :=
    Iff.rfl
  unfold TimerScheduler.fire
  simp only
  split
  next r hr =>
    obtain ⟨hfires, hstart, hclock⟩ := sameFires_writeLastFire
      { (({ s with mgr := s.mgr.markState timer .active .running } : TimerScheduler).startUnit
          target saved).watch timer target with
        lastFires := ((({ s with mgr := s.mgr.markState timer .active .running } :
          TimerScheduler).startUnit target saved).watch timer target).lastFires.insert timer x }
      timer x saved
    refine ⟨hstart.trans hbase.start, hclock.trans hbase.clock, fun _ => ?_, fun hno => ?_⟩
    · rw [hfires]
      exact congrArg (·.insert timer x) hbase.lastFires
    · exact absurd (hmark.mp ((startUnit_result _ _).mpr ⟨r, hr⟩)) hno
  next e he =>
    refine ⟨hbase.start, hbase.clock, fun hyes => ?_, fun _ => hbase.lastFires⟩
    obtain ⟨r, hr⟩ := (startUnit_result _ _).mp (hmark.mpr hyes)
    rw [hr] at he
    exact absurd he (by simp)

/-- **Only firing changes what is cached**, and no step sets the clock back. -/
theorem fires_step {a : Action} (hs : s.step a = some s') :
    s.clock.nanos ≤ s'.clock.nanos ∧ s'.managerStart = s.managerStart ∧
      ((∀ saved, a ≠ .fire T saved) → s'.lastFires.get? T = s.lastFires.get? T) := by
  have hsame : SameFires s s' → s.clock.nanos ≤ s'.clock.nanos ∧
      s'.managerStart = s.managerStart ∧
      ((∀ saved, a ≠ .fire T saved) → s'.lastFires.get? T = s.lastFires.get? T) := by
    intro h
    exact ⟨Int.le_of_eq (congrArg DateTime.nanos h.clock.symm), h.start, fun _ => h.lastFires ▸ rfl⟩
  cases a with
  | pass d =>
    obtain rfl := Option.some.inj hs
    refine ⟨?_, rfl, fun _ => rfl⟩
    show s.clock.nanos ≤ s.clock.nanos + d
    omega
  | manager m => exact hsame (Option.some.inj hs ▸ ⟨rfl, rfl, rfl⟩)
  | activate n saved => exact hsame (Option.some.inj hs ▸ sameFires_startUnit s n saved)
  | compute =>
    simp only [step] at hs
    split at hs
    · split at hs <;> exact hsame (Option.some.inj hs ▸ ⟨rfl, rfl, rfl⟩)
    · exact absurd hs (by simp)
  | wake =>
    simp only [step] at hs
    split at hs
    · split at hs
      · split at hs <;> exact hsame (Option.some.inj hs ▸ ⟨rfl, rfl, rfl⟩)
      · exact absurd hs (by simp)
    · exact absurd hs (by simp)
  | fire n saved =>
    simp only [step] at hs
    split at hs
    next timer x target hphase =>
      split at hs
      next hn =>
        obtain rfl := Option.some.inj hs
        obtain ⟨hstart, hclock, hok, herr⟩ := fire_records s timer target x saved
        refine ⟨Int.le_of_eq (congrArg DateTime.nanos hclock.symm), hstart, fun hne => ?_⟩
        have hT : T ≠ timer := fun he => hne saved (by rw [he, hn])
        by_cases hst : Startable s.mgr target
        · show (s.fire timer x target saved).lastFires.get? T = _
          rw [hok hst, IndexMap.get?_insert_ne hT]
        · show (s.fire timer x target saved).lastFires.get? T = _
          rw [herr hst]
      next => exact absurd hs (by simp)
    next => exact absurd hs (by simp)
  | refresh | shutdown =>
    simp only [step] at hs
    split at hs
    · exact hsame (Option.some.inj hs ▸ ⟨rfl, rfl, rfl⟩)
    · exact absurd hs (by simp)
  | event e =>
    simp only [step] at hs
    split at hs
    · refine hsame (Option.some.inj hs ▸ ?_)
      unfold handleEvent
      cases e with
      | stateChanged unit state =>
        simp only
        split
        · exact ⟨rfl, rfl, rfl⟩
        · split <;> exact ⟨rfl, rfl, rfl⟩
      | unitRemoved unit =>
        simp only
        split <;> exact ⟨rfl, rfl, rfl⟩
      | lagged | other => exact ⟨rfl, rfl, rfl⟩
    · exact absurd hs (by simp)
  | flip =>
    simp only [step] at hs
    split at hs
    · refine hsame (Option.some.inj hs ▸ ?_)
      unfold flipToWaiting
      split <;> exact ⟨rfl, rfl, rfl⟩
    · exact hsame (Option.some.inj hs ▸ ⟨rfl, rfl, rfl⟩)
    · exact absurd hs (by simp)

/-! ## At most one attempt for an instant -/

/-- A step after an attempt of the timer at `d` attempts nothing twice: a further attempt is
for an instant after `d`, or for a monotonic trigger, and a computation that finds the timer
due has such an instant. -/
structure NotAgain (T : UnitName) (t : TimerUnit) (d : DateTime) (s : TimerScheduler)
    (a : Action) : Prop where
  attempt : ∀ saved x u, a = .fire T saved → s.phase = .firing T x u →
    OfTrigger t s.managerStart x ∨ HasInstant t d x
  computed : a = .compute → s.phase = .ready → ∀ x, s.computeNext = .ok (some (x, T)) →
    x.nanos ≤ s.clock.nanos → HasInstant t d s.clock

/-- The condition on a step, for a timer with this definition. If it is persistent, a start
that it asks for succeeds, and where the scheduler computes, the fraction of a second of the
clock makes none of its instants look later than its last fire, unless it missed one. -/
structure OnceOk (T : UnitName) (t : TimerUnit) (s : TimerScheduler) (a : Action) : Prop where
  definition : ∀ x, s.timerUnit T = some x → x = t
  starts : t.persistent = true → ∀ saved x u, a = .fire T saved → s.phase = .firing T x u →
    Startable s.mgr u
  whole : t.persistent = true → a = .compute → s.mgr.isActive T = true →
    (∃ spec ∈ t.onCalendar, Shadowed s.clock (s.anchor T) spec) →
    Missed s.clock (s.anchor T) t.onCalendar

/-- The timer was attempted at `d`: a persistent one has that on record, and whatever the
scheduler is about to attempt is for a later instant. -/
structure Attempted (T : UnitName) (t : TimerUnit) (d : DateTime) (s : TimerScheduler) : Prop where
  past : d.nanos ≤ s.clock.nanos
  recorded : t.persistent = true → ∃ x, s.lastFires.get? T = some x ∧ d.nanos ≤ x.nanos
  waiting : ∀ x, s.phase = .waiting (some (x, T)) →
    d.nanos ≤ x.nanos ∧ (OfTrigger t s.managerStart x ∨ HasInstant t d x)
  firing : ∀ x u, s.phase = .firing T x u →
    d.nanos ≤ x.nanos ∧ (OfTrigger t s.managerStart x ∨ HasInstant t d x)

/-- **A computation finds a later instant.** -/
theorem Attempted.computeNext {d x : DateTime} (h : Attempted T t d s)
    (hok : OnceOk T t s .compute) (hx : s.computeNext = .ok (some (x, T))) :
    d.nanos ≤ x.nanos ∧
      ((OfTrigger t s.managerStart x ∧ s.clock.nanos < x.nanos) ∨ HasInstant t d x) := by
  obtain ⟨y, hy, hactive, hnext⟩ := computeNext_result hx
  obtain rfl := hok.definition y hy
  refine ⟨Int.le_trans h.past (nextOverall_cause hnext).le, ?_⟩
  refine hasInstant_of_nextOverall hnext h.past (fun hp => ?_) fun hp => hok.whole hp rfl hactive.2
  obtain ⟨z, hz, hle⟩ := h.recorded hp
  have hlast : s.lastFire T = some z := by
    unfold lastFire
    rw [hz]
  rw [hlast]
  exact hle

theorem attempted_step {d : DateTime} {a : Action} (h : Attempted T t d s) (hok : OnceOk T t s a)
    (hs : s.step a = some s') : Attempted T t d s' := by
  obtain ⟨hclock, hstart, hfires⟩ := fires_step (T := T) hs
  have hphase := phase_step hs
  refine ⟨Int.le_trans h.past hclock, ?_, ?_, ?_⟩
  · intro hp
    by_cases hfire : ∃ saved, a = .fire T saved
    · -- the new record is the deadline of this attempt
      obtain ⟨saved, rfl⟩ := hfire
      simp only [step] at hs
      split at hs
      next timer x u hfiring =>
        split at hs
        next hT =>
          subst hT
          obtain rfl := Option.some.inj hs
          obtain ⟨-, -, hrec, -⟩ := fire_records s T u x saved
          refine ⟨x, ?_, (h.firing x u hfiring).1⟩
          show (s.fire T x u saved).lastFires.get? T = some x
          rw [hrec (hok.starts hp saved x u rfl hfiring), IndexMap.get?_insert_self]
        next => exact absurd hs (by simp)
      next => exact absurd hs (by simp)
    · rw [hfires fun saved he => hfire ⟨saved, he⟩]
      exact h.recorded hp
  · intro x hx
    rw [hstart]
    rw [hx] at hphase
    generalize hq : Phase.waiting (some (x, T)) = q at hphase
    cases hphase with
    | same => exact h.waiting x hq.symm
    | computed ha hready next hn =>
      obtain rfl := Phase.waiting.inj hq
      subst ha
      obtain ⟨hle, hcause⟩ := h.computeNext hok hn
      exact ⟨hle, hcause.imp And.left id⟩
    | woken | ready | stopped | flipping => exact absurd hq (by simp)
  · intro x u hx
    rw [hstart]
    rw [hx] at hphase
    generalize hq : Phase.firing T x u = q at hphase
    cases hphase with
    | same => exact h.firing x u hq.symm
    | woken hwait hd v =>
      obtain ⟨rfl, rfl, rfl⟩ := Phase.firing.inj hq
      exact h.waiting _ hwait
    | computed | ready | stopped | flipping => exact absurd hq (by simp)

theorem Attempted.notAgain {d : DateTime} {a : Action} (h : Attempted T t d s)
    (hok : OnceOk T t s a) : NotAgain T t d s a := by
  refine ⟨?_, ?_⟩
  · intro saved x u _ hphase
    exact (h.firing x u hphase).2
  · intro ha _ x hx hdue
    subst ha
    obtain ⟨-, ⟨-, hlater⟩ | ⟨spec, hs, p, hm, hlo, hhi⟩⟩ := h.computeNext hok hx
    · omega
    · exact ⟨spec, hs, p, hm, hlo, Int.le_trans hhi hdue⟩

/-- A timer is fired when its deadline has come. -/
theorem firing_runs {as : List Action} (hinit : Initial s) (hrun : runs step s as = some s')
    {d : DateTime} {u : UnitName} (hphase : s'.phase = .firing T d u) :
    d.nanos ≤ s'.clock.nanos := by
  refine runs_inv (P := fun v => ∀ x w, v.phase = .firing T x w → x.nanos ≤ v.clock.nanos)
    (A := fun _ _ => True) ?_ ?_ (Along.of_labels fun _ _ => trivial) hrun d u hphase
  · intro v a v' hv _ hs x w hx
    have hstep := phase_step hs
    have hclock := (fires_step (T := T) hs).1
    rw [hx] at hstep
    generalize hq : Phase.firing T x w = q at hstep
    cases hstep with
    | same => exact Int.le_trans (hv x w hq.symm) hclock
    | woken hwait hd w' =>
      obtain ⟨rfl, rfl, rfl⟩ := Phase.firing.inj hq
      exact Int.le_trans hd hclock
    | computed | ready | stopped | flipping => exact absurd hq (by simp)
  · intro x w hx
    rw [hinit.phase] at hx
    exact absurd hx (by simp)

theorem attempted_fire {d : DateTime} {u : UnitName} {saved : Bool} (hok : OnceOk T t s (.fire T saved))
    (hphase : s.phase = .firing T d u) (hpast : d.nanos ≤ s.clock.nanos)
    (hs : s.step (.fire T saved) = some s') : Attempted T t d s' := by
  simp only [step, hphase, if_true] at hs
  obtain rfl := Option.some.inj hs
  obtain ⟨-, hclock, hrec, -⟩ := fire_records s T u d saved
  refine ⟨?_, ?_, ?_, ?_⟩
  · show d.nanos ≤ (s.fire T d u saved).clock.nanos
    rw [hclock]
    exact hpast
  · intro hp
    refine ⟨d, ?_, Int.le_refl _⟩
    show (s.fire T d u saved).lastFires.get? T = some d
    rw [hrec (hok.starts hp saved d u rfl hphase), IndexMap.get?_insert_self]
  · intro x hx
    exact absurd hx (by simp)
  · intro x w hx
    exact absurd hx (by simp)

/-- **One attempt for each instant.** After an attempt of a timer, every step that meets the
condition attempts nothing twice. -/
theorem once_per_instant {s₀ s₁ s₂ : TimerScheduler} {as bs : List Action} {d : DateTime}
    {u : UnitName} {saved : Bool} (hinit : Initial s₀) (hrun : runs step s₀ as = some s₁)
    (hphase : s₁.phase = .firing T d u) (hfire : s₁.step (.fire T saved) = some s₂)
    (hok : Along step (OnceOk T t) s₁ (.fire T saved :: bs)) :
    Along step (NotAgain T t d) s₂ bs := by
  have hpast := firing_runs hinit hrun hphase
  exact Along.of_inv (fun _ _ _ h ha hs => attempted_step h ha hs) (fun _ _ h ha => h.notAgain ha)
    (attempted_fire hok.1 hphase hpast hfire) (hok.2 s₂ hfire)

/-- A persistent hourly timer alone, on the hour; its unit has no runner. -/
def onTheHour : TimerScheduler where
  clock := ⟨1800000000000000000⟩
  mgr := {
    units := .ofList [(timerA, { name := timerA, kind := .timer hourly })]
    status := .ofList [(timerA, { active := .active })] }
  stamps := .empty
  managerStart := ⟨1799999999000000000⟩
  lastFires := .empty
  triggers := .empty
  phase := .ready

/-- It is spawned a second before. -/
def beforeTheHour : TimerScheduler := { onTheHour with clock := ⟨1799999999000000000⟩ }

/-- While nothing is on record for it, it is due at once. -/
theorem computeNext_onTheHour (ph : Phase) {m : Manager} (hu : m.units = onTheHour.mgr.units)
    (hactive : m.isActive timerA = true) :
    ({ onTheHour with mgr := m, phase := ph } : TimerScheduler).computeNext =
      .ok (some (⟨1800000000000000000⟩, timerA)) := by
  have hdue : Due ⟨1800000000000000000⟩ ⟨1799999999000000000⟩ none none none hourly none := by
    refine due_of_covered rfl ⟨by decide, by decide⟩ ⟨by simp [hourly], by simp [hourly]⟩ ?_
    refine ⟨_, List.mem_singleton_self _, 1800000000, ⟨?_, by decide, by decide, by decide⟩, ?_⟩
    · exact (matches_hourly (List.mem_singleton_self _)).mpr (by decide)
    · exact (count_hourly (List.mem_singleton_self _) _ _).trans (by decide)
  obtain ⟨d, hd, hle⟩ := hdue
  -- a deadline is never in the past
  have hnow : d = ⟨1800000000000000000⟩ := by
    have hge := (nextOverall_cause hd).le
    have heq : d.nanos = 1800000000000000000 := Int.le_antisymm hle hge
    exact congrArg DateTime.mk heq
  subst hnow
  have hloop : ({ onTheHour with mgr := m, phase := ph } : TimerScheduler).computeNext =
      ({ onTheHour with mgr := m, phase := ph } : TimerScheduler).computeLoop
        [(timerA, { name := timerA, kind := .timer hourly })] none := by
    unfold computeNext
    rw [hu]
    rfl
  have hlast : ({ onTheHour with mgr := m, phase := ph } : TimerScheduler).lastFire timerA = none :=
    rfl
  have hkind : timerA.kind = .timer := rfl
  rw [hloop]
  unfold computeLoop
  simp only [hkind, hactive, and_self, if_true, hlast]
  have hnext : nextOverall onTheHour.clock onTheHour.managerStart none none none hourly none =
      .ok (some ⟨1800000000000000000⟩) := hd
  rw [hnext]
  rfl

theorem step_compute {next : Option (DateTime × UnitName)} (hready : s.phase = .ready)
    (hn : s.computeNext = .ok next) :
    s.step .compute = some { s with phase := .waiting next } := by
  simp only [step, hready, hn]

/-- The same timer, with a service that can be started. -/
def startable : TimerScheduler :=
  { onTheHour with mgr := { onTheHour.mgr with
      services := .ofList [(linkedUnit timerA hourly, 0)] } }

/-- It is spawned a second before, too. -/
def beforeStartable : TimerScheduler := { startable with clock := ⟨1799999999000000000⟩ }

/-- A clock without a fraction of a second shadows nothing. -/
theorem onceOk_whole {v : TimerScheduler} {a : Action} (hunits : v.mgr.units = onTheHour.mgr.units)
    (hclock : v.clock.subsec = 0) (hstart : ∀ saved x u, a = .fire timerA saved →
      v.phase = .firing timerA x u → Startable v.mgr u) : OnceOk timerA hourly v a := by
  refine ⟨fun x hx => ?_, fun _ => hstart, fun _ _ _ h => ?_⟩
  · unfold timerUnit at hx
    rw [hunits] at hx
    exact (Option.some.inj hx).symm
  · obtain ⟨spec, -, q, -, -, hle, hlt⟩ := h
    omega

/-- On the hour it is about to fire. -/
theorem runs_beforeStartable : runs step beforeStartable [.pass 1000000000, .compute, .wake] =
    some { startable with
      phase := .firing timerA ⟨1800000000000000000⟩ (linkedUnit timerA hourly) } := by
  have hnext : startable.computeNext = .ok (some (⟨1800000000000000000⟩, timerA)) :=
    computeNext_onTheHour .ready (m := startable.mgr) rfl rfl
  exact runs_cons.mpr ⟨startable, rfl, runs_cons.mpr ⟨{ startable with
    phase := .waiting (some (⟨1800000000000000000⟩, timerA)) }, step_compute rfl hnext, rfl⟩⟩

/-- After it has fired, a persistent timer may be computed again at once, and in the next hour. -/
def refreshed : List Action := [.compute, .pass 3600000000000, .refresh, .compute]

theorem onceOk_refreshed {v : TimerScheduler} (hunits : v.mgr.units = onTheHour.mgr.units)
    (hclock : v.clock.subsec = 0) (hready : v.phase = .ready) :
    Along step (OnceOk timerA hourly) v refreshed := by
  refine ⟨onceOk_whole hunits hclock (by simp), fun v₁ h₁ => ?_⟩
  have hsame : v₁.mgr = v.mgr ∧ v₁.clock = v.clock := by
    simp only [step, hready] at h₁
    split at h₁ <;> exact Option.some.inj h₁ ▸ ⟨rfl, rfl⟩
  obtain ⟨hmgr, hclk⟩ := hsame
  refine ⟨onceOk_whole (hmgr ▸ hunits) (hclk ▸ hclock) (by simp), fun v₂ h₂ => ?_⟩
  obtain rfl := Option.some.inj h₂
  have hlater : (DateTime.mk (v₁.clock.nanos + 3600000000000)).subsec = 0 := by
    rw [hclk]
    exact (DateTime.sec_add v.clock 3600).2.trans hclock
  refine ⟨onceOk_whole (hmgr ▸ hunits) hlater (by simp), fun v₃ h₃ => ?_⟩
  simp only [step] at h₃
  split at h₃
  · obtain rfl := Option.some.inj h₃
    exact ⟨onceOk_whole (hmgr ▸ hunits) hlater (by simp), fun _ _ => trivial⟩
  · exact absurd h₃ (by simp)

/-- The first of the two hourly timers, whose unit cannot be started, waits for the next hour. -/
def nextHour : List Action :=
  [.compute, .pass 3600000000000, .wake, .fire timerA true, .compute]

theorem once_per_instant_two :
    (∃ s₁ s₂, runs step two fireFirst.dropLast = some s₁ ∧ s₁.step (.fire timerA true) = some s₂ ∧
      Along step (NotAgain timerA hourlyTimer ⟨1800000000000000000⟩) s₂ nextHour) ∧
    ∃ s₁ s₂, runs step beforeStartable [.pass 1000000000, .compute, .wake] = some s₁ ∧
      s₁.step (.fire timerA true) = some s₂ ∧
      Along step (NotAgain timerA hourly ⟨1800000000000000000⟩) s₂ refreshed := by
  have hdef : ∀ {v : TimerScheduler}, v.timerUnit timerA = some hourlyTimer →
      ∀ a, OnceOk timerA hourlyTimer v a := by
    intro v hv a
    refine ⟨fun x hx => ?_, fun hp => absurd hp (by decide), fun hp => absurd hp (by decide)⟩
    exact Option.some.inj (hx.symm.trans hv)
  refine ⟨⟨_, _, rfl, rfl, ?_⟩, ?_⟩
  rotate_left
  · -- the persistent one: its start succeeds, and the clock shows whole seconds
    obtain ⟨s₂, hs₂⟩ : ∃ s₂, ({ startable with
      phase := .firing timerA ⟨1800000000000000000⟩ (linkedUnit timerA hourly) } :
        TimerScheduler).step (.fire timerA true) = some s₂ := ⟨_, rfl⟩
    refine ⟨_, s₂, runs_beforeStartable, hs₂, ?_⟩
    refine once_per_instant (⟨rfl, rfl, rfl, rfl⟩ : Initial beforeStartable) runs_beforeStartable
      rfl hs₂ ⟨onceOk_whole rfl rfl ?_, fun v hv => ?_⟩
    · intro saved x u _ hphase
      obtain ⟨-, -, rfl⟩ := Phase.firing.inj hphase
      exact fun _ => ⟨rfl, rfl⟩
    · obtain rfl := Option.some.inj hv
      exact onceOk_refreshed rfl rfl rfl
  refine once_per_instant (T := timerA) (t := hourlyTimer) (u := linkedUnit timerA hourlyTimer)
    initial_two (rfl : runs step two fireFirst.dropLast = some _) rfl
    (rfl : TimerScheduler.step _ (.fire timerA true) = some _) ?_
  refine ⟨hdef rfl _, fun v₁ h₁ => ?_⟩
  obtain rfl := Option.some.inj h₁
  refine ⟨hdef rfl _, fun v₂ h₂ => ?_⟩
  obtain rfl := Option.some.inj h₂
  refine ⟨hdef rfl _, fun v₃ h₃ => ?_⟩
  obtain rfl := Option.some.inj h₃
  refine ⟨hdef rfl _, fun v₄ h₄ => ?_⟩
  obtain rfl := Option.some.inj h₄
  refine ⟨hdef rfl _, fun v₅ h₅ => ?_⟩
  obtain rfl := Option.some.inj h₅
  exact ⟨hdef rfl _, fun v₆ h₆ => trivial⟩

/-- **A start that fails is attempted again at once**, for the same instant. -/
theorem not_all_once : ¬ ∀ (s₀ s₁ s₂ : TimerScheduler) (as bs : List Action) (T : UnitName)
    (t : TimerUnit) (d : DateTime) (u : UnitName) (saved : Bool), Initial s₀ → StampsPast s₀ →
    runs step s₀ as = some s₁ → s₁.phase = .firing T d u → s₁.step (.fire T saved) = some s₂ →
    Along step (fun s _ => ∀ x, s.timerUnit T = some x → x = t) s₁ (.fire T saved :: bs) →
    Along step (NotAgain T t d) s₂ bs := by
  intro h
  let target := linkedUnit timerA hourly
  let s₁ : TimerScheduler := { onTheHour with phase := .firing timerA ⟨1800000000000000000⟩ target }
  obtain ⟨s₂, hs₂⟩ : ∃ s₂, s₁.step (.fire timerA true) = some s₂ := ⟨_, rfl⟩
  have hsame : ∃ m : Manager, m.units = onTheHour.mgr.units ∧ m.isActive timerA = true ∧
      s₂ = { onTheHour with mgr := m, phase := .ready } := by
    obtain rfl := Option.some.inj hs₂
    exact ⟨(s₁.fire timerA ⟨1800000000000000000⟩ target true).mgr, rfl, rfl, rfl⟩
  obtain ⟨m, hunits, hactive, rfl⟩ := hsame
  have hrun : runs step beforeTheHour [.pass 1000000000, .compute, .wake] = some s₁ := by
    have hnext : onTheHour.computeNext = .ok (some (⟨1800000000000000000⟩, timerA)) :=
      computeNext_onTheHour .ready (m := onTheHour.mgr) rfl rfl
    exact runs_cons.mpr ⟨onTheHour, rfl, runs_cons.mpr ⟨{ onTheHour with
      phase := .waiting (some (⟨1800000000000000000⟩, timerA)) }, step_compute rfl hnext, rfl⟩⟩
  have hnot := h beforeTheHour s₁ _ [.pass 1000000000, .compute, .wake] [.compute] timerA hourly
    ⟨1800000000000000000⟩ target true ⟨rfl, rfl, rfl, rfl⟩
    (fun _ _ hx => absurd hx (by simp [beforeTheHour, onTheHour])) hrun rfl hs₂ ?_
  · obtain ⟨spec, hs, p, -, hlo, hhi⟩ := hnot.1.computed rfl rfl ⟨1800000000000000000⟩
      (computeNext_onTheHour .ready hunits hactive) (Int.le_refl _)
    exact absurd (Int.lt_of_lt_of_le hlo hhi) (Int.lt_irrefl _)
  · have hdef : ∀ {v : TimerScheduler}, v.mgr.units = onTheHour.mgr.units →
        ∀ x, v.timerUnit timerA = some x → x = hourly := by
      intro v hv x hx
      unfold timerUnit at hx
      rw [hv] at hx
      exact (Option.some.inj hx).symm
    refine ⟨hdef rfl, fun v hv => ?_⟩
    obtain rfl := Option.some.inj (hs₂.symm.trans hv)
    exact ⟨hdef hunits, fun _ _ => trivial⟩

end TimerScheduler

end Systeml.Runtime
