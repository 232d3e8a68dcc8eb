import Systeml.Runtime.Once

/-!
# What the deadline leaves out

The scheduler computes the earliest instant that the timers' schedules and the start of
the manager give. It does not know when a timer was activated, nor when its unit came up
or went down, so `OnActiveSec=`, `OnUnitActiveSec=` and `OnUnitInactiveSec=` never make a
timer due. And the searches behind it are not exact: an instant may come with the fraction
of a second of the clock, too late, or not at all, and the catch-up may be after an instant
that was not missed.

The deadline is the earliest pending instant exactly when no addition panics, the timer that
is first in line did miss what it catches up on, and each pending instant is preceded by one
that is found as it is (`honours_iff`).
-/

namespace Systeml.Runtime

open Systeml.Lib Systeml.Unit

/-! ## When units changed -/

/-- When each unit last became active, and when it last ceased to be. -/
structure History where
  activated : UnitName → Option DateTime
  deactivated : UnitName → Option DateTime

namespace History

/-- Nothing has changed yet. -/
def empty : History := ⟨fun _ => none, fun _ => none⟩

/-- A step from `s` to `s'` is seen at the clock of `s'`. -/
def observe (h : History) (s s' : TimerScheduler) : History where
  activated u :=
    if !s.mgr.isActive u && s'.mgr.isActive u then some s'.clock else h.activated u
  deactivated u :=
    if s.mgr.isActive u && !s'.mgr.isActive u then some s'.clock else h.deactivated u

end History

/-- The scheduler, and what happened to the units so far. -/
structure Observed where
  sched : TimerScheduler
  history : History

/-- A step, and what it changed. -/
def Observed.step (o : Observed) (a : Action) : Option Observed :=
  (o.sched.step a).map fun s => ⟨s, o.history.observe o.sched s⟩

theorem observed_step {o o' : Observed} {a : Action} (h : o.step a = some o') :
    o.sched.step a = some o'.sched ∧ o'.history = o.history.observe o.sched o'.sched := by
  obtain ⟨s, hs, rfl⟩ := Option.map_eq_some_iff.mp h
  exact ⟨hs, rfl⟩

section History

variable {P : TimerScheduler → TimerScheduler → Bool} {f : Observed → Option DateTime}
  {o o' : Observed} {x : DateTime}

/-- No step of the run is one of `P`. -/
def Without (P : TimerScheduler → TimerScheduler → Bool) (o : Observed) (as : List Action) : Prop :=
  Along Observed.step (fun o₁ a => ∀ o₂, o₁.step a = some o₂ → P o₁.sched o₂.sched = false) o as

/-- The last step of the run that is one of `P` ended at `x`. -/
def LastAt (P : TimerScheduler → TimerScheduler → Bool) (o : Observed) (as : List Action)
    (x : DateTime) : Prop :=
  ∃ pre a post o₁ o₂, as = pre ++ a :: post ∧ runs Observed.step o pre = some o₁ ∧
    o₁.step a = some o₂ ∧ P o₁.sched o₂.sched = true ∧ x = o₂.sched.clock ∧ Without P o₂ post

/-- What is set at each step of `P` holds the clock of the last of them. -/
theorem lastAt_runs
    (hf : ∀ o₁ o₂ a, o₁.step a = some o₂ →
      f o₂ = if P o₁.sched o₂.sched then some o₂.sched.clock else f o₁) :
    ∀ {as : List Action} {o : Observed}, runs Observed.step o as = some o' → f o' = some x →
      LastAt P o as x ∨ f o = some x ∧ Without P o as
  | [], o, hrun, hx => by
    obtain rfl := Option.some.inj hrun
    exact Or.inr ⟨hx, trivial⟩
  | a :: as, o, hrun, hx => by
    obtain ⟨o₁, hstep, hrest⟩ := runs_cons.mp hrun
    have hset := hf o o₁ a hstep
    obtain ⟨pre, b, post, o₂, o₃, rfl, hpre, hlast⟩ | ⟨hold, hwithout⟩ := lastAt_runs hf hrest hx
    · exact Or.inl ⟨a :: pre, b, post, o₂, o₃, rfl, runs_cons.mpr ⟨o₁, hstep, hpre⟩, hlast⟩
    · cases hp : P o.sched o₁.sched with
      | true =>
        rw [hp, if_pos rfl] at hset
        rw [hset] at hold
        exact Or.inl ⟨[], a, as, o, o₁, rfl, rfl, hstep, hp, (Option.some.inj hold).symm, hwithout⟩
      | false =>
        rw [hp, if_neg Bool.false_ne_true] at hset
        refine Or.inr ⟨hset ▸ hold, ?_, ?_⟩
        · intro o₂ hstep'
          obtain rfl := Option.some.inj (hstep.symm.trans hstep')
          exact hp
        · intro o₂ hstep'
          obtain rfl := Option.some.inj (hstep.symm.trans hstep')
          exact hwithout

/-- **The history is that of the run**: a unit was activated last in the last step after
which it is active and before which it was not. -/
theorem activated_runs {s : TimerScheduler} {as : List Action} {u : UnitName}
    (hrun : runs Observed.step ⟨s, .empty⟩ as = some o) (hx : o.history.activated u = some x) :
    LastAt (fun s s' => !s.mgr.isActive u && s'.mgr.isActive u) ⟨s, .empty⟩ as x := by
  refine (lastAt_runs (f := fun o => o.history.activated u) ?_ hrun hx).resolve_right ?_
  · intro o₁ o₂ a hstep
    rw [(observed_step hstep).2]
    rfl
  · intro h
    exact absurd h.1 (by simp [History.empty])

theorem deactivated_runs {s : TimerScheduler} {as : List Action} {u : UnitName}
    (hrun : runs Observed.step ⟨s, .empty⟩ as = some o) (hx : o.history.deactivated u = some x) :
    LastAt (fun s s' => s.mgr.isActive u && !s'.mgr.isActive u) ⟨s, .empty⟩ as x := by
  refine (lastAt_runs (f := fun o => o.history.deactivated u) ?_ hrun hx).resolve_right ?_
  · intro o₁ o₂ a hstep
    rw [(observed_step hstep).2]
    rfl
  · intro h
    exact absurd h.1 (by simp [History.empty])

end History

/-! ## Pending instants -/

/-- The instant lies the given time after a base that is known, and is still to come. -/
def Follows (now : DateTime) (x : Option SdDuration) (base : Option DateTime) (d : DateTime) :
    Prop :=
  ∃ v b, x = some v ∧ base = some b ∧ d.nanos = b.nanos + duration v.asStd ∧ now.nanos < d.nanos

/-- The instants that depend on when the timer or its unit changed. -/
def Changing (o : Observed) (T : UnitName) (t : TimerUnit) (d : DateTime) : Prop :=
  Follows o.sched.clock t.onActiveSec (o.history.activated T) d ∨
    Follows o.sched.clock t.onUnitActiveSec
      (o.history.activated (TimerScheduler.linkedUnit T t)) d ∨
    Follows o.sched.clock t.onUnitInactiveSec
      (o.history.deactivated (TimerScheduler.linkedUnit T t)) d

/-- The instants that the schedules and the start of the manager give: now, if an instant was
missed, every later match, and what is the given time after the start. -/
inductive Scheduled (now managerStart : DateTime) (t : TimerUnit) (last : Option DateTime) :
    DateTime → Prop
  | missed (hp : t.persistent = true) (h : Missed now (last.getD managerStart) t.onCalendar) :
    Scheduled now managerStart t last now
  | calendar {spec : CalendarSpec} (hs : spec ∈ t.onCalendar) {p : Int} (hm : Matches spec p)
    (hlater : (baselineOf now last).nanos < p * 1000000000) :
    Scheduled now managerStart t last (.ofSec p)
  | trigger {d : DateTime} (h : OfTrigger t managerStart d) (hlater : now.nanos < d.nanos) :
    Scheduled now managerStart t last d

/-- An instant that one of the triggers of an active timer waits for. -/
def Pending (o : Observed) (T : UnitName) (d : DateTime) : Prop :=
  ∃ t, o.sched.Runs T t ∧
    (Scheduled o.sched.clock o.sched.managerStart t (o.sched.lastFire T) d ∨ Changing o T t d)

/-- The computation returns the earliest pending instant, with a timer that has it. -/
def Honours (o : Observed) : Prop :=
  ∃ next, o.sched.computeNext = .ok next ∧
    (∀ d T, next = some (d, T) → Pending o T d) ∧
    ∀ T d, Pending o T d → TimerScheduler.DeadlineBy next d

/-! ## What is found as it is -/

section Found

variable {now managerStart : DateTime} {t : TimerUnit} {last : Option DateTime} {d : DateTime}

/-- The instants that the computation finds without a fraction of a second. -/
inductive OnTime (now managerStart : DateTime) (t : TimerUnit) (last : Option DateTime) :
    DateTime → Prop
  | missed (hp : t.persistent = true) {s : CalendarSpec} (hs : s ∈ t.onCalendar)
    (h : Covered now (last.getD managerStart) s ∨ Shadowed now (last.getD managerStart) s) :
    OnTime now managerStart t last now
  | calendar {s : CalendarSpec} (hs : s ∈ t.onCalendar) {d : DateTime}
    (h : Arrives s (baselineOf now last) d) (hwhole : d.subsec = 0) :
    OnTime now managerStart t last d
  | trigger {d : DateTime} (h : OfTrigger t managerStart d) (hlater : now.nanos < d.nanos) :
    OnTime now managerStart t last d

theorem OnTime.cause (h : OnTime now managerStart t last d) : Cause now managerStart t last d := by
  cases h with
  | missed hp hs h => exact .missed hp hs h
  | calendar hs h hwhole => exact .calendar hs h
  | trigger h hlater => exact .trigger h hlater

/-- An instant that comes with a fraction is preceded by the match itself. -/
theorem Cause.onTime_or (h : Cause now managerStart t last d) :
    OnTime now managerStart t last d ∨
      ∃ p, Scheduled now managerStart t last (.ofSec p) ∧ p * 1000000000 < d.nanos := by
  cases h with
  | missed hp hs h => exact Or.inl (.missed hp hs h)
  | trigger h hlater => exact Or.inl (.trigger h hlater)
  | calendar hs h =>
    by_cases hwhole : d.subsec = 0
    · exact Or.inl (.calendar hs h hwhole)
    · have hd := d.nanos_eq
      have hsub := d.subsec_bounds
      have hb := (baselineOf now last).nanos_eq
      have hbsub := (baselineOf now last).subsec_bounds
      have hlater := h.later
      exact Or.inr ⟨d.sec, .calendar hs h.isMatch (by omega), by omega⟩

/-- What is found as it is was pending, but for a catch-up on nothing. -/
theorem OnTime.scheduled (h : OnTime now managerStart t last d)
    (hgenuine : t.persistent = true →
      (∃ s ∈ t.onCalendar, Shadowed now (last.getD managerStart) s) →
      Missed now (last.getD managerStart) t.onCalendar) : Scheduled now managerStart t last d := by
  cases h with
  | missed hp hs h =>
    refine .missed hp ?_
    cases h with
    | inl hcov =>
      obtain ⟨p, hm, -⟩ := hcov
      exact ⟨_, hs, p, hm⟩
    | inr hshadow => exact hgenuine hp ⟨_, hs, hshadow⟩
  | trigger h hlater => exact .trigger h hlater
  | calendar hs h hwhole =>
    have hd := d.nanos_eq
    have hb := (baselineOf now last).nanos_eq
    have hbsub := (baselineOf now last).subsec_bounds
    have hlater := h.later
    have he : d = .ofSec d.sec := congrArg DateTime.mk (by show d.nanos = d.sec * 1000000000; omega)
    rw [he]
    exact .calendar hs h.isMatch (by omega)

/-- Now is pending only if an instant was missed. -/
theorem Scheduled.missed_of_le (h : Scheduled now managerStart t last d)
    (hd : d.nanos ≤ now.nanos) : Missed now (last.getD managerStart) t.onCalendar := by
  cases h with
  | missed hp h => exact h
  | trigger h hlater => exact absurd hlater (Int.not_lt.mpr hd)
  | @calendar spec hs p hm hlater =>
    have hbase := le_baselineOf now last
    have hp : (DateTime.ofSec p).nanos = p * 1000000000 := rfl
    omega

end Found

/-- No addition leaves the range of years, the timer that is first in line has missed an
instant if its catch-up is after one, and each pending instant is preceded by one that is
found as it is. -/
structure Punctual (o : Observed) : Prop where
  reach : ∀ T t, o.sched.Runs T t →
    Reach o.sched.clock o.sched.managerStart t (o.sched.lastFire T)
  genuine : ∀ T t, o.sched.Runs T t → o.sched.FirstInLine T → t.persistent = true →
    (∃ s ∈ t.onCalendar, Shadowed o.sched.clock (o.sched.anchor T) s) →
    Missed o.sched.clock (o.sched.anchor T) t.onCalendar
  onTime : ∀ T d, Pending o T d → ∃ T' t' d', o.sched.Runs T' t' ∧
    OnTime o.sched.clock o.sched.managerStart t' (o.sched.lastFire T') d' ∧ d'.nanos ≤ d.nanos

theorem honours_of_punctual {o : Observed} (h : Punctual o) : Honours o := by
  obtain ⟨next, hnext⟩ := TimerScheduler.computeNext_isOk.mpr h.reach
  obtain ⟨hcause, hleast⟩ := TimerScheduler.computeNext_earliest hnext
  have hby : ∀ T d, Pending o T d → TimerScheduler.DeadlineBy next d := by
    intro T d hpending
    obtain ⟨T', t', d', hruns, honTime, hle⟩ := h.onTime T d hpending
    obtain ⟨c, v, hcv, hcd⟩ := hleast T' d' ⟨t', hruns, honTime.cause⟩
    exact ⟨c, v, hcv, Int.le_trans hcd hle⟩
  refine ⟨next, hnext, ?_, hby⟩
  intro d T hd
  obtain ⟨t, hruns, hc⟩ := hcause d T hd
  have hfirst := (TimerScheduler.computeNext_iff hnext).mp ⟨d, hd⟩
  refine ⟨t, hruns, Or.inl ?_⟩
  obtain honTime | ⟨p, hp, hlt⟩ := hc.onTime_or
  · exact honTime.scheduled (h.genuine T t hruns hfirst)
  · -- the match itself would be an earlier pending instant
    obtain ⟨c, v, hcv, hle⟩ := hby T (.ofSec p) ⟨t, hruns, Or.inl hp⟩
    obtain ⟨rfl, rfl⟩ := Prod.mk.inj (Option.some.inj (hd.symm.trans hcv))
    exact absurd hlt (Int.not_lt.mpr hle)

theorem punctual_of_honours {o : Observed} (h : Honours o) : Punctual o := by
  obtain ⟨next, hnext, hpending, hby⟩ := h
  obtain ⟨hcause, hleast⟩ := TimerScheduler.computeNext_earliest hnext
  refine ⟨TimerScheduler.computeNext_isOk.mp ⟨next, hnext⟩, ?_, ?_⟩
  · intro T t hruns hfirst hp hshadow
    obtain ⟨s, hs, hshadow⟩ := hshadow
    -- the deadline is now
    obtain ⟨d, hd⟩ := (TimerScheduler.computeNext_iff hnext).mpr hfirst
    obtain ⟨c, v, hcv, hle⟩ := hleast T o.sched.clock ⟨t, hruns, .missed hp hs (Or.inr hshadow)⟩
    obtain ⟨rfl, rfl⟩ := Prod.mk.inj (Option.some.inj (hd.symm.trans hcv))
    obtain ⟨t', hruns', hc⟩ := hcause d T hd
    have hge := hc.le
    obtain rfl : d = o.sched.clock := congrArg DateTime.mk (show d.nanos = o.sched.clock.nanos by omega)
    obtain ⟨t'', hruns'', hscheduled | hchanging⟩ := hpending _ T hd
    · obtain rfl := Option.some.inj (hruns.2.2.symm.trans hruns''.2.2)
      exact hscheduled.missed_of_le (Int.le_refl _)
    · obtain ⟨-, -, -, -, -, hlater⟩ | ⟨-, -, -, -, -, hlater⟩ | ⟨-, -, -, -, -, hlater⟩ := hchanging
      all_goals exact absurd hlater (Int.lt_irrefl _)
  · intro T d hp
    obtain ⟨c, v, hcv, hle⟩ := hby T d hp
    obtain ⟨t', hruns', hc⟩ := hcause c v hcv
    obtain honTime | ⟨p, hscheduled, hlt⟩ := hc.onTime_or
    · exact ⟨v, t', c, hruns', honTime, hle⟩
    · obtain ⟨c', v', hcv', hle'⟩ := hby v (.ofSec p) ⟨t', hruns', Or.inl hscheduled⟩
      obtain ⟨rfl, rfl⟩ := Prod.mk.inj (Option.some.inj (hcv.symm.trans hcv'))
      exact absurd hlt (Int.not_lt.mpr hle')

/-- A manager that has loaded the timer and starts it. -/
def startedTen (t : TimerUnit) : TimerScheduler where
  clock := ⟨1799999999000000000⟩
  mgr := {
    units := .ofList [(TimerScheduler.timerA, { name := TimerScheduler.timerA, kind := .timer t })]
    status := .ofList [(TimerScheduler.timerA, {})] }
  stamps := .empty
  managerStart := ⟨1799999999000000000⟩
  lastFires := .empty
  triggers := .empty
  phase := .ready

/-- `OnActiveSec=10`. -/
def afterTen : TimerUnit := { onActiveSec := some (.finite 10000000000) }

/-- With an hourly schedule too. -/
def hourlyTen : TimerUnit :=
  { TimerScheduler.hourlyTimer with onActiveSec := some (.finite 10000000000) }

/-- It is the only timer. -/
theorem runs_startedTen {t t' : TimerUnit} {T : UnitName}
    (h : ((startedTen t).startUnit TimerScheduler.timerA false).Runs T t') :
    T = TimerScheduler.timerA ∧ t' = t := by
  obtain ⟨-, -, ht⟩ := h
  obtain ⟨u, hmem, hu⟩ := TimerScheduler.timerUnit_some ht
  have hentries : ((startedTen t).startUnit TimerScheduler.timerA false).mgr.units.entries =
      [(TimerScheduler.timerA, { name := TimerScheduler.timerA, kind := .timer t })] := by
    have hstart : ∀ s : TimerScheduler, (s.startUnit TimerScheduler.timerA false).mgr.units =
        s.mgr.units := by
      intro s
      simp only [TimerScheduler.startUnit]
      rw [if_pos (show TimerScheduler.timerA.kind = .timer from rfl)]
      unfold TimerScheduler.stampIfNeeded
      split
      · split <;> rfl
      · rfl
    rw [hstart]
    rfl
  rw [hentries, List.mem_singleton] at hmem
  obtain ⟨rfl, rfl⟩ := Prod.mk.inj hmem
  exact ⟨rfl, (UnitTypeData.timer.inj hu).symm⟩

/-- A second before the hour, the hour arrives next. -/
theorem arrives_hour {spec : CalendarSpec} (hs : spec ∈ hourly.onCalendar) :
    Arrives spec ⟨1799999999000000000⟩ (.ofSec 1800000000) := by
  have hsec : (DateTime.mk 1799999999000000000).sec = 1799999999 := rfl
  refine ⟨by decide, (matches_hourly hs).mpr (by decide), fun p hlo hhi => ?_, ?_, by decide⟩
  · rw [hsec] at hlo
    rw [DateTime.sec_ofSec] at hhi
    omega
  · rw [hsec]
    exact Or.inl ⟨fun p _ _ => smooth_hourly hs p, rfl⟩

end Systeml.Runtime
