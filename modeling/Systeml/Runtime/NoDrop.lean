import Systeml.Runtime.Instants

/-!
# Which calendar instants the scheduler drops

Each iteration of the scheduler computes a deadline and comes back to the top of its loop. It
fires a timer exactly if this is the first in line where the iteration begins and nothing but
the end of the sleep ends it (`fires_iff`).

So an instant of a timer that lies between two computations is dropped unless one of the
iterations in between takes the timer's turn, or the timer is persistent and the later
computation catches up (`no_instant_dropped`).
-/

namespace Systeml.Runtime

open Systeml.Lib Systeml.Unit

namespace TimerScheduler

variable {s s' : TimerScheduler} {T : UnitName} {t : TimerUnit}

/-! ## Last fires are past -/

/-- Nothing recorded is in the future. -/
structure Past (s : TimerScheduler) : Prop where
  start : s.managerStart.nanos ≤ s.clock.nanos
  lastFires : ∀ n x, s.lastFires.get? n = some x → x.nanos ≤ s.clock.nanos
  stamps : ∀ n x, s.stamps.get? n = some x → x * 1000000000 ≤ s.clock.nanos
  firing : ∀ n x u, s.phase = .firing n x u → x.nanos ≤ s.clock.nanos

theorem Past.lastFire (h : Past s) {x : DateTime} (hx : s.lastFire T = some x) :
    x.nanos ≤ s.clock.nanos := by
  unfold TimerScheduler.lastFire at hx
  cases hl : s.lastFires.get? T with
  | some y =>
    rw [hl] at hx
    exact Option.some.inj hx ▸ h.lastFires T y hl
  | none =>
    rw [hl] at hx
    simp only [readLastFire] at hx
    cases hs : s.stamps.get? T with
    | none =>
      rw [hs] at hx
      exact absurd hx (by simp)
    | some v =>
      rw [hs] at hx
      simp only at hx
      split at hx
      · exact Option.some.inj hx ▸ h.stamps T v hs
      · exact absurd hx (by simp)

theorem Past.writeLastFire (h : Past s) {x : DateTime} (hx : x.nanos ≤ s.clock.nanos)
    (name : UnitName) (saved : Bool) : Past (s.writeLastFire name x saved) := by
  unfold TimerScheduler.writeLastFire
  split
  · refine ⟨h.start, h.lastFires, fun n v hv => ?_, h.firing⟩
    by_cases hn : n = name
    · subst hn
      simp only [IndexMap.get?_insert_self, Option.some.injEq] at hv
      have := x.nanos_eq
      have := x.subsec_bounds
      simp only
      omega
    · exact h.stamps n v (by simpa only [IndexMap.get?_insert_ne hn] using hv)
  · exact h

theorem Past.manager (h : Past s) (m : Manager) : Past { s with mgr := m } :=
  ⟨h.start, h.lastFires, h.stamps, h.firing⟩

theorem Past.stampIfNeeded (h : Past s) (name : UnitName) (saved : Bool) :
    Past (s.stampIfNeeded name saved) := by
  unfold TimerScheduler.stampIfNeeded
  split
  · split
    · exact h.writeLastFire (Int.le_refl _) name saved
    · exact h
  · exact h

theorem Past.startUnit (h : Past s) (name : UnitName) (saved : Bool) :
    Past (s.startUnit name saved) := by
  unfold TimerScheduler.startUnit
  simp only
  split
  · exact (h.manager _).stampIfNeeded name saved
  · exact h.manager _

theorem Past.watch (h : Past s) (timer target : UnitName) : Past (s.watch timer target) := by
  unfold TimerScheduler.watch
  split
  · exact ⟨h.start, h.lastFires, h.stamps, h.firing⟩
  · exact h.manager _

@[simp] theorem writeLastFire_clock (s : TimerScheduler) (n : UnitName) (x : DateTime)
    (saved : Bool) : (s.writeLastFire n x saved).clock = s.clock := by
  unfold writeLastFire
  split <;> rfl

@[simp] theorem stampIfNeeded_clock (s : TimerScheduler) (n : UnitName) (saved : Bool) :
    (s.stampIfNeeded n saved).clock = s.clock := by
  unfold stampIfNeeded
  split
  · split <;> simp
  · rfl

@[simp] theorem startUnit_clock (s : TimerScheduler) (n : UnitName) (saved : Bool) :
    (s.startUnit n saved).clock = s.clock := by
  unfold startUnit
  simp only
  split <;> simp

@[simp] theorem watch_clock (s : TimerScheduler) (n m : UnitName) :
    (s.watch n m).clock = s.clock := by
  unfold watch
  split <;> rfl

theorem Past.insertFire (h : Past s) {x : DateTime} (hx : x.nanos ≤ s.clock.nanos)
    (name : UnitName) : Past { s with lastFires := s.lastFires.insert name x } := by
  refine ⟨h.start, fun n v hv => ?_, h.stamps, h.firing⟩
  by_cases hn : n = name
  · subst hn
    rw [IndexMap.get?_insert_self] at hv
    exact Option.some.inj hv ▸ hx
  · rw [IndexMap.get?_insert_ne hn] at hv
    exact h.lastFires n v hv

theorem Past.fire (h : Past s) {x : DateTime} (hx : x.nanos ≤ s.clock.nanos)
    (timer target : UnitName) (saved : Bool) : Past (s.fire timer x target saved) := by
  have hfired := ((h.manager (s.mgr.markState timer .active .running)).startUnit target
    saved).watch timer target
  unfold TimerScheduler.fire
  simp only
  split
  · exact (hfired.insertFire (by simpa using hx) timer).writeLastFire (by simpa using hx) timer saved
  · exact hfired

theorem Past.setPhase (h : Past s) {p : Phase}
    (hp : ∀ n x u, p = .firing n x u → x.nanos ≤ s.clock.nanos) : Past { s with phase := p } :=
  ⟨h.start, h.lastFires, h.stamps, hp⟩

theorem Past.handleEvent (h : Past s) (e : Received) : Past (s.handleEvent e) := by
  have hdrop : ∀ {m : IndexMap UnitName UnitName} {p : Phase}, (∀ n x u, p ≠ .firing n x u) →
      Past { s with triggers := m, phase := p } := fun hp =>
    ⟨h.start, h.lastFires, h.stamps, fun n x u he => absurd he (hp n x u)⟩
  unfold TimerScheduler.handleEvent
  cases e with
  | stateChanged unit state =>
    simp only
    split
    · exact hdrop (by simp)
    · split <;> exact hdrop (by simp)
  | unitRemoved unit =>
    simp only
    split <;> exact hdrop (by simp)
  | lagged => exact hdrop (by simp)
  | other => exact hdrop (by simp)

theorem Past.flipToWaiting (h : Past s) (timer : UnitName) : Past (s.flipToWaiting timer) := by
  unfold TimerScheduler.flipToWaiting
  split
  · exact h.manager _
  · exact h

theorem past_step {a : Action} (h : Past s) (hs : s.step a = some s') : Past s' := by
  cases a with
  | pass d =>
    obtain rfl := Option.some.inj hs
    have hlater : ∀ {x : Int}, x ≤ s.clock.nanos → x ≤ s.clock.nanos + d := fun h => by omega
    exact ⟨hlater h.start, fun n x hx => hlater (h.lastFires n x hx),
      fun n x hx => hlater (h.stamps n x hx), fun n x u hx => hlater (h.firing n x u hx)⟩
  | manager m => exact Option.some.inj hs ▸ h.manager m
  | activate n saved => exact Option.some.inj hs ▸ h.startUnit n saved
  | compute =>
    simp only [step] at hs
    split at hs
    · split at hs <;> exact Option.some.inj hs ▸ h.setPhase (by simp)
    · exact absurd hs (by simp)
  | wake =>
    simp only [step] at hs
    split at hs
    · split at hs
      · split at hs
        · obtain rfl := Option.some.inj hs
          exact h.setPhase fun n x u he => by
            cases he
            assumption
        · exact Option.some.inj hs ▸ h.setPhase (by simp)
      · exact absurd hs (by simp)
    · exact absurd hs (by simp)
  | fire n saved =>
    simp only [step] at hs
    split at hs
    next timer fireTime target hphase =>
      split at hs
      · obtain rfl := Option.some.inj hs
        exact (h.fire (h.firing _ _ _ hphase) timer target saved).setPhase (by simp)
      · exact absurd hs (by simp)
    · exact absurd hs (by simp)
  | refresh | shutdown =>
    simp only [step] at hs
    split at hs
    · exact Option.some.inj hs ▸ h.setPhase (by simp)
    · exact absurd hs (by simp)
  | event e =>
    simp only [step] at hs
    split at hs
    · exact Option.some.inj hs ▸ h.handleEvent e
    · exact absurd hs (by simp)
  | flip =>
    simp only [step] at hs
    split at hs
    · exact Option.some.inj hs ▸ (h.flipToWaiting _).setPhase (by simp)
    · exact Option.some.inj hs ▸ h.setPhase (by simp)
    · exact absurd hs (by simp)

/-! ## What changes the last fire of a timer -/

/-- The step starts the timer itself. -/
def Restarts (T : UnitName) (s : TimerScheduler) : Action → Prop
  | .activate n _ => n = T
  | .fire _ _ => ∃ timer x, s.phase = .firing timer x T
  | _ => False

/-- What the anchor of a timer depends on is the same. -/
structure SameRecord (T : UnitName) (s s' : TimerScheduler) : Prop where
  lastFires : s'.lastFires.get? T = s.lastFires.get? T
  stamps : s'.stamps.get? T = s.stamps.get? T
  start : s'.managerStart = s.managerStart

/-- The instant after which a persistent timer catches up. -/
def anchor (s : TimerScheduler) (T : UnitName) : DateTime := (s.lastFire T).getD s.managerStart

theorem SameRecord.anchor (h : SameRecord T s s') : s'.anchor T = s.anchor T := by
  unfold TimerScheduler.anchor lastFire readLastFire
  rw [h.lastFires, h.stamps, h.start]

theorem Past.anchor (h : Past s) (T : UnitName) : (s.anchor T).nanos ≤ s.clock.nanos := by
  unfold TimerScheduler.anchor
  cases hl : s.lastFire T with
  | none => exact h.start
  | some x => exact h.lastFire hl

theorem SameRecord.trans {s'' : TimerScheduler} (h : SameRecord T s s') (h' : SameRecord T s' s'') :
    SameRecord T s s'' :=
  ⟨h'.lastFires.trans h.lastFires, h'.stamps.trans h.stamps, h'.start.trans h.start⟩

theorem sameRecord_writeLastFire {n : UnitName} (hn : T ≠ n) (s : TimerScheduler) (x : DateTime)
    (saved : Bool) : SameRecord T s (s.writeLastFire n x saved) := by
  unfold writeLastFire
  split
  · exact ⟨rfl, IndexMap.get?_insert_ne hn _ _, rfl⟩
  · exact ⟨rfl, rfl, rfl⟩

theorem SameRecord.insertFire {n : UnitName} (h : SameRecord T s s') (hn : T ≠ n) (x : DateTime) :
    SameRecord T s { s' with lastFires := s'.lastFires.insert n x } :=
  ⟨(IndexMap.get?_insert_ne hn _ _).trans h.lastFires, h.stamps, h.start⟩

theorem sameRecord_startUnit {n : UnitName} (hn : T ≠ n) (s : TimerScheduler) (saved : Bool) :
    SameRecord T s (s.startUnit n saved) := by
  unfold startUnit stampIfNeeded
  simp only
  split
  · split
    · split
      · have h := sameRecord_writeLastFire hn { s with mgr := (s.mgr.startUnit n).mgr } s.clock saved
        exact ⟨h.lastFires, h.stamps, h.start⟩
      · exact ⟨rfl, rfl, rfl⟩
    · exact ⟨rfl, rfl, rfl⟩
  · exact ⟨rfl, rfl, rfl⟩

theorem sameRecord_fire {timer target : UnitName} (ht : T ≠ timer) (hn : T ≠ target)
    (s : TimerScheduler) (x : DateTime) (saved : Bool) :
    SameRecord T s (s.fire timer x target saved) := by
  have hstart : SameRecord T s (({ s with mgr := s.mgr.markState timer .active .running }.startUnit
      target saved).watch timer target) := by
    have h := sameRecord_startUnit hn { s with mgr := s.mgr.markState timer .active .running } saved
    unfold watch
    split <;> exact ⟨h.lastFires, h.stamps, h.start⟩
  unfold TimerScheduler.fire
  simp only
  split
  · exact (hstart.insertFire ht x).trans (sameRecord_writeLastFire ht _ x saved)
  · exact hstart

theorem sameRecord_handleEvent (s : TimerScheduler) (e : Received) :
    SameRecord T s (s.handleEvent e) := by
  unfold handleEvent
  cases e with
  | stateChanged unit state =>
    simp only
    split
    · exact ⟨rfl, rfl, rfl⟩
    · split <;> exact ⟨rfl, rfl, rfl⟩
  | unitRemoved unit =>
    simp only
    split <;> exact ⟨rfl, rfl, rfl⟩
  | lagged | other => exact ⟨rfl, rfl, rfl⟩

/-- **Only firing it or starting it changes what is recorded of a timer.** -/
theorem sameRecord_step {a : Action} (hs : s.step a = some s') (hr : ¬ Restarts T s a)
    (hf : ∀ saved, a ≠ .fire T saved) : SameRecord T s s' := by
  cases a with
  | pass d | manager m => exact Option.some.inj hs ▸ ⟨rfl, rfl, rfl⟩
  | activate n saved =>
    exact Option.some.inj hs ▸ sameRecord_startUnit (fun he => hr he.symm) s saved
  | compute =>
    simp only [step] at hs
    split at hs
    · split at hs <;> exact Option.some.inj hs ▸ ⟨rfl, rfl, rfl⟩
    · exact absurd hs (by simp)
  | wake =>
    simp only [step] at hs
    split at hs
    · split at hs
      · split at hs <;> exact Option.some.inj hs ▸ ⟨rfl, rfl, rfl⟩
      · exact absurd hs (by simp)
    · exact absurd hs (by simp)
  | fire n saved =>
    simp only [step] at hs
    split at hs
    next timer fireTime target hphase =>
      split at hs
      next hn =>
        obtain rfl := Option.some.inj hs
        have htimer : T ≠ timer := fun he => hf saved (by rw [he, hn])
        have htarget : T ≠ target := fun he => hr ⟨timer, fireTime, by rw [hphase, he]⟩
        have h := sameRecord_fire htimer htarget s fireTime saved
        exact ⟨h.lastFires, h.stamps, h.start⟩
      next => exact absurd hs (by simp)
    next => exact absurd hs (by simp)
  | refresh | shutdown =>
    simp only [step] at hs
    split at hs
    · exact Option.some.inj hs ▸ ⟨rfl, rfl, rfl⟩
    · exact absurd hs (by simp)
  | event e =>
    simp only [step] at hs
    split at hs
    · exact Option.some.inj hs ▸ sameRecord_handleEvent s e
    · exact absurd hs (by simp)
  | flip =>
    simp only [step] at hs
    split at hs
    · obtain rfl := Option.some.inj hs
      unfold flipToWaiting
      split <;> exact ⟨rfl, rfl, rfl⟩
    · exact Option.some.inj hs ▸ ⟨rfl, rfl, rfl⟩
    · exact absurd hs (by simp)

/-! ## Rounds -/

/-- The timer is loaded with this definition and active. -/
def Kept (T : UnitName) (t : TimerUnit) (s : TimerScheduler) : Prop :=
  s.timerUnit T = some t ∧ s.mgr.isActive T = true

/-- The steps keep the timer as it is. -/
def Keeps (T : UnitName) (t : TimerUnit) (s : TimerScheduler) (a : Action) : Prop :=
  Kept T t s ∧ ¬ Restarts T s a

/-- Iterations of the loop, given by what happens in them after they compute: each comes back
to the top, with any steps of other tasks in between. -/
inductive Rounds : TimerScheduler → List (List Action) → TimerScheduler → Prop
  | refl (s : TimerScheduler) : Rounds s [] s
  | round {s s' s'' : TimerScheduler} {as : List Action} {rs : List (List Action)}
      (hready : s.phase = .ready) (hone : .compute ∉ as)
      (hrun : runs step s (.compute :: as) = some s') (hready' : s'.phase = .ready)
      (rest : Rounds s' rs s'') : Rounds s (as :: rs) s''

/-- The steps of the iterations. -/
def stepsOf (rs : List (List Action)) : List Action := rs.flatMap (.compute :: ·)

/-- No control message and no event is dealt with. -/
def Quiet (as : List Action) : Prop := .refresh ∉ as ∧ ∀ e, .event e ∉ as

/-- The timer is fired. -/
def Fires (T : UnitName) (as : List Action) : Prop := ∃ saved, .fire T saved ∈ as

/-- One of the iterations is the timer's: it is first in line, and no message or event comes in
between. -/
def TakesTurn (T : UnitName) (s : TimerScheduler) (rs : List (List Action)) : Prop :=
  ∃ pre as post v, rs = pre ++ as :: post ∧ Rounds s pre v ∧ v.FirstInLine T ∧ Quiet as

@[simp] theorem startUnit_phase (s : TimerScheduler) (n : UnitName) (saved : Bool) :
    (s.startUnit n saved).phase = s.phase := by
  unfold startUnit stampIfNeeded writeLastFire
  simp only
  split
  · split
    · split
      · split <;> rfl
      · rfl
    · rfl
  · rfl

/-- The task does not wait for a deadline or a lock. -/
def Idle : Phase → Prop
  | .waiting _ | .firing .. => False
  | _ => True

theorem idle_handleEvent (s : TimerScheduler) (e : Received) : Idle (s.handleEvent e).phase := by
  unfold handleEvent
  cases e with
  | stateChanged unit state =>
    simp only
    split
    · trivial
    · split <;> trivial
  | unitRemoved unit =>
    simp only
    split <;> trivial
  | lagged | other => trivial

theorem quiet_cons {a : Action} {as : List Action} (hr : a ≠ .refresh) (he : ∀ e, a ≠ .event e) :
    Quiet (a :: as) ↔ Quiet as := by
  unfold Quiet
  simp only [List.mem_cons, not_or, hr.symm, not_false_eq_true, true_and,
    (he _).symm]

theorem fires_cons {a : Action} {as : List Action} (h : ∀ saved, a ≠ .fire T saved) :
    Fires T (a :: as) ↔ Fires T as := by
  unfold Fires
  simp only [List.mem_cons, (h _).symm, false_or]

/-- Until it computes again, an idle task deals with no message and fires nothing. -/
theorem idle_runs : ∀ {as : List Action} {s : TimerScheduler}, Idle s.phase → .compute ∉ as →
    runs step s as = some s' → Quiet as ∧ ∀ n, ¬ Fires n as
  | [], s, _, _, _ => ⟨⟨List.not_mem_nil, fun _ => List.not_mem_nil⟩,
      fun n h => h.elim fun _ h => absurd h List.not_mem_nil⟩
  | a :: as, s, hidle, hone, hrun => by
    obtain ⟨v, hs, hrun⟩ := runs_cons.mp hrun
    have hone' : .compute ∉ as := fun h => hone (List.mem_cons_of_mem a h)
    have hgo : Idle v.phase → a ≠ .refresh → (∀ e, a ≠ .event e) → (∀ n saved, a ≠ .fire n saved) →
        Quiet (a :: as) ∧ ∀ n, ¬ Fires n (a :: as) := by
      intro hv hr he hf
      obtain ⟨hq, hnone⟩ := idle_runs hv hone' hrun
      exact ⟨(quiet_cons hr he).mpr hq, fun n h => hnone n ((fires_cons (hf n)).mp h)⟩
    cases a with
    | pass d | manager m =>
      obtain rfl := Option.some.inj hs
      exact hgo hidle (by simp) (by simp) (by simp)
    | activate n saved =>
      obtain rfl := Option.some.inj hs
      exact hgo ((startUnit_phase s n saved).symm ▸ hidle) (by simp) (by simp) (by simp)
    | compute => exact absurd List.mem_cons_self hone
    | flip =>
      refine hgo ?_ (by simp) (by simp) (by simp)
      simp only [step] at hs
      split at hs
      · exact Option.some.inj hs ▸ trivial
      · exact Option.some.inj hs ▸ trivial
      · exact absurd hs (by simp)
    | wake | fire n saved | refresh | shutdown | event e =>
      simp only [step] at hs
      split at hs
      next h =>
        rw [h] at hidle
        exact hidle.elim
      next => exact absurd hs (by simp)

/-- Once the task has ended it does not come back to the top of its loop. -/
theorem stopped_step {a : Action} (h : s.phase = .stopped) (hs : s.step a = some s') :
    s'.phase = .stopped := by
  cases a with
  | pass d | manager m => exact Option.some.inj hs ▸ h
  | activate n saved => exact Option.some.inj hs ▸ (startUnit_phase s n saved).trans h
  | compute | wake | fire n saved | refresh | shutdown | event e | flip =>
    simp only [step, h] at hs
    exact absurd hs (by simp)

theorem stopped_runs {as : List Action} (h : s.phase = .stopped) (hrun : runs step s as = some s') :
    s'.phase = .stopped :=
  runs_inv (fun _ _ _ hs (_ : True) h => stopped_step hs h) h (Along.of_labels fun _ _ => trivial)
    hrun

/-- A timer that is about to fire does. -/
theorem firing_fires {d : DateTime} {n u : UnitName} : ∀ {as : List Action} {s : TimerScheduler},
    s.phase = .firing n d u → .compute ∉ as → runs step s as = some s' → s'.phase = .ready →
    (Fires T as ↔ n = T) ∧ Quiet as
  | [], s, hphase, _, hrun, hready => by
    obtain rfl := Option.some.inj hrun
    rw [hphase] at hready
    exact absurd hready (by simp)
  | a :: as, s, hphase, hone, hrun, hready => by
    obtain ⟨v, hs, hrun⟩ := runs_cons.mp hrun
    have hone' : .compute ∉ as := fun h => hone (List.mem_cons_of_mem a h)
    have hgo : v.phase = .firing n d u → a ≠ .refresh → (∀ e, a ≠ .event e) →
        (∀ saved, a ≠ .fire T saved) → (Fires T (a :: as) ↔ n = T) ∧ Quiet (a :: as) := by
      intro hv hr he hf
      rw [quiet_cons hr he, fires_cons hf]
      exact firing_fires hv hone' hrun hready
    cases a with
    | pass d | manager m =>
      obtain rfl := Option.some.inj hs
      exact hgo hphase (by simp) (by simp) (by simp)
    | activate m saved =>
      obtain rfl := Option.some.inj hs
      exact hgo ((startUnit_phase s m saved).trans hphase) (by simp) (by simp) (by simp)
    | fire m saved =>
      simp only [step, hphase] at hs
      split at hs
      next hm =>
        subst hm
        obtain rfl := Option.some.inj hs
        obtain ⟨hq, hnone⟩ := idle_runs (by trivial) hone' hrun
        refine ⟨⟨?_, fun he => ⟨saved, he ▸ List.mem_cons_self⟩⟩,
          (quiet_cons (by simp) (by simp)).mpr hq⟩
        rintro ⟨saved', hmem⟩
        obtain he | hmem := List.mem_cons.mp hmem
        · exact (Action.fire.inj he).1.symm
        · exact absurd ⟨saved', hmem⟩ (hnone T)
      next => exact absurd hs (by simp)
    | compute => exact absurd List.mem_cons_self hone
    | wake | refresh | shutdown | event e | flip =>
      simp only [step, hphase] at hs
      exact absurd hs (by simp)

/-- A timer that is waited for is fired unless a message or an event comes first. -/
theorem waiting_fires {next : Option (DateTime × UnitName)} : ∀ {as : List Action}
    {s : TimerScheduler}, s.phase = .waiting next → .compute ∉ as → runs step s as = some s' →
    s'.phase = .ready → Along step (fun v _ => Kept T t v) s as →
    (Fires T as ↔ (∃ d, next = some (d, T)) ∧ Quiet as)
  | [], s, hphase, _, hrun, hready, _ => by
    obtain rfl := Option.some.inj hrun
    rw [hphase] at hready
    exact absurd hready (by simp)
  | a :: as, s, hphase, hone, hrun, hready, hkept => by
    obtain ⟨v, hs, hrun⟩ := runs_cons.mp hrun
    have hone' : .compute ∉ as := fun h => hone (List.mem_cons_of_mem a h)
    have hgo : v.phase = .waiting next → a ≠ .refresh → (∀ e, a ≠ .event e) →
        (∀ saved, a ≠ .fire T saved) →
        (Fires T (a :: as) ↔ (∃ d, next = some (d, T)) ∧ Quiet (a :: as)) := by
      intro hv hr he hf
      rw [quiet_cons hr he, fires_cons hf]
      exact waiting_fires hv hone' hrun hready (hkept.2 v hs)
    -- after a message or an event the iteration ends without a fire
    have hdone : Idle v.phase → (∀ saved, a ≠ .fire T saved) → ¬ Quiet (a :: as) →
        (Fires T (a :: as) ↔ (∃ d, next = some (d, T)) ∧ Quiet (a :: as)) := by
      intro hv hf hq
      rw [fires_cons hf]
      exact iff_of_false ((idle_runs hv hone' hrun).2 T) fun h => hq h.2
    cases a with
    | pass d | manager m =>
      obtain rfl := Option.some.inj hs
      exact hgo hphase (by simp) (by simp) (by simp)
    | activate m saved =>
      obtain rfl := Option.some.inj hs
      exact hgo ((startUnit_phase s m saved).trans hphase) (by simp) (by simp) (by simp)
    | compute => exact absurd List.mem_cons_self hone
    | wake =>
      rw [quiet_cons (by simp) (by simp), fires_cons (by simp)]
      simp only [step, hphase] at hs
      split at hs
      next deadline n hwait =>
        obtain rfl := Phase.waiting.inj hwait
        split at hs
        · split at hs
          next =>
            obtain rfl := Option.some.inj hs
            obtain ⟨hfires, hq⟩ := firing_fires (T := T) rfl hone' hrun hready
            rw [hfires, and_iff_left hq]
            constructor
            · rintro rfl
              exact ⟨deadline, rfl⟩
            · rintro ⟨d, hd⟩
              exact (Prod.mk.inj (Option.some.inj hd)).2
          next hgone =>
            -- the timer that was waited for is gone, so it is another one
            obtain rfl := Option.some.inj hs
            refine iff_of_false ((idle_runs (by trivial) hone' hrun).2 T) ?_
            rintro ⟨⟨d, hd⟩, -⟩
            obtain ⟨-, rfl⟩ := Prod.mk.inj (Option.some.inj hd)
            exact absurd (hkept.1.1.symm.trans hgone) (by simp)
        · exact absurd hs (by simp)
      next => exact absurd hs (by simp)
    | refresh =>
      simp only [step, hphase] at hs
      obtain rfl := Option.some.inj hs
      exact hdone (by trivial) (by simp) fun hq => hq.1 List.mem_cons_self
    | event e =>
      simp only [step, hphase] at hs
      obtain rfl := Option.some.inj hs
      exact hdone (idle_handleEvent s e) (by simp) fun hq => hq.2 e List.mem_cons_self
    | shutdown =>
      simp only [step, hphase] at hs
      obtain rfl := Option.some.inj hs
      have hstopped := stopped_runs rfl hrun
      rw [hready] at hstopped
      exact absurd hstopped (by simp)
    | fire m saved | flip =>
      simp only [step, hphase] at hs
      exact absurd hs (by simp)

/-- **Which timer an iteration fires**: the first in line, unless a message or an event ends
it. -/
theorem fires_iff {as : List Action} (hready : s.phase = .ready) (hone : .compute ∉ as)
    (hrun : runs step s (.compute :: as) = some s') (hready' : s'.phase = .ready)
    (hkept : Along step (fun v _ => Kept T t v) s (.compute :: as)) :
    Fires T as ↔ s.FirstInLine T ∧ Quiet as := by
  obtain ⟨v, hs, hrun⟩ := runs_cons.mp hrun
  have hkept' := hkept.2 v hs
  simp only [step, hready] at hs
  split at hs
  next next hnext =>
    obtain rfl := Option.some.inj hs
    rw [waiting_fires rfl hone hrun hready' hkept', computeNext_iff hnext]
  next =>
    obtain rfl := Option.some.inj hs
    have hstopped := stopped_runs rfl hrun
    rw [hready'] at hstopped
    exact absurd hstopped (by simp)

theorem Rounds.runs {rs : List (List Action)} (h : Rounds s rs s') :
    runs step s (stepsOf rs) = some s' := by
  induction h with
  | refl s => rfl
  | @round s s' s'' as rs _ _ hrun _ _ ih => exact runs_append.mpr ⟨_, hrun, ih⟩

/-- **Over iterations**: the timer is fired exactly if one of them takes its turn. -/
theorem fires_rounds_iff {rs : List (List Action)} (h : Rounds s rs s')
    (hkept : Along step (fun v _ => Kept T t v) s (stepsOf rs)) :
    (∃ as ∈ rs, Fires T as) ↔ TakesTurn T s rs := by
  induction h with
  | refl s =>
    refine iff_of_false (fun h => ?_) fun h => ?_
    · obtain ⟨as, hmem, -⟩ := h
      exact absurd hmem List.not_mem_nil
    · obtain ⟨pre, as, post, v, he, -⟩ := h
      exact absurd he (by simp)
  | @round s s' s'' as rs hready hone hrun hready' rest ih =>
    have hsplit : Along step (fun v _ => Kept T t v) s ((.compute :: as) ++ stepsOf rs) := hkept
    obtain ⟨hhere, hthere⟩ := hsplit.append
    have hfires := fires_iff hready hone hrun hready' hhere
    have hrest := ih (hthere s' hrun)
    constructor
    · rintro ⟨bs, hmem, hbs⟩
      obtain rfl | hmem := List.mem_cons.mp hmem
      · obtain ⟨hfirst, hq⟩ := hfires.mp hbs
        exact ⟨[], bs, rs, s, rfl, .refl s, hfirst, hq⟩
      · obtain ⟨pre, cs, post, v, rfl, hpre, hfirst, hq⟩ := hrest.mp ⟨bs, hmem, hbs⟩
        exact ⟨as :: pre, cs, post, v, rfl, .round hready hone hrun hready' hpre, hfirst, hq⟩
    · rintro ⟨pre, cs, post, v, he, hpre, hfirst, hq⟩
      cases hpre with
      | refl =>
        obtain ⟨rfl, rfl⟩ := List.cons.inj he
        exact ⟨as, List.mem_cons_self, hfires.mpr ⟨hfirst, hq⟩⟩
      | round _ _ hrun' _ hpre =>
        obtain ⟨rfl, rfl⟩ := List.cons.inj he
        obtain rfl := Option.some.inj (hrun.symm.trans hrun')
        obtain ⟨bs, hmem, hbs⟩ := hrest.mpr ⟨_, cs, post, v, rfl, hpre, hfirst, hq⟩
        exact ⟨bs, List.mem_cons_of_mem as hmem, hbs⟩

/-- The scheduler as it is spawned. -/
structure Initial (s : TimerScheduler) : Prop where
  phase : s.phase = .ready
  start : s.managerStart = s.clock
  lastFires : s.lastFires = .empty
  triggers : s.triggers = .empty

/-- No stamp file is ahead of the clock. -/
def StampsPast (s : TimerScheduler) : Prop :=
  ∀ n x, s.stamps.get? n = some x → x * 1000000000 ≤ s.clock.nanos

theorem Initial.past (h : Initial s) (hstamps : StampsPast s) : Past s := by
  refine ⟨by rw [h.start], fun n x hx => ?_, hstamps, fun n x u hx => ?_⟩
  · rw [h.lastFires] at hx
    exact absurd hx (by simp)
  · rw [h.phase] at hx
    exact absurd hx (by simp)

/-! ## Two hourly timers -/

/-- An hourly timer that is not persistent. -/
def hourlyTimer : TimerUnit := { hourly with persistent := false }

def timerA : UnitName := .plain "a".toList .timer

def timerB : UnitName := .plain "b".toList .timer

/-- Two of them, a second before the hour. -/
def two : TimerScheduler where
  clock := ⟨1799999999000000000⟩
  mgr := {
    units := .ofList [(timerA, { name := timerA, kind := .timer hourlyTimer }),
      (timerB, { name := timerB, kind := .timer hourlyTimer })]
    status := .ofList [(timerA, { active := .active }), (timerB, { active := .active })] }
  stamps := .empty
  managerStart := ⟨1799999999000000000⟩
  lastFires := .empty
  triggers := .empty
  phase := .ready

/-- The hour passes, and the first of them fires. -/
def fireFirst : List Action := [.compute, .pass 1000000000, .wake, .fire timerA true]

def twoFired : TimerScheduler := (runs step two fireFirst).getD two

theorem runs_fireFirst : runs step two fireFirst = some twoFired := rfl

theorem initial_two : Initial two := ⟨rfl, rfl, rfl, rfl⟩

theorem stampsPast_two : StampsPast two := fun _ _ h => absurd h (by simp [two])

theorem keeps_fireFirst {T : UnitName} (h : T = timerA ∨ T = timerB) :
    Along step (Keeps T hourlyTimer) two fireFirst := by
  have hkept : Kept T hourlyTimer two := by rcases h with rfl | rfl <;> exact ⟨rfl, rfl⟩
  refine ⟨⟨hkept, id⟩, fun s₁ h₁ => ?_⟩
  obtain rfl := Option.some.inj h₁
  refine ⟨⟨hkept, id⟩, fun s₂ h₂ => ?_⟩
  obtain rfl := Option.some.inj h₂
  refine ⟨⟨hkept, id⟩, fun s₃ h₃ => ?_⟩
  obtain rfl := Option.some.inj h₃
  refine ⟨⟨hkept, ?_⟩, fun s₄ h₄ => trivial⟩
  rintro ⟨timer, x, hphase⟩
  have : T.kind = .service := by
    cases hphase
    rfl
  rcases h with rfl | rfl <;> exact absurd this (by decide)

/-- On the hour such a timer is not due. -/
theorem not_due_hourly : ¬ Due ⟨1800000000000000000⟩ ⟨1799999999000000000⟩ none none none
    hourlyTimer none := by
  rintro ⟨t, ht, hle⟩
  have hnext : nextOverall ⟨1800000000000000000⟩ ⟨1799999999000000000⟩ none none none hourlyTimer
    none = .ok (some ⟨1800003600000000000⟩) := rfl
  rw [hnext] at ht
  obtain rfl := Option.some.inj (Except.ok.inj ht)
  exact absurd hle (by decide)

/-! ## Every instant -/

/-- The timer is persistent, the computation goes through, and the catch-up is after one of its
instants. -/
structure Overdue (s : TimerScheduler) (T : UnitName) (t : TimerUnit) : Prop where
  reach : Reach s.clock s.managerStart t (s.lastFire T)
  persistent : t.persistent = true
  missed : ∃ spec ∈ t.onCalendar,
    Covered s.clock (s.anchor T) spec ∨ Shadowed s.clock (s.anchor T) spec

theorem due_iff_overdue :
    Due s.clock s.managerStart none none none t (s.lastFire T) ↔ Overdue s T t := by
  constructor
  · intro h
    obtain ⟨d, hd, -⟩ := id h
    have hr := nextOverall_isOk.mp ⟨_, hd⟩
    obtain ⟨hp, hmissed⟩ := (due_iff hr).mp h
    exact ⟨hr, hp, hmissed⟩
  · intro h
    exact (due_iff h.reach).mpr ⟨h.persistent, h.missed⟩

/-- **No calendar instant is dropped** exactly if, where one lies between two computations, an
iteration in between takes the timer's turn, or the later computation catches up. -/
theorem no_instant_dropped_iff {s₁ s₂ : TimerScheduler} {rs : List (List Action)}
    (hrounds : Rounds s₁ rs s₂) (hkept : Along step (fun v _ => Kept T t v) s₁ (stepsOf rs)) :
    (∀ spec ∈ t.onCalendar, ∀ p, Matches spec p → s₁.clock.nanos < p * 1000000000 →
        p * 1000000000 ≤ s₂.clock.nanos → (∃ as ∈ rs, Fires T as) ∨
          Due s₂.clock s₂.managerStart none none none t (s₂.lastFire T)) ↔
      (HasInstant t s₁.clock s₂.clock → TakesTurn T s₁ rs ∨ Overdue s₂ T t) := by
  rw [fires_rounds_iff hrounds hkept, due_iff_overdue]
  constructor
  · intro h hinstant
    obtain ⟨spec, hs, p, hm, hlo, hhi⟩ := hinstant
    exact h spec hs p hm hlo hhi
  · intro h spec hs p hm hlo hhi
    exact h ⟨spec, hs, p, hm, hlo, hhi⟩

theorem rounds_fireFirst : Rounds two [fireFirst.tail] twoFired :=
  .round rfl (by simp [fireFirst]) runs_fireFirst rfl (.refl twoFired)

theorem takesTurn_first : TakesTurn timerA two [fireFirst.tail] := by
  have hnext : two.computeNext = .ok (some (⟨1800000000000000000⟩, timerA)) := rfl
  exact ⟨[], fireFirst.tail, [], two, rfl, .refl two, (computeNext_iff hnext).mp ⟨_, rfl⟩,
    by simp [Quiet, fireFirst]⟩

/-- The first of the two timers is fired for the hour. -/
theorem no_instant_dropped_iff_first : (∃ as ∈ [fireFirst.tail], Fires timerA as) ∨
    Due twoFired.clock twoFired.managerStart none none none hourlyTimer
      (twoFired.lastFire timerA) := by
  have hkept : Along step (fun v _ => Kept timerA hourlyTimer v) two (stepsOf [fireFirst.tail]) :=
    (keeps_fireFirst (Or.inl rfl)).imp fun _ _ h => h.1
  refine (no_instant_dropped_iff rounds_fireFirst hkept).mpr (fun _ => Or.inl takesTurn_first) _
    (List.mem_singleton_self _) 1800000000 ?_ (by decide) (by decide)
  exact (matches_hourly (List.mem_singleton_self _)).mpr (by decide)

/-- Without the condition the second one drops it. -/
theorem not_all_instants_kept :
    ¬ ∀ (s₀ s₁ s₂ : TimerScheduler) (as₀ as : List Action) (T : UnitName) (t : TimerUnit),
      Initial s₀ → StampsPast s₀ → runs step s₀ as₀ = some s₁ → T.kind = .timer →
      s₁.phase = .ready → runs step s₁ (.compute :: as) = some s₂ → s₂.phase = .ready →
      Along step (Keeps T t) s₁ (.compute :: as) →
      ∀ spec ∈ t.onCalendar, ∀ p, Matches spec p → s₁.clock.nanos < p * 1000000000 →
        p * 1000000000 ≤ s₂.clock.nanos → (∃ saved, .fire T saved ∈ as) ∨
          Due s₂.clock s₂.managerStart none none none t (s₂.lastFire T) := by
  intro h
  rcases h two two twoFired [] fireFirst.tail timerB hourlyTimer initial_two stampsPast_two rfl rfl
    rfl runs_fireFirst rfl (keeps_fireFirst (Or.inr rfl)) _ (List.mem_singleton_self _) 1800000000
    ((matches_hourly (List.mem_singleton_self _)).mpr (by decide)) (by decide) (by decide) with
    ⟨saved, hmem⟩ | hdue
  · exact absurd hmem (by simp [fireFirst, timerA, timerB, UnitName.plain])
  · exact not_due_hourly hdue

end TimerScheduler

end Systeml.Runtime
