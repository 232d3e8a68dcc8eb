import Systeml.Lib.Fallible
import Systeml.Unit.PrevFire
import Systeml.Unit.Spec

/-!
# When a timer is due

`nextOverall` combines the catch-up of a `Persistent=yes` timer, its `OnCalendar=`
schedules and its monotonic triggers; the earliest instant wins.

Everything but the catch-up is after `now` (`calendarLoop_later`), so a timer
without monotonic triggers is due at or before `now` exactly when the catch-up
found something (`nextOverall_due`). What the catch-up looks at for each schedule
is one match of the window of `prevFire`, with or without the fraction of `now`
(`passed_iff`).
-/

namespace Systeml.Runtime

open Systeml.Lib Systeml.Unit

/-! ## The calculation -/

/-- A standard duration as a signed one, in nanoseconds: the seconds are cast to
`i64`. -/
def duration (d : Nat) : Int :=
  Int.bmod (d / nanosPerSec : Nat) (2 ^ 64) * nanosPerSec + (d % nanosPerSec : Nat)

/-- The smaller, if there is one already. -/
def minT (a : Option DateTime) (b : DateTime) : DateTime :=
  match a with
  | none => b
  | some x => if x.nanos < b.nanos then x else b

/-- The loop of the catch-up: the first schedule with an instant after `anchor`
makes the timer due now. -/
def catchUp (now anchor : DateTime) :
    List CalendarSpec → Option DateTime → Except Panic (Option DateTime)
  | [], best => .ok best
  | spec :: rest, best => do
    match ← prevFire now spec with
    | some prev =>
      if anchor.nanos < prev.nanos then .ok (some (minT best now)) else catchUp now anchor rest best
    | none => catchUp now anchor rest best

/-- The loop over `OnCalendar=`. -/
def calendarLoop (now : DateTime) (lastFire : Option DateTime) :
    List CalendarSpec → Option DateTime → Except Panic (Option DateTime)
  | [], best => .ok best
  | spec :: rest, best => do
    match ← nextFire now spec lastFire with
    | some t => calendarLoop now lastFire rest (some (minT best t))
    | none => calendarLoop now lastFire rest best

/-- A monotonic trigger: `d` after `base`, if both are there and it is not past. -/
def trigger (now : DateTime) (d : Option SdDuration) (base best : Option DateTime) :
    Except Panic (Option DateTime) :=
  match d, base with
  | some d, some base => do
    let t ← base.add (duration d.asStd)
    if now.nanos < t.nanos then .ok (some (minT best t)) else .ok best
  | _, _ => .ok best

/-- The earliest instant at which the timer is due. There is no separate boot
time: `OnBootSec=` counts from the start of the manager. -/
def nextOverall (now managerStart : DateTime)
    (activatedAt lastUnitActive lastUnitInactive : Option DateTime) (timer : TimerUnit)
    (lastFire : Option DateTime) : Except Panic (Option DateTime) := do
  let best ← (if timer.persistent then
    catchUp now (lastFire.getD managerStart) timer.onCalendar none else .ok none)
  let best ← calendarLoop now lastFire timer.onCalendar best
  let best ← trigger now timer.onActiveSec activatedAt best
  let best ← trigger now timer.onStartupSec (some managerStart) best
  let best ← trigger now timer.onBootSec (some managerStart) best
  let best ← trigger now timer.onUnitActiveSec lastUnitActive best
  trigger now timer.onUnitInactiveSec lastUnitInactive best

/-- The timer is due by `now`. -/
def Due (now managerStart : DateTime) (activatedAt lastUnitActive lastUnitInactive : Option DateTime)
    (timer : TimerUnit) (lastFire : Option DateTime) : Prop :=
  ∃ t, nextOverall now managerStart activatedAt lastUnitActive lastUnitInactive timer lastFire =
    .ok (some t) ∧ t.nanos ≤ now.nanos

/-- The timer has schedules only. -/
structure CalendarOnly (timer : TimerUnit) : Prop where
  onActiveSec : timer.onActiveSec = none
  onStartupSec : timer.onStartupSec = none
  onBootSec : timer.onBootSec = none
  onUnitActiveSec : timer.onUnitActiveSec = none
  onUnitInactiveSec : timer.onUnitInactiveSec = none

theorem CalendarOnly.nextOverall_eq {timer : TimerUnit} (h : CalendarOnly timer)
    (now managerStart : DateTime) (a b c lastFire : Option DateTime) :
    nextOverall now managerStart a b c timer lastFire =
      ((if timer.persistent then catchUp now (lastFire.getD managerStart) timer.onCalendar none
        else .ok none) : Except Panic _).bind (calendarLoop now lastFire timer.onCalendar) := by
  have hbind : ∀ x : Except Panic (Option DateTime), (x.bind fun b => .ok b) = x := fun x => by
    cases x <;> rfl
  simp only [nextOverall, h.onActiveSec, h.onStartupSec, h.onBootSec, h.onUnitActiveSec,
    h.onUnitInactiveSec, trigger]
  congr 1
  funext best
  exact hbind _

/-! ## The schedules -/

theorem nanos_lt_of_sec_lt {a b : DateTime} (h : a.sec < b.sec) : a.nanos < b.nanos := by
  have ha := a.nanos_eq
  have hb := b.nanos_eq
  have := a.subsec_bounds
  have := b.subsec_bounds
  omega

theorem le_baselineOf (now : DateTime) (last : Option DateTime) :
    now.nanos ≤ (baselineOf now last).nanos := by
  unfold baselineOf
  cases last with
  | none => exact Int.le_refl _
  | some l =>
    simp only
    split <;> omega

/-- Whatever `next_fire` finds is after `now`. -/
theorem nextFire_later {now t : DateTime} {spec : CalendarSpec} {last : Option DateTime}
    (h : nextFire now spec last = .ok (some t)) : now.nanos < t.nanos := by
  obtain ⟨-, herr⟩ | ⟨-, hres⟩ := nextFire_spec now spec last
  · rw [herr] at h
    exact absurd h (by simp)
  · rw [h] at hres
    have hle := hres.le
    rw [(DateTime.sec_add _ 1).1] at hle
    have := le_baselineOf now last
    have := nanos_lt_of_sec_lt (show (baselineOf now last).sec < t.sec by omega)
    omega

theorem minT_due {now x : DateTime} {b : Option DateTime} (h : now.nanos < x.nanos) :
    (minT b x).nanos ≤ now.nanos ↔ ∃ t, b = some t ∧ t.nanos ≤ now.nanos := by
  unfold minT
  cases b with
  | none =>
    simp only [reduceCtorEq, false_and, exists_false, iff_false]
    omega
  | some y =>
    simp only [Option.some.injEq, exists_eq_left']
    split <;> omega

/-- The schedules leave a result at or before `now` as it is and add none. -/
theorem calendarLoop_due {now : DateTime} {last : Option DateTime} :
    ∀ {specs : List CalendarSpec} {best : Option DateTime} {r : Option DateTime},
      calendarLoop now last specs best = .ok r →
      ((∃ t, r = some t ∧ t.nanos ≤ now.nanos) ↔ ∃ t, best = some t ∧ t.nanos ≤ now.nanos)
  | [], best, r, h => by
    obtain rfl := Except.ok.inj h
    exact Iff.rfl
  | spec :: rest, best, r, h => by
    unfold calendarLoop at h
    cases hf : nextFire now spec last with
    | error e =>
      rw [hf] at h
      exact absurd h (by simp [bind, Except.bind])
    | ok o =>
      rw [hf] at h
      cases o with
      | none => exact calendarLoop_due h
      | some t =>
        rw [calendarLoop_due h]
        simp only [Option.some.injEq, exists_eq_left']
        exact minT_due (nextFire_later hf)

/-- They panic exactly when the search of one does, and that depends on the
baseline only. -/
theorem calendarLoop_error {now : DateTime} {last : Option DateTime}
    (h : ¬ SearchSafe (baselineOf now last)) (spec : CalendarSpec) (rest : List CalendarSpec)
    (best : Option DateTime) : calendarLoop now last (spec :: rest) best = .error {} := by
  obtain ⟨-, herr⟩ | ⟨hs, -⟩ := nextFire_spec now spec last
  · unfold calendarLoop
    rw [herr]
    rfl
  · exact absurd hs h

theorem calendarLoop_ok {now : DateTime} {last : Option DateTime}
    (h : SearchSafe (baselineOf now last)) :
    ∀ (specs : List CalendarSpec) (best : Option DateTime),
      ∃ r, calendarLoop now last specs best = .ok r
  | [], best => ⟨best, rfl⟩
  | spec :: rest, best => by
    obtain ⟨hs, -⟩ | ⟨-, hres⟩ := nextFire_spec now spec last
    · exact absurd h hs
    unfold calendarLoop
    cases hf : nextFire now spec last with
    | error e =>
      rw [hf] at hres
      exact hres.elim
    | ok o =>
      cases o with
      | none => exact calendarLoop_ok h rest best
      | some t => exact calendarLoop_ok h rest _

/-! ## The earliest instant -/

/-- There is a result, at or before `x`. -/
def AtMost (r : Option DateTime) (x : DateTime) : Prop := ∃ n, r = some n ∧ n.nanos ≤ x.nanos

theorem minT_atMost {b : Option DateTime} {x y : DateTime} (h : AtMost b y ∨ x.nanos ≤ y.nanos) :
    AtMost (some (minT b x)) y := by
  refine ⟨_, rfl, ?_⟩
  unfold minT
  cases b with
  | none =>
    rcases h with ⟨n, hn, -⟩ | h
    · exact absurd hn (by simp)
    · exact h
  | some z =>
    simp only
    rcases h with ⟨n, hn, hle⟩ | h
    · obtain rfl := Option.some.inj hn
      split <;> omega
    · split <;> omega

/-- The schedules only lower the result, -/
theorem calendarLoop_atMost {now x : DateTime} {last : Option DateTime} :
    ∀ {specs : List CalendarSpec} {best r : Option DateTime}, AtMost best x →
      calendarLoop now last specs best = .ok r → AtMost r x
  | [], best, r, hb, h => Except.ok.inj h ▸ hb
  | spec :: rest, best, r, hb, h => by
    unfold calendarLoop at h
    cases hf : nextFire now spec last with
    | error e =>
      rw [hf] at h
      exact absurd h (by simp [bind, Except.bind])
    | ok o =>
      rw [hf] at h
      cases o with
      | none => exact calendarLoop_atMost hb h
      | some t => exact calendarLoop_atMost (minT_atMost (Or.inl hb)) h

/-- to the next instant of each at least. -/
theorem calendarLoop_first {now : DateTime} {last : Option DateTime} {spec : CalendarSpec} :
    ∀ {specs : List CalendarSpec} {best r : Option DateTime}, spec ∈ specs →
      calendarLoop now last specs best = .ok r →
      ∃ o, nextFire now spec last = .ok o ∧ ∀ t, o = some t → AtMost r t
  | s :: rest, best, r, hmem, h => by
    unfold calendarLoop at h
    cases hf : nextFire now s last with
    | error e =>
      rw [hf] at h
      exact absurd h (by simp [bind, Except.bind])
    | ok o =>
      rw [hf] at h
      rcases List.mem_cons.mp hmem with rfl | hmem
      · refine ⟨o, hf, fun t ht => ?_⟩
        obtain rfl := ht
        exact calendarLoop_atMost (minT_atMost (Or.inr (Int.le_refl _))) h
      · cases o with
        | none => exact calendarLoop_first hmem h
        | some t => exact calendarLoop_first hmem h

theorem trigger_atMost {now x : DateTime} {d : Option SdDuration} {base best r : Option DateTime}
    (hb : AtMost best x) (h : trigger now d base best = .ok r) : AtMost r x := by
  unfold trigger at h
  split at h
  next d base =>
    cases ha : base.add (duration d.asStd) with
    | error e =>
      rw [ha] at h
      exact absurd h (by simp [bind, Except.bind])
    | ok t =>
      rw [ha] at h
      simp only [bind, Except.bind] at h
      split at h
      · exact Except.ok.inj h ▸ minT_atMost (Or.inl hb)
      · exact Except.ok.inj h ▸ hb
  next => exact Except.ok.inj h ▸ hb

/-- The triggers count from representable instants to representable ones. -/
structure TriggersInReach (timer : TimerUnit) (managerStart : DateTime) : Prop where
  startup : ∀ d, timer.onStartupSec = some d →
    DateTime.InRange ⟨managerStart.nanos + duration d.asStd⟩
  boot : ∀ d, timer.onBootSec = some d → DateTime.InRange ⟨managerStart.nanos + duration d.asStd⟩

theorem trigger_ok (now : DateTime) {base : DateTime} {d : Option SdDuration} (best : Option DateTime)
    (h : ∀ x, d = some x → DateTime.InRange ⟨base.nanos + duration x.asStd⟩) :
    ∃ r, trigger now d (some base) best = .ok r := by
  cases d with
  | none => exact ⟨best, rfl⟩
  | some x =>
    simp only [trigger, DateTime.add_of_inRange (h x rfl), bind, Except.bind]
    split <;> exact ⟨_, rfl⟩

theorem trigger_none {now : DateTime} (d : Option SdDuration) (best : Option DateTime) :
    trigger now d none best = .ok best := by
  cases d <;> rfl

/-- A timer that has not been activated, nor its unit, counts from the start of
the manager only. -/
theorem nextOverall_ok {now managerStart : DateTime} {timer : TimerUnit}
    {last r : Option DateTime} :
    nextOverall now managerStart none none none timer last = .ok r ↔
      ∃ b₀, (if timer.persistent then catchUp now (last.getD managerStart) timer.onCalendar none
          else .ok none) = .ok b₀ ∧
        ∃ b₁, calendarLoop now last timer.onCalendar b₀ = .ok b₁ ∧
          ∃ b₂, trigger now timer.onStartupSec (some managerStart) b₁ = .ok b₂ ∧
            trigger now timer.onBootSec (some managerStart) b₂ = .ok r := by
  unfold nextOverall
  simp only [bind_ok, trigger_none, Except.ok.injEq, exists_eq_left', exists_eq_right]

/-! ## The catch-up -/

/-- The instant of a schedule that the catch-up looks at is after `anchor`. -/
def Passed (now anchor : DateTime) (spec : CalendarSpec) : Prop :=
  ∃ t, prevFire now spec = .ok (some t) ∧ anchor.nanos < t.nanos

theorem catchUp_none {now anchor : DateTime} {spec : CalendarSpec} {rest : List CalendarSpec}
    (h : prevFire now spec = .ok none) :
    catchUp now anchor (spec :: rest) none = catchUp now anchor rest none := by
  show (prevFire now spec).bind _ = _
  rw [h]
  rfl

theorem catchUp_some {now anchor prev : DateTime} {spec : CalendarSpec}
    {rest : List CalendarSpec} (h : prevFire now spec = .ok (some prev)) :
    catchUp now anchor (spec :: rest) none =
      if anchor.nanos < prev.nanos then .ok (some now) else catchUp now anchor rest none := by
  show (prevFire now spec).bind _ = _
  rw [h]
  rfl

theorem catchUp_spec {now : DateTime} (anchor : DateTime) (hsafe : WindowSafe now) :
    ∀ specs : List CalendarSpec,
      ((∃ s ∈ specs, Passed now anchor s) ∧ catchUp now anchor specs none = .ok (some now)) ∨
        ((¬ ∃ s ∈ specs, Passed now anchor s) ∧ catchUp now anchor specs none = .ok none)
  | [] => Or.inr ⟨by simp, rfl⟩
  | spec :: rest => by
    have hskip : ¬ Passed now anchor spec → ((∃ s ∈ spec :: rest, Passed now anchor s) ↔
        ∃ s ∈ rest, Passed now anchor s) := fun hno => by
      simp only [List.mem_cons, exists_eq_or_imp, hno, false_or]
    obtain ⟨r, hr, -⟩ := prevFire_spec hsafe spec
    cases r with
    | none =>
      have hno : ¬ Passed now anchor spec := by
        rintro ⟨t, ht, -⟩
        rw [hr] at ht
        exact absurd ht (by simp)
      rw [catchUp_none hr, hskip hno]
      exact catchUp_spec anchor hsafe rest
    | some prev =>
      rw [catchUp_some hr]
      split
      next hlt => exact Or.inl ⟨⟨spec, List.mem_cons_self, prev, hr, hlt⟩, rfl⟩
      next hge =>
        have hno : ¬ Passed now anchor spec := by
          rintro ⟨t, ht, hlt⟩
          rw [hr] at ht
          obtain rfl := Option.some.inj (Except.ok.inj ht)
          exact hge hlt
        rw [hskip hno]
        exact catchUp_spec anchor hsafe rest

/-- All seconds of the window up to `q` keep the fraction. -/
def SmoothTo (spec : CalendarSpec) (now : DateTime) (q : Int) : Prop :=
  ∀ p, windowStart now < p → p ≤ q → Smooth spec p

/-- `q` is the last match of the window, or the 200000th. -/
def Last (spec : CalendarSpec) (now : DateTime) (q : Int) : Prop :=
  Reached spec (windowStart now) now.sec prevCap q

/-- The catch-up sees the last instant of a schedule with the fraction of `now`
if that is kept, else as a whole second. -/
theorem passed_iff {now anchor : DateTime} (hsafe : WindowSafe now) {spec : CalendarSpec} :
    Passed now anchor spec ↔ ∃ q, Last spec now q ∧
      (anchor.nanos < q * 1000000000 ∨
        SmoothTo spec now q ∧ anchor.nanos < q * 1000000000 + now.subsec) := by
  obtain ⟨r, hr, hres⟩ := prevFire_spec hsafe spec
  cases r with
  | none =>
    refine ⟨?_, ?_⟩
    · rintro ⟨t, ht, -⟩
      rw [hr] at ht
      exact absurd ht (by simp)
    · rintro ⟨q, hq, -⟩
      exact absurd hq.isMatch (hres q hq.after hq.le)
  | some t =>
    obtain ⟨hreach, hfrac⟩ := hres
    have ht := t.nanos_eq
    have hb := t.subsec_bounds
    have hsmooth : (∀ p, windowStart now + 1 ≤ p → p ≤ t.sec → Smooth spec p) ↔
        SmoothTo spec now t.sec := Iff.rfl
    unfold FractionFrom at hfrac
    rw [hsmooth] at hfrac
    constructor
    · rintro ⟨t', ht', hlt⟩
      rw [hr] at ht'
      obtain rfl := Option.some.inj (Except.ok.inj ht')
      refine ⟨t.sec, hreach, ?_⟩
      rcases hfrac with ⟨hall, hsub⟩ | ⟨-, hsub⟩
      · exact Or.inr ⟨hall, by omega⟩
      · exact Or.inl (by omega)
    · rintro ⟨q, hq, hlt⟩
      obtain rfl := Reached.unique hq hreach
      refine ⟨t, hr, ?_⟩
      rcases hlt with hlt | ⟨hall, hlt⟩
      · omega
      · rcases hfrac with ⟨-, hsub⟩ | ⟨hno, -⟩
        · omega
        · exact absurd hall hno

end Systeml.Runtime
