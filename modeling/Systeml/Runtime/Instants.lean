import Systeml.Runtime.CatchUp
import Systeml.Runtime.Scheduler

/-!
# Which instants the scheduler sees

What can make a timer due, told by the instants that match its schedules and not by the
searches for them: an instant that its catch-up is after, the next one of a schedule, a
monotonic trigger (`Cause`). The computation goes through if its additions stay in the range
of years (`nextOverall_isOk`), and then it gives the earliest of these.

Of several active timers the scheduler waits for the first in line: none is due earlier, and
none that stands before it is due at the same time (`computeNext_iff`).
-/

namespace Systeml.Runtime

open Systeml.Lib Systeml.Unit

/-- The timer has an instant after `x`, and not after `y`. -/
def HasInstant (t : TimerUnit) (x y : DateTime) : Prop :=
  ∃ spec ∈ t.onCalendar, ∃ p, Matches spec p ∧ x.nanos < p * 1000000000 ∧ p * 1000000000 ≤ y.nanos

/-- The instant is one of a monotonic trigger of the timer. -/
def OfTrigger (t : TimerUnit) (managerStart d : DateTime) : Prop :=
  ∃ x, (t.onStartupSec = some x ∨ t.onBootSec = some x) ∧
    d.nanos = managerStart.nanos + duration x.asStd

/-- What makes a timer due at `d`: an instant that its catch-up is after, the next instant of
a schedule, or a monotonic trigger. -/
inductive Cause (now managerStart : DateTime) (timer : TimerUnit) (last : Option DateTime) :
    DateTime → Prop
  | missed (hp : timer.persistent = true) {s : CalendarSpec} (hs : s ∈ timer.onCalendar)
    (h : Covered now (last.getD managerStart) s ∨ Shadowed now (last.getD managerStart) s) :
    Cause now managerStart timer last now
  | calendar {s : CalendarSpec} (hs : s ∈ timer.onCalendar) {d : DateTime}
    (h : Arrives s (baselineOf now last) d) : Cause now managerStart timer last d
  | trigger {d : DateTime} (h : OfTrigger timer managerStart d) (hlater : now.nanos < d.nanos) :
    Cause now managerStart timer last d

section Timer

variable {now managerStart : DateTime} {timer : TimerUnit} {last : Option DateTime}

theorem Cause.le {d : DateTime} (h : Cause now managerStart timer last d) :
    now.nanos ≤ d.nanos := by
  cases h with
  | missed hp hs h => exact Int.le_refl _
  | calendar hs h =>
    have hbase := le_baselineOf now last
    have hlater := nanos_lt_of_sec_lt h.later
    omega
  | trigger h hlater => exact Int.le_of_lt hlater

/-! ## When the computation goes through -/

/-- What the computation adds stays in the range of years. -/
structure Reach (now managerStart : DateTime) (timer : TimerUnit) (last : Option DateTime) :
    Prop where
  search : timer.onCalendar ≠ [] → SearchSafe (baselineOf now last)
  window : timer.onCalendar ≠ [] → timer.persistent = true →
    DateTime.InRange ⟨now.nanos + -(366 * 86400) * 1000000000⟩
  triggers : TriggersInReach timer managerStart

theorem Reach.inReach (h : Reach now managerStart timer last) (hne : timer.onCalendar ≠ [])
    (hp : timer.persistent = true) : InReach now last := ⟨h.window hne hp, (h.search hne).2⟩

theorem catchUp_error (hlow : ¬ DateTime.InRange ⟨now.nanos + -(366 * 86400) * 1000000000⟩)
    (anchor : DateTime) (spec : CalendarSpec) (rest : List CalendarSpec) (best : Option DateTime) :
    catchUp now anchor (spec :: rest) best = .error {} := by
  show (prevFire now spec).bind _ = _
  rw [prevFire_error hlow]
  rfl

theorem trigger_inRange {x : SdDuration} {base : DateTime} {best r : Option DateTime}
    (h : trigger now (some x) (some base) best = .ok r) :
    DateTime.InRange ⟨base.nanos + duration x.asStd⟩ := by
  unfold trigger at h
  obtain ⟨y, hy, -⟩ := bind_ok.mp h
  obtain ⟨hn, hr⟩ := DateTime.checkedAdd_some (DateTime.add_ok.mp hy)
  rw [← hn]
  exact hr

/-- **When the computation goes through.** -/
theorem nextOverall_isOk :
    (∃ r, nextOverall now managerStart none none none timer last = .ok r) ↔
      Reach now managerStart timer last := by
  constructor
  · intro h
    obtain ⟨r, hr⟩ := h
    obtain ⟨b₀, hcatch, b₁, hcal, b₂, hstart, hboot⟩ := nextOverall_ok.mp hr
    refine ⟨?_, ?_, ?_, ?_⟩
    · intro hne
      by_contra hbad
      obtain ⟨spec, rest, hspecs⟩ := List.exists_cons_of_ne_nil hne
      rw [hspecs, calendarLoop_error hbad] at hcal
      exact absurd hcal (by simp)
    · intro hne hp
      by_contra hlow
      obtain ⟨spec, rest, hspecs⟩ := List.exists_cons_of_ne_nil hne
      rw [if_pos hp, hspecs, catchUp_error hlow] at hcatch
      exact absurd hcatch (by simp)
    · intro d hd
      rw [hd] at hstart
      exact trigger_inRange hstart
    · intro d hd
      rw [hd] at hboot
      exact trigger_inRange hboot
  · intro h
    have hcatch : ∃ b₀, (if timer.persistent then
        catchUp now (last.getD managerStart) timer.onCalendar none else .ok none) = .ok b₀ := by
      split
      next hp =>
        cases hspecs : timer.onCalendar with
        | nil => exact ⟨none, rfl⟩
        | cons spec rest =>
          have hne : timer.onCalendar ≠ [] := by simp [hspecs]
          rw [← hspecs]
          obtain ⟨-, hc⟩ | ⟨-, hc⟩ := catchUp_spec (last.getD managerStart)
            (h.inReach hne hp).safe.1 timer.onCalendar
          · exact ⟨_, hc⟩
          · exact ⟨_, hc⟩
      next => exact ⟨none, rfl⟩
    obtain ⟨b₀, hb₀⟩ := hcatch
    have hcal : ∃ b₁, calendarLoop now last timer.onCalendar b₀ = .ok b₁ := by
      by_cases hne : timer.onCalendar = []
      · rw [hne]
        exact ⟨b₀, rfl⟩
      · exact calendarLoop_ok (h.search hne) timer.onCalendar b₀
    obtain ⟨b₁, hb₁⟩ := hcal
    obtain ⟨b₂, hb₂⟩ := trigger_ok now b₁ h.triggers.startup
    obtain ⟨r, hr⟩ := trigger_ok now b₂ h.triggers.boot
    exact ⟨r, nextOverall_ok.mpr ⟨b₀, hb₀, b₁, hb₁, b₂, hb₂, hr⟩⟩

/-! ## Every result has a cause -/

/-- All results have a cause. -/
def Caused (now managerStart : DateTime) (timer : TimerUnit) (last r : Option DateTime) : Prop :=
  ∀ d, r = some d → Cause now managerStart timer last d

theorem minT_cases (b : Option DateTime) (x : DateTime) :
    minT b x = x ∨ ∃ y, b = some y ∧ minT b x = y := by
  unfold minT
  cases b with
  | none => exact Or.inl rfl
  | some y =>
    simp only
    split
    · exact Or.inr ⟨y, rfl, rfl⟩
    · exact Or.inl rfl

theorem Caused.minT {b : Option DateTime} {x : DateTime} (hb : Caused now managerStart timer last b)
    (hx : Cause now managerStart timer last x) :
    Caused now managerStart timer last (some (minT b x)) := by
  intro d hd
  obtain rfl := Option.some.inj hd
  obtain he | ⟨y, hy, he⟩ := minT_cases b x
  · rw [he]
    exact hx
  · rw [he]
    exact hb y hy

theorem catchUp_caused (hr : Reach now managerStart timer last) (hp : timer.persistent = true) :
    ∀ {specs : List CalendarSpec} {best r : Option DateTime}, (∀ s ∈ specs, s ∈ timer.onCalendar) →
    Caused now managerStart timer last best →
    catchUp now (last.getD managerStart) specs best = .ok r → Caused now managerStart timer last r
  | [], _, _, _, hb, h => Except.ok.inj h ▸ hb
  | spec :: rest, best, r, hspecs, hb, h => by
    have hrest : ∀ s ∈ rest, s ∈ timer.onCalendar := fun s hs => hspecs s (List.mem_cons_of_mem _ hs)
    have hspec := hspecs spec List.mem_cons_self
    unfold catchUp at h
    obtain ⟨o, ho, h⟩ := bind_ok.mp h
    cases o with
    | none => exact catchUp_caused hr hp hrest hb h
    | some prev =>
      simp only at h
      split at h
      next hlt =>
        obtain rfl := Except.ok.inj h
        have hsafe := (hr.inReach (List.ne_nil_of_mem hspec) hp).safe.1
        exact hb.minT (.missed hp hspec ((passed_iff_covered hsafe).mp ⟨prev, ho, hlt⟩))
      next => exact catchUp_caused hr hp hrest hb h

theorem calendarLoop_caused (hr : Reach now managerStart timer last) :
    ∀ {specs : List CalendarSpec} {best r : Option DateTime},
    (∀ s ∈ specs, s ∈ timer.onCalendar) → Caused now managerStart timer last best →
    calendarLoop now last specs best = .ok r → Caused now managerStart timer last r
  | [], _, _, _, hb, h => Except.ok.inj h ▸ hb
  | spec :: rest, best, r, hspecs, hb, h => by
    have hrest : ∀ s ∈ rest, s ∈ timer.onCalendar := fun s hs => hspecs s (List.mem_cons_of_mem _ hs)
    have hspec := hspecs spec List.mem_cons_self
    unfold calendarLoop at h
    obtain ⟨o, ho, h⟩ := bind_ok.mp h
    cases o with
    | none => exact calendarLoop_caused hr hrest hb h
    | some x =>
      have hsafe := hr.search (List.ne_nil_of_mem hspec)
      exact calendarLoop_caused hr hrest (hb.minT (.calendar hspec ((nextFire_iff hsafe).mp ho))) h

theorem trigger_caused {x : Option SdDuration} {best r : Option DateTime}
    (hx : timer.onStartupSec = x ∨ timer.onBootSec = x) (hb : Caused now managerStart timer last best)
    (h : trigger now x (some managerStart) best = .ok r) : Caused now managerStart timer last r := by
  cases x with
  | none => exact Except.ok.inj h ▸ hb
  | some x =>
    unfold trigger at h
    obtain ⟨y, hy, h⟩ := bind_ok.mp h
    split at h
    next hlt =>
      obtain rfl := Except.ok.inj h
      refine hb.minT (.trigger ⟨x, hx, ?_⟩ hlt)
      exact (DateTime.checkedAdd_some (DateTime.add_ok.mp hy)).1
    next => exact Except.ok.inj h ▸ hb

/-- **Every deadline has a cause.** -/
theorem nextOverall_cause {d : DateTime}
    (h : nextOverall now managerStart none none none timer last = .ok (some d)) :
    Cause now managerStart timer last d := by
  have hr := nextOverall_isOk.mp ⟨_, h⟩
  obtain ⟨b₀, hcatch, b₁, hcal, b₂, hstart, hboot⟩ := nextOverall_ok.mp h
  have h₀ : Caused now managerStart timer last b₀ := by
    split at hcatch
    next hp => exact catchUp_caused hr hp (fun _ hs => hs) (fun _ he => absurd he (by simp)) hcatch
    next =>
      obtain rfl := Except.ok.inj hcatch
      exact fun _ he => absurd he (by simp)
  have h₁ := calendarLoop_caused hr (fun _ hs => hs) h₀ hcal
  exact trigger_caused (Or.inr rfl) (trigger_caused (Or.inl rfl) h₁ hstart) hboot d rfl

/-! ## The result is the earliest -/

/-- What the catch-up finds makes the timer due now. -/
theorem catchUp_first {anchor : DateTime} {spec : CalendarSpec} (hpass : Passed now anchor spec) :
    ∀ {specs : List CalendarSpec} {best r : Option DateTime}, spec ∈ specs →
      catchUp now anchor specs best = .ok r → AtMost r now
  | s :: rest, best, r, hmem, h => by
    unfold catchUp at h
    obtain ⟨o, ho, h⟩ := bind_ok.mp h
    cases o with
    | none =>
      have hne : spec ≠ s := by
        intro he
        obtain ⟨x, hx, -⟩ := hpass
        rw [he, ho] at hx
        exact absurd hx (by simp)
      exact catchUp_first hpass ((List.mem_cons.mp hmem).resolve_left hne) h
    | some prev =>
      simp only at h
      split at h
      next =>
        obtain rfl := Except.ok.inj h
        exact minT_atMost (Or.inr (Int.le_refl _))
      next hge =>
        have hne : spec ≠ s := by
          intro he
          obtain ⟨x, hx, hlt⟩ := hpass
          rw [he, ho] at hx
          obtain rfl := Option.some.inj (Except.ok.inj hx)
          exact hge hlt
        exact catchUp_first hpass ((List.mem_cons.mp hmem).resolve_left hne) h

theorem trigger_first {x : SdDuration} {base d : DateTime} {best r : Option DateTime}
    (h : trigger now (some x) (some base) best = .ok r)
    (hd : d.nanos = base.nanos + duration x.asStd) (hlater : now.nanos < d.nanos) : AtMost r d := by
  unfold trigger at h
  obtain ⟨y, hy, h⟩ := bind_ok.mp h
  have hyd : y.nanos = d.nanos :=
    (DateTime.checkedAdd_some (DateTime.add_ok.mp hy)).1.trans hd.symm
  rw [if_pos (hyd ▸ hlater)] at h
  obtain rfl := Except.ok.inj h
  exact minT_atMost (Or.inr (Int.le_of_eq hyd))

/-- **The result is not after any cause.** -/
theorem nextOverall_least {r : Option DateTime} {d : DateTime}
    (h : nextOverall now managerStart none none none timer last = .ok r)
    (hc : Cause now managerStart timer last d) : AtMost r d := by
  have hreach := nextOverall_isOk.mp ⟨r, h⟩
  obtain ⟨b₀, hcatch, b₁, hcal, b₂, hstart, hboot⟩ := nextOverall_ok.mp h
  cases hc with
  | missed hp hs hcov =>
    rw [if_pos hp] at hcatch
    have hsafe := (hreach.inReach (List.ne_nil_of_mem hs) hp).safe.1
    have h₁ := calendarLoop_atMost (catchUp_first ((passed_iff_covered hsafe).mpr hcov) hs hcatch)
      hcal
    exact trigger_atMost (trigger_atMost h₁ hstart) hboot
  | calendar hs harrives =>
    obtain ⟨o, ho, hmost⟩ := calendarLoop_first hs hcal
    have hnext := (nextFire_iff (hreach.search (List.ne_nil_of_mem hs))).mpr harrives
    obtain rfl := Except.ok.inj (ho.symm.trans hnext)
    exact trigger_atMost (trigger_atMost (hmost d rfl) hstart) hboot
  | trigger ht hlater =>
    obtain ⟨x, hx, hd⟩ := ht
    cases hx with
    | inl hx =>
      rw [hx] at hstart
      exact trigger_atMost (trigger_first hstart hd hlater) hboot
    | inr hx =>
      rw [hx] at hboot
      exact trigger_first hboot hd hlater

/-- **When a persistent timer is due**: exactly if its catch-up is after an instant. -/
theorem due_iff (hr : Reach now managerStart timer last) :
    Due now managerStart none none none timer last ↔ timer.persistent = true ∧
      ∃ s ∈ timer.onCalendar,
        Covered now (last.getD managerStart) s ∨ Shadowed now (last.getD managerStart) s := by
  constructor
  · intro h
    obtain ⟨d, hd, hle⟩ := h
    cases nextOverall_cause hd with
    | missed hp hs hcov => exact ⟨hp, _, hs, hcov⟩
    | calendar hs harrives =>
      have hbase := le_baselineOf now last
      have hlater := nanos_lt_of_sec_lt harrives.later
      omega
    | trigger ht hlater => omega
  · intro h
    obtain ⟨hp, s, hs, hcov⟩ := h
    obtain ⟨r, hr⟩ := nextOverall_isOk.mpr hr
    obtain ⟨d, rfl, hle⟩ := nextOverall_least hr (.missed hp hs hcov)
    exact ⟨d, hr, hle⟩

end Timer

namespace TimerScheduler

variable {s : TimerScheduler} {T : UnitName} {t : TimerUnit} {d : DateTime}
  {next : Option (DateTime × UnitName)}

/-! ## The first in line -/

/-- The timer is loaded and active. -/
def Runs (s : TimerScheduler) (T : UnitName) (t : TimerUnit) : Prop :=
  T.kind = .timer ∧ s.mgr.isActive T = true ∧ s.timerUnit T = some t

/-- The timer is active, and something makes it due at `d`. -/
def Awaits (s : TimerScheduler) (T : UnitName) (d : DateTime) : Prop :=
  ∃ t, s.Runs T t ∧ Cause s.clock s.managerStart t (s.lastFire T) d

/-- The timer is due at some instant, no timer is due before it, and none that stands before
this one in the registry at the same instant. -/
def FirstInLine (s : TimerScheduler) (T : UnitName) : Prop :=
  ∃ d, s.Awaits T d ∧ ∃ pre post, s.mgr.units.keys = pre ++ T :: post ∧
    (∀ n x, s.Awaits n x → d.nanos ≤ x.nanos) ∧ ∀ n ∈ pre, ∀ x, s.Awaits n x → d.nanos < x.nanos

theorem timerUnit_some (h : s.timerUnit T = some t) :
    ∃ u, (T, u) ∈ s.mgr.units.entries ∧ u.kind = .timer t := by
  unfold timerUnit at h
  split at h
  next u hu =>
    split at h
    next t' hk => exact ⟨u, IndexMap.mem_entries.mpr hu, by rw [hk, Option.some.inj h]⟩
    next => exact absurd h (by simp)
  next => exact absurd h (by simp)

/-- An entry of the registry gives an instant: it is an active timer, and the computation of
its next one does. -/
def Gives (s : TimerScheduler) (e : UnitName × UnitSpec) (d : DateTime) : Prop :=
  (e.1.kind = .timer ∧ s.mgr.isActive e.1 = true) ∧ ∃ t, e.2.kind = .timer t ∧
    nextOverall s.clock s.managerStart none none none t (s.lastFire e.1) = .ok (some d)

/-- **One round of the loop**: the entry gives an instant that is compared, or is passed over. -/
theorem computeLoop_cons {e : UnitName × UnitSpec} {rest : List (UnitName × UnitSpec)}
    {best : Option (DateTime × UnitName)} (h : s.computeLoop (e :: rest) best = .ok next) :
    (∃ d, s.Gives e d ∧ s.computeLoop rest (earlier best d e.1) = .ok next) ∨
      (∀ d, ¬ s.Gives e d) ∧ s.computeLoop rest best = .ok next := by
  obtain ⟨name, u⟩ := e
  unfold computeLoop at h
  split at h
  next hactive =>
    split at h
    next t hk =>
      obtain ⟨r, hr, h⟩ := bind_ok.mp h
      cases r with
      | some d => exact Or.inl ⟨d, ⟨hactive, t, hk, hr⟩, h⟩
      | none =>
        refine Or.inr ⟨fun d hd => ?_, h⟩
        obtain ⟨-, t', hk', hd⟩ := hd
        obtain rfl := UnitTypeData.timer.inj (hk.symm.trans hk')
        rw [hr] at hd
        exact absurd hd (by simp)
    next hk =>
      refine Or.inr ⟨fun d hd => ?_, h⟩
      obtain ⟨-, t', hk', -⟩ := hd
      exact hk t' hk'
  next hactive => exact Or.inr ⟨fun d hd => hactive hd.1, h⟩

theorem earlier_cases (best : Option (DateTime × UnitName)) (x : DateTime) (n : UnitName) :
    (earlier best x n = some (x, n) ∧ ∀ c m, best = some (c, m) → x.nanos < c.nanos) ∨
      ∃ c m, best = some (c, m) ∧ c.nanos ≤ x.nanos ∧ earlier best x n = best := by
  unfold earlier
  cases best with
  | none => exact Or.inl ⟨rfl, fun c m h => absurd h (by simp)⟩
  | some b =>
    obtain ⟨c, m⟩ := b
    simp only
    split
    next h =>
      refine Or.inl ⟨rfl, fun c' m' he => ?_⟩
      obtain ⟨rfl, rfl⟩ := Prod.mk.inj (Option.some.inj he)
      exact h
    next h => exact Or.inr ⟨c, m, rfl, by omega, rfl⟩

/-- **Which timer the loop chooses**: the one it had, if no entry is due before it, or the first
of the entries that are due before all others. -/
theorem computeLoop_chosen : ∀ {l : List (UnitName × UnitSpec)}
    {best : Option (DateTime × UnitName)}, s.computeLoop l best = .ok (some (d, T)) →
    (best = some (d, T) ∧ ∀ e ∈ l, ∀ x, s.Gives e x → d.nanos ≤ x.nanos) ∨
      ∃ pre u post, l = pre ++ (T, u) :: post ∧ s.Gives (T, u) d ∧
        (∀ c m, best = some (c, m) → d.nanos < c.nanos) ∧
        (∀ e ∈ pre, ∀ x, s.Gives e x → d.nanos < x.nanos) ∧
        ∀ e ∈ post, ∀ x, s.Gives e x → d.nanos ≤ x.nanos
  | [], best, h => Or.inl ⟨Except.ok.inj h, fun e he => absurd he List.not_mem_nil⟩
  | e :: rest, best, h => by
    have hgives : ∀ {x y : DateTime}, s.Gives e x → s.Gives e y → x = y := by
      rintro x y ⟨-, t, hk, hx⟩ ⟨-, t', hk', hy⟩
      obtain rfl := UnitTypeData.timer.inj (hk.symm.trans hk')
      exact Option.some.inj (Except.ok.inj (hx.symm.trans hy))
    obtain ⟨x, hx, h⟩ | ⟨hno, h⟩ := computeLoop_cons h
    · obtain ⟨hbest, hrest⟩ | ⟨pre, u, post, rfl, hT, hbest, hpre, hpost⟩ := computeLoop_chosen h
      · obtain ⟨he, hlt⟩ | ⟨c, m, hc, hle, he⟩ := earlier_cases best x e.1
        · -- the entry is the one
          rw [he] at hbest
          obtain ⟨rfl, rfl⟩ := Prod.mk.inj (Option.some.inj hbest)
          exact Or.inr ⟨[], e.2, rest, rfl, hx, hlt, fun e he => absurd he List.not_mem_nil, hrest⟩
        · rw [he, hc] at hbest
          obtain ⟨rfl, rfl⟩ := Prod.mk.inj (Option.some.inj hbest)
          refine Or.inl ⟨hc, fun e' he' y hy => ?_⟩
          obtain rfl | he' := List.mem_cons.mp he'
          · exact hgives hx hy ▸ hle
          · exact hrest e' he' y hy
      · refine Or.inr ⟨e :: pre, u, post, rfl, hT, ?_, ?_, hpost⟩
        · intro c m hc
          obtain ⟨he, hlt⟩ | ⟨c', m', hc', -, he⟩ := earlier_cases best x e.1
          · have := hbest x e.1 he
            have := hlt c m hc
            omega
          · exact hbest c m (he.trans hc)
        · intro e' he' y hy
          obtain rfl | he' := List.mem_cons.mp he'
          · obtain rfl := hgives hx hy
            obtain ⟨he, -⟩ | ⟨c, m, hc, hle, he⟩ := earlier_cases best x e'.1
            · exact hbest x e'.1 he
            · have := hbest c m (he.trans hc)
              omega
          · exact hpre e' he' y hy
    · obtain ⟨hbest, hrest⟩ | ⟨pre, u, post, rfl, hT, hbest, hpre, hpost⟩ := computeLoop_chosen h
      · refine Or.inl ⟨hbest, fun e' he' y hy => ?_⟩
        obtain rfl | he' := List.mem_cons.mp he'
        · exact absurd hy (hno y)
        · exact hrest e' he' y hy
      · refine Or.inr ⟨e :: pre, u, post, rfl, hT, hbest, fun e' he' y hy => ?_, hpost⟩
        obtain rfl | he' := List.mem_cons.mp he'
        · exact absurd hy (hno y)
        · exact hpre e' he' y hy

/-- Where the loop chooses none, no entry gives an instant. -/
theorem computeLoop_none : ∀ {l : List (UnitName × UnitSpec)}
    {best : Option (DateTime × UnitName)}, s.computeLoop l best = .ok none →
    best = none ∧ ∀ e ∈ l, ∀ x, ¬ s.Gives e x
  | [], best, h => ⟨Except.ok.inj h, fun e he => absurd he List.not_mem_nil⟩
  | e :: rest, best, h => by
    obtain ⟨x, hx, h⟩ | ⟨hno, h⟩ := computeLoop_cons h
    · have hnone := (computeLoop_none h).1
      obtain ⟨he, -⟩ | ⟨c, m, hc, -, he⟩ := earlier_cases best x e.1
      · exact absurd (he.symm.trans hnone) (by simp)
      · exact absurd (hc.symm.trans (he.symm.trans hnone)) (by simp)
    · obtain ⟨hbest, hrest⟩ := computeLoop_none h
      refine ⟨hbest, fun e' he' => ?_⟩
      obtain rfl | he' := List.mem_cons.mp he'
      · exact hno
      · exact hrest e' he'

/-- If the loop goes through, so does the computation of each active timer. -/
theorem computeLoop_each {e : UnitName × UnitSpec} (hactive : e.1.kind = .timer ∧
    s.mgr.isActive e.1 = true) (hkind : e.2.kind = .timer t) :
    ∀ {l : List (UnitName × UnitSpec)} {best : Option (DateTime × UnitName)}, e ∈ l →
      s.computeLoop l best = .ok next →
      ∃ r, nextOverall s.clock s.managerStart none none none t (s.lastFire e.1) = .ok r
  | (name, u) :: rest, best, hmem, h => by
    unfold computeLoop at h
    obtain rfl | hmem := List.mem_cons.mp hmem
    · have hu : u.kind = .timer t := hkind
      rw [if_pos hactive] at h
      simp only [hu] at h
      obtain ⟨r, hr, -⟩ := bind_ok.mp h
      exact ⟨r, hr⟩
    · split at h
      · split at h
        · obtain ⟨r, -, h⟩ := bind_ok.mp h
          cases r with
          | none => exact computeLoop_each hactive hkind hmem h
          | some d => exact computeLoop_each hactive hkind hmem h
        · exact computeLoop_each hactive hkind hmem h
      · exact computeLoop_each hactive hkind hmem h

theorem computeLoop_ok : ∀ {l : List (UnitName × UnitSpec)} (best : Option (DateTime × UnitName)),
    (∀ T u t, (T, u) ∈ l → T.kind = .timer → s.mgr.isActive T = true → u.kind = .timer t →
      ∃ r, nextOverall s.clock s.managerStart none none none t (s.lastFire T) = .ok r) →
    ∃ next, s.computeLoop l best = .ok next
  | [], best, _ => ⟨best, rfl⟩
  | (name, u) :: rest, best, h => by
    have hrest : ∀ best', ∃ next, s.computeLoop rest best' = .ok next := fun best' =>
      computeLoop_ok best' fun T u t hmem => h T u t (List.mem_cons_of_mem _ hmem)
    unfold computeLoop
    split
    next hactive =>
      split
      next x hk =>
        obtain ⟨r, hr⟩ := h name u x List.mem_cons_self hactive.1 hactive.2 hk
        cases r with
        | none =>
          obtain ⟨next, hnext⟩ := hrest best
          exact ⟨next, bind_ok.mpr ⟨none, hr, hnext⟩⟩
        | some d =>
          obtain ⟨next, hnext⟩ := hrest (earlier best d name)
          exact ⟨next, bind_ok.mpr ⟨some d, hr, hnext⟩⟩
      next => exact hrest best
    next => exact hrest best

theorem runs_of_entry {u : UnitSpec} (hmem : (T, u) ∈ s.mgr.units.entries)
    (hactive : T.kind = .timer ∧ s.mgr.isActive T = true) (hu : u.kind = .timer t) :
    s.Runs T t := by
  refine ⟨hactive.1, hactive.2, ?_⟩
  unfold timerUnit
  rw [IndexMap.mem_entries.mp hmem]
  simp only [hu]

/-- **It goes through if it does for each timer.** -/
theorem computeNext_isOk : (∃ next, s.computeNext = .ok next) ↔
    ∀ T t, s.Runs T t → Reach s.clock s.managerStart t (s.lastFire T) := by
  constructor
  · intro h T t hruns
    obtain ⟨next, hnext⟩ := h
    obtain ⟨hkind, hactive, ht⟩ := hruns
    obtain ⟨u, hmem, hu⟩ := timerUnit_some ht
    exact nextOverall_isOk.mp (computeLoop_each (e := (T, u)) ⟨hkind, hactive⟩ hu hmem hnext)
  · intro h
    refine computeLoop_ok none ?_
    intro T u t hmem hkind hactive hu
    exact nextOverall_isOk.mpr (h T t (runs_of_entry hmem ⟨hkind, hactive⟩ hu))

theorem awaits_of_gives {u : UnitSpec} (hmem : (T, u) ∈ s.mgr.units.entries)
    (h : s.Gives (T, u) d) : s.Awaits T d := by
  obtain ⟨hactive, t, hu, hnext⟩ := h
  exact ⟨t, runs_of_entry hmem hactive hu, nextOverall_cause hnext⟩

/-- What a timer is due for is not before the instant that its entry gives. -/
theorem gives_of_awaits (h : s.computeNext = .ok next) (hawaits : s.Awaits T d) :
    ∃ u x, (T, u) ∈ s.mgr.units.entries ∧ s.Gives (T, u) x ∧ x.nanos ≤ d.nanos := by
  obtain ⟨t, ⟨hkind, hactive, ht⟩, hcause⟩ := hawaits
  obtain ⟨u, hmem, hu⟩ := timerUnit_some ht
  obtain ⟨r, hr⟩ := computeLoop_each (e := (T, u)) ⟨hkind, hactive⟩ hu hmem h
  obtain ⟨x, rfl, hle⟩ := nextOverall_least hr hcause
  exact ⟨u, x, hmem, ⟨⟨hkind, hactive⟩, t, hu, hr⟩, hle⟩

theorem firstInLine_of_computeNext (h : s.computeNext = .ok (some (d, T))) :
    s.Awaits T d ∧ ∃ pre post, s.mgr.units.keys = pre ++ T :: post ∧
      (∀ n x, s.Awaits n x → d.nanos ≤ x.nanos) ∧
      ∀ n ∈ pre, ∀ x, s.Awaits n x → d.nanos < x.nanos := by
  obtain ⟨hnone, -⟩ | ⟨pre, u, post, hentries, hT, -, hpre, hpost⟩ := computeLoop_chosen h
  · exact absurd hnone (by simp)
  have hkeys : s.mgr.units.keys = pre.map Prod.fst ++ T :: post.map Prod.fst := by
    show s.mgr.units.entries.map Prod.fst = _
    rw [hentries, List.map_append, List.map_cons]
  have hnodup := s.mgr.units.nodup
  rw [hentries] at hnodup
  simp only [List.map_append, List.map_cons, List.nodup_append, List.nodup_cons] at hnodup
  refine ⟨awaits_of_gives (hentries ▸ List.mem_append_right _ List.mem_cons_self) hT,
    _, _, hkeys, ?_, ?_⟩
  · intro n x hx
    obtain ⟨v, y, hmem, hy, hle⟩ := gives_of_awaits h hx
    rw [hentries] at hmem
    obtain hmem | hmem := List.mem_append.mp hmem
    · exact Int.le_trans (Int.le_of_lt (hpre _ hmem y hy)) hle
    · obtain he | hmem := List.mem_cons.mp hmem
      · obtain ⟨rfl, rfl⟩ := Prod.mk.inj he
        obtain ⟨-, t, hk, ht⟩ := hT
        obtain ⟨-, t', hk', ht'⟩ := hy
        obtain rfl := UnitTypeData.timer.inj (hk.symm.trans hk')
        obtain rfl := Option.some.inj (Except.ok.inj (ht.symm.trans ht'))
        exact hle
      · exact Int.le_trans (hpost _ hmem y hy) hle
  · intro n hn x hx
    obtain ⟨v, y, hmem, hy, hle⟩ := gives_of_awaits h hx
    rw [hentries] at hmem
    obtain hmem | hmem := List.mem_append.mp hmem
    · exact Int.lt_of_lt_of_le (hpre _ hmem y hy) hle
    · exact absurd rfl (hnodup.2.2 n hn n (List.mem_map_of_mem (f := Prod.fst) hmem))

/-- The deadline of a computation is that of the timer it names. -/
theorem computeNext_result (h : s.computeNext = .ok (some (d, T))) :
    ∃ t, s.timerUnit T = some t ∧ (T.kind = .timer ∧ s.mgr.isActive T = true) ∧
      nextOverall s.clock s.managerStart none none none t (s.lastFire T) = .ok (some d) := by
  obtain ⟨hnone, -⟩ | ⟨pre, u, post, hentries, hT, -⟩ := computeLoop_chosen h
  · exact absurd hnone (by simp)
  obtain ⟨hactive, t, hu, hnext⟩ := hT
  have hmem : (T, u) ∈ s.mgr.units.entries :=
    hentries ▸ List.mem_append_right _ List.mem_cons_self
  exact ⟨t, (runs_of_entry hmem hactive hu).2.2, hactive, hnext⟩

theorem FirstInLine.unique {T' : UnitName} (h : s.FirstInLine T) (h' : s.FirstInLine T') :
    T = T' := by
  obtain ⟨d, hd, pre, post, hkeys, hle, hlt⟩ := h
  obtain ⟨d', hd', pre', post', hkeys', hle', hlt'⟩ := h'
  have h₁ := hle T' d' hd'
  have h₂ := hle' T d hd
  rw [hkeys] at hkeys'
  obtain ⟨a, hpre, ha⟩ | ⟨a, hpre, ha⟩ := List.append_eq_append_iff.mp hkeys'
  · cases a with
    | nil => exact (List.cons.inj ha).1
    | cons x a =>
      obtain rfl := (List.cons.inj ha).1
      have := hlt' T (hpre ▸ List.mem_append_right _ List.mem_cons_self) d hd
      omega
  · cases a with
    | nil => exact (List.cons.inj ha).1.symm
    | cons x a =>
      obtain rfl := (List.cons.inj ha).1
      have := hlt T' (hpre ▸ List.mem_append_right _ List.mem_cons_self) d' hd'
      omega

/-- **The deadline is that of the timer which is first in line.** -/
theorem computeNext_iff (h : s.computeNext = .ok next) :
    (∃ d, next = some (d, T)) ↔ s.FirstInLine T := by
  constructor
  · intro hd
    obtain ⟨d, rfl⟩ := hd
    obtain ⟨hd, hrest⟩ := firstInLine_of_computeNext h
    exact ⟨d, hd, hrest⟩
  · intro hfirst
    obtain ⟨d, hd, -⟩ := id hfirst
    cases next with
    | none =>
      obtain ⟨u, x, hmem, hx, -⟩ := gives_of_awaits h hd
      exact absurd hx ((computeLoop_none h).2 _ hmem x)
    | some c =>
      obtain ⟨x, n⟩ := c
      obtain ⟨hx, hrest⟩ := firstInLine_of_computeNext h
      obtain rfl := FirstInLine.unique hfirst ⟨x, hx, hrest⟩
      exact ⟨x, rfl⟩

/-- There is a deadline, at or before `x`. -/
def DeadlineBy (next : Option (DateTime × UnitName)) (x : DateTime) : Prop :=
  ∃ d u, next = some (d, u) ∧ d.nanos ≤ x.nanos

/-- **The deadline is the earliest instant that any timer is due at.** -/
theorem computeNext_earliest (h : s.computeNext = .ok next) :
    (∀ d T, next = some (d, T) → s.Awaits T d) ∧ ∀ T d, s.Awaits T d → DeadlineBy next d := by
  constructor
  · intro d T hd
    exact (firstInLine_of_computeNext (hd ▸ h)).1
  · intro T d hd
    cases next with
    | none =>
      obtain ⟨u, x, hmem, hx, -⟩ := gives_of_awaits h hd
      exact absurd hx ((computeLoop_none h).2 _ hmem x)
    | some c =>
      obtain ⟨-, pre, post, -, hle, -⟩ := firstInLine_of_computeNext h
      exact ⟨c.1, c.2, rfl, hle T d hd⟩

end TimerScheduler

end Systeml.Runtime
