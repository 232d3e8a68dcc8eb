import Systeml.Runtime.Timer
import Systeml.Unit.ExactSearch

/-!
# Which missed instants a persistent timer catches up on

`nextOverall_iff_missed_iff`: exactly when being due at or before `now` means
that an instant was missed. Two things can come in between: the backward search
gives up before it reaches a missed instant, and the fraction of a second of
`now` makes an instant that has fired look later than it is.
-/

namespace Systeml.Runtime

open Systeml.Lib Systeml.Unit

/-- A matching instant `p` after `anchor`, not after `now` and less than 366 days
before it. -/
structure MissedAt (now anchor : DateTime) (spec : CalendarSpec) (p : Int) : Prop where
  isMatch : Matches spec p
  after : anchor.nanos < p * 1000000000
  le : p * 1000000000 ≤ now.nanos
  recent : now.nanos - 366 * 86400 * 1000000000 < p * 1000000000

/-- An instant of one of the schedules was missed. -/
def Missed (now anchor : DateTime) (specs : List CalendarSpec) : Prop :=
  ∃ s ∈ specs, ∃ p, MissedAt now anchor s p

/-- The window and the searches stay in the range of years. -/
def InReach (now : DateTime) (last : Option DateTime) : Prop :=
  DateTime.InRange ⟨now.nanos + -(366 * 86400) * 1000000000⟩ ∧
    DateTime.InRange ⟨(baselineOf now last).nanos + 3660 * 86400 * 1000000000⟩

/-- A missed instant is among the first 200000 of its window. -/
def Covered (now anchor : DateTime) (spec : CalendarSpec) : Prop :=
  ∃ p, MissedAt now anchor spec p ∧ countMatches spec (windowStart now) p ≤ prevCap

/-- The last of the first 200000 instants of the window is not after `anchor`,
but it is with the fraction of `now`, and the window up to it keeps that. -/
def Shadowed (now anchor : DateTime) (spec : CalendarSpec) : Prop :=
  ∃ q, Last spec now q ∧ SmoothTo spec now q ∧ q * 1000000000 ≤ anchor.nanos ∧
    anchor.nanos < q * 1000000000 + now.subsec

/-- The seconds that `MissedAt` bounds are those of the window. -/
theorem missedAt_iff {now anchor : DateTime} {spec : CalendarSpec} {p : Int} :
    MissedAt now anchor spec p ↔ Matches spec p ∧ anchor.nanos < p * 1000000000 ∧
      windowStart now < p ∧ p ≤ now.sec := by
  have hn := now.nanos_eq
  have hb := now.subsec_bounds
  unfold windowStart
  constructor
  · rintro ⟨hm, ha, hle, hr⟩
    exact ⟨hm, ha, by omega, by omega⟩
  · rintro ⟨hm, ha, hw, hle⟩
    exact ⟨hm, ha, by omega, by omega⟩

/-- Where the window holds a match, the search considers a last one. -/
theorem exists_last {now : DateTime} (hsafe : WindowSafe now) {spec : CalendarSpec} {p : Int}
    (hm : Matches spec p) (hw : windowStart now < p) (hp : p ≤ now.sec) : ∃ q, Last spec now q := by
  obtain ⟨r, -, hres⟩ := prevFire_spec hsafe spec
  cases r with
  | none => exact absurd hm (hres p hw hp)
  | some t => exact ⟨t.sec, hres.1⟩

theorem passed_iff_covered {now anchor : DateTime} (hsafe : WindowSafe now) {spec : CalendarSpec} :
    Passed now anchor spec ↔ Covered now anchor spec ∨ Shadowed now anchor spec := by
  rw [passed_iff hsafe]
  constructor
  · rintro ⟨q, hq, hlt⟩
    by_cases ha : anchor.nanos < q * 1000000000
    · exact Or.inl ⟨q, missedAt_iff.mpr ⟨hq.isMatch, ha, hq.after, hq.le⟩, hq.count⟩
    · obtain ⟨hall, hlt⟩ := hlt.resolve_left ha
      exact Or.inr ⟨q, hq, hall, by omega, hlt⟩
  · rintro (⟨p, hmissed, hcount⟩ | ⟨q, hq, hall, -, hlt⟩)
    · obtain ⟨hm, ha, hw, hp⟩ := missedAt_iff.mp hmissed
      obtain ⟨q, hq⟩ := exists_last hsafe hm hw hp
      have hpq := hq.ge hm hw hp hcount
      exact ⟨q, hq, Or.inl (by omega)⟩
    · exact ⟨q, hq, Or.inr ⟨hall, hlt⟩⟩

theorem InReach.safe {now : DateTime} {last : Option DateTime} (h : InReach now last) :
    WindowSafe now ∧ SearchSafe (baselineOf now last) := by
  obtain ⟨h1, h2⟩ := h
  have hle := le_baselineOf now last
  have hn := now.nanos_eq
  have hb := (baselineOf now last).nanos_eq
  have := now.subsec_bounds
  have := (baselineOf now last).subsec_bounds
  unfold WindowSafe SearchSafe
  unfold DateTime.InRange at h1 h2 ⊢
  simp only [(DateTime.sec_add _ _).1] at h1 h2 ⊢
  refine ⟨⟨h1, ?_⟩, ?_, h2⟩ <;> omega

/-- **When a persistent timer without monotonic triggers is due.** -/
theorem nextOverall_due {timer : TimerUnit} (hp : timer.persistent = true)
    (hc : CalendarOnly timer) (now managerStart : DateTime) (a b c last : Option DateTime) :
    Due now managerStart a b c timer last ↔
      InReach now last ∧ ∃ s ∈ timer.onCalendar, Passed now (last.getD managerStart) s := by
  unfold Due
  rw [hc.nextOverall_eq, if_pos hp]
  by_cases hr : InReach now last
  · obtain ⟨hw, hs⟩ := hr.safe
    have hdue : ∀ best, (∃ t, calendarLoop now last timer.onCalendar best = .ok (some t) ∧
        t.nanos ≤ now.nanos) ↔ ∃ t, best = some t ∧ t.nanos ≤ now.nanos := fun best => by
      obtain ⟨r, hok⟩ := calendarLoop_ok hs timer.onCalendar best
      rw [← calendarLoop_due hok, hok]
      simp only [Except.ok.injEq]
    rcases catchUp_spec (last.getD managerStart) hw timer.onCalendar with
      ⟨hyes, he⟩ | ⟨hno, he⟩ <;> rw [he]
    · simp only [Except.bind, hdue, hr, hyes, Option.some.injEq, exists_eq_left', and_self,
        Int.le_refl]
    · simp only [Except.bind, hdue, hno, and_false, reduceCtorEq, false_and, exists_false]
  · simp only [hr, false_and, iff_false]
    rintro ⟨t, ht, hle⟩
    cases hspecs : timer.onCalendar with
    | nil =>
      rw [hspecs] at ht
      exact absurd ht (by simp [catchUp, calendarLoop, Except.bind])
    | cons spec rest =>
      rw [hspecs] at ht
      by_cases hlow : DateTime.InRange ⟨now.nanos + -(366 * 86400) * 1000000000⟩
      · have hbad : ¬ SearchSafe (baselineOf now last) := fun h => hr ⟨hlow, h.2⟩
        cases hcatch : catchUp now (last.getD managerStart) (spec :: rest) none with
        | error e =>
          rw [hcatch] at ht
          exact absurd ht (by simp [Except.bind])
        | ok best =>
          rw [hcatch] at ht
          exact absurd ht (by simp [Except.bind, calendarLoop_error hbad])
      · have herr : catchUp now (last.getD managerStart) (spec :: rest) none = .error {} := by
          show (prevFire now spec).bind _ = _
          rw [prevFire_error hlow]
          rfl
        rw [herr] at ht
        exact absurd ht (by simp [Except.bind])

/-- A timer with triggers is due as soon as it catches up. -/
theorem due_of_covered {now managerStart : DateTime} {timer : TimerUnit} {last : Option DateTime}
    (hp : timer.persistent = true) (hr : InReach now last)
    (ht : TriggersInReach timer managerStart)
    (hc : ∃ s ∈ timer.onCalendar, Covered now (last.getD managerStart) s) :
    Due now managerStart none none none timer last := by
  obtain ⟨hw, hs⟩ := hr.safe
  obtain ⟨s, hmem, hcov⟩ := hc
  have hpass : ∃ s ∈ timer.onCalendar, Passed now (last.getD managerStart) s :=
    ⟨s, hmem, (passed_iff_covered hw).mpr (Or.inl hcov)⟩
  obtain ⟨-, hcatch⟩ | ⟨hno, -⟩ := catchUp_spec (last.getD managerStart) hw
    timer.onCalendar
  · obtain ⟨b₁, hcal⟩ := calendarLoop_ok hs timer.onCalendar (some now)
    obtain ⟨b₂, hstart⟩ := trigger_ok now b₁ ht.startup
    obtain ⟨b₃, hboot⟩ := trigger_ok now b₂ ht.boot
    have hmost : AtMost b₃ now := trigger_atMost (trigger_atMost
      (calendarLoop_atMost ⟨now, rfl, Int.le_refl _⟩ hcal) hstart) hboot
    obtain ⟨n, rfl, hle⟩ := hmost
    refine ⟨n, nextOverall_ok.mpr ⟨some now, ?_, b₁, hcal, b₂, hstart, hboot⟩, hle⟩
    rw [if_pos hp]
    exact hcatch
  · exact absurd hpass hno

/-! ## An hourly and a per-second schedule -/

/-- `*-*-* *:00:00`. -/
def hourly : TimerUnit where
  onCalendar := [⟨.any, .any, .any, .any, .any, .single 0 (by decide), .single 0 (by decide)⟩]
  persistent := true

/-- `*-*-* *:*:*`. -/
def everySecond : TimerUnit where
  onCalendar := [⟨.any, .any, .any, .any, .any, .any, .any⟩]
  persistent := true

theorem calendarOnly_hourly : CalendarOnly hourly := ⟨rfl, rfl, rfl, rfl, rfl⟩

theorem calendarOnly_everySecond : CalendarOnly everySecond := ⟨rfl, rfl, rfl, rfl, rfl⟩

theorem matches_hourly {s : CalendarSpec} (hs : s ∈ hourly.onCalendar) {p : Int} :
    Matches s p ↔ p % 3600 = 0 := by
  obtain rfl := List.mem_singleton.mp hs
  have hfield : ∀ v, FieldSet.matchesValue (.single 0 (by decide) : FieldSet 0 59) v = true ↔ v = 0 := fun v => by simp [FieldSet.matchesValue, FieldSet.single]
  constructor
  · rintro ⟨-, -, -, -, -, hm, hsec⟩
    rw [hfield] at hm hsec
    unfold secMinute at hm
    unfold secSecond at hsec
    omega
  · intro hp
    refine ⟨rfl, rfl, rfl, rfl, rfl, (hfield _).mpr ?_, (hfield _).mpr ?_⟩
    · unfold secMinute
      omega
    · unfold secSecond
      omega

/-- An hourly schedule passes smooth seconds only: past the hour no minute and
past the minute no second is left. -/
theorem smooth_hourly {s : CalendarSpec} (hs : s ∈ hourly.onCalendar) (p : Int) : Smooth s p := by
  obtain rfl := List.mem_singleton.mp hs
  have hlast : ∀ v, FieldSet.hasLater (.single 0 (by decide) : FieldSet 0 59) v = false := fun v => by simp [FieldSet.hasLater, FieldSet.single]
  exact ⟨rfl, rfl, rfl, rfl, rfl, Or.inr (hlast _), fun _ => Or.inr (hlast _)⟩

/-- It has one instant an hour. -/
theorem count_hourly {s : CalendarSpec} (hs : s ∈ hourly.onCalendar) (a q : Int) :
    countMatches s a q ≤ (q / 3600 - a / 3600).toNat := by
  rw [← Int.card_Ioc]
  refine Finset.card_le_card_of_injOn (· / 3600) (fun p hp => ?_) fun p hp p' hp' he => ?_
  · simp only [Finset.coe_filter, Set.mem_ofPred_eq, Finset.mem_Ioc, matches_hourly hs] at hp
    simp only [Finset.coe_Ioc, Set.mem_Ioc]
    omega
  · simp only [Finset.coe_filter, Set.mem_ofPred_eq, Finset.mem_Ioc, matches_hourly hs] at hp hp'
    simp only at he
    omega

theorem count_everySecond {s : CalendarSpec} (hs : s ∈ everySecond.onCalendar) (a q : Int) :
    countMatches s a q = (q - a).toNat := by
  obtain rfl := List.mem_singleton.mp hs
  exact count_everySecondSpec a q

/-! ## Due exactly if missed -/

/-- What the catch-up needs to find exactly the missed instants. -/
structure CatchesUp (timer : TimerUnit) (now anchor : DateTime) (last : Option DateTime) :
    Prop where
  covered : Missed now anchor timer.onCalendar →
    InReach now last ∧ ∃ s ∈ timer.onCalendar, Covered now anchor s ∨ Shadowed now anchor s
  unshadowed : InReach now last → (∃ s ∈ timer.onCalendar, Shadowed now anchor s) →
    Missed now anchor timer.onCalendar

/-- **A persistent timer is due exactly if it missed an instant**, exactly where
`CatchesUp` holds. -/
theorem nextOverall_iff_missed_iff {timer : TimerUnit} (hp : timer.persistent = true)
    (hc : CalendarOnly timer) (now managerStart : DateTime) (a b c last : Option DateTime) :
    (Due now managerStart a b c timer last ↔
        Missed now (last.getD managerStart) timer.onCalendar) ↔
      CatchesUp timer now (last.getD managerStart) last := by
  rw [nextOverall_due hp hc]
  obtain ⟨anchor, hanchor⟩ : ∃ x, x = last.getD managerStart := ⟨_, rfl⟩
  rw [← hanchor]
  have hpassed : InReach now last → ((∃ s ∈ timer.onCalendar, Passed now anchor s) ↔
      ∃ s ∈ timer.onCalendar, Covered now anchor s ∨ Shadowed now anchor s) := fun hr => by
    simp only [passed_iff_covered hr.safe.1]
  constructor
  · intro h
    constructor
    · intro hmissed
      obtain ⟨hr, hpass⟩ := h.mpr hmissed
      exact ⟨hr, (hpassed hr).mp hpass⟩
    · rintro hr ⟨s, hs, hshadow⟩
      exact h.mp ⟨hr, (hpassed hr).mpr ⟨s, hs, Or.inr hshadow⟩⟩
  · intro h
    constructor
    · rintro ⟨hr, hpass⟩
      obtain ⟨s, hs, ⟨p, hmissed, -⟩ | hshadow⟩ := (hpassed hr).mp hpass
      · exact ⟨s, hs, p, hmissed⟩
      · exact h.unshadowed hr ⟨s, hs, hshadow⟩
    · intro hmissed
      obtain ⟨hr, hcov⟩ := h.covered hmissed
      exact ⟨hr, (hpassed hr).mpr hcov⟩

/-- An hourly timer that fired at an hour is due again twenty minutes later, half
a second into it, if it missed the next hour in between. -/
theorem nextOverall_iff_missed_iff_hourly :
    Due ⟨1800001200500000000⟩ ⟨1700000000000000000⟩ none none none hourly
        (some ⟨1799996400000000000⟩) ↔
      Missed ⟨1800001200500000000⟩ ⟨1799996400000000000⟩ hourly.onCalendar := by
  refine (nextOverall_iff_missed_iff rfl calendarOnly_hourly ⟨1800001200500000000⟩
    ⟨1700000000000000000⟩ none none none (some ⟨1799996400000000000⟩)).mpr ?_
  have hmissed : ∀ s ∈ hourly.onCalendar,
      MissedAt ⟨1800001200500000000⟩ ⟨1799996400000000000⟩ s 1800000000 := fun s hs =>
    ⟨(matches_hourly hs).mpr (by decide), by decide, by decide, by decide⟩
  refine ⟨fun _ => ⟨⟨by decide, by decide⟩, _, List.mem_singleton_self _, Or.inl ⟨1800000000,
    hmissed _ (List.mem_singleton_self _), ?_⟩⟩, fun _ _ => ⟨_, List.mem_singleton_self _, _,
    hmissed _ (List.mem_singleton_self _)⟩⟩
  exact (count_hourly (List.mem_singleton_self _) _ _).trans (by decide)

/-- Being due is not having missed an instant: an hourly timer that fired on the
hour is due again at once if `now` has a fraction, and a per-second timer is not
due though it missed a whole day. -/
theorem not_all_iff_missed :
    ¬ (Due ⟨1800001200500000000⟩ ⟨1700000000000000000⟩ none none none hourly
        (some ⟨1800000000000000000⟩) ↔
      Missed ⟨1800001200500000000⟩ ⟨1800000000000000000⟩ hourly.onCalendar) ∧
    ¬ (Due ⟨1800000000000000000⟩ ⟨1799913600000000000⟩ none none none everySecond none ↔
      Missed ⟨1800000000000000000⟩ ⟨1799913600000000000⟩ everySecond.onCalendar) := by
  constructor
  · rw [nextOverall_due rfl calendarOnly_hourly]
    intro h
    have hlast : ∀ s ∈ hourly.onCalendar, Last s ⟨1800001200500000000⟩ 1800000000 := fun s hs => by
      refine ⟨(matches_hourly hs).mpr (by decide), by decide, by decide,
        (count_hourly hs _ _).trans (by decide), Or.inr fun p hp hle hm => ?_⟩
      have hhour := (matches_hourly hs).mp hm
      have hsec : (DateTime.mk 1800001200500000000).sec = 1800001200 := rfl
      omega
    obtain ⟨s, hs, p, hm⟩ := h.mp ⟨⟨by decide, by decide⟩, _, List.mem_singleton_self _,
      (passed_iff_covered ⟨by decide, by decide⟩).mpr
        (Or.inr ⟨1800000000, hlast _ (List.mem_singleton_self _),
          fun p _ _ => smooth_hourly (List.mem_singleton_self _) p, by decide, by decide⟩)⟩
    have hhour := (matches_hourly hs).mp hm.isMatch
    have hlo := hm.after
    have hhi := hm.le
    simp only at hlo hhi
    omega
  · rw [nextOverall_due rfl calendarOnly_everySecond]
    intro h
    obtain ⟨-, s, hs, hpass⟩ := h.mpr ⟨_, List.mem_singleton_self _, 1800000000,
      ⟨rfl, rfl, rfl, rfl, rfl, rfl, rfl⟩, by decide, by decide, by decide⟩
    have hw : windowStart ⟨1800000000000000000⟩ = 1768377600 := rfl
    rcases (passed_iff_covered ⟨by decide, by decide⟩).mp hpass with
      ⟨p, hm, hc⟩ | ⟨q, -, -, hle, hlt⟩
    · have hc : (p - 1768377600).toNat ≤ 200000 := by rwa [count_everySecond hs, hw] at hc
      have hlo := hm.after
      simp only [Option.getD_none] at hlo
      omega
    · have hsub : (DateTime.mk 1800000000000000000).subsec = 0 := rfl
      omega

end Systeml.Runtime
