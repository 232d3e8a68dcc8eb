import Systeml.Unit.Schedule

/-!
# One iteration of the calendar search

`advance` moves a candidate that does not match to a later second and skips no
matching one (`advance_spec`): one lemma for each field, on the seconds that
share the coarser ones.
-/

namespace Systeml.Unit

open Systeml.Lib

variable {spec : CalendarSpec}

/-- A second matches when each of its seven fields does. -/
structure Matches (spec : CalendarSpec) (s : Int) : Prop where
  year : spec.year.matchesValue (yearU32 (secDate s).year) = true
  month : spec.month.matchesValue (secDate s).month = true
  day : spec.day.matchesValue (secDate s).day = true
  weekday : spec.weekdays.matchesValue (secWeekday s) = true
  hour : spec.hour.matchesValue (secHour s) = true
  minute : spec.minute.matchesValue (secMinute s) = true
  second : spec.second.matchesValue (secSecond s) = true

instance (spec : CalendarSpec) (s : Int) : Decidable (Matches spec s) :=
  decidable_of_iff
    (spec.year.matchesValue (yearU32 (secDate s).year) = true ∧
      spec.month.matchesValue (secDate s).month = true ∧
      spec.day.matchesValue (secDate s).day = true ∧
      spec.weekdays.matchesValue (secWeekday s) = true ∧
      spec.hour.matchesValue (secHour s) = true ∧
      spec.minute.matchesValue (secMinute s) = true ∧
      spec.second.matchesValue (secSecond s) = true)
    ⟨fun ⟨h1, h2, h3, h4, h5, h6, h7⟩ => ⟨h1, h2, h3, h4, h5, h6, h7⟩,
      fun h => ⟨h.year, h.month, h.day, h.weekday, h.hour, h.minute, h.second⟩⟩

/-! ## Fields -/

/-- Where a value does not match, `nextInSet` gives the next one of the set, if
any; nothing of the set lies in between. -/
theorem nextInSet_some {l h : Nat} {fs : FieldSet l h} {after lo hi v : Nat}
    (hno : fs.matchesValue after = false) (hv : nextInSet fs after lo hi = some v) :
    after < v ∧ lo ≤ v ∧ v ≤ hi ∧
      ∀ w, fs.matchesValue w = true → after ≤ w → lo ≤ w → w ≤ hi → v ≤ w := by
  obtain ⟨vs, hvs, hnot⟩ := FieldSet.matchesValue_eq_false.mp hno
  unfold nextInSet at hv
  rw [hvs] at hv
  simp only at hv
  obtain ⟨hp, as, bs, rfl, hbefore⟩ := List.find?_eq_some_iff_append.mp hv
  simp only [Bool.and_eq_true, decide_eq_true_eq] at hp
  have hne : after ≠ v := by
    rintro rfl
    exact hnot (by simp)
  refine ⟨by omega, hp.1.1, hp.1.2, fun w hw haw hlo hhi => ?_⟩
  rw [FieldSet.matchesValue_some hvs] at hw
  rcases List.mem_append.mp hw with hw | hw
  · have := hbefore w hw
    simp only [Bool.not_eq_true', Bool.and_eq_false_iff, decide_eq_false_iff_not] at this
    omega
  · rcases List.mem_cons.mp hw with rfl | hw
    · exact Nat.le_refl _
    · have hsorted := (fs.valid _ hvs).2.1
      have := (List.pairwise_cons.mp (List.pairwise_append.mp hsorted).2.1).1 w hw
      omega

theorem nextInSet_none {l h : Nat} {fs : FieldSet l h} {after lo hi : Nat}
    (hv : nextInSet fs after lo hi = none) :
    ∀ w, fs.matchesValue w = true → lo ≤ w → w ≤ hi → w < after := by
  intro w hw hlo hhi
  unfold nextInSet at hv
  cases hvs : fs.values with
  | none =>
    rw [hvs] at hv
    exact absurd hv (by simp)
  | some vs =>
    rw [hvs] at hv
    rw [FieldSet.matchesValue_some hvs] at hw
    have := List.find?_eq_none.mp hv w hw
    simp only [Bool.and_eq_true, decide_eq_true_eq] at this
    omega

theorem daysInMonth_eq {y : Int} {m : Nat} (hy : -9999 ≤ y ∧ y ≤ 9999)
    (hm : 1 ≤ m ∧ m ≤ 12) : daysInMonth y m = monthLength y m := by
  have hthis := DateTime.fromCalendarDate_of_valid (firstOfMonth_valid (y := y) hm) hy
  simp only at hthis
  unfold daysInMonth
  simp only [hthis]
  by_cases h12 : m = 12
  · subst h12
    simp only [if_true]
    by_cases hlast : y + 1 ≤ 9999
    · have hnext := DateTime.fromCalendarDate_of_valid
        (firstOfMonth_valid (y := y + 1) (m := 1) (by simp)) ⟨by simp only; omega, hlast⟩
      simp only at hnext
      have hs := daysBeforeYear_succ y
      simp only [hnext, dayNum, daysBeforeMonth, monthLength]
      omega
    · rw [DateTime.fromCalendarDate_of_late (by omega)]
      rfl
  · simp only [if_neg h12]
    have hnext := DateTime.fromCalendarDate_of_valid
      (firstOfMonth_valid (y := y) (m := m + 1) (by omega)) hy
    simp only at hnext
    have hs := daysBeforeMonth_succ (y := y) hm.1 (by omega)
    simp only [hnext, dayNum, hs]
    omega

/-! ## Moves -/

/-- A move from `c` to `c'` goes forward, stays in range and skips no match. -/
structure Skips (spec : CalendarSpec) (c c' : DateTime) : Prop where
  inRange : c'.InRange
  forward : c.sec < c'.sec
  skipped : ∀ p, c.sec ≤ p → p < c'.sec → ¬ Matches spec p

/-- What one iteration from `c` means. Giving up means that what still matches
lies past the last year, or that `c` is before year 0 and no listed year is. -/
def StepSpec (spec : CalendarSpec) (c : DateTime) : Step → Prop
  | .found => Matches spec c.sec
  | .stop => ∀ p, c.sec ≤ p → Matches spec p → 9999 < (secDate p).year ∨
      (secDate c.sec).year < 0 ∧ 1970 ≤ (secDate p).year
  | .move c' => Skips spec c c'

/-- A value that matches lies within the bounds, where another one does not. -/
theorem bounds_of_matches {l h : Nat} {fs : FieldSet l h} {after w : Nat}
    (hno : fs.matchesValue after = false) (hw : fs.matchesValue w = true) : l ≤ w ∧ w ≤ h := by
  obtain ⟨vs, hvs, -⟩ := FieldSet.matchesValue_eq_false.mp hno
  exact (fs.valid vs hvs).2.2 w ((FieldSet.matchesValue_some hvs w).mp hw)

/-- A move to midnight of a date. -/
theorem stepSpec_midnight {c : DateTime} {d : CivilDate} (hd : d.Valid)
    (hy : -9999 ≤ d.year) (hfwd : ¬ d.Le (secDate c.sec))
    (hskip : ∀ p, c.sec ≤ p → ¬ d.Le (secDate p) → Matches spec p → False) :
    StepSpec spec c
      (moveTo ((DateTime.fromCalendarDate d.year d.month d.day).map .midnight)) := by
  by_cases hmax : d.year ≤ 9999
  · rw [DateTime.fromCalendarDate_of_valid hd ⟨hy, hmax⟩]
    have hsec : (DateTime.midnight d).sec = dayNum d * 86400 := DateTime.sec_ofSec _
    have hdate : secDate (dayNum d * 86400) = d := by
      unfold secDate
      rw [Int.mul_ediv_cancel _ (by decide), dateOf_dayNum hd]
    refine ⟨?_, ?_, fun p hp hlt => ?_⟩
    · rw [DateTime.inRange_iff, hsec, hdate]
      exact ⟨hy, hmax⟩
    · rw [hsec]
      exact (lt_midnight_iff hd).mpr hfwd
    · rw [hsec, lt_midnight_iff hd] at hlt
      exact hskip p hp hlt
  · rw [DateTime.fromCalendarDate_of_late (by omega)]
    intro p hp hm
    by_cases hle : d.Le (secDate p)
    · simp only [CivilDate.Le] at hle
      exact Or.inl (by omega)
    · exact (hskip p hp hle hm).elim

theorem stepYear_spec {c : DateTime} (hr : c.InRange)
    (hno : spec.year.matchesValue (yearU32 (secDate c.sec).year) = false) :
    StepSpec spec c (stepYear spec c) := by
  have hyear := DateTime.inRange_iff.mp hr
  unfold stepYear
  cases hn : nextInSet spec.year (yearU32 (secDate c.sec).year) 1970 2199 with
  | none =>
    intro p hp hm
    have hw := bounds_of_matches hno hm.year
    have hlt := nextInSet_none hn _ hm.year hw.1 hw.2
    have hle := secDate_le hp
    simp only [CivilDate.Le, yearU32] at hle hw hlt
    omega
  | some y =>
    obtain ⟨hlt, hlo, hhi, hleast⟩ := nextInSet_some hno hn
    unfold yearU32 at hlt
    refine stepSpec_midnight (d := ⟨y, 1, 1⟩) (firstOfMonth_valid (by simp)) (by simp only; omega)
      (not_yearStart_le.mpr (by omega)) fun p hp hd hm => ?_
    rw [not_yearStart_le] at hd
    have hw := bounds_of_matches hno hm.year
    have hle := secDate_le hp
    simp only [CivilDate.Le] at hle
    have := hleast _ hm.year (by unfold yearU32; omega) hw.1 hw.2
    unfold yearU32 at this
    omega

theorem stepMonth_spec {c : DateTime} (hr : c.InRange)
    (hno : spec.month.matchesValue (secDate c.sec).month = false) :
    StepSpec spec c (stepMonth spec c) := by
  have hyear := DateTime.inRange_iff.mp hr
  -- matching seconds of the same year have a listed month from the current one on
  have hsame : ∀ p, c.sec ≤ p → (secDate p).year < (secDate c.sec).year + 1 →
      (secDate p).year = (secDate c.sec).year ∧ (secDate c.sec).month ≤ (secDate p).month := by
    intro p hp hy
    have hle := secDate_le hp
    simp only [CivilDate.Le] at hle
    omega
  have hbump : (∀ w, spec.month.matchesValue w = true → 1 ≤ w → w ≤ 12 →
      w < (secDate c.sec).month) →
      StepSpec spec c (moveTo (atYearStart ((secDate c.sec).year + 1))) := by
    intro hnone
    refine stepSpec_midnight (d := ⟨(secDate c.sec).year + 1, 1, 1⟩)
      (firstOfMonth_valid (by simp)) (by simp only; omega) (not_yearStart_le.mpr (by omega))
      fun p hp hd hm => ?_
    have hs := hsame p hp (not_yearStart_le.mp hd)
    have hv := (secDate_valid p).month
    have := hnone _ hm.month hv.1 hv.2
    omega
  simp only [stepMonth]
  cases hn : nextInSet spec.month (secDate c.sec).month 1 12 with
  | none => exact hbump (nextInSet_none hn)
  | some m =>
    obtain ⟨hlt, hlo, hhi, hleast⟩ := nextInSet_some hno hn
    simp only [if_pos hlt]
    refine stepSpec_midnight (d := ⟨(secDate c.sec).year, m, 1⟩) (firstOfMonth_valid ⟨hlo, hhi⟩)
      hyear.1 (not_monthStart_le.mpr (Or.inr ⟨rfl, hlt⟩)) fun p hp hd hm => ?_
    rw [not_monthStart_le] at hd
    have hs := hsame p hp (by omega)
    have hv := (secDate_valid p).month
    have := hleast _ hm.month hs.2 hv.1 hv.2
    omega

/-- Bumping the month skips the rest of the month. -/
theorem nextMonthStart_spec {c : DateTime} (hr : c.InRange)
    (hskip : ∀ p, c.sec ≤ p → (secDate p).year = (secDate c.sec).year →
      (secDate p).month = (secDate c.sec).month → Matches spec p → False) :
    StepSpec spec c (nextMonthStart c) := by
  have hyear := DateTime.inRange_iff.mp hr
  have hmonth := (secDate_valid c.sec).month
  unfold nextMonthStart
  simp only
  split
  next h12 =>
    refine stepSpec_midnight (d := ⟨(secDate c.sec).year + 1, 1, 1⟩)
      (firstOfMonth_valid (by simp)) (by simp only; omega) (not_yearStart_le.mpr (by omega))
      fun p hp hd hm => ?_
    have hle := secDate_le hp
    have hv := (secDate_valid p).month
    rw [not_yearStart_le] at hd
    simp only [CivilDate.Le] at hle
    exact hskip p hp (by omega) (by omega) hm
  next h12 =>
    refine stepSpec_midnight (d := ⟨(secDate c.sec).year, (secDate c.sec).month + 1, 1⟩)
      (firstOfMonth_valid (by omega)) hyear.1 (not_monthStart_le.mpr (Or.inr ⟨rfl, by omega⟩))
      fun p hp hd hm => ?_
    have hle := secDate_le hp
    rw [not_monthStart_le] at hd
    simp only [CivilDate.Le] at hle
    exact hskip p hp (by omega) (by omega) hm

/-- A move to a later day of the month, for seconds that share the month. -/
theorem stepDayStart_spec {c : DateTime} {d : Nat} (hr : c.InRange)
    (hd : (secDate c.sec).day < d)
    (hlen : d ≤ monthLength (secDate c.sec).year (secDate c.sec).month)
    (hskip : ∀ p, c.sec ≤ p → (secDate p).year = (secDate c.sec).year →
      (secDate p).month = (secDate c.sec).month → (secDate c.sec).day ≤ (secDate p).day →
      (secDate p).day < d → Matches spec p → False) :
    StepSpec spec c (moveTo (atDayStart (secDate c.sec).year (secDate c.sec).month d)) := by
  have hvc := secDate_valid c.sec
  refine stepSpec_midnight (d := ⟨(secDate c.sec).year, (secDate c.sec).month, d⟩)
    ⟨hvc.month, by have := hvc.day; simp only; omega⟩ (DateTime.inRange_iff.mp hr).1
    (by simp only [CivilDate.Le]; omega) fun p hp hnle hm => ?_
  have hle := secDate_le hp
  simp only [CivilDate.Le] at hle hnle
  exact hskip p hp (by omega) (by omega) (by omega) (by omega) hm

theorem stepDay_spec {c : DateTime} (hr : c.InRange)
    (hno : spec.day.matchesValue (secDate c.sec).day = false) :
    StepSpec spec c (stepDay spec c) := by
  have hvc := secDate_valid c.sec
  have hlen := daysInMonth_eq (DateTime.inRange_iff.mp hr) hvc.month
  have hday : ∀ p, (secDate p).year = (secDate c.sec).year →
      (secDate p).month = (secDate c.sec).month → 1 ≤ (secDate p).day ∧
        (secDate p).day ≤ monthLength (secDate c.sec).year (secDate c.sec).month := by
    intro p hy hm
    rw [← hy, ← hm]
    exact (secDate_valid p).day
  simp only [stepDay, hlen]
  cases hn : nextInSet spec.day (secDate c.sec).day 1
      (monthLength (secDate c.sec).year (secDate c.sec).month) with
  | none =>
    refine nextMonthStart_spec hr fun p hp hy hm hmat => ?_
    have hle := secDate_le hp
    simp only [CivilDate.Le] at hle
    have := nextInSet_none hn _ hmat.day (hday p hy hm).1 (hday p hy hm).2
    omega
  | some d =>
    obtain ⟨hlt, hlo, hhi, hleast⟩ := nextInSet_some hno hn
    simp only [if_pos (show _ ∧ _ from ⟨hlt, hhi⟩)]
    refine stepDayStart_spec hr hlt hhi fun p hp hy hm hge hltd hmat => ?_
    have := hleast _ hmat.day hge (hday p hy hm).1 (hday p hy hm).2
    omega

theorem stepWeekday_spec {c : DateTime} (hr : c.InRange)
    (hno : spec.weekdays.matchesValue (secWeekday c.sec) = false) :
    StepSpec spec c (stepWeekday c) := by
  have hvc := secDate_valid c.sec
  have hlen := daysInMonth_eq (DateTime.inRange_iff.mp hr) hvc.month
  -- the seconds skipped are those of the same date, which share the weekday
  have hsame : ∀ p, (secDate p).year = (secDate c.sec).year →
      (secDate p).month = (secDate c.sec).month → (secDate p).day = (secDate c.sec).day →
      Matches spec p → False := by
    intro p hy hm hd hmat
    have hdate : secDate p = secDate c.sec := by
      cases h : secDate p
      cases h' : secDate c.sec
      simp_all
    have hwd : secWeekday p = secWeekday c.sec := congrArg weekdayOf (day_eq_of_secDate hdate)
    have := hmat.weekday
    rw [hwd, hno] at this
    exact absurd this (by simp)
  unfold stepWeekday
  simp only [hlen]
  split
  next hlt =>
    refine nextMonthStart_spec hr fun p hp hy hm hmat => hsame p hy hm ?_ hmat
    have hle := secDate_le hp
    have hvp := (secDate_valid p).day
    rw [hy, hm] at hvp
    simp only [CivilDate.Le] at hle
    omega
  next hlt =>
    refine stepDayStart_spec hr (Nat.lt_succ_self _) (by omega)
      fun p hp hy hm hge hltd hmat => hsame p hy hm (by omega) hmat

/-- A move within the day, or to the next one, to the start of an hour, a minute
or a second. -/
theorem skips_ofSec {c : DateTime} {s : Int} (hr : (DateTime.ofSec s).InRange) (hfwd : c.sec < s)
    (hskip : ∀ p, c.sec ≤ p → p < s → ¬ Matches spec p) : Skips spec c (.ofSec s) :=
  ⟨hr, by rw [DateTime.sec_ofSec]; exact hfwd, fun p hp hlt => by
    rw [DateTime.sec_ofSec] at hlt
    exact hskip p hp hlt⟩

theorem replaceTime_eq {t : DateTime} {h m s : Nat} (hh : h < 24) (hm : m < 60) (hs : s < 60) :
    t.replaceTime h m s = some (.ofSec (t.sec / 86400 * 86400 + h * 3600 + m * 60 + s)) :=
  if_pos ⟨hh, hm, hs⟩

theorem secHour_lt (s : Int) : secHour s < 24 := by
  unfold secHour
  omega

theorem secMinute_lt (s : Int) : secMinute s < 60 := by
  unfold secMinute
  omega

/-- Seconds from the bumped field on that leave the range do so past the last year. -/
theorem late_of_bump {c : DateTime} {k p : Int} (hr : c.InRange) (hk : 0 ≤ k)
    (hn : c.checkedAdd (k * 1000000000) = none) (hp : (c.sec + k) / 86400 ≤ p / 86400) :
    9999 < (secDate p).year := by
  have hlate := DateTime.late_of_checkedAdd hr hk hn
  have hle : (secDate (c.sec + k)).Le (secDate p) := dateOf_le hp
  simp only [CivilDate.Le] at hle
  omega

/-- The move to a later hour of the day. -/
theorem atHour_skips {c : DateTime} {h : Nat} (hr : c.InRange) (hlt : secHour c.sec < h)
    (hh : h < 24) (hskip : ∀ p, c.sec ≤ p → p / 86400 = c.sec / 86400 → secHour c.sec ≤ secHour p →
      secHour p < h → ¬ Matches spec p) :
    StepSpec spec c (moveTo (atHour c h)) := by
  unfold atHour
  rw [replaceTime_eq hh (by omega) (by omega)]
  unfold secHour at hlt
  refine skips_ofSec (hr.sameDay (by rw [DateTime.sec_ofSec]; omega)) (by omega)
    fun p hp hlt' => hskip p hp (by omega) (secHour_le hp (by omega)) ?_
  unfold secHour
  omega

theorem stepHour_spec {c : DateTime} (hr : c.InRange)
    (hno : spec.hour.matchesValue (secHour c.sec) = false) :
    StepSpec spec c (stepHour spec c) := by
  simp only [stepHour]
  cases hn : nextInSet spec.hour (secHour c.sec) 0 23 with
  | some h =>
    obtain ⟨hlt, hlo, hhi, hleast⟩ := nextInSet_some hno hn
    simp only [if_pos hlt]
    refine atHour_skips hr hlt (by omega) fun p hp hd hge hltp hmat => ?_
    have hb := bounds_of_matches hno hmat.hour
    have := hleast _ hmat.hour hge hb.1 hb.2
    omega
  | none =>
    have hskip : ∀ p, c.sec ≤ p → p / 86400 = c.sec / 86400 → ¬ Matches spec p := by
      intro p hp hd hmat
      have hb := bounds_of_matches hno hmat.hour
      have hlt := nextInSet_none hn _ hmat.hour hb.1 hb.2
      have hle := secHour_le hp hd.symm
      omega
    cases hadd : c.checkedAdd (86400 * 1000000000) with
    | none =>
      intro p hp hmat
      refine Or.inl (late_of_bump hr (by omega) hadd ?_)
      have hne : ¬ p / 86400 = c.sec / 86400 := fun hd => hskip p hp hd hmat
      omega
    | some d =>
      obtain ⟨hrd, hsec, -⟩ := DateTime.checkedAdd_sec hadd
      simp only [Option.bind_some]
      rw [replaceTime_eq (by omega) (by omega) (by omega)]
      refine skips_ofSec (hrd.sameDay (by rw [DateTime.sec_ofSec]; omega)) (by omega)
        fun p hp hlt => hskip p hp (by omega)

/-- Bumping the hour: the start of the next hour, fraction kept. -/
theorem bumpHour_eq {c d : DateTime} (hadd : c.checkedAdd (3600 * 1000000000) = some d) :
    ∃ c', ((d.replaceMinute 0).bind (·.replaceSecond 0)) = some c' ∧ c'.InRange ∧
      c'.sec = (c.sec / 3600 + 1) * 3600 ∧ c'.subsec = c.subsec := by
  obtain ⟨hrd, hs1, hf1⟩ := DateTime.checkedAdd_sec hadd
  obtain ⟨hs2, hf2⟩ := DateTime.sec_add d (((0 : Nat) - secMinute d.sec : Int) * 60)
  rw [show DateTime.replaceMinute d 0 = some _ from if_pos (by omega), Option.bind_some]
  rw [show ∀ t : DateTime, t.replaceSecond 0 = some _ from fun t => if_pos (by omega)]
  refine ⟨_, rfl, ?_, ?_, ?_⟩
  · refine hrd.sameDay ?_
    rw [(DateTime.sec_add _ _).1, hs2]
    unfold secSecond secMinute
    omega
  · rw [(DateTime.sec_add _ _).1, hs2]
    unfold secSecond secMinute
    omega
  · rw [(DateTime.sec_add _ _).2, hf2]
    exact hf1

/-- Bumping the minute: the start of the next minute, fraction kept. -/
theorem bumpMinute_eq {c d : DateTime} (hadd : c.checkedAdd (60 * 1000000000) = some d) :
    ∃ c', d.replaceSecond 0 = some c' ∧ c'.InRange ∧
      c'.sec = (c.sec / 60 + 1) * 60 ∧ c'.subsec = c.subsec := by
  obtain ⟨hrd, hs1, hf1⟩ := DateTime.checkedAdd_sec hadd
  refine ⟨_, if_pos (by omega), ?_, ?_, ?_⟩
  · refine hrd.sameDay ?_
    rw [(DateTime.sec_add _ _).1]
    unfold secSecond
    omega
  · rw [(DateTime.sec_add _ _).1]
    unfold secSecond
    omega
  · rw [(DateTime.sec_add _ _).2]
    exact hf1

theorem stepMinute_spec {c : DateTime} (hr : c.InRange)
    (hno : spec.minute.matchesValue (secMinute c.sec) = false) :
    StepSpec spec c (stepMinute spec c) := by
  have hh := secHour_lt c.sec
  simp only [stepMinute]
  cases hn : nextInSet spec.minute (secMinute c.sec) 0 59 with
  | some m =>
    obtain ⟨hlt, hlo, hhi, hleast⟩ := nextInSet_some hno hn
    simp only [if_pos hlt, atMinute]
    rw [replaceTime_eq hh (by omega) (by omega)]
    unfold secMinute at hlt
    unfold secHour
    refine skips_ofSec (hr.sameDay (by rw [DateTime.sec_ofSec]; omega)) (by omega)
      fun p hp hltp hmat => ?_
    have hb := bounds_of_matches hno hmat.minute
    have := hleast _ hmat.minute (secMinute_le hp (by omega)) hb.1 hb.2
    unfold secMinute at this
    omega
  | none =>
    have hskip : ∀ p, c.sec ≤ p → p / 3600 = c.sec / 3600 → ¬ Matches spec p := by
      intro p hp hd hmat
      have hb := bounds_of_matches hno hmat.minute
      have hlt := nextInSet_none hn _ hmat.minute hb.1 hb.2
      have hle := secMinute_le hp hd.symm
      omega
    cases hadd : c.checkedAdd (3600 * 1000000000) with
    | none =>
      intro p hp hmat
      refine Or.inl (late_of_bump hr (by omega) hadd ?_)
      have hne : ¬ p / 3600 = c.sec / 3600 := fun hd => hskip p hp hd hmat
      omega
    | some d =>
      obtain ⟨c', hc', hrc, hsec, -⟩ := bumpHour_eq hadd
      simp only [Option.bind_some, hc']
      exact ⟨hrc, by omega, fun p hp hlt => hskip p hp (by omega)⟩

theorem stepSecond_spec {c : DateTime} (hr : c.InRange)
    (hno : spec.second.matchesValue (secSecond c.sec) = false) :
    StepSpec spec c (stepSecond spec c) := by
  have hh := secHour_lt c.sec
  have hm := secMinute_lt c.sec
  simp only [stepSecond]
  cases hn : nextInSet spec.second (secSecond c.sec) 0 59 with
  | some s =>
    obtain ⟨hlt, hlo, hhi, hleast⟩ := nextInSet_some hno hn
    simp only [if_pos hlt.le, atSecond]
    rw [replaceTime_eq hh hm (by omega)]
    unfold secSecond at hlt
    unfold secHour secMinute
    refine skips_ofSec (hr.sameDay (by rw [DateTime.sec_ofSec]; omega)) (by omega)
      fun p hp hltp hmat => ?_
    have hb := bounds_of_matches hno hmat.second
    have := hleast _ hmat.second (secSecond_le hp (by omega)) hb.1 hb.2
    unfold secSecond at this
    omega
  | none =>
    have hskip : ∀ p, c.sec ≤ p → p / 60 = c.sec / 60 → ¬ Matches spec p := by
      intro p hp hd hmat
      have hb := bounds_of_matches hno hmat.second
      have hlt := nextInSet_none hn _ hmat.second hb.1 hb.2
      have hle := secSecond_le hp hd.symm
      omega
    cases hadd : c.checkedAdd (60 * 1000000000) with
    | none =>
      intro p hp hmat
      refine Or.inl (late_of_bump hr (by omega) hadd ?_)
      have hne : ¬ p / 60 = c.sec / 60 := fun hd => hskip p hp hd hmat
      omega
    | some d =>
      obtain ⟨c', hc', hrc, hsec, -⟩ := bumpMinute_eq hadd
      simp only [Option.bind_some, hc']
      exact ⟨hrc, by omega, fun p hp hlt => hskip p hp (by omega)⟩

/-- **One iteration of the search** finds the candidate, or moves it forward past
seconds that do not match, or gives up where nothing representable is left. -/
theorem advance_spec {c : DateTime} (hr : c.InRange) : StepSpec spec c (advance spec c) := by
  unfold advance
  simp only [Bool.not_eq_true']
  split
  next h => exact stepYear_spec hr h
  next hyear =>
    split
    next h => exact stepMonth_spec hr h
    next hmonth =>
      split
      next h => exact stepDay_spec hr h
      next hday =>
        split
        next h => exact stepWeekday_spec hr h
        next hweekday =>
          split
          next h => exact stepHour_spec hr h
          next hhour =>
            split
            next h => exact stepMinute_spec hr h
            next hminute =>
              split
              next h => exact stepSecond_spec hr h
              next hsecond =>
                simp only [Bool.not_eq_false] at *
                exact ⟨hyear, hmonth, hday, hweekday, hhour, hminute, hsecond⟩

end Systeml.Unit
