import Systeml.Lib.Civil

/-!
# Wall-clock instants

An instant in a fixed offset, as nanoseconds of wall-clock time from
1970-01-01T00:00:00, with the fields and the arithmetic of a date-time library:
years from -9999 to 9999, constructors and checked additions that fail outside
of them, and a `+` that panics there.

Fields are read off whole seconds, since the fraction of a second takes no part
in them. Dates grow with seconds (`secDate_le`), and a second is before midnight
of a date exactly when its date is (`lt_midnight_iff`); a stretch of seconds up
to such a midnight therefore holds no later date.
-/

namespace Systeml.Lib

/-- The date of a second. -/
def secDate (s : Int) : CivilDate := dateOf (s / 86400)

/-- Hour of the day of a second. -/
def secHour (s : Int) : Nat := (s % 86400 / 3600).toNat

/-- Minute of the hour of a second. -/
def secMinute (s : Int) : Nat := (s % 3600 / 60).toNat

/-- Second of the minute. -/
def secSecond (s : Int) : Nat := (s % 60).toNat

/-- ISO weekday of a second, 1 for Monday. -/
def secWeekday (s : Int) : Nat := weekdayOf (s / 86400)

/-- An instant, in nanoseconds. -/
structure DateTime where
  nanos : Int
  deriving DecidableEq, Repr

/-- An addition left the range of years. -/
structure Panic where
  deriving DecidableEq, Repr

namespace DateTime

/-- The whole seconds. -/
def sec (t : DateTime) : Int := t.nanos / 1000000000

/-- The nanoseconds past them. -/
def subsec (t : DateTime) : Int := t.nanos % 1000000000

/-- A whole second. -/
def ofSec (s : Int) : DateTime := ⟨s * 1000000000⟩

/-- First second of the range. -/
def minSec : Int := dayNum ⟨-9999, 1, 1⟩ * 86400

/-- First second past the range. -/
def endSec : Int := dayNum ⟨10000, 1, 1⟩ * 86400

/-- The instant is representable. -/
def InRange (t : DateTime) : Prop := minSec ≤ t.sec ∧ t.sec < endSec

instance (t : DateTime) : Decidable t.InRange :=
  inferInstanceAs (Decidable (minSec ≤ t.sec ∧ t.sec < endSec))

/-- The instant `d` nanoseconds later, if it is representable. -/
def checkedAdd (t : DateTime) (d : Int) : Option DateTime :=
  if InRange ⟨t.nanos + d⟩ then some ⟨t.nanos + d⟩ else none

/-- `t + d`, which panics where `checkedAdd` fails. -/
def add (t : DateTime) (d : Int) : Except Panic DateTime :=
  match t.checkedAdd d with
  | some t' => .ok t'
  | none => .error {}

/-- A date that exists, in the range of years. -/
def fromCalendarDate (y : Int) (m d : Nat) : Option CivilDate :=
  if -9999 ≤ y ∧ y ≤ 9999 ∧ 1 ≤ m ∧ m ≤ 12 ∧ 1 ≤ d ∧ d ≤ monthLength y m then some ⟨y, m, d⟩
  else none

/-- Midnight of a date. -/
def midnight (d : CivilDate) : DateTime := ofSec (dayNum d * 86400)

/-- The same date at another time of day, with no fraction. -/
def replaceTime (t : DateTime) (h m s : Nat) : Option DateTime :=
  if h < 24 ∧ m < 60 ∧ s < 60 then
    some (ofSec (t.sec / 86400 * 86400 + h * 3600 + m * 60 + s))
  else none

/-- Another minute of the same hour, second and fraction kept. -/
def replaceMinute (t : DateTime) (m : Nat) : Option DateTime :=
  if m < 60 then some ⟨t.nanos + (m - secMinute t.sec : Int) * 60 * 1000000000⟩ else none

/-- Another second of the same minute, fraction kept. -/
def replaceSecond (t : DateTime) (s : Nat) : Option DateTime :=
  if s < 60 then some ⟨t.nanos + (s - secSecond t.sec : Int) * 1000000000⟩ else none

theorem nanos_eq (t : DateTime) : t.nanos = t.sec * 1000000000 + t.subsec := by
  unfold sec subsec
  omega

theorem subsec_bounds (t : DateTime) : 0 ≤ t.subsec ∧ t.subsec < 1000000000 := by
  unfold subsec
  omega

@[simp] theorem sec_ofSec (s : Int) : (ofSec s).sec = s := by
  simp only [sec, ofSec]
  omega

@[simp] theorem subsec_ofSec (s : Int) : (ofSec s).subsec = 0 := by
  simp only [subsec, ofSec]
  omega

/-- Adding whole seconds keeps the fraction. -/
theorem sec_add (t : DateTime) (k : Int) :
    (DateTime.mk (t.nanos + k * 1000000000)).sec = t.sec + k ∧
      (DateTime.mk (t.nanos + k * 1000000000)).subsec = t.subsec := by
  simp only [sec, subsec]
  omega

theorem checkedAdd_some {t t' : DateTime} {d : Int} (h : t.checkedAdd d = some t') :
    t'.nanos = t.nanos + d ∧ t'.InRange := by
  unfold checkedAdd at h
  split at h
  next hr =>
    obtain rfl := Option.some.inj h
    exact ⟨rfl, hr⟩
  next => exact absurd h (by simp)

theorem checkedAdd_none {t : DateTime} {d : Int} (h : t.checkedAdd d = none) :
    ¬ InRange ⟨t.nanos + d⟩ := by
  unfold checkedAdd at h
  split at h
  next => exact absurd h (by simp)
  next hr => exact hr

/-- A checked addition of whole seconds. -/
theorem checkedAdd_sec {t t' : DateTime} {k : Int} (h : t.checkedAdd (k * 1000000000) = some t') :
    t'.InRange ∧ t'.sec = t.sec + k ∧ t'.subsec = t.subsec := by
  obtain ⟨hn, hr⟩ := checkedAdd_some h
  obtain ⟨hs, hf⟩ := sec_add t k
  rw [← hn] at hs hf
  exact ⟨hr, hs, hf⟩

theorem add_ok {t t' : DateTime} {d : Int} : t.add d = .ok t' ↔ t.checkedAdd d = some t' := by
  unfold add
  cases t.checkedAdd d <;> simp

theorem add_of_inRange {t : DateTime} {d : Int} (h : InRange ⟨t.nanos + d⟩) :
    t.add d = .ok ⟨t.nanos + d⟩ :=
  add_ok.mpr (if_pos h)

theorem add_error {t : DateTime} {d : Int} (h : ¬ InRange ⟨t.nanos + d⟩) :
    t.add d = .error {} := by
  unfold add checkedAdd
  rw [if_neg h]

theorem fromCalendarDate_of_valid {d : CivilDate} (hd : d.Valid)
    (hy : -9999 ≤ d.year ∧ d.year ≤ 9999) :
    fromCalendarDate d.year d.month d.day = some d :=
  if_pos ⟨hy.1, hy.2, hd.month.1, hd.month.2, hd.day⟩

theorem fromCalendarDate_of_late {y : Int} {m d : Nat} (hy : 9999 < y) :
    fromCalendarDate y m d = none :=
  if_neg fun h => absurd h.2.1 (by omega)

end DateTime

/-- The first of a month exists. -/
theorem firstOfMonth_valid {y : Int} {m : Nat} (hm : 1 ≤ m ∧ m ≤ 12) :
    (CivilDate.mk y m 1).Valid := by
  refine ⟨hm, Nat.le_refl _, ?_⟩
  show 1 ≤ monthLength y m
  unfold monthLength
  split <;> omega

/-! ## Dates of seconds -/

theorem secDate_valid (s : Int) : (secDate s).Valid := dateOf_valid _

theorem secDate_le {s p : Int} (h : s ≤ p) : (secDate s).Le (secDate p) :=
  dateOf_le (by omega)

/-- A second is before midnight of a date exactly when its date is. -/
theorem lt_midnight_iff {d : CivilDate} (hd : d.Valid) {p : Int} :
    p < dayNum d * 86400 ↔ ¬ d.Le (secDate p) := by
  constructor
  · intro h
    exact not_le_dateOf hd (by omega)
  · intro h
    have := dayNum_lt (secDate_valid p) hd h
    unfold secDate at this
    rw [dayNum_dateOf] at this
    omega

theorem not_yearStart_le {y p : Int} :
    ¬ (CivilDate.mk y 1 1).Le (secDate p) ↔ (secDate p).year < y := by
  obtain ⟨⟨hm, -⟩, hday, -⟩ := secDate_valid p
  simp only [CivilDate.Le]
  omega

theorem not_monthStart_le {y p : Int} {m : Nat} : ¬ (CivilDate.mk y m 1).Le (secDate p) ↔
    (secDate p).year < y ∨ (secDate p).year = y ∧ (secDate p).month < m := by
  obtain ⟨-, hday, -⟩ := secDate_valid p
  simp only [CivilDate.Le]
  omega

theorem lt_yearStart_iff {y p : Int} : p < dayNum ⟨y, 1, 1⟩ * 86400 ↔ (secDate p).year < y :=
  (lt_midnight_iff (firstOfMonth_valid (by simp))).trans not_yearStart_le

/-- Two seconds of one date are of one day. -/
theorem day_eq_of_secDate {s p : Int} (h : secDate s = secDate p) : s / 86400 = p / 86400 := by
  rw [← dayNum_dateOf (s / 86400), ← dayNum_dateOf (p / 86400)]
  exact congrArg dayNum h

/-- Representable instants are those of the representable years. -/
theorem DateTime.inRange_iff {t : DateTime} :
    t.InRange ↔ -9999 ≤ (secDate t.sec).year ∧ (secDate t.sec).year ≤ 9999 := by
  have h1 : t.sec < DateTime.minSec ↔ _ := lt_yearStart_iff
  have h2 : t.sec < DateTime.endSec ↔ _ := lt_yearStart_iff
  unfold DateTime.InRange
  rw [h2, ← not_lt, h1]
  omega

theorem DateTime.InRange.sameDay {t t' : DateTime} (h : t.InRange)
    (hd : t'.sec / 86400 = t.sec / 86400) : t'.InRange := by
  rw [DateTime.inRange_iff] at h ⊢
  unfold secDate at h ⊢
  rw [hd]
  exact h

/-- A representable instant that leaves the range when moved forward leaves it
past the last year. -/
theorem DateTime.late_of_checkedAdd {t : DateTime} {k : Int} (h : t.InRange) (hk : 0 ≤ k)
    (hn : t.checkedAdd (k * 1000000000) = none) : 9999 < (secDate (t.sec + k)).year := by
  have hout := DateTime.checkedAdd_none hn
  rw [DateTime.inRange_iff, (DateTime.sec_add t k).1] at hout
  rw [DateTime.inRange_iff] at h
  have hle := secDate_le (show t.sec ≤ t.sec + k by omega)
  simp only [CivilDate.Le] at hle
  omega

/-- Within one day the hour grows, and so do the minute within one hour and the
second within one minute. -/
theorem secHour_le {s p : Int} (h : s ≤ p) (hd : s / 86400 = p / 86400) :
    secHour s ≤ secHour p := by
  unfold secHour
  omega

theorem secMinute_le {s p : Int} (h : s ≤ p) (hd : s / 3600 = p / 3600) :
    secMinute s ≤ secMinute p := by
  unfold secMinute
  omega

theorem secSecond_le {s p : Int} (h : s ≤ p) (hd : s / 60 = p / 60) :
    secSecond s ≤ secSecond p := by
  unfold secSecond
  omega

end Systeml.Lib
