import Mathlib.Tactic.IntervalCases

/-!
# The proleptic Gregorian calendar

Day numbers count from 1970-01-01; `dateOf` reads the date off a day number and
`dayNum` counts back. They are inverse to each other (`dayNum_dateOf`,
`dateOf_dayNum`), and both respect the order of dates by year, month and day
(`dayNum_lt`, `dateOf_le`), which is how a search by fields knows that a jump
to a later field value skips nothing in between.
-/

namespace Systeml.Lib

/-- Leap years of the Gregorian calendar. -/
def isLeap (y : Int) : Bool := y % 4 = 0 ∧ (y % 100 ≠ 0 ∨ y % 400 = 0)

/-- The leap day of a year, counted. -/
def leapDay (y : Int) : Nat := if isLeap y then 1 else 0

/-- Days in a month. -/
def monthLength (y : Int) : Nat → Nat
  | 2 => 28 + leapDay y
  | 4 | 6 | 9 | 11 => 30
  | _ => 31

/-- Days of the year before the first of a month. -/
def daysBeforeMonth (y : Int) : Nat → Nat
  | 1 => 0
  | 2 => 31
  | 3 => 59 + leapDay y
  | 4 => 90 + leapDay y
  | 5 => 120 + leapDay y
  | 6 => 151 + leapDay y
  | 7 => 181 + leapDay y
  | 8 => 212 + leapDay y
  | 9 => 243 + leapDay y
  | 10 => 273 + leapDay y
  | 11 => 304 + leapDay y
  | _ => 334 + leapDay y

/-- Days before January 1st of a year, from 0001-01-01. -/
def daysBeforeYear (y : Int) : Int := 365 * (y - 1) + (y - 1) / 4 - (y - 1) / 100 + (y - 1) / 400

/-- 1970-01-01, counted from 0001-01-01. -/
abbrev epochDay : Int := 719162

/-- A date: year, month from 1 to 12, day from 1. -/
structure CivilDate where
  year : Int
  month : Nat
  day : Nat
  deriving DecidableEq, Repr

namespace CivilDate

/-- The month and the day exist in the year. -/
structure Valid (d : CivilDate) : Prop where
  month : 1 ≤ d.month ∧ d.month ≤ 12
  day : 1 ≤ d.day ∧ d.day ≤ monthLength d.year d.month

/-- Order by year, month and day. -/
def Le (a b : CivilDate) : Prop :=
  a.year < b.year ∨ a.year = b.year ∧
    (a.month < b.month ∨ a.month = b.month ∧ a.day ≤ b.day)

theorem Le.antisymm {a b : CivilDate} (h : a.Le b) (h' : b.Le a) : a = b := by
  obtain ⟨y, m, d⟩ := a
  obtain ⟨y', m', d'⟩ := b
  simp only [Le] at h h'
  simp only [mk.injEq]
  omega

end CivilDate

/-- Days from 1970-01-01 to a date. -/
def dayNum (d : CivilDate) : Int :=
  daysBeforeYear d.year + daysBeforeMonth d.year d.month + d.day - 1 - epochDay

/-- The year of a day counted from 0001-01-01, by 400, 100, 4 and 1 years. -/
def yearOf (n : Int) : Int :=
  let c := n / 146097
  let r := n % 146097
  let a := min (r / 36524) 3
  let r := r - 36524 * a
  let b := r / 1461
  let r := r - 1461 * b
  400 * c + 100 * a + 4 * b + min (r / 365) 3 + 1

/-- The month from `m` on that holds a day of the year, with `k` months after `m`. -/
def monthFrom (y : Int) (doy : Nat) : Nat → Nat → Nat
  | 0, m => m
  | k + 1, m => if doy < daysBeforeMonth y (m + 1) then m else monthFrom y doy k (m + 1)

/-- The month that holds a day of the year, counted from 0. -/
def monthOf (y : Int) (doy : Nat) : Nat := monthFrom y doy 11 1

/-- The date of a day number. -/
def dateOf (n : Int) : CivilDate :=
  let y := yearOf (n + epochDay)
  let doy := (n + epochDay - daysBeforeYear y).toNat
  let m := monthOf y doy
  ⟨y, m, doy - daysBeforeMonth y m + 1⟩

/-- ISO weekday of a day number, 1 for Monday. -/
def weekdayOf (n : Int) : Nat := ((n + 3) % 7).toNat + 1

/-! ## Years -/

theorem daysBeforeYear_succ (y : Int) :
    daysBeforeYear (y + 1) = daysBeforeYear y + 365 + leapDay y := by
  have hl : (leapDay y : Int) = if y % 4 = 0 ∧ (y % 100 ≠ 0 ∨ y % 400 = 0) then 1 else 0 := by
    unfold leapDay isLeap
    simp only [decide_eq_true_eq]
    split <;> rfl
  rw [hl]
  unfold daysBeforeYear
  split <;> omega

theorem daysBeforeYear_mono {y y' : Int} (h : y ≤ y') : daysBeforeYear y ≤ daysBeforeYear y' := by
  unfold daysBeforeYear
  omega

/-- Years and days of `c` cycles of 400 years, `a` centuries, `b` groups of four
years and `d` years. -/
theorem daysBeforeYear_parts {c a b d : Int} (ha : 0 ≤ a ∧ a ≤ 3) (hb : 0 ≤ b ∧ b ≤ 24)
    (hd : 0 ≤ d ∧ d ≤ 3) :
    daysBeforeYear (400 * c + 100 * a + 4 * b + d + 1) =
      146097 * c + 36524 * a + 1461 * b + 365 * d := by
  have h4 : (400 * c + 100 * a + 4 * b + d + 1 - 1) / 4 = 100 * c + 25 * a + b := by omega
  have h100 : (400 * c + 100 * a + 4 * b + d + 1 - 1) / 100 = 4 * c + a := by omega
  have h400 : (400 * c + 100 * a + 4 * b + d + 1 - 1) / 400 = c := by omega
  unfold daysBeforeYear
  rw [h4, h100, h400]
  omega

theorem leapDay_parts {c a b d : Int} (_ : 0 ≤ a ∧ a ≤ 3) (_ : 0 ≤ b ∧ b ≤ 24) (_ : d = 3)
    (h : b < 24 ∨ a = 3) : leapDay (400 * c + 100 * a + 4 * b + d + 1) = 1 := by
  unfold leapDay isLeap
  simp only [decide_eq_true_eq]
  rw [if_pos]
  omega

/-- `yearOf` finds the year that holds the day. -/
theorem yearOf_spec (n : Int) :
    daysBeforeYear (yearOf n) ≤ n ∧ n < daysBeforeYear (yearOf n + 1) := by
  obtain ⟨c, hc⟩ : ∃ c, c = n / 146097 := ⟨_, rfl⟩
  obtain ⟨r, hr⟩ : ∃ r, r = n % 146097 := ⟨_, rfl⟩
  obtain ⟨a, ha⟩ : ∃ a, a = min (r / 36524) 3 := ⟨_, rfl⟩
  obtain ⟨r', hr'⟩ : ∃ r', r' = r - 36524 * a := ⟨_, rfl⟩
  obtain ⟨b, hb⟩ : ∃ b, b = r' / 1461 := ⟨_, rfl⟩
  obtain ⟨r'', hr''⟩ : ∃ r'', r'' = r' - 1461 * b := ⟨_, rfl⟩
  obtain ⟨d, hd⟩ : ∃ d, d = min (r'' / 365) 3 := ⟨_, rfl⟩
  have hy : yearOf n = 400 * c + 100 * a + 4 * b + d + 1 := by
    simp only [yearOf, ← hc, ← hr, ← ha, ← hr', ← hb, ← hr'', ← hd]
  have hab : 0 ≤ a ∧ a ≤ 3 := by omega
  have hr'b : 0 ≤ r' ∧ r' ≤ 36524 ∧ (a < 3 → r' < 36524) := by omega
  have hbb : 0 ≤ b ∧ b ≤ 24 := by omega
  have hr''b : 0 ≤ r'' ∧ r'' ≤ 1460 ∧ (a < 3 → b = 24 → r'' < 1460) := by omega
  have hdb : 0 ≤ d ∧ d ≤ 3 := by omega
  rw [daysBeforeYear_succ, hy, daysBeforeYear_parts hab hbb hdb]
  have hleap : d = 3 → (b < 24 ∨ a = 3) →
      leapDay (400 * c + 100 * a + 4 * b + d + 1) = 1 := fun h3 h => leapDay_parts hab hbb h3 h
  constructor
  · omega
  · by_cases h3 : d = 3
    · by_cases h : b < 24 ∨ a = 3
      · rw [hleap h3 h]
        omega
      · omega
    · omega

/-! ## Months -/

theorem daysBeforeMonth_succ {y : Int} {m : Nat} (hm : 1 ≤ m) (hm' : m ≤ 11) :
    daysBeforeMonth y (m + 1) = daysBeforeMonth y m + monthLength y m := by
  interval_cases m <;> simp only [daysBeforeMonth, monthLength] <;> omega

/-- A later month starts after an earlier one ends. -/
theorem daysBeforeMonth_add_le {y : Int} {m m' : Nat} (hm : 1 ≤ m) (h : m < m') (hm' : m' ≤ 12) :
    daysBeforeMonth y m + monthLength y m ≤ daysBeforeMonth y m' := by
  induction m', h using Nat.le_induction with
  | base => rw [daysBeforeMonth_succ hm (by omega)]
  | succ k hk ih =>
    have hs := daysBeforeMonth_succ (y := y) (m := k) (by omega) (by omega)
    have := ih (by omega)
    omega

theorem daysBeforeMonth_end {y : Int} {m : Nat} (hm : 1 ≤ m) (hm' : m ≤ 12) :
    daysBeforeMonth y m + monthLength y m ≤ 365 + leapDay y := by
  interval_cases m <;> simp only [daysBeforeMonth, monthLength] <;> omega

theorem monthFrom_spec {y : Int} {doy : Nat} (h : doy < 365 + leapDay y) : ∀ (k m : Nat),
    1 ≤ m → m + k = 12 → daysBeforeMonth y m ≤ doy →
    (1 ≤ monthFrom y doy k m ∧ monthFrom y doy k m ≤ 12) ∧
      daysBeforeMonth y (monthFrom y doy k m) ≤ doy ∧
      doy < daysBeforeMonth y (monthFrom y doy k m) + monthLength y (monthFrom y doy k m)
  | 0, m, hm, hk, hd => by
    obtain rfl : m = 12 := by omega
    refine ⟨⟨hm, Nat.le_refl _⟩, hd, ?_⟩
    simp only [monthFrom, daysBeforeMonth, monthLength]
    omega
  | k + 1, m, hm, hk, hd => by
    unfold monthFrom
    split
    next hlt =>
      rw [daysBeforeMonth_succ hm (by omega)] at hlt
      exact ⟨⟨hm, by omega⟩, hd, hlt⟩
    next hge => exact monthFrom_spec h k (m + 1) (by omega) (by omega) (by omega)

/-- `monthOf` finds the month that holds the day of the year. -/
theorem monthOf_spec {y : Int} {doy : Nat} (h : doy < 365 + leapDay y) :
    (1 ≤ monthOf y doy ∧ monthOf y doy ≤ 12) ∧
      daysBeforeMonth y (monthOf y doy) ≤ doy ∧
      doy < daysBeforeMonth y (monthOf y doy) + monthLength y (monthOf y doy) :=
  monthFrom_spec h 11 1 (Nat.le_refl _) rfl (Nat.zero_le _)

/-! ## Dates and day numbers -/

theorem dayOfYear_lt (n : Int) :
    (n - daysBeforeYear (yearOf n)).toNat < 365 + leapDay (yearOf n) := by
  have h := yearOf_spec n
  rw [daysBeforeYear_succ] at h
  omega

/-- Every day number has a valid date. -/
theorem dateOf_valid (n : Int) : (dateOf n).Valid := by
  have h := monthOf_spec (dayOfYear_lt (n + epochDay))
  refine ⟨h.1, ?_⟩
  simp only [dateOf]
  omega

/-- Counting to the date of a day gives the day. -/
theorem dayNum_dateOf (n : Int) : dayNum (dateOf n) = n := by
  have hy := yearOf_spec (n + epochDay)
  have h := monthOf_spec (dayOfYear_lt (n + epochDay))
  simp only [dayNum, dateOf]
  omega

/-- A date of an earlier year, or month, or day has a smaller day number. -/
theorem dayNum_lt {a b : CivilDate} (ha : a.Valid) (hb : b.Valid) (h : ¬ b.Le a) :
    dayNum a < dayNum b := by
  obtain ⟨ya, ma, da⟩ := a
  obtain ⟨yb, mb, db⟩ := b
  obtain ⟨⟨ha1, ha2⟩, ha3, ha4⟩ := ha
  obtain ⟨⟨hb1, hb2⟩, hb3, hb4⟩ := hb
  simp only [CivilDate.Le, not_or, not_and, not_lt, not_le] at h ha1 ha2 ha3 ha4 hb1 hb2 hb3 hb4
  simp only [dayNum]
  have haend := daysBeforeMonth_end (y := ya) ha1 ha2
  rcases Int.lt_or_le ya yb with hy | hy
  · have hs := daysBeforeYear_succ ya
    have hm := daysBeforeYear_mono (show ya + 1 ≤ yb by omega)
    omega
  · obtain rfl : ya = yb := by omega
    have h := h.2 rfl
    rcases Nat.lt_or_ge ma mb with hm | hm
    · have := daysBeforeMonth_add_le (y := ya) ha1 hm hb2
      omega
    · obtain rfl : ma = mb := by omega
      have := h.2 rfl
      omega

/-- Dates grow with day numbers. -/
theorem dateOf_le {n k : Int} (h : n ≤ k) : (dateOf n).Le (dateOf k) := by
  by_contra hn
  have := dayNum_lt (dateOf_valid k) (dateOf_valid n) hn
  rw [dayNum_dateOf, dayNum_dateOf] at this
  omega

/-- A day before a date has a date that is not the same or later. -/
theorem not_le_dateOf {n : Int} {d : CivilDate} (hd : d.Valid) (h : n < dayNum d) :
    ¬ d.Le (dateOf n) := by
  intro hle
  rcases eq_or_ne (dateOf n) d with he | hne
  · rw [← he, dayNum_dateOf] at h
    omega
  · have := dayNum_lt hd (dateOf_valid n) fun hl => hne (hl.antisymm hle)
    rw [dayNum_dateOf] at this
    omega

/-- The date of the day number of a valid date is the date. -/
theorem dateOf_dayNum {d : CivilDate} (h : d.Valid) : dateOf (dayNum d) = d := by
  have hv := dateOf_valid (dayNum d)
  have he := dayNum_dateOf (dayNum d)
  by_cases h1 : (dateOf (dayNum d)).Le d
  · by_cases h2 : d.Le (dateOf (dayNum d))
    · exact h1.antisymm h2
    · have := dayNum_lt hv h h2
      omega
  · have := dayNum_lt h hv h1
    omega

end Systeml.Lib
