import Systeml.Unit.Values
import Mathlib.Algebra.Order.Floor.Semiring
import Mathlib.Data.Rat.Floor
import Mathlib.Algebra.Order.Field.Rat
import Mathlib.Tactic.Linarith
import Mathlib.Tactic.FieldSimp
import Mathlib.Tactic.Positivity
import Mathlib.Tactic.NormNum

/-!
# Time spans

`parseDuration` reads `5s`, `1h 30m`, `infinity` or a bare number of seconds.
Floating-point arithmetic is read as exact arithmetic on rationals, and its casts
to integers as truncating and saturating.

A component is split into whole seconds and nanoseconds for `Duration::new`, which
panics when the nanoseconds carry the seconds past `u64`. Below 2^64 seconds they
do not carry (`durationNew_of_lt`); from there on the seconds saturate and the
nanoseconds hold the excess, which always carries (`durationNew_of_le`).
-/

namespace Systeml.Unit

open Systeml.Lib

/-! ## Parsing -/

/-- Why a time span is refused. -/
inductive DurationError where
  | empty
  /-- The error of `u64::parse`. -/
  | number
  | expectedDigit (got : Char)
  | badNumber (num : Str)
  | unknownUnit (unit : Str)
  | nonFiniteOrNegative
  | overflow
  deriving DecidableEq, Repr

/-- What `parse_duration` ends with when not with a result. -/
inductive DurationFault where
  | err (e : DurationError)
  /-- Overflow in `Duration::new`. -/
  | panic
  deriving DecidableEq, Repr

/-- `u64::MAX`. -/
abbrev u64Max : Nat := 18446744073709551615

/-- `Duration::new`, in nanoseconds: nanoseconds beyond a second carry. -/
def durationNew (secs nanos : Nat) : Except DurationFault Nat :=
  if secs + nanos / nanosPerSec ≤ u64Max then .ok (secs * nanosPerSec + nanos)
  else .error .panic

/-- `Duration::checked_add`. -/
def durationCheckedAdd (a b : Nat) : Option Nat :=
  if (a + b) / nanosPerSec ≤ u64Max then some (a + b) else none

/-- `Duration::from_secs(n.saturating_mul(unit))`. -/
def bareSeconds (n unit : Nat) : Nat := min (n * unit) u64Max * nanosPerSec

/-- `added as u64`. -/
def secsOf (added : ℚ) : Nat := min ⌊added⌋₊ u64Max

/-- `((added - secs as f64) * 1_000_000_000.0) as u32`. -/
def nanosOf (added : ℚ) : Nat := min ⌊(added - secsOf added) * 1000000000⌋₊ 4294967295

/-- The value of a text of digits and points as a decimal fraction: one point at
most, and a digit. -/
def parseDecimal (num : Str) : Option ℚ :=
  match splitOn '.' num with
  | [whole] => (parseDigits whole).map fun n : Nat => (n : ℚ)
  | [whole, frac] => (parseDigits (whole ++ frac)).map fun n : Nat => (n : ℚ) / 10 ^ frac.length
  | _ => none

/-- The names of the units, in lower case, and their seconds. -/
def spanTable : List (List String × ℚ) := [
  (["ns", "nsec"], 1 / 1000000000),
  (["us", "µs", "usec"], 1 / 1000000),
  (["ms", "msec"], 1 / 1000),
  (["s", "sec", "second", "seconds"], 1),
  (["m", "min", "minute", "minutes"], 60),
  (["h", "hr", "hour", "hours"], 3600),
  (["d", "day", "days"], 86400),
  (["w", "week", "weeks"], 7 * 86400),
  (["month", "months"], 3044 / 100 * 86400),
  (["y", "year", "years"], 36525 / 100 * 86400)]

/-- The seconds of a unit. The exact `M` comes after its lower case, a minute. -/
def unitToSeconds (u : Str) : Option ℚ :=
  match spanTable.find? fun e => e.1.any fun n => n.toList == toAsciiLowercase u with
  | some e => some e.2
  | none => if u = ['M'] then some (3044 / 100 * 86400) else none

/-- A digit or a point. -/
def isNumberChar (c : Char) : Bool := c.isDigit || c == '.'

/-- Read one component: a number, a unit if there is one, and what is behind. The
value is in seconds. -/
def readComponent (defaultUnitSecs : Nat) (s : Str) : Except DurationError (ℚ × Str) :=
  let num := s.takeWhile isNumberChar
  let afterNum := s.dropWhile isNumberChar
  if num = [] then .error (.expectedDigit (s.headD ' '))
  else match parseDecimal num with
    | none => .error (.badNumber num)
    | some n =>
      let afterSpace := afterNum.dropWhile isWhitespace
      let unit := afterSpace.takeWhile Char.isAlpha
      let rest := afterSpace.dropWhile Char.isAlpha
      if unit = [] then .ok (n * defaultUnitSecs, rest)
      else match unitToSeconds unit with
        | none => .error (.unknownUnit unit)
        | some unitSecs => .ok (n * unitSecs, rest)

/-- A component takes a character at least. -/
theorem readComponent_length {defaultUnitSecs : Nat} {s rest : Str} {added : ℚ}
    (h : readComponent defaultUnitSecs s = .ok (added, rest)) : rest.length < s.length := by
  unfold readComponent at h
  simp only at h
  split at h
  next => exact absurd h (by simp)
  next hnum =>
    have hlen : (s.takeWhile isNumberChar).length + (s.dropWhile isNumberChar).length = s.length := by
      rw [← List.length_append, List.takeWhile_append_dropWhile]
    have hpos := List.length_pos_iff.mpr hnum
    have hrest : ((s.dropWhile isNumberChar).dropWhile isWhitespace).dropWhile Char.isAlpha = rest := by
      split at h
      next => exact absurd h (by simp)
      next =>
        split at h
        next => exact (Prod.mk.inj (Except.ok.inj h)).2
        next =>
          split at h
          next => exact absurd h (by simp)
          next => exact (Prod.mk.inj (Except.ok.inj h)).2
    have h1 := (List.dropWhile_suffix Char.isAlpha
      (l := (s.dropWhile isNumberChar).dropWhile isWhitespace)).length_le
    have h2 := (List.dropWhile_suffix isWhitespace (l := s.dropWhile isNumberChar)).length_le
    rw [hrest] at h1
    omega

/-- The loop over the components; `total` is in nanoseconds. -/
def durationLoop (defaultUnitSecs : Nat) (s : Str) (total : Nat) : Except DurationFault Nat :=
  match s with
  | [] => .ok total
  | c :: s' =>
    if isWhitespace c then durationLoop defaultUnitSecs s' total
    else match _h : readComponent defaultUnitSecs (c :: s') with
      | .error e => .error (.err e)
      | .ok (added, rest) =>
        if added < 0 then .error (.err .nonFiniteOrNegative)
        else match durationNew (secsOf added) (nanosOf added) with
          | .error fault => .error fault
          | .ok d => match durationCheckedAdd total d with
            | none => .error (.err .overflow)
            | some total => durationLoop defaultUnitSecs rest total
termination_by s.length
decreasing_by
  · exact Nat.lt_succ_self _
  · exact readComponent_length ‹_›

/-- Parse a time span. `defaultUnitSecs` is the unit of bare numbers. -/
def parseDuration (input : Str) (defaultUnitSecs : Nat) : Except DurationFault SdDuration :=
  let s := trim input
  if toAsciiLowercase s = "infinity".toList then .ok .infinity
  else if s = [] then .error (.err .empty)
  else if s.all Char.isDigit then
    match parseU64 s with
    | none => .error (.err .number)
    | some n => .ok (.finite (bareSeconds n defaultUnitSecs))
  else (durationLoop defaultUnitSecs s 0).map .finite

/-! ## Components -/

theorem parseDecimal_nonneg {num : Str} {n : ℚ} (h : parseDecimal num = some n) : 0 ≤ n := by
  unfold parseDecimal at h
  split at h
  · obtain ⟨k, -, rfl⟩ := Option.map_eq_some_iff.mp h
    exact Nat.cast_nonneg k
  · obtain ⟨k, -, rfl⟩ := Option.map_eq_some_iff.mp h
    exact div_nonneg (Nat.cast_nonneg k) (by positivity)
  · exact absurd h (by simp)

theorem unitToSeconds_nonneg {u : Str} {x : ℚ} (h : unitToSeconds u = some x) : 0 ≤ x := by
  have htable : ∀ e ∈ spanTable, 0 ≤ e.2 := by norm_num [spanTable]
  unfold unitToSeconds at h
  split at h
  next e he =>
    obtain rfl := Option.some.inj h
    exact htable e (List.mem_of_find?_eq_some he)
  next =>
    split at h
    next =>
      obtain rfl := Option.some.inj h
      norm_num
    next => exact absurd h (by simp)

/-- No value is negative: there is no sign to read. -/
theorem readComponent_nonneg {unit : Nat} {s rest : Str} {added : ℚ}
    (h : readComponent unit s = .ok (added, rest)) : 0 ≤ added := by
  unfold readComponent at h
  simp only at h
  split at h
  next => exact absurd h (by simp)
  next =>
    split at h
    next => exact absurd h (by simp)
    next n hn =>
      have hn0 := parseDecimal_nonneg hn
      split at h
      next =>
        obtain ⟨rfl, -⟩ := Prod.mk.inj (Except.ok.inj h)
        positivity
      next =>
        split at h
        next => exact absurd h (by simp)
        next x hx =>
          have hx0 := unitToSeconds_nonneg hx
          obtain ⟨rfl, -⟩ := Prod.mk.inj (Except.ok.inj h)
          positivity

/-- Nanoseconds of a value, truncated. -/
def wholeNanos (v : ℚ) : Nat := ⌊v * 1000000000⌋₊

/-- `2^64` seconds in nanoseconds: the first duration that is too long. -/
def tooLong : Nat := (u64Max + 1) * nanosPerSec

/-- Below `2^64` seconds the parts of a value make up the value. -/
theorem durationNew_of_lt {v : ℚ} (h0 : 0 ≤ v) (h : v < u64Max + 1) :
    durationNew (secsOf v) (nanosOf v) = .ok (wholeNanos v) := by
  have hfloor : ⌊v⌋₊ ≤ u64Max := by
    have : ⌊v⌋₊ < u64Max + 1 := (Nat.floor_lt h0).mpr (by exact_mod_cast h)
    omega
  have hsecs : secsOf v = ⌊v⌋₊ := Nat.min_eq_left hfloor
  have hle := Nat.floor_le h0
  have hlt := Nat.lt_floor_add_one v
  have hfrac : 0 ≤ (v - ⌊v⌋₊) * 1000000000 := by
    apply mul_nonneg <;> linarith
  have hnanos : ⌊(v - ⌊v⌋₊) * 1000000000⌋₊ < 1000000000 := by
    rw [Nat.floor_lt hfrac]
    push_cast
    linarith
  have hn : nanosOf v = ⌊(v - ⌊v⌋₊) * 1000000000⌋₊ := by
    unfold nanosOf
    rw [hsecs]
    exact Nat.min_eq_left (by omega)
  have hsum : wholeNanos v = ⌊v⌋₊ * nanosPerSec + ⌊(v - ⌊v⌋₊) * 1000000000⌋₊ := by
    unfold wholeNanos
    have hsplit : v * 1000000000 =
        (v - ⌊v⌋₊) * 1000000000 + ((⌊v⌋₊ * nanosPerSec : Nat) : ℚ) := by
      push_cast
      ring
    rw [hsplit, Nat.floor_add_natCast hfrac, Nat.add_comm]
  unfold durationNew
  rw [hsecs, hn, hsum, if_pos]
  rw [Nat.div_eq_of_lt hnanos]
  exact hfloor

/-- From there on the excess over the saturated seconds carries. -/
theorem durationNew_of_le {v : ℚ} (h : (u64Max : ℚ) + 1 ≤ v) :
    durationNew (secsOf v) (nanosOf v) = .error .panic := by
  have h0 : 0 ≤ v := by
    have : (0 : ℚ) ≤ u64Max := by positivity
    linarith
  have hsecs : secsOf v = u64Max := by
    refine Nat.min_eq_right (Nat.le_floor ?_)
    linarith
  have hnanos : 1000000000 ≤ nanosOf v := by
    unfold nanosOf
    rw [hsecs]
    refine Nat.le_min.mpr ⟨Nat.le_floor ?_, by omega⟩
    have hone : 1 ≤ v - u64Max := by linarith
    push_cast at hone ⊢
    linarith
  unfold durationNew
  rw [hsecs, if_neg]
  have hcarry : 1 ≤ nanosOf v / nanosPerSec := (Nat.one_le_div_iff (by decide)).mpr hnanos
  omega

theorem durationCheckedAdd_eq (a b : Nat) :
    durationCheckedAdd a b = if a + b < tooLong then some (a + b) else none := by
  unfold durationCheckedAdd
  have hiff : (a + b) / nanosPerSec ≤ u64Max ↔ a + b < tooLong := by
    rw [← Nat.lt_succ_iff, Nat.div_lt_iff_lt_mul (by decide)]
    exact Iff.rfl
  simp only [hiff]

/-! ## One round of the loop -/

section Round

variable {unit total : Nat} {c : Char} {s rest : Str} {added : ℚ}

theorem durationLoop_nil : durationLoop unit [] total = .ok total := by
  rw [durationLoop.eq_def]

theorem durationLoop_white (hc : isWhitespace c = true) :
    durationLoop unit (c :: s) total = durationLoop unit s total := by
  rw [durationLoop.eq_def]
  exact if_pos hc

theorem durationLoop_error {e : DurationError} (hc : isWhitespace c = false)
    (h : readComponent unit (c :: s) = .error e) :
    durationLoop unit (c :: s) total = .error (.err e) := by
  rw [durationLoop.eq_def]
  simp only [hc, Bool.false_eq_true, if_false]
  split
  next e' he =>
    rw [h] at he
    obtain rfl := Except.error.inj he
    rfl
  next he =>
    rw [h] at he
    exact absurd he (by simp)

/-- A component below `2^64` seconds is added to the sum, -/
theorem durationLoop_small (hc : isWhitespace c = false)
    (h : readComponent unit (c :: s) = .ok (added, rest)) (hlt : added < u64Max + 1) :
    durationLoop unit (c :: s) total =
      if total + wholeNanos added < tooLong then durationLoop unit rest (total + wholeNanos added)
      else .error (.err .overflow) := by
  have h0 := readComponent_nonneg h
  rw [durationLoop.eq_def]
  simp only [hc, Bool.false_eq_true, if_false]
  split
  next he =>
    rw [h] at he
    exact absurd he (by simp)
  next a r he =>
    rw [h] at he
    obtain ⟨rfl, rfl⟩ := Prod.mk.inj (Except.ok.inj he)
    rw [if_neg (by linarith), durationNew_of_lt h0 hlt]
    simp only [durationCheckedAdd_eq]
    by_cases hsum : total + wholeNanos added < tooLong
    · rw [if_pos hsum, if_pos hsum]
    · rw [if_neg hsum, if_neg hsum]

/-- a longer one panics. -/
theorem durationLoop_big (hc : isWhitespace c = false)
    (h : readComponent unit (c :: s) = .ok (added, rest)) (hle : (u64Max : ℚ) + 1 ≤ added) :
    durationLoop unit (c :: s) total = .error .panic := by
  have h0 := readComponent_nonneg h
  rw [durationLoop.eq_def]
  simp only [hc, Bool.false_eq_true, if_false]
  split
  next he =>
    rw [h] at he
    exact absurd he (by simp)
  next a r he =>
    rw [h] at he
    obtain ⟨rfl, rfl⟩ := Prod.mk.inj (Except.ok.inj he)
    rw [if_neg (by linarith), durationNew_of_le hle]

end Round

/-! ## When it panics -/

/-- The values of the components the text starts with, in seconds, up to the first
that cannot be read. -/
def componentValues (defaultUnitSecs : Nat) (s : Str) : List ℚ :=
  match s with
  | [] => []
  | c :: s' =>
    if isWhitespace c then componentValues defaultUnitSecs s'
    else match _h : readComponent defaultUnitSecs (c :: s') with
      | .error _ => []
      | .ok (added, rest) => added :: componentValues defaultUnitSecs rest
termination_by s.length
decreasing_by
  · exact Nat.lt_succ_self _
  · exact readComponent_length ‹_›

/-- A value of `2^64` seconds comes while the sum so far is below that. -/
def JumpsOver (total : Nat) (values : List ℚ) : Prop :=
  ∃ before v after, values = before ++ v :: after ∧
    total + (before.map wholeNanos).sum < tooLong ∧ (u64Max : ℚ) + 1 ≤ v

theorem not_jumpsOver_nil (total : Nat) : ¬ JumpsOver total [] := by
  rintro ⟨before, v, after, h, -⟩
  exact absurd h (by simp)

/-- What the first value decides. -/
theorem jumpsOver_cons {total : Nat} {x : ℚ} {values : List ℚ} (htotal : total < tooLong) :
    JumpsOver total (x :: values) ↔
      (u64Max : ℚ) + 1 ≤ x ∨ JumpsOver (total + wholeNanos x) values := by
  constructor
  · rintro ⟨before, v, after, h, hsum, hv⟩
    cases before with
    | nil =>
      obtain ⟨rfl, -⟩ := List.cons.inj h
      exact Or.inl hv
    | cons y before =>
      obtain ⟨rfl, hrest⟩ := List.cons.inj h
      rw [List.map_cons, List.sum_cons, ← Nat.add_assoc] at hsum
      exact Or.inr ⟨before, v, after, hrest, hsum, hv⟩
  · rintro (hx | ⟨before, v, after, h, hsum, hv⟩)
    · exact ⟨[], x, values, rfl, by simpa using htotal, hx⟩
    · refine ⟨x :: before, v, after, by rw [h, List.cons_append], ?_, hv⟩
      rw [List.map_cons, List.sum_cons, ← Nat.add_assoc]
      exact hsum

/-- Once the sum is too long nothing jumps over. -/
theorem not_jumpsOver_of_le {total : Nat} {values : List ℚ} (h : tooLong ≤ total) :
    ¬ JumpsOver total values := by
  rintro ⟨before, v, after, -, hsum, -⟩
  omega

theorem componentValues_ok {unit : Nat} {c : Char} {s rest : Str} {added : ℚ}
    (hc : isWhitespace c = false) (h : readComponent unit (c :: s) = .ok (added, rest)) :
    componentValues unit (c :: s) = added :: componentValues unit rest := by
  rw [componentValues, if_neg (by simp [hc])]
  split
  next he =>
    rw [h] at he
    exact absurd he (by simp)
  next a r he =>
    rw [h] at he
    obtain ⟨rfl, rfl⟩ := Prod.mk.inj (Except.ok.inj he)
    rfl

theorem componentValues_error {unit : Nat} {c : Char} {s : Str} {e : DurationError}
    (hc : isWhitespace c = false) (h : readComponent unit (c :: s) = .error e) :
    componentValues unit (c :: s) = [] := by
  rw [componentValues, if_neg (by simp [hc])]
  split
  next => rfl
  next he =>
    rw [h] at he
    exact absurd he (by simp)

/-- The loop panics exactly on a value that jumps over. -/
theorem durationLoop_panic_iff (unit : Nat) (s : Str) (total : Nat) (htotal : total < tooLong) :
    durationLoop unit s total = .error .panic ↔ JumpsOver total (componentValues unit s) := by
  induction s using componentValues.induct unit generalizing total with
  | case1 =>
    rw [durationLoop_nil, componentValues]
    exact iff_of_false (by simp) (not_jumpsOver_nil total)
  | case2 c s hc ih =>
    rw [durationLoop_white hc, componentValues, if_pos hc]
    exact ih total htotal
  | case3 c s hc e he =>
    have hc := Bool.eq_false_iff.mpr hc
    rw [durationLoop_error hc he, componentValues_error hc he]
    exact iff_of_false (by simp) (not_jumpsOver_nil total)
  | case4 c s hc added rest he ih =>
    have hc := Bool.eq_false_iff.mpr hc
    rw [componentValues_ok hc he, jumpsOver_cons htotal]
    rcases lt_or_ge added ((u64Max : ℚ) + 1) with hlt | hle
    · rw [durationLoop_small hc he hlt, or_iff_right (not_le.mpr hlt)]
      split
      next hsum => exact ih _ hsum
      next hsum => exact iff_of_false (by simp) (not_jumpsOver_of_le (Nat.le_of_not_lt hsum))
    · rw [durationLoop_big hc he hle]
      exact iff_of_true rfl (Or.inl hle)

/-- **When `parseDuration` returns.** It panics on no text but a list of components
of which one is of `2^64` seconds or more, while those before it add up to less. -/
theorem parseDuration_returns_iff (input : Str) (defaultUnitSecs : Nat) :
    parseDuration input defaultUnitSecs ≠ .error .panic ↔
      toAsciiLowercase (trim input) = "infinity".toList ∨
      (trim input).all Char.isDigit = true ∨
      ∀ before v after, componentValues defaultUnitSecs (trim input) = before ++ v :: after →
        (before.map wholeNanos).sum < 18446744073709551616 * 1000000000 →
        v < 18446744073709551616 := by
  have hjump : ¬ JumpsOver 0 (componentValues defaultUnitSecs (trim input)) ↔
      ∀ before v after, componentValues defaultUnitSecs (trim input) = before ++ v :: after →
        (before.map wholeNanos).sum < 18446744073709551616 * 1000000000 →
        v < 18446744073709551616 := by
    have htop : (u64Max : ℚ) + 1 = 18446744073709551616 := by norm_num
    unfold JumpsOver
    rw [htop, show tooLong = 18446744073709551616 * 1000000000 from rfl]
    push Not
    simp only [Nat.zero_add]
  rw [← hjump]
  simp only [parseDuration]
  by_cases hinf : toAsciiLowercase (trim input) = "infinity".toList
  · rw [if_pos hinf]
    exact iff_of_true (by simp) (Or.inl hinf)
  rw [if_neg hinf, or_iff_right hinf]
  by_cases hempty : trim input = []
  · rw [if_pos hempty, hempty]
    exact iff_of_true (by simp) (Or.inl rfl)
  rw [if_neg hempty]
  by_cases hbare : (trim input).all Char.isDigit = true
  · rw [if_pos hbare]
    refine iff_of_true ?_ (Or.inl hbare)
    cases parseU64 (trim input) <;> simp
  rw [if_neg hbare, or_iff_right hbare, ← durationLoop_panic_iff _ _ _ (by decide)]
  cases durationLoop defaultUnitSecs (trim input) 0 <;> simp [Except.map]

/-- A component of 20 nines panics. -/
theorem not_parseDuration_returns : ¬ ∀ (input : Str) (defaultUnitSecs : Nat),
    parseDuration input defaultUnitSecs ≠ .error .panic := by
  intro h
  have htrim : trim "99999999999999999999s".toList = '9' :: "9999999999999999999s".toList := by
    decide
  have hread : readComponent 1 ('9' :: "9999999999999999999s".toList) =
      .ok (99999999999999999999, []) := by decide +kernel
  have hloop : durationLoop 1 ('9' :: "9999999999999999999s".toList) 0 = .error .panic :=
    durationLoop_big (by decide) hread (by norm_num)
  refine h "99999999999999999999s".toList 1 ?_
  simp only [parseDuration]
  rw [htrim, if_neg (by decide), if_neg (by simp), if_neg (by decide), hloop]
  rfl

end Systeml.Unit
