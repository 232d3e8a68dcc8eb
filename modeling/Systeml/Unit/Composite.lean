import Systeml.Unit.Duration
import Mathlib.Algebra.Order.BigOperators.Group.List

/-!
# Composite time spans

Numbers and units written one after another, and what `parseDuration` makes of them. It
reads back every pair as it was written (`parseDuration_spans`), and the sum is the one
that was meant but for months spelt `M`: the units are looked up in lower case first, so the
branch for the exact `M` is never reached and it counts as a minute.
-/

namespace Systeml.Unit

open Systeml.Lib

/-- The spellings of the units of whole seconds, and their lengths. -/
def wholeUnits : List (String × Nat) := [
  ("s", 1), ("sec", 1), ("second", 1), ("seconds", 1),
  ("m", 60), ("min", 60), ("minute", 60), ("minutes", 60),
  ("h", 3600), ("hr", 3600), ("hour", 3600), ("hours", 3600),
  ("d", 86400), ("day", 86400), ("days", 86400),
  ("w", 604800), ("week", 604800), ("weeks", 604800),
  ("M", 2630016), ("month", 2630016), ("months", 2630016),
  ("y", 31557600), ("year", 31557600), ("years", 31557600)]

/-- A number of some unit, and the white space in front of either. -/
structure Span where
  number : Nat
  /-- The spelling of the unit, and its length in seconds. -/
  unit : String × Nat
  listed : unit ∈ wholeUnits
  before : Str
  gap : Str
  before_space : ∀ c ∈ before, isWhitespace c = true
  gap_space : ∀ c ∈ gap, isWhitespace c = true

namespace Span

/-- The number and the unit. -/
def core (p : Span) : Str := Nat.toDigits 10 p.number ++ (p.gap ++ p.unit.1.toList)

/-- As it is written. -/
def text (p : Span) : Str := p.before ++ p.core

/-- What it stands for, in seconds. -/
def seconds (p : Span) : Nat := p.number * p.unit.2

/-- The seconds that are read for a spelling. -/
def secondsRead (unit : String × Nat) : Nat := if unit.1 = "M" then 60 else unit.2

/-- What it is read as, in seconds. -/
def read (p : Span) : Nat := p.number * secondsRead p.unit

end Span

/-! ## The units -/

theorem unit_ne_nil : ∀ unit ∈ wholeUnits, unit.1.toList ≠ [] := by decide +kernel

theorem unit_isAlpha : ∀ unit ∈ wholeUnits, ∀ c ∈ unit.1.toList, c.isAlpha = true := by
  have hall : ∀ unit ∈ wholeUnits, unit.1.toList.all Char.isAlpha = true := by decide +kernel
  intro unit hunit
  exact List.all_eq_true.mp (hall unit hunit)

/-- Every spelling is known, the exact `M` as the `m` of minutes. -/
theorem unitToSeconds_eq : ∀ unit ∈ wholeUnits,
    unitToSeconds unit.1.toList = some (Span.secondsRead unit : ℚ) := by decide +kernel

/-- Nothing is read as more than it is. -/
theorem secondsRead_le : ∀ unit ∈ wholeUnits, Span.secondsRead unit ≤ unit.2 := by decide +kernel

theorem secondsRead_eq_iff : ∀ unit ∈ wholeUnits,
    Span.secondsRead unit = unit.2 ↔ unit.1 ≠ "M" := by decide +kernel

/-! ## One component -/

/-- A number ends at white space and at a letter. -/
theorem isNumberChar_eq_false {c : Char} (h : isWhitespace c = true ∨ c.isAlpha = true) :
    isNumberChar c = false := by
  have hpoint : c ≠ '.' := by
    rintro rfl
    rcases h with h | h
    · exact absurd h (by decide)
    · exact absurd h (by decide)
  have hdigit : c.isDigit = false := by
    rw [Bool.eq_false_iff]
    intro hd
    rcases h with h | h
    · exact absurd h (by simp [isWhitespace_of_digit hd])
    · exact absurd h (by simp [isAlpha_of_digit hd])
  simp [isNumberChar, hdigit, hpoint]

/-- Digits without a point are a natural number. -/
theorem parseDecimal_toDigits (n : Nat) : parseDecimal (Nat.toDigits 10 n) = some (n : ℚ) := by
  have hpoint : '.' ∉ Nat.toDigits 10 n := fun hm =>
    absurd (isDigit_of_toDigits '.' hm) (by decide)
  unfold parseDecimal
  simp only [splitOn_of_not_mem hpoint, parseDigits_toDigits, Option.map_some]

theorem wholeNanos_natCast (n : Nat) : wholeNanos (n : ℚ) = n * nanosPerSec := by
  have hcast : (n : ℚ) * 1000000000 = ((n * nanosPerSec : Nat) : ℚ) := by push_cast; rfl
  unfold wholeNanos
  rw [hcast, Nat.floor_natCast]

/-- A component is read back, whatever follows that does not run on. -/
theorem readComponent_core (p : Span) (defaultUnitSecs : Nat) (rest : Str)
    (hrest : ∀ c, rest.head? = some c → c.isAlpha = false) :
    readComponent defaultUnitSecs (p.core ++ rest) = .ok ((p.read : ℚ), rest) := by
  have halpha := unit_isAlpha p.unit p.listed
  have hunit := unit_ne_nil p.unit p.listed
  have hletter : ∀ c, (p.unit.1.toList ++ rest).head? = some c → c.isAlpha = true := by
    intro c hc
    rcases head_append_cases hc with hm | ⟨hnil, -⟩
    · exact halpha c hm
    · exact absurd hnil hunit
  -- the three runs end one where the next begins
  have hnumber : ∀ c ∈ Nat.toDigits 10 p.number, isNumberChar c = true := by
    intro c hc
    rw [isNumberChar, isDigit_of_toDigits c hc]
    rfl
  have hdigits := span_append (p.gap ++ (p.unit.1.toList ++ rest)) hnumber (by
    intro c hc
    apply isNumberChar_eq_false
    rcases head_append_cases hc with hm | ⟨-, hc⟩
    · exact Or.inl (p.gap_space c hm)
    · exact Or.inr (hletter c hc))
  have hgap := span_append (p.unit.1.toList ++ rest) p.gap_space fun c hc =>
    isWhitespace_of_alpha (hletter c hc)
  have hletters := span_append rest halpha hrest
  have hsplit : p.core ++ rest =
      Nat.toDigits 10 p.number ++ (p.gap ++ (p.unit.1.toList ++ rest)) := by
    simp only [Span.core, List.append_assoc]
  unfold readComponent
  simp only [hsplit, hdigits, hgap, hletters, if_neg Nat.toDigits_ne_nil, if_neg hunit,
    parseDecimal_toDigits, unitToSeconds_eq p.unit p.listed]
  rw [Span.read, Nat.cast_mul]

/-! ## All of them -/

/-- The loop passes over white space. -/
theorem durationLoop_space {defaultUnitSecs : Nat} {w : Str} (s : Str) (total : Nat)
    (hw : ∀ c ∈ w, isWhitespace c = true) :
    durationLoop defaultUnitSecs (w ++ s) total = durationLoop defaultUnitSecs s total := by
  induction w with
  | nil => rfl
  | cons c w ih =>
    rw [List.cons_append, durationLoop_white (hw c (List.mem_cons_self ..))]
    exact ih fun c hc => hw c (List.mem_cons_of_mem _ hc)

/-- A component starts with a digit. -/
theorem core_eq_cons (p : Span) : ∃ c s, p.core = c :: s ∧ c.isDigit = true := by
  have hdigits := isDigit_of_toDigits (n := p.number)
  unfold Span.core
  cases h : Nat.toDigits 10 p.number with
  | nil => exact absurd h Nat.toDigits_ne_nil
  | cons c s =>
    rw [h] at hdigits
    exact ⟨c, _, rfl, hdigits c (List.mem_cons_self ..)⟩

/-- No letters of a unit run on into the next component. -/
theorem head_spans (spans : List Span) :
    ∀ c, (spans.flatMap Span.text).head? = some c → c.isAlpha = false := by
  cases spans with
  | nil =>
    intro c hc
    exact absurd hc (by simp)
  | cons p spans =>
    intro c hc
    obtain ⟨a, s, hcore, ha⟩ := core_eq_cons p
    rw [List.flatMap_cons, Span.text, List.append_assoc] at hc
    rcases head_append_cases hc with hm | ⟨-, hc⟩
    · rw [Bool.eq_false_iff]
      intro halpha
      exact absurd (p.before_space c hm) (by simp [isWhitespace_of_alpha halpha])
    · rw [hcore] at hc
      obtain rfl := Option.some.inj hc
      exact isAlpha_of_digit ha

/-- One round reads one pair. -/
theorem durationLoop_span {defaultUnitSecs : Nat} (p : Span) (rest : Str) (total : Nat)
    (hrest : ∀ c, rest.head? = some c → c.isAlpha = false)
    (h : total + p.read * nanosPerSec < tooLong) :
    durationLoop defaultUnitSecs (p.text ++ rest) total =
      durationLoop defaultUnitSecs rest (total + p.read * nanosPerSec) := by
  obtain ⟨c, s, hcore, hc⟩ := core_eq_cons p
  have hread := readComponent_core p defaultUnitSecs rest hrest
  have hsmall : (p.read : ℚ) < u64Max + 1 := by
    have hnat : p.read < u64Max + 1 := by
      unfold tooLong at h
      exact Nat.lt_of_mul_lt_mul_right (lt_of_le_of_lt (Nat.le_add_left _ _) h)
    exact_mod_cast hnat
  rw [Span.text, List.append_assoc, durationLoop_space _ _ p.before_space]
  rw [hcore, List.cons_append] at hread ⊢
  rw [durationLoop_small (isWhitespace_of_digit hc) hread hsmall, wholeNanos_natCast, if_pos h]

/-- The loop adds up what the pairs are read as. -/
theorem durationLoop_spans (defaultUnitSecs : Nat) (spans : List Span) (total : Nat)
    (h : total + (spans.map Span.read).sum * nanosPerSec < tooLong) :
    durationLoop defaultUnitSecs (spans.flatMap Span.text) total =
      .ok (total + (spans.map Span.read).sum * nanosPerSec) := by
  induction spans generalizing total with
  | nil =>
    rw [List.flatMap_nil, durationLoop_nil]
    simp
  | cons p spans ih =>
    rw [List.map_cons, List.sum_cons, Nat.add_mul, ← Nat.add_assoc] at h ⊢
    have hfirst : total + p.read * nanosPerSec < tooLong := lt_of_le_of_lt (Nat.le_add_right _ _) h
    rw [List.flatMap_cons, durationLoop_span p _ total (head_spans spans) hfirst]
    exact ih _ h

/-! ## The text as a whole -/

/-- The text ends with a unit. -/
theorem spans_end (p : Span) (spans : List Span) :
    ∃ s, ∃ unit ∈ wholeUnits, p.core ++ spans.flatMap Span.text = s ++ unit.1.toList := by
  induction spans generalizing p with
  | nil =>
    refine ⟨Nat.toDigits 10 p.number ++ p.gap, p.unit, p.listed, ?_⟩
    rw [List.flatMap_nil, List.append_nil, Span.core, List.append_assoc]
  | cons q spans ih =>
    obtain ⟨s, unit, hunit, hs⟩ := ih q
    refine ⟨p.core ++ (q.before ++ s), unit, hunit, ?_⟩
    rw [List.flatMap_cons, Span.text, List.append_assoc q.before, hs]
    simp only [List.append_assoc]

/-- Only the white space in front is trimmed. -/
theorem trim_spans (p : Span) (spans : List Span) :
    trim ((p :: spans).flatMap Span.text) = p.core ++ spans.flatMap Span.text := by
  obtain ⟨s, unit, hunit, hs⟩ := spans_end p spans
  obtain ⟨a, t, hcore, ha⟩ := core_eq_cons p
  have hstart : trimStart ((p :: spans).flatMap Span.text) = p.core ++ spans.flatMap Span.text := by
    rw [List.flatMap_cons, Span.text, List.append_assoc]
    refine (span_append _ p.before_space ?_).2
    intro c hc
    rw [hcore] at hc
    obtain rfl := Option.some.inj hc
    exact isWhitespace_of_digit ha
  rw [trim_eq, hstart, trimEnd_of_getLast]
  intro c hc
  rw [hs, List.getLast?_append_of_ne_nil _ (unit_ne_nil unit hunit)] at hc
  exact isWhitespace_of_alpha (unit_isAlpha unit hunit c (List.mem_of_getLast? hc))

/-- Every pair is read back. -/
theorem parseDuration_spans {spans : List Span} (defaultUnitSecs : Nat) (hne : spans ≠ [])
    (h : (spans.map Span.read).sum * nanosPerSec < tooLong) :
    parseDuration (spans.flatMap Span.text) defaultUnitSecs =
      .ok (.finite ((spans.map Span.read).sum * nanosPerSec)) := by
  cases spans with
  | nil => exact absurd rfl hne
  | cons p spans =>
    have htrim := trim_spans p spans
    obtain ⟨a, t, hcore, ha⟩ := core_eq_cons p
    obtain ⟨s, unit, hunit, hs⟩ := spans_end p spans
    have hinfinity : toAsciiLowercase (p.core ++ spans.flatMap Span.text) ≠ "infinity".toList := by
      intro he
      rw [hcore] at he
      have hlower : a.toLower = 'i' := (List.cons.inj he).1
      rw [toLower_of_digit ha] at hlower
      exact absurd ha (by simp [hlower])
    have hletter : ¬ (p.core ++ spans.flatMap Span.text).all Char.isDigit = true := by
      intro hall
      have hlast := List.getLast_mem (unit_ne_nil unit hunit)
      have hdigit := List.all_eq_true.mp hall _ (by
        rw [hs]
        exact List.mem_append_right s hlast)
      exact absurd (unit_isAlpha unit hunit _ hlast) (by simp [isAlpha_of_digit hdigit])
    have hnonempty : p.core ++ spans.flatMap Span.text ≠ [] := by
      rw [hcore]
      exact List.cons_ne_nil _ _
    have hloop := durationLoop_spans defaultUnitSecs (p :: spans) 0 (by simpa using h)
    rw [List.flatMap_cons, Span.text, List.append_assoc,
      durationLoop_space _ _ p.before_space] at hloop
    unfold parseDuration
    simp only [htrim, if_neg hinfinity, if_neg hnonempty, if_neg hletter, hloop, Nat.zero_add]
    rfl

theorem read_le (p : Span) : p.read ≤ p.seconds :=
  Nat.mul_le_mul_left p.number (secondsRead_le p.unit p.listed)

theorem read_eq_iff (p : Span) : p.read = p.seconds ↔ p.unit.1 = "M" → p.number = 0 := by
  unfold Span.read Span.seconds
  rw [mul_eq_mul_left_iff, secondsRead_eq_iff p.unit p.listed]
  exact Decidable.imp_iff_not_or.symm

/-- **When composite time spans add up.** Exactly when no number but zero stands in front of
an `M`. -/
theorem parseDuration_adds_up_iff {spans : List Span} (defaultUnitSecs : Nat) (hne : spans ≠ [])
    (htotal : (spans.map Span.seconds).sum < 2 ^ 53) :
    parseDuration (spans.flatMap Span.text) defaultUnitSecs =
        .ok (.finite ((spans.map Span.seconds).sum * nanosPerSec)) ↔
      ∀ p ∈ spans, p.unit.1 = "M" → p.number = 0 := by
  have hle : (spans.map Span.read).sum ≤ (spans.map Span.seconds).sum :=
    List.sum_le_sum fun p _ => read_le p
  have hsum : (spans.map Span.read).sum = (spans.map Span.seconds).sum ↔
      ∀ p ∈ spans, p.read = p.seconds := by
    constructor
    · intro he p hp
      by_contra hne
      have hlt : p.read < p.seconds := lt_of_le_of_ne (read_le p) hne
      have hsums := List.sum_lt_sum Span.read Span.seconds (fun q _ => read_le q) ⟨p, hp, hlt⟩
      omega
    · intro h
      rw [List.map_congr_left h]
  have hshort : (spans.map Span.read).sum * nanosPerSec < tooLong := by
    unfold tooLong nanosPerSec u64Max
    omega
  rw [parseDuration_spans defaultUnitSecs hne hshort]
  simp only [Except.ok.injEq, SdDuration.finite.injEq,
    Nat.mul_left_inj (show nanosPerSec ≠ 0 by decide), hsum, read_eq_iff]

/-- `1h 30min15s`. -/
def hourAndAHalf : List Span := [
  ⟨1, ("h", 3600), by decide, [], [], by simp, by simp⟩,
  ⟨30, ("min", 60), by decide, [' '], [], List.all_eq_true.mp rfl, by simp⟩,
  ⟨15, ("s", 1), by decide, [], [], by simp, by simp⟩]

theorem parseDuration_adds_up_hours :
    parseDuration "1h 30min15s".toList 1 = .ok (.finite (5415 * nanosPerSec)) := by
  have htext : hourAndAHalf.flatMap Span.text = "1h 30min15s".toList := by decide
  rw [← htext]
  exact (parseDuration_adds_up_iff 1 (List.cons_ne_nil _ _) (by decide)).mpr (by decide)

/-- `1M`. -/
def oneMonth : Span := ⟨1, ("M", 2630016), by decide, [], [], by simp, by simp⟩

/-- A month is read as a minute. -/
theorem month_is_a_minute :
    [oneMonth].flatMap Span.text = "1M".toList ∧
    parseDuration "1M".toList 1 = .ok (.finite (60 * nanosPerSec)) ∧
    ¬ ∀ (spans : List Span) (defaultUnitSecs : Nat), spans ≠ [] →
      (spans.map Span.seconds).sum < 2 ^ 53 →
      parseDuration (spans.flatMap Span.text) defaultUnitSecs =
        .ok (.finite ((spans.map Span.seconds).sum * nanosPerSec)) := by
  have htext : [oneMonth].flatMap Span.text = "1M".toList := by decide
  have hminute : parseDuration ([oneMonth].flatMap Span.text) 1 =
      .ok (.finite (60 * nanosPerSec)) :=
    parseDuration_spans 1 (List.cons_ne_nil _ _) (by decide)
  refine ⟨htext, by rw [← htext, hminute], ?_⟩
  intro h
  have hmonth := h [oneMonth] 1 (List.cons_ne_nil _ _) (by decide)
  rw [hminute] at hmonth
  exact absurd hmonth (by decide)

end Systeml.Unit
