import Systeml.Unit.Advance
import Systeml.Unit.CalendarField

/-!
# Calendar values

`CalendarSpec.parse` reads a value of `OnCalendar=`: a shortcut, or weekdays, a date and a
time, each optional, with a time zone at the end. A value without a time is due at
midnight, if it has a date or is a weekday alone. Nothing else is left but a value without
a token, or with a time zone only, and that one is due every second
(`CalendarSpec.parse_midnight_iff`).
-/

namespace Systeml.Unit

open Systeml.Lib

/-! ## Parsing -/

/-- Why a value is refused. -/
inductive CalendarError where
  | field (e : FieldError)
  | invalidDate (s : Str)
  | invalidTime (s : Str)
  | unexpectedToken (tok : Str)
  deriving DecidableEq, Repr

/-- What `CalendarSpec::parse` ends with when not with a specification. -/
inductive CalendarFault where
  | err (e : CalendarError)
  /-- An addition leaves `u32`. -/
  | overflow
  deriving DecidableEq, Repr

/-- The fault of a field as one of the value. -/
def ofFieldFault : FieldFault → CalendarFault
  | .err e => .err (.field e)
  | .overflow => .overflow

/-- The parts of the text between whitespace. -/
def splitWhitespace (s : Str) : List Str :=
  (splitOn ' ' (s.map fun c => if isWhitespace c then ' ' else c)).filter (· ≠ [])

/-- The shortcuts, and what each stands for. -/
def shortcuts : List (List String × String) := [
  (["minutely"], "*-*-* *:*:00"),
  (["hourly"], "*-*-* *:00:00"),
  (["daily"], "*-*-* 00:00:00"),
  (["weekly"], "Mon *-*-* 00:00:00"),
  (["monthly"], "*-*-01 00:00:00"),
  (["quarterly"], "*-01,04,07,10-01 00:00:00"),
  (["semiannually", "semi-annually"], "*-01,07-01 00:00:00"),
  (["yearly", "annually"], "*-01-01 00:00:00")]

/-- `expand_shortcut`. -/
def expandShortcut (s : Str) : Option Str :=
  (shortcuts.find? fun e => e.1.any fun n => n.toList == s).map fun e => e.2.toList

/-- What a shortcut stands for is none. -/
theorem expandShortcut_expanded {s t : Str} (h : expandShortcut s = some t) :
    expandShortcut (trim t) = none := by
  have htable : ∀ e ∈ shortcuts, expandShortcut (trim e.2.toList) = none := by decide
  obtain ⟨e, he, rfl⟩ := Option.map_eq_some_iff.mp h
  exact htable e (List.mem_of_find?_eq_some he)

/-- The names of the days. -/
def weekdayTable : List (String × Nat) :=
  [("Mon", 1), ("Tue", 2), ("Wed", 3), ("Thu", 4), ("Fri", 5), ("Sat", 6), ("Sun", 7)]

/-- `weekday_num`. -/
def weekdayNum (s : Str) : Except FieldError Nat :=
  match weekdayTable.find? fun e => e.1.toList = s with
  | some e => .ok e.2
  | none => .error (.weekday s)

theorem weekdayNum_bounds {s : Str} {n : Nat} (h : weekdayNum s = .ok n) : 1 ≤ n ∧ n ≤ 7 := by
  have htable : ∀ e ∈ weekdayTable, 1 ≤ e.2 ∧ e.2 ≤ 7 := by decide
  unfold weekdayNum at h
  split at h
  next e he =>
    obtain rfl := Except.ok.inj h
    exact htable e (List.mem_of_find?_eq_some he)
  next => exact absurd h (by simp)

/-- The days of a chunk; a range may wrap around the week. -/
def readDays (chunk : Str) : Except FieldError (List Nat) :=
  match splitDots chunk with
  | some (a, b) => do
    let a ← weekdayNum a
    let b ← weekdayNum b
    if a ≤ b then return List.range' a (b + 1 - a)
    else return List.range' a (8 - a) ++ List.range' 1 b
  | none => do return [← weekdayNum chunk]

theorem readDays_valid {chunk : Str} {vs : List Nat} (h : readDays chunk = .ok vs) :
    vs ≠ [] ∧ ∀ v ∈ vs, 1 ≤ v ∧ v ≤ 7 := by
  unfold readDays at h
  split at h
  next a b _ =>
    obtain ⟨x, hx, h⟩ := bind_ok.mp h
    obtain ⟨y, hy, h⟩ := bind_ok.mp h
    have hx := weekdayNum_bounds hx
    have hy := weekdayNum_bounds hy
    split at h
    next hle =>
      obtain rfl := Except.ok.inj h
      refine ⟨?_, fun v hv => ?_⟩
      · rw [Ne, List.range'_eq_nil_iff]
        omega
      · rw [List.mem_range'_1] at hv
        omega
    next hle =>
      obtain rfl := Except.ok.inj h
      refine ⟨?_, fun v hv => ?_⟩
      · rw [Ne, List.append_eq_nil_iff, List.range'_eq_nil_iff]
        omega
      · rw [List.mem_append, List.mem_range'_1, List.mem_range'_1] at hv
        omega
  next =>
    obtain ⟨x, hx, h⟩ := bind_ok.mp h
    obtain rfl := Except.ok.inj h
    have hx := weekdayNum_bounds hx
    refine ⟨by simp, fun v hv => ?_⟩
    obtain rfl := List.mem_singleton.mp hv
    exact hx

/-- The loop over the chunks of the weekdays. -/
def weekdayValues : List Str → Except FieldError (List Nat)
  | [] => .ok []
  | chunk :: chunks => do
    let vs ← readDays chunk
    let rest ← weekdayValues chunks
    return vs ++ rest

theorem weekdayValues_valid {chunks : List Str} (hne : chunks ≠ []) {vs : List Nat}
    (h : weekdayValues chunks = .ok vs) : vs ≠ [] ∧ ∀ v ∈ vs, 1 ≤ v ∧ v ≤ 7 := by
  induction chunks generalizing vs with
  | nil => exact absurd rfl hne
  | cons chunk chunks ih =>
    obtain ⟨xs, hxs, h⟩ := bind_ok.mp h
    obtain ⟨ys, hys, h⟩ := bind_ok.mp h
    obtain rfl := Except.ok.inj h
    obtain ⟨hxne, hxb⟩ := readDays_valid hxs
    refine ⟨fun hnil => hxne (List.append_eq_nil_iff.mp hnil).1, fun v hv => ?_⟩
    rcases List.mem_append.mp hv with hv | hv
    · exact hxb v hv
    · cases chunks with
      | nil =>
        obtain rfl := Except.ok.inj hys
        exact absurd hv (by simp)
      | cons c cs => exact (ih (by simp) hys).2 v hv

/-- `parse_weekdays`. -/
def parseWeekdays (s : Str) : Except FieldError (FieldSet 1 7) :=
  match h : weekdayValues (splitOn ',' s) with
  | .ok vs =>
    have hvalid := weekdayValues_valid (splitOn_ne_nil s) h
    .ok (.ofValues vs hvalid.1 hvalid.2)
  | .error e => .error e

/-- `is_weekday_field`: it begins with a day. -/
def isWeekdayField (s : Str) : Bool :=
  weekdayTable.any fun e => e.1.toList == s.takeWhile Char.isAlpha

/-- `is_likely_tz`. -/
def isLikelyTz (s : Str) : Bool :=
  (["UTC", "GMT", "PST", "PDT", "EST", "EDT", "CST", "CDT", "MST", "MDT"].any
    fun n => n.toList == s) || s.contains '/'

/-- The last token is taken for a time zone. -/
def isTimezone (last : Str) : Bool :=
  !last.contains ':' && !last.contains '-' && !last.contains '*' && !last.contains ',' &&
    (last.contains '/' || isLikelyTz last)

/-- The tokens without the time zone at their end, and that. -/
def popTimezone (parts : List Str) : List Str × Option Str :=
  match parts.getLast? with
  | some last => if isTimezone last then (parts.dropLast, some last) else (parts, none)
  | none => (parts, none)

/-- What a date sets. -/
structure DateFields where
  year : FieldSet 1970 2199
  month : FieldSet 1 12
  day : FieldSet 1 31
  deriving DecidableEq

/-- What a time sets. -/
structure TimeFields where
  hour : FieldSet 0 23
  minute : FieldSet 0 59
  second : FieldSet 0 59
  deriving DecidableEq

/-- Every date. -/
def DateFields.any : DateFields := ⟨.any, .any, .any⟩

/-- Every time. -/
def TimeFields.any : TimeFields := ⟨.any, .any, .any⟩

/-- `FieldSet::single(0)`. -/
def FieldSet.zero (hi : Nat) : FieldSet 0 hi := .single 0 ⟨Nat.le_refl 0, Nat.zero_le hi⟩

/-- 00:00:00. -/
def TimeFields.midnight : TimeFields := ⟨.zero 23, .zero 59, .zero 59⟩

/-- A field of the value. -/
def calendarField (lo hi : Nat) (s : Str) : Except CalendarFault (FieldSet lo hi) :=
  (parseField lo hi s).mapError ofFieldFault

/-- `parse_date`. -/
def parseDate (s : Str) : Except CalendarFault DateFields :=
  if s = "*".toList then .ok .any
  else
    let read (y m d : Str) : Except CalendarFault DateFields := do
      return ⟨← calendarField 1970 2199 y, ← calendarField 1 12 m, ← calendarField 1 31 d⟩
    match splitOn '-' s with
    | [y, m, d] => read y m d
    | [m, d] => read "*".toList m d
    | _ => .error (.err (.invalidDate s))

/-- `parse_time`. -/
def parseTime (s : Str) : Except CalendarFault TimeFields :=
  let read (h m sec : Str) : Except CalendarFault TimeFields := do
    return ⟨← calendarField 0 23 h, ← calendarField 0 59 m, ← calendarField 0 59 sec⟩
  match splitOn ':' s with
  | [h, m, sec] => read h m sec
  | [h, m] => read h m "0".toList
  | _ => .error (.err (.invalidTime s))

/-- How far the loop over the tokens is, and what it has read. -/
structure Progress where
  idx : Nat
  date : Option DateFields
  time : Option TimeFields

/-- The loop over the tokens behind the weekdays. -/
def readTokens : List Str → Progress → Except CalendarFault Progress
  | [], st => .ok st
  | tok :: toks, st =>
    if tok.contains ':' && st.time.isNone then do
      let time ← parseTime tok
      readTokens toks { st with idx := st.idx + 1, time := some time }
    else if (tok.contains '-' || tok == "*".toList) && st.date.isNone then do
      let date ← parseDate tok
      readTokens toks { st with idx := st.idx + 1, date := some date }
    else .error (.err (.unexpectedToken tok))

/-- The weekdays at the start, if there are, and the tokens they take. -/
def readWeekdays (parts : List Str) : Except CalendarFault (FieldSet 1 7 × Nat) :=
  match parts with
  | first :: _ =>
    if isWeekdayField first then
      ((parseWeekdays first).mapError fun e => .err (.field e)).map fun w => (w, 1)
    else .ok (.any, 0)
  | [] => .ok (.any, 0)

/-- The time of a value: what was read, or midnight for a date or a weekday alone. -/
def Progress.timeFields (st : Progress) (parts : List Str) : TimeFields :=
  if st.time.isNone && st.date.isSome then .midnight
  else if st.time.isNone && st.date.isNone && parts.length ≤ 1 && st.idx == 1 then .midnight
  else st.time.getD .any

/-- A parsed value, with its time zone and its text. -/
structure ParsedCalendar extends CalendarSpec where
  timezone : Option Str
  raw : Str
  deriving DecidableEq

/-- `CalendarSpec::parse` behind the shortcuts. -/
def parseTokens (raw : Str) : Except CalendarFault ParsedCalendar := do
  let popped := popTimezone (splitWhitespace raw)
  let (weekdays, idx) ← readWeekdays popped.1
  let st ← readTokens (popped.1.drop idx) ⟨idx, none, none⟩
  let date := st.date.getD .any
  let time := st.timeFields popped.1
  let spec : CalendarSpec :=
    ⟨weekdays, date.year, date.month, date.day, time.hour, time.minute, time.second⟩
  return ⟨spec, popped.2, raw⟩

/-- `CalendarSpec::parse`. -/
def CalendarSpec.parse (input : Str) : Except CalendarFault ParsedCalendar :=
  match _h : expandShortcut (trim input) with
  | some s => CalendarSpec.parse s
  | none => parseTokens (trim input)
termination_by if (expandShortcut (trim input)).isSome then 1 else 0
decreasing_by
  rw [expandShortcut_expanded ‹_›, ‹expandShortcut (trim input) = some s›]
  exact Nat.one_pos

theorem CalendarSpec.parse_of_noShortcut {s : Str} (h : expandShortcut (trim s) = none) :
    CalendarSpec.parse s = parseTokens (trim s) := by
  rw [CalendarSpec.parse]
  split
  next t ht =>
    rw [h] at ht
    cases ht
  next => rfl

/-! ## Values without a time -/

/-- The value is no shortcut, and none of its tokens is a time. -/
structure NoTime (s : Str) : Prop where
  shortcut : expandShortcut (trim s) = none
  colon : ∀ tok ∈ splitWhitespace (trim s), ':' ∉ tok

/-- Due at 00:00:00 only, and so once a day at most. -/
structure AtMidnight (spec : CalendarSpec) : Prop where
  hour : spec.hour.values = some [0]
  minute : spec.minute.values = some [0]
  second : spec.second.values = some [0]
  once : ∀ p q, Matches spec p → Matches spec q → p / 86400 = q / 86400 → p = q

/-- A second at 00:00:00 is the first of its day. -/
theorem atMidnight_of_values {spec : CalendarSpec} (hhour : spec.hour.values = some [0])
    (hminute : spec.minute.values = some [0]) (hsecond : spec.second.values = some [0]) :
    AtMidnight spec := by
  have hfirst : ∀ p, Matches spec p → p = 86400 * (p / 86400) := by
    intro p hp
    have hh := (FieldSet.matchesValue_some hhour _).mp hp.hour
    have hm := (FieldSet.matchesValue_some hminute _).mp hp.minute
    have hs := (FieldSet.matchesValue_some hsecond _).mp hp.second
    rw [List.mem_singleton] at hh hm hs
    simp only [secHour, secMinute, secSecond] at hh hm hs
    omega
  refine ⟨hhour, hminute, hsecond, fun p q hp hq hday => ?_⟩
  rw [hfirst p hp, hfirst q hq, hday]

theorem mem_of_mem_popTimezone {parts : List Str} {tok : Str}
    (h : tok ∈ (popTimezone parts).1) : tok ∈ parts := by
  unfold popTimezone at h
  split at h
  next =>
    split at h
    next => exact (List.dropLast_sublist parts).subset h
    next => exact h
  next => exact h

/-- Tokens without a colon are read as a date, if there is one at all. -/
theorem readTokens_noColon {toks : List Str} (hno : ∀ tok ∈ toks, ':' ∉ tok) {st st' : Progress}
    (h : readTokens toks st = .ok st') :
    st'.time = st.time ∧ st'.idx = st.idx + toks.length ∧
      (toks = [] → st'.date = st.date) ∧ (toks ≠ [] → st'.date.isSome = true) := by
  induction toks generalizing st with
  | nil =>
    obtain rfl := Except.ok.inj h
    exact ⟨rfl, rfl, fun _ => rfl, fun hne => absurd rfl hne⟩
  | cons tok toks ih =>
    have hcolon : tok.contains ':' = false := by
      simpa using hno tok (List.mem_cons_self ..)
    rw [readTokens, hcolon, Bool.false_and, if_neg (by simp)] at h
    split at h
    next =>
      obtain ⟨date, -, h⟩ := bind_ok.mp h
      have hrest := ih (fun t ht => hno t (List.mem_cons_of_mem _ ht)) h
      obtain ⟨htime, hidx, hnil, hcons⟩ := hrest
      refine ⟨htime, ?_, by simp, fun _ => ?_⟩
      · rw [hidx, List.length_cons]
        simp only
        omega
      · cases toks with
        | nil => rw [hnil rfl]; rfl
        | cons t ts => exact hcons (by simp)
    next => exact absurd h (by simp)

theorem readWeekdays_idx {parts : List Str} {w : FieldSet 1 7} {idx : Nat}
    (h : readWeekdays parts = .ok (w, idx)) : idx = 0 ∨ idx = 1 ∧ parts ≠ [] := by
  unfold readWeekdays at h
  split at h
  next =>
    split at h
    next =>
      obtain ⟨v, -, hpair⟩ := map_eq_ok h
      exact Or.inr ⟨congrArg Prod.snd hpair, by simp⟩
    next => exact Or.inl (congrArg Prod.snd (Except.ok.inj h)).symm
  next => exact Or.inl (congrArg Prod.snd (Except.ok.inj h)).symm

/-- Without a time, the tokens left decide which one stands in for it. -/
theorem timeFields_noColon {parts : List Str} (hno : ∀ tok ∈ parts, ':' ∉ tok)
    {w : FieldSet 1 7} {idx : Nat} (hw : readWeekdays parts = .ok (w, idx)) {st : Progress}
    (h : readTokens (parts.drop idx) ⟨idx, none, none⟩ = .ok st) :
    st.timeFields parts = if parts = [] then .any else .midnight := by
  obtain ⟨htime, hidx, hnil, hcons⟩ :=
    readTokens_noColon (fun tok ht => hno tok (List.mem_of_mem_drop ht)) h
  simp only at htime hidx hnil
  unfold Progress.timeFields
  rw [htime]
  by_cases hparts : parts = []
  · subst hparts
    have hdate := hnil (by simp)
    have hzero : idx = 0 := by
      rcases readWeekdays_idx hw with h0 | ⟨-, hne⟩
      · exact h0
      · exact absurd rfl hne
    rw [hdate, hidx, hzero]
    rfl
  rw [if_neg hparts]
  by_cases hdrop : parts.drop idx = []
  · -- the weekday is the only token
    have hlen : 0 < parts.length := List.length_pos_iff.mpr hparts
    have hle := List.drop_eq_nil_iff.mp hdrop
    have hone : idx = 1 ∧ parts.length = 1 := by
      rcases readWeekdays_idx hw with h0 | ⟨h1, -⟩ <;> omega
    rw [hnil hdrop, hidx, hdrop, hone.1, hone.2]
    rfl
  · rw [hcons hdrop]
    rfl

/-- **A value without a time is due at midnight** exactly when it has a token that is not
its time zone. -/
theorem CalendarSpec.parse_midnight_iff {s : Str} {c : ParsedCalendar}
    (h : CalendarSpec.parse s = .ok c) (hno : NoTime s) :
    AtMidnight c.toCalendarSpec ↔ (popTimezone (splitWhitespace (trim s))).1 ≠ [] := by
  rw [CalendarSpec.parse_of_noShortcut hno.shortcut] at h
  obtain ⟨⟨w, idx⟩, hw, h⟩ := bind_ok.mp h
  obtain ⟨st, hst, h⟩ := bind_ok.mp h
  obtain rfl := Except.ok.inj h
  have htime := timeFields_noColon
    (fun tok ht => hno.colon tok (mem_of_mem_popTimezone ht)) hw hst
  by_cases hparts : (popTimezone (splitWhitespace (trim s))).1 = []
  · refine iff_of_false (fun hmid => ?_) (not_not.mpr hparts)
    have hhour := hmid.hour
    simp only [htime, if_pos hparts] at hhour
    cases hhour
  · refine iff_of_true (atMidnight_of_values ?_ ?_ ?_) hparts <;>
      · simp only [htime, if_neg hparts]
        rfl

/-- `Mon` is a weekday alone. -/
theorem CalendarSpec.parse_midnight_iff_monday :
    ∃ c, CalendarSpec.parse "Mon".toList = .ok c ∧ AtMidnight c.toCalendarSpec := by
  have hok : ∃ c, parseTokens "Mon".toList = .ok c := ⟨_, rfl⟩
  obtain ⟨c, hc⟩ := hok
  rw [← show trim "Mon".toList = "Mon".toList by decide,
    ← CalendarSpec.parse_of_noShortcut (by decide)] at hc
  exact ⟨c, hc, (CalendarSpec.parse_midnight_iff hc ⟨by decide, by decide⟩).mpr (by decide)⟩

/-- A time zone alone is due every second. -/
theorem CalendarSpec.not_parse_midnight : ¬ ∀ (s : Str) (c : ParsedCalendar),
    CalendarSpec.parse s = .ok c → NoTime s → AtMidnight c.toCalendarSpec := by
  intro h
  have hok : ∃ c, parseTokens "UTC".toList = .ok c ∧ c.hour.values = none := ⟨_, rfl, rfl⟩
  obtain ⟨c, hc, hnone⟩ := hok
  rw [← show trim "UTC".toList = "UTC".toList by decide,
    ← CalendarSpec.parse_of_noShortcut (by decide)] at hc
  have hhour := (h _ c hc ⟨by decide, by decide⟩).hour
  rw [hnone] at hhour
  cases hhour

end Systeml.Unit
