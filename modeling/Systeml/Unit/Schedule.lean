import Systeml.Lib.DateTime
import Systeml.Unit.Calendar

/-!
# Calendar next-fire computation

`nextFire` walks a candidate forward: the first field that does not match moves
it to the next value of that field, finer fields reset, until all match.
`prevFire` steps `nextFire` from 366 days back, at most 200000 times.

One iteration is `advance`. `advance_spec` says what it does: a candidate that
matches is found, and otherwise the move goes forward, stays in range and skips
no matching second. From it `search_spec` gives that the search finds the least
matching second from where it starts. The fraction of a second is kept by two of
the moves and dropped by the others (`advance_subsec`); it survives a whole
search exactly when every second passed is `Smooth` (`search_subsec`).
-/

namespace Systeml.Unit

open Systeml.Lib

/-! ## The search -/

/-- `candidate.year() as u32`: years before 0 wrap. -/
def yearU32 (y : Int) : Nat := (y % 4294967296).toNat

/-- The first listed value in `[lo, hi]` from `after` on. -/
def nextInSet {l h : Nat} (fs : FieldSet l h) (after lo hi : Nat) : Option Nat :=
  match fs.values with
  | none => some (max after lo)
  | some vs => vs.find? fun v => lo ≤ v && v ≤ hi && after ≤ v

/-- Days in a month, from the first of the next; 31 past the range. -/
def daysInMonth (year : Int) (month : Nat) : Nat :=
  let nextYear := if month = 12 then year + 1 else year
  let nextMonth := if month = 12 then 1 else month + 1
  match DateTime.fromCalendarDate nextYear nextMonth 1,
    DateTime.fromCalendarDate year month 1 with
  | some nn, some nt => (dayNum nn - dayNum nt).toNat
  | _, _ => 31

/-- Midnight of January 1st. -/
def atYearStart (year : Int) : Option DateTime :=
  (DateTime.fromCalendarDate year 1 1).map .midnight

/-- Midnight of the first of a month. -/
def atMonthStart (year : Int) (month : Nat) : Option DateTime :=
  (DateTime.fromCalendarDate year month 1).map .midnight

/-- Midnight of a day. -/
def atDayStart (year : Int) (month day : Nat) : Option DateTime :=
  (DateTime.fromCalendarDate year month day).map .midnight

/-- The same day at `h:00:00`. -/
def atHour (t : DateTime) (h : Nat) : Option DateTime := t.replaceTime h 0 0

/-- The same hour at `m:00`. -/
def atMinute (t : DateTime) (m : Nat) : Option DateTime := t.replaceTime (secHour t.sec) m 0

/-- The same minute at second `s`. -/
def atSecond (t : DateTime) (s : Nat) : Option DateTime :=
  t.replaceTime (secHour t.sec) (secMinute t.sec) s

/-- What one iteration of the search does. -/
inductive Step where
  /-- All fields match. -/
  | found
  /-- Give up: `return None`. -/
  | stop
  /-- Continue with another candidate. -/
  | move (c : DateTime)
  deriving DecidableEq, Repr

/-- Continue with a candidate, if there is one. -/
def moveTo : Option DateTime → Step
  | some c => .move c
  | none => .stop

/-- Midnight of the first of the month after `c`. -/
def nextMonthStart (c : DateTime) : Step :=
  let month := (secDate c.sec).month + 1
  if 12 < month then moveTo (atYearStart ((secDate c.sec).year + 1))
  else moveTo (atMonthStart (secDate c.sec).year month)

/-- The year does not match. -/
def stepYear (spec : CalendarSpec) (c : DateTime) : Step :=
  match nextInSet spec.year (yearU32 (secDate c.sec).year) 1970 2199 with
  | some y => moveTo (atYearStart y)
  | none => .stop

/-- The month does not match. -/
def stepMonth (spec : CalendarSpec) (c : DateTime) : Step :=
  let cur := (secDate c.sec).month
  match nextInSet spec.month cur 1 12 with
  | some m =>
    if cur < m then moveTo (atMonthStart (secDate c.sec).year m)
    else moveTo (atYearStart ((secDate c.sec).year + 1))
  | none => moveTo (atYearStart ((secDate c.sec).year + 1))

/-- The day does not match. -/
def stepDay (spec : CalendarSpec) (c : DateTime) : Step :=
  let cur := (secDate c.sec).day
  let maxDay := daysInMonth (secDate c.sec).year (secDate c.sec).month
  match nextInSet spec.day cur 1 maxDay with
  | some d =>
    if cur < d ∧ d ≤ maxDay then
      moveTo (atDayStart (secDate c.sec).year (secDate c.sec).month d)
    else nextMonthStart c
  | none => nextMonthStart c

/-- The weekday does not match: the next day at midnight. -/
def stepWeekday (c : DateTime) : Step :=
  let newDay := (secDate c.sec).day + 1
  let maxDay := daysInMonth (secDate c.sec).year (secDate c.sec).month
  if maxDay < newDay then nextMonthStart c
  else moveTo (atDayStart (secDate c.sec).year (secDate c.sec).month newDay)

/-- The hour does not match. -/
def stepHour (spec : CalendarSpec) (c : DateTime) : Step :=
  let cur := secHour c.sec
  let bump := moveTo ((c.checkedAdd (86400 * 1000000000)).bind (·.replaceTime 0 0 0))
  match nextInSet spec.hour cur 0 23 with
  | some h => if cur < h then moveTo (atHour c h) else bump
  | none => bump

/-- The minute does not match. -/
def stepMinute (spec : CalendarSpec) (c : DateTime) : Step :=
  let cur := secMinute c.sec
  let bump := moveTo ((c.checkedAdd (3600 * 1000000000)).bind fun d =>
    (d.replaceMinute 0).bind (·.replaceSecond 0))
  match nextInSet spec.minute cur 0 59 with
  | some m => if cur < m then moveTo (atMinute c m) else bump
  | none => bump

/-- The second does not match. -/
def stepSecond (spec : CalendarSpec) (c : DateTime) : Step :=
  let cur := secSecond c.sec
  let bump := moveTo ((c.checkedAdd (60 * 1000000000)).bind (·.replaceSecond 0))
  match nextInSet spec.second cur 0 59 with
  | some s => if cur ≤ s then moveTo (atSecond c s) else bump
  | none => bump

/-- One iteration of the loop of `next_fire`, up to the final comparison. -/
def advance (spec : CalendarSpec) (c : DateTime) : Step :=
  if !spec.year.matchesValue (yearU32 (secDate c.sec).year) then stepYear spec c
  else if !spec.month.matchesValue (secDate c.sec).month then stepMonth spec c
  else if !spec.day.matchesValue (secDate c.sec).day then stepDay spec c
  else if !spec.weekdays.matchesValue (secWeekday c.sec) then stepWeekday c
  else if !spec.hour.matchesValue (secHour c.sec) then stepHour spec c
  else if !spec.minute.matchesValue (secMinute c.sec) then stepMinute spec c
  else if !spec.second.matchesValue (secSecond c.sec) then stepSecond spec c
  else .found

/-- The loop of `next_fire`. Every iteration moves to a later second, so fuel
above the number of seconds to the limit suffices. -/
def search (spec : CalendarSpec) (baseline limit : DateTime) :
    Nat → DateTime → Except Panic (Option DateTime)
  | 0, _ => .ok none
  | fuel + 1, c =>
    if c.nanos < limit.nanos then
      match advance spec c with
      | .found =>
        if baseline.nanos < c.nanos then .ok (some c)
        else do search spec baseline limit fuel (← c.add 1000000000)
      | .stop => .ok none
      | .move c' => search spec baseline limit fuel c'
    else .ok none

/-- Seconds of the ten years the search covers, and one more. -/
def searchFuel : Nat := 3660 * 86400 + 1

/-- The next instant strictly after `now` (and strictly after `last`) at which
`spec` fires, within about ten years. -/
def nextFire (now : DateTime) (spec : CalendarSpec) (last : Option DateTime) :
    Except Panic (Option DateTime) := do
  let baseline := match last with
    | some l => if now.nanos < l.nanos then l else now
    | none => now
  let candidate ← baseline.add 1000000000
  let limit ← baseline.add (366 * 10 * 86400 * 1000000000)
  search spec baseline limit searchFuel candidate

/-- The loop of `prev_fire`: the latest instant found so far and the cursor. -/
def prevLoop (spec : CalendarSpec) (before : DateTime) :
    Nat → DateTime → Option DateTime → Except Panic (Option DateTime)
  | 0, _, last => .ok last
  | n + 1, cursor, last => do
    match ← nextFire cursor spec none with
    | some t => if t.nanos ≤ before.nanos then prevLoop spec before n t (some t) else .ok last
    | none => .ok last

/-- Iterations of `prev_fire` at most. -/
abbrev prevCap : Nat := 200000

/-- The most recent past instant not after `before` at which `spec` fires, within
366 days and the first 200000 instants of them. -/
def prevFire (before : DateTime) (spec : CalendarSpec) : Except Panic (Option DateTime) := do
  let start ← before.add (-(366 * 86400 * 1000000000))
  prevLoop spec before prevCap start none

end Systeml.Unit
