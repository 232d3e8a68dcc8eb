import Mathlib.Data.List.Basic

/-!
# Calendar specifications

The value `OnCalendar=` parses to: one `FieldSet` for each calendar field. A
field is a wildcard or a strictly increasing, non-empty list of values within
the bounds the parser enforces for it, and carries the proof of that. A moment
matches when each of its seven fields does, which is what the search in
`Schedule` decides field by field.
-/

namespace Systeml.Unit

/-- Per-field set of allowed values in `[lo, hi]`. `none` means wildcard (any);
otherwise a sorted, deduplicated list of values. -/
structure FieldSet (lo hi : Nat) where
  values : Option (List Nat)
  valid : ∀ vs, values = some vs →
    vs ≠ [] ∧ vs.Pairwise (· < ·) ∧ ∀ v ∈ vs, lo ≤ v ∧ v ≤ hi
  deriving DecidableEq

namespace FieldSet

variable {lo hi : Nat}

/-- Wildcard. -/
def any : FieldSet lo hi := ⟨none, by simp⟩

/-- Single value. -/
def single (v : Nat) (h : lo ≤ v ∧ v ≤ hi) : FieldSet lo hi where
  values := some [v]
  valid := by
    rintro vs hvs
    obtain rfl := Option.some.inj hvs
    simpa using h

/-- Whether this set matches `v`. The source searches the sorted list by
bisection, which on a sorted list is membership. -/
def matchesValue (fs : FieldSet lo hi) (v : Nat) : Bool :=
  match fs.values with
  | none => true
  | some vs => decide (v ∈ vs)

/-- The set holds a value after `v`. -/
def hasLater (fs : FieldSet lo hi) (v : Nat) : Bool :=
  match fs.values with
  | none => true
  | some vs => vs.any (v < ·)

theorem matchesValue_eq_false {fs : FieldSet lo hi} {v : Nat} :
    fs.matchesValue v = false ↔ ∃ vs, fs.values = some vs ∧ v ∉ vs := by
  unfold matchesValue
  cases fs.values <;> simp

theorem matchesValue_some {fs : FieldSet lo hi} {vs : List Nat} (h : fs.values = some vs)
    (v : Nat) : fs.matchesValue v = true ↔ v ∈ vs := by
  simp [matchesValue, h]

theorem hasLater_eq_false {fs : FieldSet lo hi} {v : Nat} :
    fs.hasLater v = false ↔ ∃ vs, fs.values = some vs ∧ ∀ w ∈ vs, w ≤ v := by
  unfold hasLater
  cases fs.values <;> simp

/-- Past the last value nothing matches, and nothing comes later. -/
theorem past_last {fs : FieldSet lo hi} {v w : Nat} (hno : fs.matchesValue v = false)
    (hlast : fs.hasLater v = false) (h : v ≤ w) :
    fs.matchesValue w = false ∧ fs.hasLater w = false := by
  obtain ⟨vs, hvs, hnot⟩ := matchesValue_eq_false.mp hno
  obtain ⟨vs', hvs', hle⟩ := hasLater_eq_false.mp hlast
  obtain rfl : vs = vs' := Option.some.inj (hvs.symm.trans hvs')
  refine ⟨matchesValue_eq_false.mpr ⟨vs, hvs, fun hw => ?_⟩,
    hasLater_eq_false.mpr ⟨vs, hvs, fun x hx => Nat.le_trans (hle x hx) h⟩⟩
  rcases Nat.lt_or_eq_of_le h with hlt | rfl
  · have := hle w hw
    omega
  · exact hnot hw

end FieldSet

/-- Parsed `OnCalendar=` value. -/
structure CalendarSpec where
  /-- Day-of-week mask, 1=Mon..7=Sun. -/
  weekdays : FieldSet 1 7
  year : FieldSet 1970 2199
  /-- Month 1..=12. -/
  month : FieldSet 1 12
  /-- Day-of-month 1..=31. -/
  day : FieldSet 1 31
  hour : FieldSet 0 23
  minute : FieldSet 0 59
  second : FieldSet 0 59
  deriving DecidableEq

end Systeml.Unit
