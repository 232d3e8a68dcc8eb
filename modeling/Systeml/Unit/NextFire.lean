import Systeml.Unit.Advance

/-!
# What the calendar search finds

`search` finds the first match from where it starts (`search_spec`), and
`nextFire` the first match after its baseline (`nextFire_spec`).

The fraction of a second of `now` is kept by the moves to the next hour or
minute and dropped by all others. It reaches the result exactly when the search
passes `Smooth` seconds only: those where the date and the hour match, and the
minute or the second fails past the last of its values, if it fails.
-/

namespace Systeml.Unit

open Systeml.Lib

variable {spec : CalendarSpec}

/-! ## The fraction of a second -/

/-- A second at which the search, if it moves on at all, moves to the start of
the next hour or minute. -/
structure Smooth (spec : CalendarSpec) (s : Int) : Prop where
  year : spec.year.matchesValue (yearU32 (secDate s).year) = true
  month : spec.month.matchesValue (secDate s).month = true
  day : spec.day.matchesValue (secDate s).day = true
  weekday : spec.weekdays.matchesValue (secWeekday s) = true
  hour : spec.hour.matchesValue (secHour s) = true
  minute : spec.minute.matchesValue (secMinute s) = true ∨
    spec.minute.hasLater (secMinute s) = false
  second : spec.minute.matchesValue (secMinute s) = true →
    spec.second.matchesValue (secSecond s) = true ∨ spec.second.hasLater (secSecond s) = false

theorem Matches.smooth {s : Int} (h : Matches spec s) : Smooth spec s :=
  ⟨h.year, h.month, h.day, h.weekday, h.hour, Or.inl h.minute, fun _ => Or.inl h.second⟩

/-- Seconds of one day share the fields of the day. -/
theorem Smooth.sameHour {s p : Int} (h : Smooth spec s) (hd : s / 3600 = p / 3600)
    (hm : spec.minute.matchesValue (secMinute p) = true ∨
      spec.minute.hasLater (secMinute p) = false)
    (hs : spec.minute.matchesValue (secMinute p) = true →
      spec.second.matchesValue (secSecond p) = true ∨
        spec.second.hasLater (secSecond p) = false) : Smooth spec p := by
  have hday : s / 86400 = p / 86400 := by omega
  have hdate : secDate p = secDate s := by
    unfold secDate
    rw [hday]
  have hhour : secHour p = secHour s := by
    unfold secHour
    omega
  have hwd : secWeekday p = secWeekday s := by
    unfold secWeekday
    rw [hday]
  exact ⟨hdate ▸ h.year, hdate ▸ h.month, hdate ▸ h.day, hwd ▸ h.weekday, hhour ▸ h.hour, hm, hs⟩

theorem nextInSet_none_iff {l h : Nat} {fs : FieldSet l h} {after : Nat}
    (hno : fs.matchesValue after = false) :
    nextInSet fs after l h = none ↔ fs.hasLater after = false := by
  obtain ⟨vs, hvs, hnot⟩ := FieldSet.matchesValue_eq_false.mp hno
  rw [FieldSet.hasLater_eq_false]
  constructor
  · intro hn
    refine ⟨vs, hvs, fun w hw => ?_⟩
    have hm := (FieldSet.matchesValue_some hvs w).mpr hw
    have hb := bounds_of_matches hno hm
    exact (nextInSet_none hn w hm hb.1 hb.2).le
  · rintro ⟨vs', hvs', hle⟩
    obtain rfl : vs = vs' := Option.some.inj (hvs.symm.trans hvs')
    cases hn : nextInSet fs after l h with
    | none => rfl
    | some v =>
      obtain ⟨hlt, -⟩ := nextInSet_some hno hn
      unfold nextInSet at hn
      rw [hvs] at hn
      have := hle v (List.mem_of_find?_eq_some hn)
      omega

/-- The step drops the fraction, if it moves. -/
def Drops (st : Step) : Prop := ∀ c', st = .move c' → c'.subsec = 0

theorem drops_midnight (o : Option CivilDate) : Drops (moveTo (o.map .midnight)) := by
  intro c' h
  cases o with
  | none => exact absurd h (by simp [moveTo])
  | some d =>
    obtain rfl := Step.move.inj h
    exact DateTime.subsec_ofSec _

theorem drops_replaceTime (t : DateTime) (h m s : Nat) : Drops (moveTo (t.replaceTime h m s)) := by
  intro c' hc
  unfold DateTime.replaceTime at hc
  split at hc
  · obtain rfl := Step.move.inj hc
    exact DateTime.subsec_ofSec _
  · exact absurd hc (by simp [moveTo])

theorem drops_nextMonthStart (c : DateTime) : Drops (nextMonthStart c) := by
  unfold nextMonthStart
  simp only
  split <;> exact drops_midnight _

theorem drops_stepYear (c : DateTime) : Drops (stepYear spec c) := by
  unfold stepYear
  split
  · exact drops_midnight _
  · exact fun c' h => absurd h (by simp)

theorem drops_stepMonth (c : DateTime) : Drops (stepMonth spec c) := by
  simp only [stepMonth]
  split
  · split <;> exact drops_midnight _
  · exact drops_midnight _

theorem drops_stepDay (c : DateTime) : Drops (stepDay spec c) := by
  simp only [stepDay]
  split
  · split
    · exact drops_midnight _
    · exact drops_nextMonthStart c
  · exact drops_nextMonthStart c

theorem drops_stepWeekday (c : DateTime) : Drops (stepWeekday c) := by
  simp only [stepWeekday]
  split
  · exact drops_nextMonthStart c
  · exact drops_midnight _

theorem drops_stepHour (c : DateTime) : Drops (stepHour spec c) := by
  have hbump : Drops (moveTo ((c.checkedAdd (86400 * 1000000000)).bind (·.replaceTime 0 0 0))) := by
    cases c.checkedAdd (86400 * 1000000000) with
    | none => exact fun c' h => absurd h (by simp [moveTo])
    | some d => exact drops_replaceTime d 0 0 0
  simp only [stepHour]
  split
  · split
    · exact drops_replaceTime _ _ _ _
    · exact hbump
  · exact hbump

/-- The fraction survives a move from `c` to `c'` exactly if `c` is smooth, and
then the seconds passed are smooth too. -/
def KeepsIfSmooth (spec : CalendarSpec) (c c' : DateTime) : Prop :=
  (Smooth spec c.sec ∧ c'.subsec = c.subsec ∧ ∀ p, c.sec ≤ p → p < c'.sec → Smooth spec p) ∨
    (¬ Smooth spec c.sec ∧ c'.subsec = 0)

theorem stepMinute_subsec {c c' : DateTime}
    (hno : spec.minute.matchesValue (secMinute c.sec) = false)
    (hday : (spec.minute.hasLater (secMinute c.sec) = false) → Smooth spec c.sec)
    (h : stepMinute spec c = .move c') : KeepsIfSmooth spec c c' := by
  simp only [stepMinute] at h
  cases hn : nextInSet spec.minute (secMinute c.sec) 0 59 with
  | some m =>
    obtain ⟨hlt, -⟩ := nextInSet_some hno hn
    rw [hn] at h
    simp only [if_pos hlt] at h
    refine Or.inr ⟨fun hs => ?_, drops_replaceTime _ _ _ _ c' h⟩
    have hlast := hs.minute.resolve_left (by simp [hno])
    rw [(nextInSet_none_iff hno).mpr hlast] at hn
    exact absurd hn (by simp)
  | none =>
    have hlast := (nextInSet_none_iff hno).mp hn
    rw [hn] at h
    simp only at h
    cases hadd : c.checkedAdd (3600 * 1000000000) with
    | none =>
      rw [hadd] at h
      exact absurd h (by simp [moveTo])
    | some d =>
      obtain ⟨c'', hc'', -, hsec, hsub⟩ := bumpHour_eq hadd
      rw [hadd, Option.bind_some, hc''] at h
      obtain rfl := Step.move.inj h
      refine Or.inl ⟨hday hlast, hsub, fun p hp hlt => ?_⟩
      have hhour : c.sec / 3600 = p / 3600 := by omega
      obtain ⟨h1, h2⟩ := FieldSet.past_last hno hlast (secMinute_le hp hhour)
      exact (hday hlast).sameHour hhour (Or.inr h2) fun hm => absurd hm (by simp [h1])

theorem stepSecond_subsec {c c' : DateTime}
    (hmin : spec.minute.matchesValue (secMinute c.sec) = true)
    (hno : spec.second.matchesValue (secSecond c.sec) = false)
    (hday : (spec.second.hasLater (secSecond c.sec) = false) → Smooth spec c.sec)
    (h : stepSecond spec c = .move c') : KeepsIfSmooth spec c c' := by
  simp only [stepSecond] at h
  cases hn : nextInSet spec.second (secSecond c.sec) 0 59 with
  | some s =>
    obtain ⟨hlt, -⟩ := nextInSet_some hno hn
    rw [hn] at h
    simp only [if_pos hlt.le] at h
    refine Or.inr ⟨fun hs => ?_, drops_replaceTime _ _ _ _ c' h⟩
    have hlast := (hs.second hmin).resolve_left (by simp [hno])
    rw [(nextInSet_none_iff hno).mpr hlast] at hn
    exact absurd hn (by simp)
  | none =>
    have hlast := (nextInSet_none_iff hno).mp hn
    rw [hn] at h
    simp only at h
    cases hadd : c.checkedAdd (60 * 1000000000) with
    | none =>
      rw [hadd] at h
      exact absurd h (by simp [moveTo])
    | some d =>
      obtain ⟨c'', hc'', -, hsec, hsub⟩ := bumpMinute_eq hadd
      rw [hadd, Option.bind_some, hc''] at h
      obtain rfl := Step.move.inj h
      refine Or.inl ⟨hday hlast, hsub, fun p hp hlt => ?_⟩
      have hminute : secMinute p = secMinute c.sec := by
        unfold secMinute
        omega
      obtain ⟨h1, h2⟩ := FieldSet.past_last hno hlast (secSecond_le hp (by omega))
      exact (hday hlast).sameHour (by omega) (Or.inl (hminute ▸ hmin)) fun _ => Or.inr h2

/-- What one iteration does to the fraction. -/
theorem advance_subsec {c c' : DateTime} (h : advance spec c = .move c') :
    KeepsIfSmooth spec c c' := by
  have hdrop : ∀ st, Drops st → st = .move c' → ¬ Smooth spec c.sec → KeepsIfSmooth spec c c' :=
    fun st hd hst hs => Or.inr ⟨hs, hd c' hst⟩
  unfold advance at h
  simp only [Bool.not_eq_true'] at h
  split at h
  next hf => exact hdrop _ (drops_stepYear c) h fun hs => by simp [hs.year] at hf
  next hyear =>
    split at h
    next hf => exact hdrop _ (drops_stepMonth c) h fun hs => by simp [hs.month] at hf
    next hmonth =>
      split at h
      next hf => exact hdrop _ (drops_stepDay c) h fun hs => by simp [hs.day] at hf
      next hday =>
        split at h
        next hf => exact hdrop _ (drops_stepWeekday c) h fun hs => by simp [hs.weekday] at hf
        next hweekday =>
          split at h
          next hf => exact hdrop _ (drops_stepHour c) h fun hs => by simp [hs.hour] at hf
          next hhour =>
            simp only [Bool.not_eq_false] at hyear hmonth hday hweekday hhour
            split at h
            next hf =>
              exact stepMinute_subsec hf (fun hl => ⟨hyear, hmonth, hday, hweekday, hhour,
                Or.inr hl, fun hm => absurd hm (by simp [hf])⟩) h
            next hminute =>
              simp only [Bool.not_eq_false] at hminute
              split at h
              next hf =>
                exact stepSecond_subsec hminute hf (fun hl => ⟨hyear, hmonth, hday, hweekday,
                  hhour, Or.inl hminute, fun _ => Or.inr hl⟩) h
              next => exact absurd h (by simp)

/-! ## The search as a whole -/

/-- The fraction of `c` reaches `t` exactly if the seconds from `a` on up to `t`
are smooth. -/
def FractionFrom (spec : CalendarSpec) (a : Int) (c t : DateTime) : Prop :=
  ((∀ p, a ≤ p → p ≤ t.sec → Smooth spec p) ∧ t.subsec = c.subsec) ∨
    ((¬ ∀ p, a ≤ p → p ≤ t.sec → Smooth spec p) ∧ t.subsec = 0)

theorem FractionFrom.le {a : Int} {c t : DateTime} (h : FractionFrom spec a c t) :
    t.subsec ≤ c.subsec := by
  have := c.subsec_bounds
  rcases h with ⟨-, h⟩ | ⟨-, h⟩ <;> omega

/-- `t` is the first match from `c` on. -/
structure Found (spec : CalendarSpec) (c t : DateTime) : Prop where
  inRange : t.InRange
  le : c.sec ≤ t.sec
  isMatch : Matches spec t.sec
  least : ∀ p, c.sec ≤ p → p < t.sec → ¬ Matches spec p
  fraction : FractionFrom spec c.sec c t

/-- The search from `c` found the first match, or nothing before the limit that
it can reach. -/
def SearchResult (spec : CalendarSpec) (limit c : DateTime) :
    Except Panic (Option DateTime) → Prop
  | .error _ => False
  | .ok (some t) => Found spec c t
  | .ok none => ∀ p, c.sec ≤ p → Matches spec p → limit.sec ≤ p ∨ 9999 < (secDate p).year ∨
      (secDate c.sec).year < 0 ∧ 1970 ≤ (secDate p).year

/-- A move before a search result. -/
theorem SearchResult.move {limit c c' : DateTime} {r : Except Panic (Option DateTime)}
    (hskip : Skips spec c c') (hfrac : KeepsIfSmooth spec c c')
    (h : SearchResult spec limit c' r) : SearchResult spec limit c r := by
  have hfwd := hskip.forward
  have hlater : ∀ p, c.sec ≤ p → Matches spec p → c'.sec ≤ p := fun p hp hm => by
    by_contra hlt
    exact hskip.skipped p hp (by omega) hm
  match r with
  | .error _ => exact h
  | .ok (some t) =>
    refine ⟨h.inRange, by have := h.le; omega, h.isMatch,
      fun p hp hlt hm => h.least p (hlater p hp hm) hlt hm, ?_⟩
    have hle := h.le
    rcases hfrac with ⟨-, hsub, hpass⟩ | ⟨hnot, hsub⟩
    · rcases h.fraction with ⟨hall, heq⟩ | ⟨hno, heq⟩
      · refine Or.inl ⟨fun p hp hpt => ?_, heq.trans hsub⟩
        by_cases hlt : p < c'.sec
        · exact hpass p hp hlt
        · exact hall p (by omega) hpt
      · exact Or.inr ⟨fun hall => hno fun p hp hpt => hall p (by omega) hpt, heq⟩
    · refine Or.inr ⟨fun hall => hnot (hall _ (Int.le_refl _) (by omega)), ?_⟩
      rcases h.fraction with ⟨-, heq⟩ | ⟨-, heq⟩
      · exact heq.trans hsub
      · exact heq
  | .ok none =>
    intro p hp hm
    have hle := secDate_le hfwd.le
    simp only [CivilDate.Le] at hle
    rcases h p (hlater p hp hm) hm with h | h | ⟨h1, h2⟩
    · exact Or.inl h
    · exact Or.inr (Or.inl h)
    · exact Or.inr (Or.inr ⟨by omega, h2⟩)

/-- **The search finds the first match**, given fuel for the seconds to its limit. -/
theorem search_spec {baseline limit : DateTime} : ∀ (fuel : Nat) (c : DateTime), c.InRange →
    baseline.nanos < c.nanos → limit.sec - c.sec < fuel →
    SearchResult spec limit c (search spec baseline limit fuel c)
  | 0, c, _, _, hf => fun p hp _ => Or.inl (by
      simp only [Nat.cast_zero] at hf
      omega)
  | fuel + 1, c, hr, hb, hf => by
    have hstep : StepSpec spec c (advance spec c) := advance_spec hr
    unfold search
    split
    next hlt =>
      cases ha : advance spec c with
      | found =>
        rw [ha] at hstep
        exact ⟨hr, Int.le_refl _, hstep, fun p hp hlt => by omega,
          Or.inl ⟨fun p hp hle => (show p = c.sec by omega) ▸ hstep.smooth, rfl⟩⟩
      | stop =>
        rw [ha] at hstep
        exact fun p hp hm => Or.inr (hstep p hp hm)
      | move c' =>
        rw [ha] at hstep
        have hfwd := hstep.forward
        have hc := c.nanos_eq
        have hc' := c'.nanos_eq
        have hs := c.subsec_bounds
        have hs' := c'.subsec_bounds
        refine (search_spec fuel c' hstep.inRange (by omega) ?_).move hstep (advance_subsec ha)
        push_cast at hf
        omega
    next hge =>
      intro p hp _
      have hc := c.nanos_eq
      have hl := limit.nanos_eq
      have hs := c.subsec_bounds
      have hs' := limit.subsec_bounds
      exact Or.inl (by omega)

/-- The later of `now` and `last`. -/
def baselineOf (now : DateTime) : Option DateTime → DateTime
  | some l => if now.nanos < l.nanos then l else now
  | none => now

/-- The additions `nextFire` makes to its baseline stay in range. -/
def SearchSafe (b : DateTime) : Prop :=
  DateTime.InRange ⟨b.nanos + 1 * 1000000000⟩ ∧
    DateTime.InRange ⟨b.nanos + 3660 * 86400 * 1000000000⟩

/-- A search that finds nothing has left no match within its ten years. -/
theorem SearchSafe.reachable {u : DateTime} (h : SearchSafe u)
    (hres : SearchResult spec ⟨u.nanos + 3660 * 86400 * 1000000000⟩ ⟨u.nanos + 1 * 1000000000⟩
      (.ok none)) {p : Int} (hlo : u.sec < p) (hhi : p < u.sec + 3660 * 86400)
    (hm : Matches spec p) : False := by
  have hres := hres p
  rw [(DateTime.sec_add u _).1, (DateTime.sec_add u _).1] at hres
  rcases hres (by omega) hm with h' | h' | ⟨h', h''⟩
  · omega
  · obtain ⟨-, ⟨-, h2⟩⟩ := h
    rw [(DateTime.sec_add u _).1] at h2
    have hend : p < DateTime.endSec := by omega
    have : (secDate p).year < 10000 := lt_yearStart_iff.mp hend
    omega
  · -- the years below 0 end more than ten years before 1970
    have h0 : u.sec + 1 < dayNum ⟨0, 1, 1⟩ * 86400 := lt_yearStart_iff.mpr h'
    have h1970 : ¬ p < dayNum ⟨1970, 1, 1⟩ * 86400 := fun hlt => by
      have := lt_yearStart_iff.mp hlt
      omega
    have e0 : dayNum ⟨0, 1, 1⟩ = -719528 := by decide
    have e1 : dayNum ⟨1970, 1, 1⟩ = 0 := by decide
    rw [e0] at h0
    rw [e1] at h1970
    omega

/-- The search runs from the second after the baseline to ten years after it. -/
theorem nextFire_eq (now : DateTime) (spec : CalendarSpec) (last : Option DateTime) :
    nextFire now spec last =
      ((baselineOf now last).add (1 * 1000000000)).bind fun candidate =>
        ((baselineOf now last).add (3660 * 86400 * 1000000000)).bind fun limit =>
          search spec (baselineOf now last) limit searchFuel candidate := by
  cases last <;> rfl

/-- **`next_fire` finds the first match after its baseline**, or panics in an
addition. -/
theorem nextFire_spec (now : DateTime) (spec : CalendarSpec) (last : Option DateTime) :
    (¬ SearchSafe (baselineOf now last) ∧ nextFire now spec last = .error {}) ∨
    (SearchSafe (baselineOf now last) ∧
      SearchResult spec ⟨(baselineOf now last).nanos + 3660 * 86400 * 1000000000⟩
        ⟨(baselineOf now last).nanos + 1 * 1000000000⟩ (nextFire now spec last)) := by
  obtain ⟨b, hb⟩ : ∃ b, b = baselineOf now last := ⟨_, rfl⟩
  rw [nextFire_eq, ← hb]
  by_cases h1 : DateTime.InRange ⟨b.nanos + 1 * 1000000000⟩
  · by_cases h2 : DateTime.InRange ⟨b.nanos + 3660 * 86400 * 1000000000⟩
    · rw [DateTime.add_of_inRange h1, DateTime.add_of_inRange h2]
      refine Or.inr ⟨⟨h1, h2⟩, search_spec _ _ h1 (by simp only; omega) ?_⟩
      rw [(DateTime.sec_add b 1).1, (DateTime.sec_add b (3660 * 86400)).1]
      unfold searchFuel
      omega
    · rw [DateTime.add_of_inRange h1, DateTime.add_error h2]
      exact Or.inl ⟨fun h => h2 h.2, rfl⟩
  · rw [DateTime.add_error h1]
    exact Or.inl ⟨fun h => h1 h.1, rfl⟩

end Systeml.Unit
