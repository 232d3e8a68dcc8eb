import Systeml.Unit.PrevFire

/-!
# When the calendar searches are exact

`nextFire` finds the least match of the ten years after its baseline exactly when
the end of these years is representable; else it panics (`nextFire_exact_iff`).

`prevFire` finds the greatest match of its window exactly when the window holds
no more than 200000 of them and every instant it searches on from leaves room for
the ten years (`prevFire_exact_iff`).
-/

namespace Systeml.Unit

open Systeml.Lib

variable {spec : CalendarSpec}

/-! ## Forwards -/

/-- What the search finds is before its limit. -/
theorem search_lt_limit {baseline limit t : DateTime} : ∀ (fuel : Nat) (c : DateTime),
    search spec baseline limit fuel c = .ok (some t) → t.nanos < limit.nanos
  | 0, _, h => by simp [search] at h
  | fuel + 1, c, h => by
    unfold search at h
    split at h
    next hlt =>
      split at h
      next =>
        split at h
        next =>
          obtain rfl := Option.some.inj (Except.ok.inj h)
          exact hlt
        next =>
          cases ha : c.add 1000000000 with
          | error e =>
            rw [ha] at h
            exact absurd h (by simp [bind, Except.bind])
          | ok c' =>
            rw [ha] at h
            exact search_lt_limit fuel c' h
      next => exact absurd h (by simp)
      next c' _ => exact search_lt_limit fuel c' h
    next => exact absurd h (by simp)

theorem nextFire_lt_limit {now t : DateTime} {last : Option DateTime}
    (h : nextFire now spec last = .ok (some t)) :
    t.nanos < (baselineOf now last).nanos + 3660 * 86400 * 1000000000 := by
  rw [nextFire_eq] at h
  cases hc : (baselineOf now last).add (1 * 1000000000) with
  | error e =>
    rw [hc] at h
    exact absurd h (by simp [Except.bind])
  | ok candidate =>
    cases hl : (baselineOf now last).add (3660 * 86400 * 1000000000) with
    | error e =>
      rw [hc, hl] at h
      exact absurd h (by simp [Except.bind])
    | ok limit =>
      rw [hc, hl] at h
      have hlim := (DateTime.checkedAdd_some (DateTime.add_ok.mp hl)).1
      have hlt := search_lt_limit searchFuel candidate h
      omega

/-! ## What arrives next -/

/-- `t` is the first match after the second of `b`, with the fraction of `b` where the search
keeps it, and less than ten years after `b`. -/
structure Arrives (spec : CalendarSpec) (b t : DateTime) : Prop where
  later : b.sec < t.sec
  isMatch : Matches spec t.sec
  least : ∀ p, b.sec < p → p < t.sec → ¬ Matches spec p
  fraction : FractionFrom spec (b.sec + 1) b t
  soon : t.nanos < b.nanos + 3660 * 86400 * 1000000000

/-- The fraction says which instant of its second it is. -/
theorem FractionFrom.unique {a : Int} {c t t' : DateTime} (h : FractionFrom spec a c t)
    (h' : FractionFrom spec a c t') (hs : t.sec = t'.sec) : t = t' := by
  have hsub : t.subsec = t'.subsec := by
    obtain ⟨hall, he⟩ | ⟨hno, he⟩ := h
    · obtain ⟨-, he'⟩ | ⟨hno, -⟩ := h'
      · rw [he, he']
      · exact absurd (hs ▸ hall) hno
    · obtain ⟨hall, -⟩ | ⟨-, he'⟩ := h'
      · exact absurd (hs ▸ hall) hno
      · rw [he, he']
  have hn := t.nanos_eq
  have hn' := t'.nanos_eq
  exact congrArg DateTime.mk (show t.nanos = t'.nanos by omega)

/-- The first match from `c` on is the first from where a move leads. -/
theorem Found.move {c c' t : DateTime} (h : Found spec c t) (hskip : Skips spec c c')
    (hfrac : KeepsIfSmooth spec c c') : Found spec c' t := by
  have hle : c'.sec ≤ t.sec := by
    by_contra hlt
    exact hskip.skipped t.sec h.le (by omega) h.isMatch
  have hfwd := hskip.forward
  refine ⟨h.inRange, hle, h.isMatch, fun p hp => h.least p (by omega), ?_⟩
  obtain ⟨hs, hsub, hpass⟩ | ⟨hnot, hsub⟩ := hfrac
  · -- the seconds before `c'` are smooth
    have hiff : (∀ p, c.sec ≤ p → p ≤ t.sec → Smooth spec p) ↔
        ∀ p, c'.sec ≤ p → p ≤ t.sec → Smooth spec p := by
      constructor
      · exact fun hall p hp => hall p (by omega)
      · intro hall p hp hpt
        by_cases hlt : p < c'.sec
        · exact hpass p hp hlt
        · exact hall p (by omega) hpt
    have hfraction := h.fraction
    unfold FractionFrom at hfraction ⊢
    rw [hiff, ← hsub] at hfraction
    exact hfraction
  · obtain ⟨hall, -⟩ | ⟨-, hzero⟩ := h.fraction
    · exact absurd (hall c.sec (Int.le_refl _) h.le) hnot
    · by_cases hall : ∀ p, c'.sec ≤ p → p ≤ t.sec → Smooth spec p
      · exact Or.inl ⟨hall, hzero.trans hsub.symm⟩
      · exact Or.inr ⟨hall, hzero⟩

/-- **The search returns the first match**, if it lies before the limit. -/
theorem search_finds {baseline limit t : DateTime} (hlimit : t.nanos < limit.nanos) :
    ∀ (fuel : Nat) (c : DateTime), c.InRange → baseline.nanos < c.nanos →
      limit.sec - c.sec < fuel → ¬ ((secDate c.sec).year < 0 ∧ 1970 ≤ (secDate t.sec).year) →
      Found spec c t → search spec baseline limit fuel c = .ok (some t)
  | 0, c, _, _, hf, _, h => by
    have hle := h.le
    have ht := t.nanos_eq
    have hl := limit.nanos_eq
    have := t.subsec_bounds
    have := limit.subsec_bounds
    simp only [Nat.cast_zero] at hf
    omega
  | fuel + 1, c, hr, hb, hf, hyears, h => by
    have hstep : StepSpec spec c (advance spec c) := advance_spec hr
    have hle := h.le
    have ht := t.nanos_eq
    have hc := c.nanos_eq
    have htsub := t.subsec_bounds
    have hcsub := c.subsec_bounds
    -- at the second of `t` the search is at `t`
    have hat : c.sec = t.sec → c = t := by
      intro he
      refine (h.fraction.unique (Or.inl ⟨fun p hp hpt => ?_, rfl⟩) he.symm).symm
      obtain rfl : p = t.sec := by omega
      exact h.isMatch.smooth
    have hlt : c.nanos < limit.nanos := by
      by_cases he : c.sec = t.sec
      · rw [hat he]
        exact hlimit
      · omega
    unfold search
    rw [if_pos hlt]
    cases ha : advance spec c with
    | found =>
      rw [ha] at hstep
      have he : c.sec = t.sec := by
        by_contra hne
        exact h.least c.sec (Int.le_refl _) (by omega) hstep
      rw [← hat he]
      exact if_pos hb
    | stop =>
      rw [ha] at hstep
      have hyear := DateTime.inRange_iff.mp h.inRange
      obtain hlate | hearly := hstep t.sec hle h.isMatch
      · omega
      · exact absurd hearly hyears
    | move c' =>
      rw [ha] at hstep
      have hfwd := hstep.forward
      have hc' := c'.nanos_eq
      have hcsub' := c'.subsec_bounds
      have hmono := secDate_le hfwd.le
      simp only [CivilDate.Le] at hmono
      push_cast at hf
      exact search_finds hlimit fuel c' hstep.inRange (by omega) (by omega)
        (fun hy => hyears ⟨by omega, hy.2⟩) (h.move hstep (advance_subsec ha))

/-- **What `next_fire` returns is what arrives next.** -/
theorem nextFire_iff {now t : DateTime} {last : Option DateTime}
    (hsafe : SearchSafe (baselineOf now last)) :
    nextFire now spec last = .ok (some t) ↔ Arrives spec (baselineOf now last) t := by
  obtain ⟨b, hb⟩ : ∃ b, b = baselineOf now last := ⟨_, rfl⟩
  rw [← hb] at hsafe ⊢
  obtain ⟨hstart, hstartsub⟩ := DateTime.sec_add b 1
  obtain ⟨hend, hendsub⟩ := DateTime.sec_add b (3660 * 86400)
  constructor
  · intro h
    obtain ⟨hbad, -⟩ | ⟨-, hres⟩ := nextFire_spec now spec last
    · exact absurd hsafe (hb ▸ hbad)
    rw [h, ← hb] at hres
    have hfound : Found spec _ t := hres
    obtain ⟨-, hle, hm, hleast, hfrac⟩ := hfound
    unfold FractionFrom at hfrac
    rw [hstart] at hle hleast hfrac
    rw [hstartsub] at hfrac
    exact ⟨by omega, hm, fun p hp => hleast p (by omega), hfrac, hb ▸ nextFire_lt_limit h⟩
  · intro h
    obtain ⟨hsafe₁, hsafe₂⟩ := hsafe
    have hlater := h.later
    have hsoon := h.soon
    have ht := t.nanos_eq
    have hbn := b.nanos_eq
    have htsub := t.subsec_bounds
    have hbsub := b.subsec_bounds
    have hin₁ := hsafe₁.1
    have hin₂ := hsafe₂.2
    rw [hstart] at hin₁
    rw [hend] at hin₂
    have hfound : Found spec ⟨b.nanos + 1 * 1000000000⟩ t := by
      refine ⟨⟨by omega, by omega⟩, by omega, h.isMatch, ?_, ?_⟩
      · rw [hstart]
        exact fun p hp => h.least p (by omega)
      · unfold FractionFrom
        rw [hstart, hstartsub]
        exact h.fraction
    rw [nextFire_eq, ← hb, DateTime.add_of_inRange hsafe₁, DateTime.add_of_inRange hsafe₂]
    refine search_finds hsoon _ _ hsafe₁ (by simp only; omega) ?_ ?_ hfound
    · rw [hstart, hend]
      unfold searchFuel
      omega
    · -- the years below 0 end more than ten years before 1970
      rintro ⟨h0, h1970⟩
      rw [hstart] at h0
      have hlo : b.sec + 1 < dayNum ⟨0, 1, 1⟩ * 86400 := lt_yearStart_iff.mpr h0
      have hhi : ¬ t.sec < dayNum ⟨1970, 1, 1⟩ * 86400 := fun hlt => by
        have := lt_yearStart_iff.mp hlt
        omega
      have e0 : dayNum ⟨0, 1, 1⟩ = -719528 := by decide
      have e1 : dayNum ⟨1970, 1, 1⟩ = 0 := by decide
      rw [e0] at hlo
      rw [e1] at hhi
      omega

/-! ## The least match -/

/-- The matches of the ten years after a second. -/
def ahead (spec : CalendarSpec) (b : Int) : Set Int :=
  {p | b < p ∧ p < b + 3660 * 86400 ∧ Matches spec p}

/-- The result is the least match of the ten years, a whole second, or nothing if
there is none. -/
def NextExact (spec : CalendarSpec) (b : Int) (r : Except Panic (Option DateTime)) : Prop :=
  (∃ t, r = .ok (some t) ∧ t.subsec = 0 ∧ IsLeast (ahead spec b) t.sec) ∨
    (r = .ok none ∧ ahead spec b = ∅)

theorem baselineOf_ge (now : DateTime) (last : Option DateTime) :
    now.sec ≤ (baselineOf now last).sec := by
  have hle : now.nanos ≤ (baselineOf now last).nanos := by
    unfold baselineOf
    split
    · split
      · omega
      · exact Int.le_refl _
    · exact Int.le_refl _
  unfold DateTime.sec
  omega

theorem baselineOf_whole {now : DateTime} {last : Option DateTime} (hw : now.subsec = 0)
    (hwl : ∀ l, last = some l → l.subsec = 0) : (baselineOf now last).subsec = 0 := by
  unfold baselineOf
  split
  next l =>
    split
    · exact hwl l rfl
    · exact hw
  next => exact hw

/-- Between a representable instant and one later everything is representable. -/
theorem searchSafe_iff {b : DateTime} (hlo : DateTime.minSec ≤ b.sec) :
    SearchSafe b ↔ b.sec + 3660 * 86400 < DateTime.endSec := by
  unfold SearchSafe DateTime.InRange
  rw [(DateTime.sec_add b 1).1, (DateTime.sec_add b (3660 * 86400)).1]
  omega

/-- A search that does not panic is exact. -/
theorem SearchSafe.exact {now : DateTime} (last : Option DateTime)
    (hs : SearchSafe (baselineOf now last)) (hw : (baselineOf now last).subsec = 0) :
    NextExact spec (baselineOf now last).sec (nextFire now spec last) := by
  obtain ⟨hbad, -⟩ | ⟨-, hres⟩ := nextFire_spec now spec last
  · exact absurd hs hbad
  cases hf : nextFire now spec last with
  | error e =>
    rw [hf] at hres
    exact hres.elim
  | ok o =>
    rw [hf] at hres
    cases o with
    | none =>
      refine Or.inr ⟨rfl, Set.eq_empty_of_forall_notMem fun p hp => ?_⟩
      exact hs.reachable hres hp.1 hp.2.1 hp.2.2
    | some t =>
      have hfound : Found spec _ t := hres
      obtain ⟨-, hle, hm, hleast, hfrac⟩ := hfound
      have hsub := hfrac.le
      rw [(DateTime.sec_add (baselineOf now last) 1).1] at hle hleast
      rw [(DateTime.sec_add (baselineOf now last) 1).2, hw] at hsub
      have hbounds := t.subsec_bounds
      have hlt := nextFire_lt_limit hf
      have hn := t.nanos_eq
      have hb := (baselineOf now last).nanos_eq
      refine Or.inl ⟨t, rfl, by omega, ⟨by omega, by omega, hm⟩, ?_⟩
      -- what comes earlier was skipped
      intro p hp
      by_contra hpt
      exact hleast p (by have := hp.1; omega) (by omega) hp.2.2

/-- A search that ends well has ten years ahead of it. -/
theorem NextExact.inRange {now : DateTime} {last : Option DateTime}
    (h : NextExact spec (baselineOf now last).sec (nextFire now spec last)) :
    DateTime.InRange ⟨(baselineOf now last).nanos + 3660 * 86400 * 1000000000⟩ := by
  obtain ⟨-, herr⟩ | ⟨hs, -⟩ := nextFire_spec now spec last
  · rw [herr] at h
    obtain ⟨t, ht, -⟩ | ⟨ht, -⟩ := h
    · exact absurd ht (by simp)
    · exact absurd ht (by simp)
  · exact hs.2

/-- **`next_fire` finds the earliest match exactly when its ten years end in the
range of years**, and so for every baseline up to the year 9900. -/
theorem nextFire_exact_iff (spec : CalendarSpec) (now : DateTime) (last : Option DateTime)
    (hnow : now.InRange) (hw : now.subsec = 0) (hwl : ∀ l, last = some l → l.subsec = 0) :
    (NextExact spec (baselineOf now last).sec (nextFire now spec last) ↔
      DateTime.InRange ⟨(baselineOf now last).nanos + 3660 * 86400 * 1000000000⟩) ∧
    ((secDate (baselineOf now last).sec).year ≤ 9900 →
      NextExact spec (baselineOf now last).sec (nextFire now spec last)) := by
  have hlo : DateTime.minSec ≤ (baselineOf now last).sec := hnow.1.trans (baselineOf_ge now last)
  have hbw := baselineOf_whole hw hwl
  have hsafe := searchSafe_iff hlo
  refine ⟨⟨NextExact.inRange, ?_⟩, ?_⟩
  · intro h
    refine SearchSafe.exact last (hsafe.mpr ?_) hbw
    have hend := h.2
    rw [(DateTime.sec_add (baselineOf now last) (3660 * 86400)).1] at hend
    exact hend
  · intro hy
    refine SearchSafe.exact last (hsafe.mpr ?_) hbw
    have hlt : (baselineOf now last).sec < dayNum ⟨9901, 1, 1⟩ * 86400 :=
      lt_yearStart_iff.mpr (by omega)
    have h9901 : dayNum ⟨9901, 1, 1⟩ = 2896738 := by decide
    have h10000 : DateTime.endSec = 2932897 * 86400 := by decide
    rw [h9901] at hlt
    rw [h10000]
    omega

/-- `*-*-* *:*:*`. -/
def everySecondSpec : CalendarSpec := ⟨.any, .any, .any, .any, .any, .any, .any⟩

theorem matches_everySecondSpec (p : Int) : Matches everySecondSpec p :=
  ⟨rfl, rfl, rfl, rfl, rfl, rfl, rfl⟩

theorem nextFire_exact_iff_everySecond :
    (NextExact everySecondSpec 1800000000
        (nextFire (.ofSec 1800000000) everySecondSpec (some (.ofSec 1700000000))) ↔
      DateTime.InRange ⟨1800000000 * 1000000000 + 3660 * 86400 * 1000000000⟩) ∧
    ((secDate 1800000000).year ≤ 9900 → NextExact everySecondSpec 1800000000
        (nextFire (.ofSec 1800000000) everySecondSpec (some (.ofSec 1700000000)))) :=
  nextFire_exact_iff everySecondSpec (.ofSec 1800000000) (some (.ofSec 1700000000)) (by decide)
    (DateTime.subsec_ofSec _) fun _ hl => (Option.some.inj hl) ▸ DateTime.subsec_ofSec _

/-- With a last fire on the last day of the range the search panics. -/
theorem not_all_nextExact : ¬ ∀ (spec : CalendarSpec) (now : DateTime) (last : Option DateTime),
    1970 ≤ (secDate now.sec).year → (secDate now.sec).year ≤ 9900 → now.subsec = 0 →
    (∀ l, last = some l → l.InRange ∧ l.subsec = 0) →
    NextExact spec (baselineOf now last).sec (nextFire now spec last) := by
  intro h
  have hlast : ∀ l, some (DateTime.ofSec (2932896 * 86400)) = some l →
      l.InRange ∧ l.subsec = 0 := by
    intro l hl
    obtain rfl := Option.some.inj hl
    exact ⟨by decide, DateTime.subsec_ofSec _⟩
  have hexact := h everySecondSpec (.ofSec 1800000000) (some (.ofSec (2932896 * 86400)))
    (by decide) (by decide) (DateTime.subsec_ofSec _) hlast
  exact absurd hexact.inRange (by decide)

/-! ## Backwards -/

/-- A second from which ten years are representable. -/
def Roomy (p : Int) : Prop := p + 3660 * 86400 < DateTime.endSec

/-- The cursors that `n` iterations from `u` search on from leave room: `u` itself
and every match that is not the `n`-th or a later one. -/
def CursorsRoomy (spec : CalendarSpec) (before : DateTime) (n : Nat) (u : Int) : Prop :=
  (0 < n → Roomy u) ∧ ∀ p, u < p → p ≤ before.sec → Matches spec p →
    countMatches spec u p < n → Roomy p

/-- Past the first match the cursors are those of the rest of the loop. -/
theorem cursorsRoomy_step (before : DateTime) (n : Nat) {u t : Int} (hut : u < t)
    (htb : t ≤ before.sec) (hm : Matches spec t)
    (hfirst : ∀ p, u < p → p < t → ¬ Matches spec p) :
    CursorsRoomy spec before (n + 1) u ↔ Roomy u ∧ CursorsRoomy spec before n t := by
  have hcount : ∀ p, t ≤ p → countMatches spec u p = countMatches spec t p + 1 :=
    fun p hp => countMatches_first hut hp hm hfirst
  constructor
  · rintro ⟨hu, hall⟩
    refine ⟨hu (Nat.succ_pos n), fun hn => ?_, fun p htp hpb hp hc => ?_⟩
    · refine hall t hut htb hm ?_
      rw [hcount t (Int.le_refl t), countMatches_self]
      omega
    · refine hall p (by omega) hpb hp ?_
      rw [hcount p htp.le]
      omega
  · rintro ⟨hu, ht, hall⟩
    refine ⟨fun _ => hu, fun p hup hpb hp hc => ?_⟩
    rcases lt_trichotomy p t with hlt | rfl | hlt
    · exact absurd hp (hfirst p hup hlt)
    · rw [hcount p (Int.le_refl p), countMatches_self] at hc
      exact ht (by omega)
    · rw [hcount p hlt.le] at hc
      exact hall p hlt hpb hp (by omega)

/-- One iteration of the loop of `prev_fire`: it panics without room, and else goes
on from the first match, or ends if there is none. -/
theorem prevLoop_succ (spec : CalendarSpec) (last : Option DateTime) (n : Nat) {before u : DateTime}
    (hlo : DateTime.minSec ≤ u.sec) (hw : u.subsec = 0) (hbw : before.subsec = 0)
    (hroom : before.sec < u.sec + 3660 * 86400) :
    (¬ Roomy u.sec ∧ prevLoop spec before (n + 1) u last = .error {}) ∨
    (Roomy u.sec ∧ ∃ t : DateTime, t.subsec = 0 ∧ u.sec < t.sec ∧ t.sec ≤ before.sec ∧
      Matches spec t.sec ∧ (∀ p, u.sec < p → p < t.sec → ¬ Matches spec p) ∧
      prevLoop spec before (n + 1) u last = prevLoop spec before n t (some t)) ∨
    (Roomy u.sec ∧ (∀ p, u.sec < p → p ≤ before.sec → ¬ Matches spec p) ∧
      prevLoop spec before (n + 1) u last = .ok last) := by
  have hsafe : SearchSafe u ↔ Roomy u.sec := searchSafe_iff hlo
  by_cases hr : Roomy u.sec
  · have hex : NextExact spec u.sec (nextFire u spec none) :=
      SearchSafe.exact none (hsafe.mpr hr) hw
    rcases hex with ⟨t, ht, htw, hleast⟩ | ⟨hnone, hempty⟩
    · have hn := t.nanos_eq
      have hb := before.nanos_eq
      have hfirst : ∀ p, u.sec < p → p < t.sec → ¬ Matches spec p := by
        intro p hup hpt hp
        have hpw : p < u.sec + 3660 * 86400 := hpt.trans hleast.1.2.1
        have := hleast.2 ⟨hup, hpw, hp⟩
        omega
      rw [prevLoop_some ht]
      by_cases hle : t.sec ≤ before.sec
      · refine Or.inr (Or.inl ⟨hr, t, htw, hleast.1.1, hle, hleast.1.2.2, hfirst, ?_⟩)
        exact if_pos (by omega)
      · refine Or.inr (Or.inr ⟨hr, fun p hup hpb => hfirst p hup (by omega), ?_⟩)
        exact if_neg (by omega)
    · refine Or.inr (Or.inr ⟨hr, fun p hup hpb hp => ?_, by rw [prevLoop_none hnone]⟩)
      have hmem : p ∈ ahead spec u.sec := ⟨hup, by omega, hp⟩
      rw [hempty] at hmem
      exact hmem
  · obtain ⟨-, herr⟩ | ⟨hs, -⟩ := nextFire_spec u spec none
    · exact Or.inl ⟨hr, by rw [prevLoop_error herr]⟩
    · exact absurd (hsafe.mp hs) hr

/-- How the loop ends from cursor `u`: with what it had, if it has no iteration or
no match left, or with the match it reached. -/
def LoopEnds (spec : CalendarSpec) (before : DateTime) (u : Int) (n : Nat)
    (last : Option DateTime) (r : Except Panic (Option DateTime)) : Prop :=
  (r = .ok last ∧ (n = 0 ∨ ∀ p, u < p → p ≤ before.sec → ¬ Matches spec p)) ∨
    ∃ t, r = .ok (some t) ∧ t.subsec = 0 ∧ Reached spec u before.sec n t.sec

/-- The loop panics exactly when a cursor it searches on from leaves no room. -/
theorem prevLoop_ends (spec : CalendarSpec) {before : DateTime} (hbw : before.subsec = 0) :
    ∀ (n : Nat) (u : DateTime) (last : Option DateTime), DateTime.minSec ≤ u.sec →
      u.subsec = 0 → before.sec < u.sec + 3660 * 86400 →
      (¬ CursorsRoomy spec before n u.sec ∧ prevLoop spec before n u last = .error {}) ∨
      (CursorsRoomy spec before n u.sec ∧
        LoopEnds spec before u.sec n last (prevLoop spec before n u last)) := by
  intro n
  induction n with
  | zero =>
    intro u last _ _ _
    refine Or.inr ⟨⟨fun h => absurd h (by simp), fun p _ _ _ hc => absurd hc (by simp)⟩, ?_⟩
    exact Or.inl ⟨rfl, Or.inl rfl⟩
  | succ n ih =>
    intro u last hlo hw hroom
    rcases prevLoop_succ spec last n hlo hw hbw hroom with
      ⟨hr, herr⟩ | ⟨hr, t, htw, hut, htb, hm, hfirst, hgo⟩ | ⟨hr, hno, hend⟩
    · exact Or.inl ⟨fun h => hr (h.1 (Nat.succ_pos n)), herr⟩
    · have hstep := cursorsRoomy_step before n hut htb hm hfirst
      rw [hgo, hstep]
      rcases ih t (some t) (by omega) htw (by omega) with ⟨hnot, herr⟩ | ⟨hrooms, hends⟩
      · exact Or.inl ⟨fun h => hnot h.2, herr⟩
      · refine Or.inr ⟨⟨hr, hrooms⟩, Or.inr ?_⟩
        rcases hends with ⟨hlast, hstop⟩ | ⟨t', ht', htw', hreach⟩
        · exact ⟨t, hlast, htw, Reached.last hut htb hm hfirst hstop⟩
        · exact ⟨t', ht', htw', hreach.step hut hm hfirst⟩
    · refine Or.inr ⟨⟨fun _ => hr, fun p hup hpb hp => absurd hp (hno p hup hpb)⟩, ?_⟩
      exact Or.inl ⟨hend, Or.inr hno⟩

/-- The matches of the window of `prev_fire`. -/
def behind (spec : CalendarSpec) (before : DateTime) : Set Int :=
  {p | windowStart before < p ∧ p ≤ before.sec ∧ Matches spec p}

/-- The result is the greatest match of the window, a whole second, or nothing if
there is none. -/
def PrevExact (spec : CalendarSpec) (before : DateTime)
    (r : Except Panic (Option DateTime)) : Prop :=
  (∃ t, r = .ok (some t) ∧ t.subsec = 0 ∧ IsGreatest (behind spec before) t.sec) ∨
    (r = .ok none ∧ behind spec before = ∅)

/-- The window is representable and holds at most 200000 matches, and the searches
from its start and from these matches end within the range of years. -/
structure Sparse (spec : CalendarSpec) (before : DateTime) : Prop where
  start : DateTime.minSec ≤ windowStart before
  few : countMatches spec (windowStart before) before.sec ≤ prevCap
  roomy : CursorsRoomy spec before prevCap (windowStart before)

/-- Past the greatest match of the window nothing is counted. -/
theorem countMatches_greatest {before : DateTime} {q : Int}
    (h : IsGreatest (behind spec before) q) :
    countMatches spec (windowStart before) before.sec =
      countMatches spec (windowStart before) q := by
  unfold countMatches
  congr 1
  ext p
  simp only [Finset.mem_filter, Finset.mem_Ioc]
  constructor
  · rintro ⟨⟨hp, hpb⟩, hm⟩
    exact ⟨⟨hp, h.2 ⟨hp, hpb, hm⟩⟩, hm⟩
  · rintro ⟨⟨hp, hpq⟩, hm⟩
    exact ⟨⟨hp, hpq.trans h.1.2.1⟩, hm⟩

theorem countMatches_none {before : DateTime} (h : behind spec before = ∅) :
    countMatches spec (windowStart before) before.sec = 0 := by
  unfold countMatches
  rw [Finset.card_eq_zero, Finset.filter_eq_empty_iff]
  intro p hp hm
  obtain ⟨hlo, hhi⟩ := Finset.mem_Ioc.mp hp
  have hmem : p ∈ behind spec before := ⟨hlo, hhi, hm⟩
  rw [h] at hmem
  exact hmem

/-- What the loop ends with is exact exactly when the cap cuts nothing off. -/
theorem LoopEnds.exact_iff {before : DateTime} {r : Except Panic (Option DateTime)}
    (h : LoopEnds spec before (windowStart before) prevCap none r) :
    PrevExact spec before r ↔
      countMatches spec (windowStart before) before.sec ≤ prevCap := by
  rcases h with ⟨rfl, hstop⟩ | ⟨t, rfl, htw, hreach⟩
  · have hempty : behind spec before = ∅ := by
      refine Set.eq_empty_of_forall_notMem fun p hp => ?_
      exact (hstop.resolve_left (by decide)) p hp.1 hp.2.1 hp.2.2
    rw [countMatches_none hempty]
    exact ⟨fun _ => Nat.zero_le _, fun _ => Or.inr ⟨rfl, hempty⟩⟩
  · constructor
    · rintro (⟨t', ht', -, hgreat⟩ | ⟨hnone, -⟩)
      · obtain rfl := Option.some.inj (Except.ok.inj ht')
        rw [countMatches_greatest hgreat]
        exact hreach.count
      · exact absurd hnone (by simp)
    · intro hfew
      refine Or.inl ⟨t, rfl, htw, ⟨hreach.after, hreach.le, hreach.isMatch⟩, ?_⟩
      rintro p ⟨hp, hpb, hm⟩
      refine hreach.ge hm hp hpb (le_trans ?_ hfew)
      exact Finset.card_le_card (Finset.filter_subset_filter _
        (Finset.Ioc_subset_Ioc_right hpb))

theorem PrevExact.ne_error {before : DateTime} {r : Except Panic (Option DateTime)}
    (h : PrevExact spec before r) : r ≠ .error {} := by
  rcases h with ⟨t, rfl, -⟩ | ⟨rfl, -⟩ <;> simp

/-- The window of `prev_fire` starts 366 days before. -/
theorem sec_windowStart (before : DateTime) :
    (DateTime.mk (before.nanos + -(366 * 86400) * 1000000000)).sec = windowStart before :=
  (DateTime.sec_add before (-(366 * 86400))).1

/-- From a window that is representable. -/
theorem prevFire_exact_of_start (spec : CalendarSpec) {before : DateTime} (hr : before.InRange)
    (hw : before.subsec = 0) (hlo : DateTime.minSec ≤ windowStart before) :
    PrevExact spec before (prevFire before spec) ↔
      countMatches spec (windowStart before) before.sec ≤ prevCap ∧
        CursorsRoomy spec before prevCap (windowStart before) := by
  obtain ⟨hsec, hsub⟩ := DateTime.sec_add before (-(366 * 86400))
  have hstart := sec_windowStart before
  have hin : DateTime.InRange ⟨before.nanos + -(366 * 86400) * 1000000000⟩ := by
    refine ⟨by rw [hstart]; exact hlo, ?_⟩
    rw [hsec]
    have := hr.2
    omega
  have hends := prevLoop_ends spec hw prevCap
    ⟨before.nanos + -(366 * 86400) * 1000000000⟩ none (by rw [hstart]; exact hlo)
    (hsub.trans hw) (by rw [hsec]; omega)
  rw [hstart] at hends
  rw [prevFire_eq hin]
  rcases hends with ⟨hnot, herr⟩ | ⟨hrooms, hend⟩
  · rw [herr]
    exact ⟨fun h => absurd rfl h.ne_error, fun h => absurd h.2 hnot⟩
  · rw [hend.exact_iff]
    exact ⟨fun hfew => ⟨hfew, hrooms⟩, And.left⟩

/-- **`prev_fire` finds the latest match exactly when its window is sparse.** -/
theorem prevFire_exact_iff (spec : CalendarSpec) (before : DateTime)
    (hr : before.InRange) (hw : before.subsec = 0) :
    PrevExact spec before (prevFire before spec) ↔ Sparse spec before := by
  by_cases hlo : DateTime.minSec ≤ windowStart before
  · rw [prevFire_exact_of_start spec hr hw hlo]
    exact ⟨fun h => ⟨hlo, h.1, h.2⟩, fun h => ⟨h.few, h.roomy⟩⟩
  · have herr : prevFire before spec = .error {} := by
      refine prevFire_error (fun hin => hlo ?_) spec
      rw [← sec_windowStart]
      exact hin.1
    rw [herr]
    exact ⟨fun h => absurd rfl h.ne_error, fun h => absurd h.start hlo⟩

theorem prevFire_exact_iff_everySecond :
    PrevExact everySecondSpec (.ofSec 1800000000)
        (prevFire (.ofSec 1800000000) everySecondSpec) ↔
      Sparse everySecondSpec (.ofSec 1800000000) :=
  prevFire_exact_iff everySecondSpec (.ofSec 1800000000) (by decide) (DateTime.subsec_ofSec _)

theorem count_everySecondSpec (a q : Int) : countMatches everySecondSpec a q = (q - a).toNat := by
  unfold countMatches
  rw [Finset.filter_true_of_mem fun p _ => matches_everySecondSpec p, Int.card_Ioc]

/-- The latest match of a per-second schedule is not found. -/
theorem not_all_prevExact : ¬ ∀ (spec : CalendarSpec) (before : DateTime), before.InRange →
    before.subsec = 0 → PrevExact spec before (prevFire before spec) := by
  intro h
  have hexact := h everySecondSpec (.ofSec 1800000000) (by decide) (DateTime.subsec_ofSec _)
  have hfew := ((prevFire_exact_of_start everySecondSpec (by decide) (DateTime.subsec_ofSec _)
    (by decide)).mp hexact).1
  rw [count_everySecondSpec] at hfew
  exact absurd hfew (by decide)

end Systeml.Unit
