import Systeml.Unit.NextFire
import Mathlib.Data.Int.Interval
import Mathlib.Data.Int.ConditionallyCompleteOrder

/-!
# What the backward search finds

`prevFire` steps `nextFire` from 366 days back and stops after 200000 instants.
`prevFire_spec`: it returns the latest match of the window, or the 200000th one
if there are more (`Reached`).
-/

namespace Systeml.Unit

open Systeml.Lib

variable {spec : CalendarSpec}

/-- The number of matches in `(a, q]`. -/
noncomputable def countMatches (spec : CalendarSpec) (a q : Int) : Nat :=
  ((Finset.Ioc a q).filter (Matches spec)).card

/-- `q` is where `k` steps through the matches of `(a, hi]` end: the last match,
or the `k`-th. -/
structure Reached (spec : CalendarSpec) (a hi : Int) (k : Nat) (q : Int) : Prop where
  isMatch : Matches spec q
  after : a < q
  le : q ≤ hi
  count : countMatches spec a q ≤ k
  stop : countMatches spec a q = k ∨ ∀ p, q < p → p ≤ hi → ¬ Matches spec p

/-- Counting on from the first match. -/
theorem countMatches_first {a t q : Int} (hat : a < t) (htq : t ≤ q) (hm : Matches spec t)
    (hfirst : ∀ p, a < p → p < t → ¬ Matches spec p) :
    countMatches spec a q = countMatches spec t q + 1 := by
  unfold countMatches
  rw [← Finset.card_insert_of_notMem (a := t) (by simp)]
  congr 1
  ext p
  simp only [Finset.mem_filter, Finset.mem_Ioc, Finset.mem_insert]
  constructor
  · rintro ⟨⟨hap, hpq⟩, hp⟩
    rcases lt_trichotomy p t with h | h | h
    · exact absurd hp (hfirst p hap h)
    · exact Or.inl h
    · exact Or.inr ⟨⟨h, hpq⟩, hp⟩
  · rintro (rfl | ⟨⟨htp, hpq⟩, hp⟩)
    · exact ⟨⟨hat, htq⟩, hm⟩
    · exact ⟨⟨by omega, hpq⟩, hp⟩

theorem countMatches_self (a : Int) : countMatches spec a a = 0 := by
  simp [countMatches]

/-- Stepping to the first match and on from there. -/
theorem Reached.step {a t hi q : Int} {k : Nat} (hat : a < t) (hm : Matches spec t)
    (hfirst : ∀ p, a < p → p < t → ¬ Matches spec p) (h : Reached spec t hi k q) :
    Reached spec a hi (k + 1) q := by
  have hc := countMatches_first hat h.after.le hm hfirst
  exact ⟨h.isMatch, hat.trans h.after, h.le, by have := h.count; omega,
    h.stop.imp (fun e => by omega) id⟩

/-- Stepping to the first match and ending there. -/
theorem Reached.last {a t hi : Int} {k : Nat} (hat : a < t) (hle : t ≤ hi) (hm : Matches spec t)
    (hfirst : ∀ p, a < p → p < t → ¬ Matches spec p)
    (hend : k = 0 ∨ ∀ p, t < p → p ≤ hi → ¬ Matches spec p) :
    Reached spec a hi (k + 1) t := by
  have hc := countMatches_first hat (Int.le_refl t) hm hfirst
  rw [countMatches_self] at hc
  exact ⟨hm, hat, hle, by omega, hend.imp (fun e => by omega) id⟩

/-- Counting on to another match. -/
theorem countMatches_lt {a p q : Int} (hqp : q < p) (hap : a < p) (hm : Matches spec p) :
    countMatches spec a q < countMatches spec a p := by
  refine Finset.card_lt_card (Finset.ssubset_iff_of_subset ?_ |>.mpr ⟨p, ?_, ?_⟩)
  · intro x hx
    simp only [Finset.mem_filter, Finset.mem_Ioc] at hx ⊢
    exact ⟨⟨hx.1.1, by omega⟩, hx.2⟩
  · simp only [Finset.mem_filter, Finset.mem_Ioc]
    exact ⟨⟨hap, Int.le_refl _⟩, hm⟩
  · simp only [Finset.mem_filter, Finset.mem_Ioc, not_and]
    omega

/-- The first `k` matches are not after the one reached. -/
theorem Reached.ge {a hi p q : Int} {k : Nat} (h : Reached spec a hi k q) (hm : Matches spec p)
    (hap : a < p) (hp : p ≤ hi) (hc : countMatches spec a p ≤ k) : p ≤ q := by
  by_contra hlt
  rcases h.stop with he | hno
  · have := countMatches_lt (show q < p by omega) hap hm
    omega
  · exact hno p (by omega) hp hm

theorem Reached.unique {a hi q q' : Int} {k : Nat} (h : Reached spec a hi k q)
    (h' : Reached spec a hi k q') : q = q' := by
  have := h.ge h'.isMatch h'.after h'.le h'.count
  have := h'.ge h.isMatch h.after h.le h.count
  omega

/-! ## The loop -/

/-- Fractions over two searches in a row. -/
theorem FractionFrom.append {a b : Int} {c t t' : DateTime} (h : FractionFrom spec a c t)
    (h' : FractionFrom spec b t t') (hab : a ≤ b) (hb : b ≤ t.sec + 1) (hle : t.sec ≤ t'.sec) :
    FractionFrom spec a c t' := by
  rcases h with ⟨hall, hsub⟩ | ⟨hno, hsub⟩
  · rcases h' with ⟨hall', hsub'⟩ | ⟨hno', hsub'⟩
    · refine Or.inl ⟨fun p hp hpt => ?_, hsub'.trans hsub⟩
      by_cases hlt : p ≤ t.sec
      · exact hall p hp hlt
      · exact hall' p (by omega) hpt
    · exact Or.inr ⟨fun hall' => hno' fun p hp hpt => hall' p (by omega) hpt, hsub'⟩
  · refine Or.inr ⟨fun hall => hno fun p hp hpt => hall p hp (by omega), ?_⟩
    rcases h' with ⟨-, hsub'⟩ | ⟨-, hsub'⟩
    · exact hsub'.trans hsub
    · exact hsub'

/-- The instants the search of `before` reaches are representable. -/
def WindowSafe (before : DateTime) : Prop :=
  DateTime.InRange ⟨before.nanos + -(366 * 86400) * 1000000000⟩ ∧
    DateTime.InRange ⟨before.nanos + 3660 * 86400 * 1000000000⟩

theorem WindowSafe.searchSafe {before u : DateTime} (h : WindowSafe before)
    (hlo : before.sec - 366 * 86400 ≤ u.sec) (hle : u.sec ≤ before.sec) : SearchSafe u := by
  obtain ⟨⟨h1, -⟩, ⟨-, h2⟩⟩ := h
  rw [(DateTime.sec_add before _).1] at h1 h2
  unfold SearchSafe DateTime.InRange
  rw [(DateTime.sec_add u _).1, (DateTime.sec_add u _).1]
  omega

/-- What the loop returns from cursor `u`: what it had, if no match is left or no
iteration, or the match it reached. -/
def LoopResult (spec : CalendarSpec) (before u : DateTime) (n : Nat) (last : Option DateTime)
    (r : Except Panic (Option DateTime)) : Prop :=
  (r = .ok last ∧ (n = 0 ∨ ∀ p, u.sec < p → p ≤ before.sec → ¬ Matches spec p)) ∨
    ∃ t, r = .ok (some t) ∧ Reached spec u.sec before.sec n t.sec ∧
      FractionFrom spec (u.sec + 1) u t

theorem prevLoop_some {before u t : DateTime} {last : Option DateTime} {n : Nat}
    (h : nextFire u spec none = .ok (some t)) : prevLoop spec before (n + 1) u last =
      if t.nanos ≤ before.nanos then prevLoop spec before n t (some t) else .ok last := by
  rw [prevLoop, h]
  rfl

theorem prevLoop_none {before u : DateTime} {last : Option DateTime} {n : Nat}
    (h : nextFire u spec none = .ok none) :
    prevLoop spec before (n + 1) u last = .ok last := by
  rw [prevLoop, h]
  rfl

theorem prevLoop_error {before u : DateTime} {last : Option DateTime} {n : Nat} {e : Panic}
    (h : nextFire u spec none = .error e) :
    prevLoop spec before (n + 1) u last = .error e := by
  rw [prevLoop, h]
  rfl

variable (spec) in
/-- The loop of `prev_fire`, from any cursor of its window. -/
theorem prevLoop_spec {before : DateTime} (hsafe : WindowSafe before) :
    ∀ (n : Nat) (u : DateTime) (last : Option DateTime), before.sec - 366 * 86400 ≤ u.sec →
      u.sec ≤ before.sec → u.subsec ≤ before.subsec →
      LoopResult spec before u n last (prevLoop spec before n u last)
  | 0, _, _, _, _, _ => Or.inl ⟨rfl, Or.inl rfl⟩
  | n + 1, u, last, hlo, hle, hsub => by
    have hu := hsafe.searchSafe hlo hle
    obtain ⟨hbad, -⟩ | ⟨-, hres⟩ := nextFire_spec u spec none
    · exact absurd hu hbad
    simp only [baselineOf] at hres
    cases hf : nextFire u spec none with
    | error e =>
      rw [hf] at hres
      exact hres.elim
    | ok o =>
      rw [hf] at hres
      cases o with
      | none =>
        rw [prevLoop_none hf]
        exact Or.inl ⟨rfl, Or.inr fun p hp hpb hm =>
          hu.reachable hres (by omega) (by omega) hm⟩
      | some t =>
        have hfound : Found spec _ t := hres
        obtain ⟨-, hut, hm, hleast, hfrac⟩ := hfound
        rw [(DateTime.sec_add u 1).1] at hut hleast
        have hfrac : FractionFrom spec (u.sec + 1) u t := by
          simpa only [FractionFrom, (DateTime.sec_add u 1).1, (DateTime.sec_add u 1).2] using hfrac
        have hfirst : ∀ p, u.sec < p → p < t.sec → ¬ Matches spec p :=
          fun p hp hpt => hleast p (by omega) hpt
        have hts := hfrac.le
        have hn := t.nanos_eq
        have hb := before.nanos_eq
        have hs := t.subsec_bounds
        have hs' := before.subsec_bounds
        rw [prevLoop_some hf]
        split
        next hcmp =>
          have htb : t.sec ≤ before.sec := by omega
          rcases prevLoop_spec hsafe n t (some t) (by omega) htb (by omega) with
            ⟨hr, hend⟩ | ⟨t', hr, hreach, hfrac'⟩
          · exact Or.inr ⟨t, hr, Reached.last (by omega) htb hm hfirst hend, hfrac⟩
          · exact Or.inr ⟨t', hr, hreach.step (by omega) hm hfirst,
              hfrac.append hfrac' (by omega) (Int.le_refl _) hreach.after.le⟩
        next hcmp =>
          refine Or.inl ⟨rfl, Or.inr fun p hp hpb => ?_⟩
          exact hfirst p hp (by omega)

/-- First second before the window of `prev_fire`. -/
def windowStart (before : DateTime) : Int := before.sec - 366 * 86400

/-- What `prev_fire` returns: nothing if its window holds no match, else the one
it reached. -/
def PrevResult (spec : CalendarSpec) (before : DateTime) : Option DateTime → Prop
  | none => ∀ p, windowStart before < p → p ≤ before.sec → ¬ Matches spec p
  | some t => Reached spec (windowStart before) before.sec prevCap t.sec ∧
      FractionFrom spec (windowStart before + 1) before t

/-- Where the window is representable, the loop runs from its start. -/
theorem prevFire_eq {before : DateTime}
    (h : DateTime.InRange ⟨before.nanos + -(366 * 86400) * 1000000000⟩) {spec : CalendarSpec} :
    prevFire before spec =
      prevLoop spec before prevCap ⟨before.nanos + -(366 * 86400) * 1000000000⟩ none := by
  have hstart : before.add (-(366 * 86400 * 1000000000)) =
      .ok ⟨before.nanos + -(366 * 86400) * 1000000000⟩ := DateTime.add_of_inRange h
  unfold prevFire
  rw [hstart]
  rfl

/-- **`prev_fire` finds the last match of its window**, or the 200000th. -/
theorem prevFire_spec {before : DateTime} (hsafe : WindowSafe before) (spec : CalendarSpec) :
    ∃ r, prevFire before spec = .ok r ∧ PrevResult spec before r := by
  obtain ⟨hsec, hsub⟩ := DateTime.sec_add before (-(366 * 86400))
  rw [prevFire_eq hsafe.1]
  have hw : (DateTime.mk (before.nanos + -(366 * 86400) * 1000000000)).sec = windowStart before := by
    rw [hsec]
    rfl
  rcases prevLoop_spec spec hsafe prevCap _ none (by omega) (by omega) hsub.le with
    ⟨hr, hend⟩ | ⟨t, hr, hreach, hfrac⟩
  · rw [hw] at hend
    exact ⟨none, hr, hend.resolve_left (by decide)⟩
  · rw [hw] at hreach hfrac
    refine ⟨some t, hr, hreach, ?_⟩
    simpa only [FractionFrom, hsub] using hfrac

/-- It panics where the window leaves the representable range below. -/
theorem prevFire_error {before : DateTime}
    (h : ¬ DateTime.InRange ⟨before.nanos + -(366 * 86400) * 1000000000⟩) (spec : CalendarSpec) :
    prevFire before spec = .error {} := by
  have hstart : before.add (-(366 * 86400 * 1000000000)) = .error {} := DateTime.add_error h
  unfold prevFire
  rw [hstart]
  rfl

end Systeml.Unit
