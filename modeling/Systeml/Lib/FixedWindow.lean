import Mathlib.Data.List.Basic

/-!
# Fixed windows

Events in the order of their times. Some of them open a window, and some are hits. If
every window has at most `burst` hits, and windows open more than `interval` apart, then a
span no longer than `interval` meets two windows at most, and has at most `2 * burst` hits.
-/

namespace Systeml.Lib

variable {α : Type} {time : α → Nat} {opens hit : α → Bool} {burst interval : Nat}

/-- No part of the events without an opening after its first has more than `burst` hits. -/
def Windowed (opens hit : α → Bool) (burst : Nat) (l : List α) : Prop :=
  ∀ pre seg post, l = pre ++ seg ++ post → (∀ x ∈ seg.tail, opens x = false) →
    seg.countP hit ≤ burst

/-- Between an opening and the next more than `interval` passes. -/
def Apart (time : α → Nat) (opens : α → Bool) (interval : Nat) (l : List α) : Prop :=
  ∀ pre a mid b post, l = pre ++ a :: mid ++ b :: post → opens a = true → opens b = true →
    (∀ x ∈ mid, opens x = false) → time a + interval < time b

/-- The events of a span stand together. -/
theorem exists_span (lo hi : Nat) : ∀ {l : List α}, l.Pairwise (fun x y => time x ≤ time y) →
    ∃ pre seg post, l = pre ++ seg ++ post ∧ (∀ x ∈ pre, time x < lo) ∧
      (∀ x ∈ seg, lo ≤ time x ∧ time x ≤ hi) ∧ ∀ x ∈ post, hi < time x
  | [], _ => ⟨[], [], [], rfl, by simp, by simp, by simp⟩
  | x :: l, h => by
    obtain ⟨hx, hl⟩ := List.pairwise_cons.mp h
    obtain ⟨pre, seg, post, rfl, hpre, hseg, hpost⟩ := exists_span lo hi hl
    rcases Nat.lt_or_ge (time x) lo with hlo | hlo
    · refine ⟨x :: pre, seg, post, rfl, ?_, hseg, hpost⟩
      intro y hy
      rcases List.mem_cons.mp hy with rfl | hy
      · exact hlo
      · exact hpre y hy
    -- whatever comes later is not before the span
    have hnil : pre = [] := by
      cases pre with
      | nil => rfl
      | cons y pre =>
        have := hx y (by simp)
        have := hpre y (by simp)
        omega
    subst hnil
    rcases Nat.lt_or_ge hi (time x) with hhi | hhi
    · refine ⟨[], [], x :: (seg ++ post), rfl, by simp, by simp, ?_⟩
      intro y hy
      rcases List.mem_cons.mp hy with rfl | hy
      · exact hhi
      · exact Nat.lt_of_lt_of_le hhi (hx y hy)
    · refine ⟨[], x :: seg, post, rfl, by simp, ?_, hpost⟩
      intro y hy
      rcases List.mem_cons.mp hy with rfl | hy
      · exact ⟨hlo, hhi⟩
      · exact hseg y hy

/-- The events before the first that opens a window, and the rest. -/
theorem exists_opening (opens : α → Bool) (l : List α) : ∃ before after, l = before ++ after ∧
    (∀ x ∈ before, opens x = false) ∧ ∀ x, after.head? = some x → opens x = true := by
  induction l with
  | nil => exact ⟨[], [], rfl, by simp, by simp⟩
  | cons x l ih =>
    obtain ⟨before, after, rfl, hbefore, hafter⟩ := ih
    cases hx : opens x with
    | true =>
      refine ⟨[], x :: (before ++ after), rfl, by simp, ?_⟩
      intro y hy
      obtain rfl := Option.some.inj hy
      exact hx
    | false =>
      refine ⟨x :: before, after, rfl, ?_, hafter⟩
      intro y hy
      rcases List.mem_cons.mp hy with rfl | hy
      · exact hx
      · exact hbefore y hy

/-- **Two windows at most.** -/
theorem span_hits {l : List α} (hsorted : l.Pairwise fun x y => time x ≤ time y)
    (hwindowed : Windowed opens hit burst l) (hapart : Apart time opens interval l)
    {lo hi : Nat} (hlong : hi ≤ lo + interval) :
    l.countP (fun x => hit x && decide (lo ≤ time x ∧ time x ≤ hi)) ≤ 2 * burst := by
  obtain ⟨pre, seg, post, rfl, hpre, hseg, hpost⟩ := exists_span lo hi hsorted
  obtain ⟨before, after, rfl, hbefore, hafter⟩ := exists_opening opens seg
  have hfirst : before.countP hit ≤ burst := by
    refine hwindowed pre before (after ++ post) (by simp) ?_
    intro x hx
    exact hbefore x (List.mem_of_mem_tail hx)
  -- a second opening would come too late for the span
  have honce : ∀ x ∈ after.tail, opens x = false := by
    cases after with
    | nil => simp
    | cons a rest =>
      obtain ⟨mid, late, rfl, hmid, hlate⟩ := exists_opening opens rest
      cases late with
      | nil => simpa using hmid
      | cons b late =>
        have hgap := hapart (pre ++ before) a mid b (late ++ post) (by simp) (hafter a rfl)
          (hlate b rfl) hmid
        have := (hseg a (by simp)).1
        have := (hseg b (by simp)).2
        omega
  have hsecond : after.countP hit ≤ burst :=
    hwindowed (pre ++ before) after post (by simp) honce
  have hout : ∀ {m : List α}, (∀ x ∈ m, ¬ (lo ≤ time x ∧ time x ≤ hi)) →
      m.countP (fun x => hit x && decide (lo ≤ time x ∧ time x ≤ hi)) = 0 := by
    intro m hm
    rw [List.countP_eq_zero]
    intro x hx
    simp [hm x hx]
  have hin : (before ++ after).countP (fun x => hit x && decide (lo ≤ time x ∧ time x ≤ hi)) =
      (before ++ after).countP hit := by
    refine List.countP_congr ?_
    intro x hx
    simp [hseg x hx]
  rw [List.countP_append, List.countP_append, hin, List.countP_append,
    hout fun x hx h => absurd h.1 (Nat.not_le.mpr (hpre x hx)),
    hout fun x hx h => absurd h.2 (Nat.not_le.mpr (hpost x hx))]
  omega

end Systeml.Lib
