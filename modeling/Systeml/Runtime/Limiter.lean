import Systeml.Lib.FixedWindow
import Systeml.Unit.ActivationTables

/-!
# The trigger limiter

`TriggerLimiter` counts the triggers of a window; the first call after the window has
passed opens the next one, and is allowed whatever the burst is. So the burst bounds the
triggers of each window exactly if it is not zero (`limited_iff`).
-/

namespace Systeml.Runtime

open Systeml.Lib Systeml.Unit

/-- Rate limiter: `TriggerLimitIntervalSec=` and `TriggerLimitBurst=`. Times are in
nanoseconds. -/
structure TriggerLimiter where
  /-- Bursts allowed per interval. -/
  burst : Nat
  /-- Window length. -/
  interval : Option Nat
  windowStarted : Option Nat
  /-- Trigger count in the current window. -/
  count : Nat
  deriving DecidableEq, Repr

namespace TriggerLimiter

/-- `from_unit`. Without an interval a burst is one of two seconds. -/
def fromUnit (p : pathShape.Rec) : TriggerLimiter where
  burst := (p.val .triggerLimitBurst).getD 200
  interval :=
    match p.val .triggerLimitIntervalSec with
    | some d => some d.asStd
    | none => if (p.val .triggerLimitBurst).isSome then some (2 * nanosPerSec) else none
  windowStarted := none
  count := 0

/-- Whether the current window is still open. -/
def inWindow (l : TriggerLimiter) (interval now : Nat) : Bool :=
  match l.windowStarted with
  | some start => now - start ≤ interval
  | none => false

/-- Whether a call opens a window. -/
def opensAt (l : TriggerLimiter) (now : Nat) : Bool :=
  match l.interval with
  | some interval => !l.inWindow interval now
  | none => false

/-- `allow`. -/
def allow (l : TriggerLimiter) (now : Nat) : TriggerLimiter × Bool :=
  match l.interval with
  | none => (l, true)
  | some interval =>
    if l.inWindow interval now then
      if l.burst ≤ l.count then (l, false) else ({ l with count := l.count + 1 }, true)
    else ({ l with windowStarted := some now, count := 1 }, true)

/-- One call, as it is seen from outside. -/
structure Call where
  time : Nat
  opens : Bool
  allowed : Bool
  deriving DecidableEq, Repr

/-- The calls at the given times. -/
def calls (l : TriggerLimiter) : List Nat → List Call
  | [] => []
  | now :: times => ⟨now, l.opensAt now, (l.allow now).2⟩ :: (l.allow now).1.calls times

/-! ## One call -/

/-- A limiter with an interval, that has not counted beyond its burst. -/
structure Counting (burst interval : Nat) (l : TriggerLimiter) : Prop where
  burst_eq : l.burst = burst
  interval_eq : l.interval = some interval
  count_le : l.count ≤ burst

variable {burst interval now : Nat} {l : TriggerLimiter}

/-- A call that opens a window is allowed, and the window begins with it. -/
theorem allow_opens (h : l.interval = some interval) (hopens : l.opensAt now = true) :
    l.allow now = ({ l with windowStarted := some now, count := 1 }, true) := by
  unfold opensAt at hopens
  rw [h] at hopens
  unfold allow
  rw [h]
  exact if_neg (by simpa using hopens)

/-- A call in a window is allowed as long as the burst is not reached. -/
theorem allow_stays (h : l.interval = some interval) (hopens : l.opensAt now = false) :
    l.allow now = if l.burst ≤ l.count then (l, false)
      else ({ l with count := l.count + 1 }, true) := by
  unfold opensAt at hopens
  rw [h] at hopens
  unfold allow
  rw [h]
  exact if_pos (by simpa using hopens)

theorem Counting.allow (h : Counting burst interval l) (hpos : 0 < burst) (now : Nat) :
    Counting burst interval (l.allow now).1 := by
  cases hopens : l.opensAt now with
  | true =>
    rw [allow_opens h.interval_eq hopens]
    exact ⟨h.burst_eq, h.interval_eq, hpos⟩
  | false =>
    rw [allow_stays h.interval_eq hopens]
    split
    next => exact h
    next hlt =>
      have hb := h.burst_eq
      exact ⟨hb, h.interval_eq, by show l.count + 1 ≤ burst; omega⟩

/-- A call in a window uses up what is left of it. -/
theorem Counting.allowed_stays (h : Counting burst interval l) (hopens : l.opensAt now = false) :
    (l.allow now).1.windowStarted = l.windowStarted ∧
      (l.allow now).1.count = l.count + (if (l.allow now).2 = true then 1 else 0) := by
  rw [allow_stays h.interval_eq hopens]
  split
  next => exact ⟨rfl, rfl⟩
  next => exact ⟨rfl, rfl⟩

/-! ## Runs of calls -/

theorem calls_times (l : TriggerLimiter) (times : List Nat) :
    (l.calls times).map Call.time = times := by
  induction times generalizing l with
  | nil => rfl
  | cons now times ih => rw [calls, List.map_cons, ih]

/-- What comes after some calls are the calls of the limiter they left. -/
theorem Counting.calls_append (hpos : 0 < burst) : ∀ {pre rest : List Call} {times : List Nat}
    {l : TriggerLimiter}, Counting burst interval l → l.calls times = pre ++ rest →
    ∃ l' times', Counting burst interval l' ∧ l'.calls times' = rest
  | [], rest, times, l, h, he => ⟨l, times, h, he⟩
  | c :: pre, rest, [], l, h, he => absurd he (by simp [calls])
  | c :: pre, rest, now :: times, l, h, he => by
    rw [calls, List.cons_append] at he
    exact calls_append hpos (h.allow hpos now) (List.cons.inj he).2

/-- In a window no more calls are allowed than are left. -/
theorem Counting.countP_stays (hpos : 0 < burst) : ∀ {seg post : List Call} {times : List Nat}
    {l : TriggerLimiter}, Counting burst interval l → l.calls times = seg ++ post →
    (∀ c ∈ seg, c.opens = false) → l.count + seg.countP Call.allowed ≤ burst
  | [], _, _, _, h, _, _ => h.count_le
  | c :: seg, _, [], _, _, he, _ => absurd he (by simp [calls])
  | c :: seg, post, now :: times, l, h, he, hstays => by
    rw [calls, List.cons_append] at he
    obtain ⟨rfl, hrest⟩ := List.cons.inj he
    have hopens : l.opensAt now = false := hstays _ List.mem_cons_self
    have hcount := countP_stays hpos (h.allow hpos now) hrest
      fun c hc => hstays c (List.mem_cons_of_mem _ hc)
    rw [(h.allowed_stays hopens).2] at hcount
    rw [List.countP_cons]
    show l.count + (seg.countP Call.allowed + if (l.allow now).2 = true then 1 else 0) ≤ burst
    omega

/-- A part of the calls in which only the first may open a window. -/
theorem Counting.windowed (hpos : 0 < burst) (h : Counting burst interval l) (times : List Nat) :
    Windowed Call.opens Call.allowed burst (l.calls times) := by
  intro pre seg post he hstays
  rw [List.append_assoc] at he
  obtain ⟨l', times', h', he'⟩ := h.calls_append hpos he
  cases seg with
  | nil => exact Nat.zero_le _
  | cons c seg =>
    cases hopens : c.opens with
    | false =>
      have hall : ∀ x ∈ c :: seg, x.opens = false := by
        intro x hx
        rcases List.mem_cons.mp hx with rfl | hx
        · exact hopens
        · exact hstays x hx
      have hcount := h'.countP_stays hpos he' hall
      omega
    | true =>
      cases times' with
      | nil => exact absurd he' (by simp [calls])
      | cons now times' =>
        rw [calls, List.cons_append] at he'
        obtain ⟨rfl, hrest⟩ := List.cons.inj he'
        have hnext := h'.allow hpos now
        rw [allow_opens h'.interval_eq hopens] at hrest hnext
        -- the first is counted in the new window
        have hcount := hnext.countP_stays hpos hrest hstays
        rw [List.countP_cons]
        have hone : (if (l'.allow now).2 = true then 1 else 0) ≤ 1 := by split <;> omega
        show seg.countP Call.allowed + (if (l'.allow now).2 = true then 1 else 0) ≤ burst
        have hle : 1 + seg.countP Call.allowed ≤ burst := hcount
        omega

/-- While a window stays open, the next one opens late. -/
theorem Counting.late (hpos : 0 < burst) {start : Nat} {b : Call} : ∀ {mid post : List Call}
    {times : List Nat} {l : TriggerLimiter}, Counting burst interval l →
    l.windowStarted = some start → l.calls times = mid ++ b :: post →
    (∀ c ∈ mid, c.opens = false) → b.opens = true → start + interval < b.time
  | [], post, [], l, _, _, he, _, _ => absurd he (by simp [calls])
  | [], post, now :: times, l, h, hstart, he, _, hb => by
    rw [calls, List.nil_append] at he
    obtain ⟨rfl, -⟩ := List.cons.inj he
    have hopens : l.opensAt now = true := hb
    unfold opensAt inWindow at hopens
    rw [h.interval_eq, hstart] at hopens
    have hlate : ¬ now - start ≤ interval := by simpa using hopens
    show start + interval < now
    omega
  | c :: mid, post, [], l, _, _, he, _, _ => absurd he (by simp [calls])
  | c :: mid, post, now :: times, l, h, hstart, he, hmid, hb => by
    rw [calls, List.cons_append] at he
    obtain ⟨rfl, hrest⟩ := List.cons.inj he
    have hopens : l.opensAt now = false := hmid _ List.mem_cons_self
    exact late hpos (h.allow hpos now) ((h.allowed_stays hopens).1.trans hstart) hrest
      (fun c hc => hmid c (List.mem_cons_of_mem _ hc)) hb

theorem Counting.apart (hpos : 0 < burst) (h : Counting burst interval l) (times : List Nat) :
    Apart Call.time Call.opens interval (l.calls times) := by
  intro pre a mid b post he ha hb hmid
  rw [List.append_assoc] at he
  obtain ⟨l', times', h', he'⟩ := h.calls_append hpos he
  cases times' with
  | nil => exact absurd he' (by simp [calls])
  | cons now times' =>
    rw [calls, List.cons_append] at he'
    obtain ⟨rfl, hrest⟩ := List.cons.inj he'
    have hnext := h'.allow hpos now
    rw [allow_opens h'.interval_eq ha] at hrest hnext
    exact hnext.late hpos rfl hrest hmid hb

/-- What is asked of the calls of a limiter. -/
structure Limited (burst interval : Nat) (cs : List Call) : Prop where
  /-- Between an opening and the next. -/
  windowed : Windowed Call.opens Call.allowed burst cs
  apart : Apart Call.time Call.opens interval cs
  span : ∀ lo hi, hi ≤ lo + interval →
    cs.countP (fun c => c.allowed && decide (lo ≤ c.time ∧ c.time ≤ hi)) ≤ 2 * burst

theorem Counting.limited (hpos : 0 < burst) (h : Counting burst interval l) {times : List Nat}
    (hsorted : times.Pairwise (· ≤ ·)) : Limited burst interval (l.calls times) := by
  refine ⟨h.windowed hpos times, h.apart hpos times, ?_⟩
  intro lo hi hlong
  refine span_hits ?_ (h.windowed hpos times) (h.apart hpos times) hlong
  rw [← List.pairwise_map, calls_times]
  exact hsorted

/-- The interval of a unit with a burst. -/
def intervalOf (p : pathShape.Rec) : Nat :=
  ((p.val .triggerLimitIntervalSec).map SdDuration.asStd).getD (2 * nanosPerSec)

theorem fromUnit_counting {p : pathShape.Rec} (h : p.val .triggerLimitBurst = some burst) :
    Counting burst (intervalOf p) (fromUnit p) := by
  refine ⟨?_, ?_, Nat.zero_le _⟩
  · show (p.val .triggerLimitBurst).getD 200 = burst
    rw [h]
    rfl
  · unfold fromUnit intervalOf
    simp only [h]
    cases p.val .triggerLimitIntervalSec <;> rfl

/-- **When the burst is kept**: exactly if it is not zero, because the call that opens a
window is always allowed. -/
theorem limited_iff {p : pathShape.Rec} (h : p.val .triggerLimitBurst = some burst) :
    (∀ times : List Nat, times.Pairwise (· ≤ ·) →
      Limited burst (intervalOf p) ((fromUnit p).calls times)) ↔ 0 < burst := by
  constructor
  · intro hall
    have hlimited := hall [0] (List.pairwise_singleton _ _)
    have hopens : (fromUnit p).opensAt 0 = true := by
      unfold opensAt
      rw [(fromUnit_counting h).interval_eq]
      rfl
    have hone := hlimited.windowed [] ((fromUnit p).calls [0]) [] (by simp) (by simp [calls])
    rw [calls, calls, allow_opens (fromUnit_counting h).interval_eq hopens] at hone
    exact hone
  · intro hpos times hsorted
    exact (fromUnit_counting h).limited hpos hsorted

/-- A unit with a burst of two. -/
def twoTriggers : pathShape.Rec :=
  (⟨PathField.initial, fun _ => []⟩ : pathShape.Rec).set .triggerLimitBurst (some 2)

theorem limited_iff_two : (∀ times : List Nat, times.Pairwise (· ≤ ·) →
    Limited 2 (intervalOf twoTriggers) ((fromUnit twoTriggers).calls times)) ↔ 0 < 2 :=
  limited_iff (Record.set_val_self ..)

/-- A unit with a burst of none. -/
def noTriggers : pathShape.Rec :=
  (⟨PathField.initial, fun _ => []⟩ : pathShape.Rec).set .triggerLimitBurst (some 0)

/-- With `TriggerLimitBurst=0` a trigger is allowed. -/
theorem zero_burst_allows : ¬ ∀ (p : pathShape.Rec) (burst : Nat) (times : List Nat),
    p.val .triggerLimitBurst = some burst → times.Pairwise (· ≤ ·) →
    Limited burst (intervalOf p) ((fromUnit p).calls times) := by
  intro h
  have hlimited := h noTriggers 0 [0] (Record.set_val_self ..) (List.pairwise_singleton _ _)
  have hone := hlimited.windowed [] [⟨0, true, true⟩] [] rfl (by simp)
  exact absurd hone (by decide)

end TriggerLimiter

end Systeml.Runtime
