import Mathlib.Data.List.Infix

/-!
# Bounded broadcast channels

Every message goes to every receiver. The channel keeps the last `cap` messages; a receiver
is a position in what was sent, and one that falls further behind is told how many messages
it missed and goes on with the oldest one that is kept.

`Standing` is what holds of a receiver at any time: what it was handed covers the messages
from its subscription to its position, in order and once each (`Covers`). So the messages it
got are among those that were sent, the counts it was told make up for the others, and a
receiver that never fell behind got them all.
-/

namespace Systeml.Lib

variable {β : Type}

/-- What a receiver is handed. -/
inductive Recv (β : Type) where
  | value (x : β)
  /-- It fell behind, by this many messages that are no longer kept. -/
  | lagged (n : Nat)
  deriving DecidableEq, Repr

namespace Recv

/-- The message, if it is one. -/
def value? : Recv β → Option β
  | value x => some x
  | lagged _ => none

/-- How many messages were missed. -/
def missed : Recv β → Nat
  | value _ => 0
  | lagged n => n

/-- The messages that a receiver got. -/
def values (rs : List (Recv β)) : List β := rs.filterMap value?

/-- How many it missed in all. -/
def missedIn (rs : List (Recv β)) : Nat := rs.foldr (fun r n => r.missed + n) 0

end Recv

/-- What a receiver is handed at its position, and where it stands then. It waits where it
has been handed all that was sent. -/
def recv (cap : Nat) (sent : List β) (next : Nat) : Option (Recv β × Nat) :=
  if next < sent.length - cap then
    some (.lagged (sent.length - cap - next), sent.length - cap)
  else (sent[next]?).map fun x => (.value x, next + 1)

/-! ## What is covered -/

/-- The messages, with those that were missed counted. -/
inductive Covers : List β → List (Recv β) → Prop
  | nil : Covers [] []
  | value (x : β) {xs : List β} {rs : List (Recv β)} (h : Covers xs rs) :
      Covers (x :: xs) (.value x :: rs)
  | lagged (skipped : List β) {xs : List β} {rs : List (Recv β)} (h : Covers xs rs) :
      Covers (skipped ++ xs) (.lagged skipped.length :: rs)

theorem Covers.append {xs ys : List β} {rs rs' : List (Recv β)} (h : Covers xs rs)
    (h' : Covers ys rs') : Covers (xs ++ ys) (rs ++ rs') := by
  induction h with
  | nil => exact h'
  | value x _ ih => exact .value x ih
  | lagged skipped _ ih =>
    rw [List.append_assoc]
    exact .lagged skipped ih

/-- The messages that a receiver got were sent, in this order. -/
theorem Covers.values_sublist {xs : List β} {rs : List (Recv β)} (h : Covers xs rs) :
    (Recv.values rs).Sublist xs := by
  induction h with
  | nil => exact .slnil
  | value x _ ih => exact ih.cons_cons x
  | lagged skipped _ ih => exact ih.trans (List.sublist_append_right skipped _)

/-- Each message was got or is counted as missed. -/
theorem Covers.length_eq {xs : List β} {rs : List (Recv β)} (h : Covers xs rs) :
    xs.length = (Recv.values rs).length + Recv.missedIn rs := by
  induction h with
  | nil => rfl
  | value x _ ih =>
    simp only [Recv.values, Recv.missedIn, List.filterMap_cons, Recv.value?, List.foldr_cons,
      Recv.missed, List.length_cons] at ih ⊢
    omega
  | lagged skipped _ ih =>
    simp only [Recv.values, Recv.missedIn, List.filterMap_cons, Recv.value?, List.foldr_cons,
      Recv.missed, List.length_append] at ih ⊢
    omega

/-- A receiver that missed nothing got everything. -/
theorem Covers.values_eq {xs : List β} {rs : List (Recv β)} (h : Covers xs rs)
    (hall : Recv.missedIn rs = 0) : Recv.values rs = xs := by
  have hlen := h.length_eq
  rw [hall, Nat.add_zero] at hlen
  exact h.values_sublist.eq_of_length hlen.symm

/-! ## Receivers -/

/-- A receiver that subscribed at `since` and stands at `next`. -/
structure Standing (sent : List β) (since next : Nat) (rs : List (Recv β)) : Prop where
  since_le : since ≤ next
  next_le : next ≤ sent.length
  covers : Covers ((sent.drop since).take (next - since)) rs

/-- A new receiver stands at the end. -/
theorem Standing.subscribe (sent : List β) : Standing sent sent.length sent.length [] where
  since_le := Nat.le_refl _
  next_le := Nat.le_refl _
  covers := by
    rw [Nat.sub_self, List.take_zero]
    exact .nil

/-- Sending leaves a receiver where it is. -/
theorem Standing.send {sent : List β} {since next : Nat} {rs : List (Recv β)}
    (h : Standing sent since next rs) (more : List β) :
    Standing (sent ++ more) since next rs where
  since_le := h.since_le
  next_le := by
    have hle := h.next_le
    rw [List.length_append]
    omega
  covers := by
    have hle := h.next_le
    have hle' := h.since_le
    rw [List.drop_append_of_le_length (by omega), List.take_append_of_le_length
      (by rw [List.length_drop]; omega)]
    exact h.covers

/-- The messages between two positions. -/
theorem slice_append {sent : List β} {a b c : Nat} (hab : a ≤ b) (hbc : b ≤ c) :
    (sent.drop a).take (c - a) =
      (sent.drop a).take (b - a) ++ (sent.drop b).take (c - b) := by
  have hsplit : c - a = (b - a) + (c - b) := by omega
  have hdrop : a + (b - a) = b := by omega
  rw [hsplit, List.take_add, List.drop_drop, hdrop]

/-- A receiver that is handed something stands behind it. -/
theorem Standing.recv {cap : Nat} {sent : List β} {since next next' : Nat} {rs : List (Recv β)}
    {r : Recv β} (h : Standing sent since next rs) (hr : recv cap sent next = some (r, next')) :
    Standing sent since next' (rs ++ [r]) := by
  have hle := h.since_le
  have hle' := h.next_le
  unfold Lib.recv at hr
  split at hr
  next hlag =>
    obtain ⟨rfl, rfl⟩ := Prod.mk.inj (Option.some.inj hr)
    refine ⟨by omega, by omega, ?_⟩
    rw [slice_append hle (Nat.le_of_lt hlag)]
    have hlen : ((sent.drop next).take (sent.length - cap - next)).length =
        sent.length - cap - next := by
      rw [List.length_take, List.length_drop]
      omega
    have hskip := Covers.lagged ((sent.drop next).take (sent.length - cap - next)) .nil
    rw [List.append_nil, hlen] at hskip
    exact h.covers.append hskip
  next =>
    obtain ⟨x, hx, he⟩ := Option.map_eq_some_iff.mp hr
    obtain ⟨rfl, rfl⟩ := Prod.mk.inj he
    obtain ⟨hlt, hget⟩ := List.getElem?_eq_some_iff.mp hx
    refine ⟨by omega, hlt, ?_⟩
    have hone : (sent.drop next).take (next + 1 - next) = [x] := by
      rw [Nat.add_sub_cancel_left, List.take_one, List.head?_drop, hx]
      rfl
    rw [slice_append hle (Nat.le_succ next), hone]
    exact h.covers.append (.value x .nil)

/-! ## A snapshot and what is sent around it -/

/-- Every message sets a state or leaves it. -/
def Overwrites {σ : Type} (f : σ → β → σ) : Prop :=
  ∀ x, (∀ s, f s x = s) ∨ ∃ s', ∀ s, f s x = s'

/-- So do all of them. -/
theorem Overwrites.foldl {σ : Type} {f : σ → β → σ} (h : Overwrites f) (xs : List β) :
    (∀ s, xs.foldl f s = s) ∨ ∃ s', ∀ s, xs.foldl f s = s' := by
  induction xs with
  | nil => exact Or.inl fun s => rfl
  | cons x xs ih =>
    obtain hkeep | ⟨s', hset⟩ := ih
    · obtain hx | ⟨s', hx⟩ := h x
      · exact Or.inl fun s => (hkeep _).trans (hx s)
      · exact Or.inr ⟨s', fun s => (hkeep _).trans (hx s)⟩
    · exact Or.inr ⟨s', fun s => hset _⟩

/-- Whoever takes a snapshot after they subscribed and then goes through all the messages
ends up right, although some of them are older than the snapshot. -/
theorem Overwrites.snapshot {σ : Type} {f : σ → β → σ} (h : Overwrites f) (older newer : List β)
    (s : σ) : (older ++ newer).foldl f (older.foldl f s) = (older ++ newer).foldl f s := by
  rw [List.foldl_append, List.foldl_append]
  obtain hkeep | ⟨s', hset⟩ := h.foldl older
  · rw [hkeep (older.foldl f s)]
  · rw [hset, hset s]

end Systeml.Lib
