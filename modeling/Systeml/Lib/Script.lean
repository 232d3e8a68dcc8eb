import Mathlib.Data.List.Forall2
import Systeml.Lib.Run

/-!
# Scripts

Work that is done one item after the other by somebody who may give up: an item is waited
for or not, and one that goes wrong ends the script or does not. What happens while a
script is run is a run of `Stage.next`; `recounts_of_runs` reads from it what has been done,
item by item.
-/

namespace Systeml.Lib.Script

variable {α : Type}

/-- An item of a script. -/
inductive Item (α : Type) where
  /-- Waited for. The script ends unless it goes well. -/
  | gate (a : α)
  /-- Waited for. The script goes on in any case. -/
  | hook (a : α)
  /-- Not waited for. The script ends unless it begins. -/
  | launch (a : α)
  /-- The report that all has been done. -/
  | report
  deriving DecidableEq

/-- What happens while a script is run. -/
inductive Event (α : Type) where
  | began (a : α)
  | refused (a : α)
  | ended (a : α) (well : Bool)
  | reported
  deriving DecidableEq

/-- How far a script is. -/
inductive Stage (α : Type) where
  | idle (left : List (Item α))
  | running (i : Item α) (left : List (Item α))
  | stopped
  deriving DecidableEq

namespace Item

/-- What an item does. -/
def what : Item α → Option α
  | gate a | hook a | launch a => some a
  | report => none

/-- The next item waits for the end of this one. -/
def waits : Item α → Bool
  | gate _ | hook _ => true
  | launch _ | report => false

/-- The script goes on where this item goes wrong. -/
def optional : Item α → Bool
  | hook _ => true
  | gate _ | launch _ | report => false

/-- The item is done, with these events. -/
inductive Passes : Item α → List (Event α) → Prop
  | gate (a : α) : Passes (gate a) [.began a, .ended a true]
  | hook (a : α) (well : Bool) : Passes (hook a) [.began a, .ended a well]
  | skip (a : α) : Passes (hook a) [.refused a]
  | launch (a : α) : Passes (launch a) [.began a]
  | report : Passes report [.reported]

/-- The item went wrong, and the script with it. -/
inductive Fails : Item α → List (Event α) → Prop
  | refused (i : Item α) (a : α) (h : i.what = some a) (hi : i.optional = false) :
    Fails i [.refused a]
  | ended (a : α) : Fails (gate a) [.began a, .ended a false]

end Item

namespace Stage

variable [DecidableEq α]

/-- A script goes on with an event. -/
def next : Stage α → Event α → Option (Stage α)
  | idle (i :: left), .began a =>
    if i.what = some a then some (if i.waits then running i left else idle left) else none
  | idle (i :: left), .refused a =>
    if i.what = some a then some (if i.optional then idle left else stopped) else none
  | idle (.report :: left), .reported => some (idle left)
  | running i left, .ended a well =>
    if i.what = some a then some (if well || i.optional then idle left else stopped) else none
  | _, _ => none

end Stage

/-- What has happened in a script up to this stage of it: each item before has its events, in
order, and of the item after them there is what the stage says. -/
def Recounts (items : List (Item α)) (events : List (Event α)) (p : Stage α) : Prop :=
  ∃ done pieces left tail, List.Forall₂ Item.Passes done pieces ∧ items = done ++ left ∧
    events = pieces.flatten ++ tail ∧
    match p with
    | .idle rest => rest = left ∧ tail = []
    | .running i rest => i :: rest = left ∧ i.waits = true ∧ ∃ a, i.what = some a ∧
      tail = [.began a]
    | .stopped => ∃ i rest, left = i :: rest ∧ i.Fails tail

theorem recounts_nil (items : List (Item α)) : Recounts items [] (.idle items) :=
  ⟨[], [], items, [], .nil, rfl, rfl, rfl, rfl⟩

section Item

variable {items done left : List (Item α)} {pieces : List (List (Event α))} {i : Item α} {a : α}

/-- One more item has passed. -/
theorem recounts_pass {piece : List (Event α)} (hd : List.Forall₂ Item.Passes done pieces)
    (hi : items = done ++ i :: left) (h : i.Passes piece) :
    Recounts items (pieces.flatten ++ piece) (.idle left) := by
  refine ⟨done ++ [i], pieces ++ [piece], left, [], ?_, ?_, ?_, rfl, rfl⟩
  · exact List.rel_append hd (.cons h .nil)
  · rw [hi, List.append_assoc]
    rfl
  · simp

/-- An item has begun, and is waited for or not. -/
theorem recounts_began (hd : List.Forall₂ Item.Passes done pieces)
    (hi : items = done ++ i :: left) (ha : i.what = some a) :
    Recounts items (pieces.flatten ++ [.began a])
      (if i.waits then .running i left else .idle left) := by
  cases i with
  | gate b | hook b => exact ⟨done, pieces, _, _, hd, hi, rfl, rfl, rfl, a, ha, rfl⟩
  | launch b =>
    obtain rfl := Option.some.inj ha
    exact recounts_pass hd hi (.launch b)
  | report => exact absurd ha (by simp [Item.what])

/-- An item could not begin. -/
theorem recounts_refused (hd : List.Forall₂ Item.Passes done pieces)
    (hi : items = done ++ i :: left) (ha : i.what = some a) :
    Recounts items (pieces.flatten ++ [.refused a])
      (if i.optional then .idle left else .stopped) := by
  cases i with
  | hook b =>
    obtain rfl := Option.some.inj ha
    exact recounts_pass hd hi (.skip b)
  | gate b | launch b =>
    exact ⟨done, pieces, _, _, hd, hi, rfl, _, left, rfl, .refused _ a ha rfl⟩
  | report => exact absurd ha (by simp [Item.what])

/-- An item that was waited for has ended. -/
theorem recounts_ended (hd : List.Forall₂ Item.Passes done pieces)
    (hi : items = done ++ i :: left) (hw : i.waits = true) (ha : i.what = some a) (well : Bool) :
    Recounts items (pieces.flatten ++ [.began a, .ended a well])
      (if well || i.optional then .idle left else .stopped) := by
  cases i with
  | gate b =>
    obtain rfl := Option.some.inj ha
    cases well with
    | true => exact recounts_pass hd hi (.gate b)
    | false => exact ⟨done, pieces, _, _, hd, hi, rfl, _, left, rfl, .ended b⟩
  | hook b =>
    obtain rfl := Option.some.inj ha
    simp only [Item.optional, Bool.or_true, if_true]
    exact recounts_pass hd hi (.hook b well)
  | launch b | report => exact absurd hw (by simp [Item.waits])

end Item

/-- One more event. -/
theorem recounts_next [DecidableEq α] {items : List (Item α)} {events : List (Event α)}
    {p p' : Stage α} {n : Event α} (h : Recounts items events p) (hn : p.next n = some p') :
    Recounts items (events ++ [n]) p' := by
  obtain ⟨done, pieces, left, tail, hd, hi, rfl, hp⟩ := h
  rw [List.append_assoc]
  cases p with
  | idle rest =>
    obtain ⟨rfl, rfl⟩ := hp
    cases rest with
    | nil => exact absurd hn (by simp [Stage.next])
    | cons i left =>
      cases n with
      | began a =>
        simp only [Stage.next] at hn
        split at hn
        next ha => exact Option.some.inj hn ▸ recounts_began hd hi ha
        next => exact absurd hn (by simp)
      | refused a =>
        simp only [Stage.next] at hn
        split at hn
        next ha => exact Option.some.inj hn ▸ recounts_refused hd hi ha
        next => exact absurd hn (by simp)
      | ended a well => exact absurd hn (by simp [Stage.next])
      | reported =>
        cases i with
        | report =>
          obtain rfl := Option.some.inj hn
          exact recounts_pass hd hi .report
        | gate b | hook b | launch b => exact absurd hn (by simp [Stage.next])
  | running i rest =>
    obtain ⟨rfl, hw, b, hb, rfl⟩ := hp
    cases n with
    | ended a well =>
      simp only [Stage.next] at hn
      split at hn
      next ha =>
        -- it is the one that had begun
        obtain rfl : b = a := Option.some.inj (hb.symm.trans ha)
        exact Option.some.inj hn ▸ recounts_ended hd hi hw hb well
      next => exact absurd hn (by simp)
    | began a | refused a | reported => exact absurd hn (by simp [Stage.next])
  | stopped => exact absurd hn (by simp [Stage.next])

/-- **What a script's events tell**: the items done, in order, each with its own events, and
what there is of the item that is running or that ended the script. -/
theorem recounts_of_runs [DecidableEq α] {items : List (Item α)} : ∀ {events before : List (Event α)}
    {p p' : Stage α}, Recounts items before p → runs Stage.next p events = some p' →
      Recounts items (before ++ events) p'
  | [], before, p, p', h, hr => by
    rw [List.append_nil]
    exact Option.some.inj hr ▸ h
  | n :: events, before, p, p', h, hr => by
    obtain ⟨q, hq, hr⟩ := runs_cons.mp hr
    rw [List.append_cons]
    exact recounts_of_runs (recounts_next h hq) hr

end Systeml.Lib.Script
