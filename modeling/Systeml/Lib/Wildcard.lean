import Mathlib.Data.List.Forall2

/-!
# Wildcard patterns

A pattern is a list of symbols, and a text matches it if it can be cut into consecutive
pieces, one for each symbol (`Splits`). What the first symbol of a pattern takes can be
read off the text from the left, which is how matchers go about it.
-/

namespace Systeml.Lib

variable {α : Type}

/-- A symbol of a pattern. -/
inductive Wild (α : Type) where
  /-- Any text, also the empty one. -/
  | many
  /-- Any single letter. -/
  | one
  | lit (a : α)
  deriving DecidableEq, Repr

/-- What a symbol matches. -/
def Wild.Takes : Wild α → List α → Prop
  | .many, _ => True
  | .one, piece => piece.length = 1
  | .lit a, piece => piece = [a]

/-- The text can be cut into pieces that the symbols match, in their order. -/
def Splits (ws : List (Wild α)) (s : List α) : Prop :=
  ∃ pieces, List.Forall₂ Wild.Takes ws pieces ∧ pieces.flatten = s

variable {w : Wild α} {ws : List (Wild α)} {s : List α}

@[simp] theorem splits_nil : Splits [] s ↔ s = [] := by
  constructor
  · rintro ⟨pieces, hall, rfl⟩
    cases hall
    rfl
  · rintro rfl
    exact ⟨[], .nil, rfl⟩

theorem splits_cons : Splits (w :: ws) s ↔ ∃ piece rest, w.Takes piece ∧ s = piece ++ rest ∧
    Splits ws rest := by
  constructor
  · rintro ⟨pieces, hall, rfl⟩
    cases hall with
    | cons hw hws => exact ⟨_, _, hw, rfl, _, hws, rfl⟩
  · rintro ⟨piece, rest, hw, rfl, pieces, hws, rfl⟩
    exact ⟨piece :: pieces, .cons hw hws, rfl⟩

/-- A symbol that takes single letters takes the first one. -/
theorem splits_single {p : α → Prop} (h : ∀ piece, w.Takes piece ↔ ∃ a, piece = [a] ∧ p a) :
    Splits (w :: ws) s ↔ ∃ a rest, s = a :: rest ∧ p a ∧ Splits ws rest := by
  rw [splits_cons]
  constructor
  · rintro ⟨piece, rest, hw, rfl, hrest⟩
    obtain ⟨a, rfl, ha⟩ := (h piece).mp hw
    exact ⟨a, rest, rfl, ha, hrest⟩
  · rintro ⟨a, rest, rfl, ha, hrest⟩
    exact ⟨[a], rest, (h [a]).mpr ⟨a, rfl, ha⟩, rfl, hrest⟩

theorem splits_one : Splits (.one :: ws) s ↔ ∃ a rest, s = a :: rest ∧ Splits ws rest := by
  have h : ∀ piece : List α, Wild.one.Takes piece ↔ ∃ a, piece = [a] ∧ True := by
    intro piece
    simp [Wild.Takes, List.length_eq_one_iff]
  simpa using splits_single h

theorem splits_lit {a : α} : Splits (.lit a :: ws) s ↔ ∃ rest, s = a :: rest ∧ Splits ws rest := by
  have h : ∀ piece : List α, (Wild.lit a).Takes piece ↔ ∃ b, piece = [b] ∧ b = a := by
    intro piece
    simp [Wild.Takes]
  rw [splits_single h]
  constructor
  · rintro ⟨b, rest, hs, rfl, hrest⟩
    exact ⟨rest, hs, hrest⟩
  · rintro ⟨rest, hs, hrest⟩
    exact ⟨a, rest, hs, rfl, hrest⟩

/-- `many` takes nothing, or one letter before it takes the others. -/
theorem splits_many : Splits (.many :: ws) s ↔ Splits ws s ∨
    ∃ a rest, s = a :: rest ∧ Splits (.many :: ws) rest := by
  constructor
  · intro h
    obtain ⟨piece, rest, -, rfl, hrest⟩ := splits_cons.mp h
    cases piece with
    | nil => exact Or.inl hrest
    | cons a piece =>
      exact Or.inr ⟨a, piece ++ rest, rfl, splits_cons.mpr ⟨piece, rest, trivial, rfl, hrest⟩⟩
  · rintro (h | ⟨a, rest, rfl, h⟩)
    · exact splits_cons.mpr ⟨[], s, trivial, rfl, h⟩
    · obtain ⟨piece, rest, -, rfl, hrest⟩ := splits_cons.mp h
      exact splits_cons.mpr ⟨a :: piece, rest, trivial, rfl, hrest⟩

/-! ## From the left -/

@[simp] theorem splits_one_nil : ¬ Splits (.one :: ws) ([] : List α) := by
  simp [splits_one]

@[simp] theorem splits_one_cons {a : α} : Splits (.one :: ws) (a :: s) ↔ Splits ws s := by
  simp [splits_one]

@[simp] theorem splits_lit_nil {a : α} : ¬ Splits (.lit a :: ws) [] := by
  simp [splits_lit]

@[simp] theorem splits_lit_cons {a b : α} :
    Splits (.lit a :: ws) (b :: s) ↔ a = b ∧ Splits ws s := by
  simp [splits_lit, eq_comm]

@[simp] theorem splits_many_nil : Splits (.many :: ws) ([] : List α) ↔ Splits ws [] := by
  rw [splits_many]
  simp

@[simp] theorem splits_many_cons {a : α} :
    Splits (.many :: ws) (a :: s) ↔ Splits ws (a :: s) ∨ Splits (.many :: ws) s := by
  rw [splits_many]
  simp

end Systeml.Lib
