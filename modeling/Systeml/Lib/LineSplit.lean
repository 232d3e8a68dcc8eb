import Mathlib.Data.List.Basic

/-!
# Lines of a growing sequence

A sequence cut at every occurrence of a separator into its complete lines and the
rest behind the last separator. `cut_append` is what lets a reader take the
sequence in chunks: the lines of a concatenation are those of its first part,
followed by those of the rest of it together with the second part.
-/

namespace Systeml.Lib

variable {α : Type} [DecidableEq α] {sep : α}

/-- Put an element in front of the first line, complete or not. -/
def consHead (x : α) : List (List α) × List α → List (List α) × List α
  | ([], rest) => ([], x :: rest)
  | (l :: ls, rest) => ((x :: l) :: ls, rest)

/-- The complete lines, without their separators, and the rest. -/
def cut (sep : α) : List α → List (List α) × List α
  | [] => ([], [])
  | x :: xs => if x = sep then ([] :: (cut sep xs).1, (cut sep xs).2) else consHead x (cut sep xs)

/-- The complete lines. -/
def completeLines (sep : α) (s : List α) : List (List α) := (cut sep s).1

/-- What stands behind the last separator. -/
def restLine (sep : α) (s : List α) : List α := (cut sep s).2

/-- The sequence is empty or ends with a separator. -/
def EndsLine (sep : α) (s : List α) : Prop := restLine sep s = []

instance (sep : α) (s : List α) : Decidable (EndsLine sep s) :=
  inferInstanceAs (Decidable (restLine sep s = []))

@[simp] theorem completeLines_nil : completeLines sep [] = [] := rfl

@[simp] theorem restLine_nil : restLine sep [] = [] := rfl

theorem cut_cons_sep (s : List α) :
    cut sep (sep :: s) = ([] :: completeLines sep s, restLine sep s) :=
  if_pos rfl

theorem cut_cons_ne {x : α} (h : x ≠ sep) (s : List α) :
    cut sep (x :: s) = consHead x (cut sep s) :=
  if_neg h

theorem completeLines_cons_sep (s : List α) :
    completeLines sep (sep :: s) = [] :: completeLines sep s := by
  unfold completeLines
  rw [cut_cons_sep]
  rfl

theorem restLine_cons_sep (s : List α) : restLine sep (sep :: s) = restLine sep s := by
  unfold restLine
  rw [cut_cons_sep]
  rfl

/-- Without a separator there is only an open line. -/
theorem cut_of_notMem : ∀ {l : List α}, sep ∉ l → cut sep l = ([], l)
  | [], _ => rfl
  | x :: l, h => by
    rw [List.mem_cons, not_or] at h
    rw [cut_cons_ne (Ne.symm h.1), cut_of_notMem h.2]
    rfl

/-- The first separator ends the first line. -/
theorem cut_append_sep (t : List α) : ∀ {l : List α}, sep ∉ l →
    cut sep (l ++ sep :: t) = (l :: completeLines sep t, restLine sep t)
  | [], _ => cut_cons_sep t
  | x :: l, h => by
    rw [List.mem_cons, not_or] at h
    rw [List.cons_append, cut_cons_ne (Ne.symm h.1), cut_append_sep t h.2]
    rfl

/-- **Cutting in chunks.** -/
theorem cut_append (sep : α) (s t : List α) :
    cut sep (s ++ t) = (completeLines sep s ++ completeLines sep (restLine sep s ++ t),
      restLine sep (restLine sep s ++ t)) := by
  induction s with
  | nil => rfl
  | cons x s ih =>
    by_cases hx : x = sep
    · subst hx
      rw [List.cons_append, cut_cons_sep, completeLines_cons_sep, restLine_cons_sep]
      unfold completeLines restLine
      rw [ih]
      rfl
    · rw [List.cons_append, cut_cons_ne hx, ih]
      unfold completeLines restLine
      rw [cut_cons_ne hx s]
      cases cut sep s with
      | mk ls rest =>
        cases ls with
        | nil =>
          -- the first line is still open, so `x` joins what the chunks continue
          show consHead x (cut sep (rest ++ t)) = cut sep (x :: (rest ++ t))
          rw [cut_cons_ne hx]
        | cons l ls => rfl

theorem completeLines_append (sep : α) (s t : List α) : completeLines sep (s ++ t) =
    completeLines sep s ++ completeLines sep (restLine sep s ++ t) := by
  have h := cut_append sep s t
  unfold completeLines at h ⊢
  rw [h]

theorem restLine_append (sep : α) (s t : List α) :
    restLine sep (s ++ t) = restLine sep (restLine sep s ++ t) := by
  have h := cut_append sep s t
  unfold restLine at h ⊢
  rw [h]

/-- Past the end of a line the lines start afresh. -/
theorem EndsLine.completeLines_append {s : List α} (h : EndsLine sep s) (t : List α) :
    completeLines sep (s ++ t) = completeLines sep s ++ completeLines sep t := by
  rw [Lib.completeLines_append, show restLine sep s = [] from h, List.nil_append]

theorem EndsLine.restLine_append {s : List α} (h : EndsLine sep s) (t : List α) :
    restLine sep (s ++ t) = restLine sep t := by
  rw [Lib.restLine_append, show restLine sep s = [] from h, List.nil_append]

/-- The complete lines of a shorter sequence come first. -/
theorem completeLines_take (sep : α) (s : List α) (n : Nat) :
    completeLines sep (s.take n) <+: completeLines sep s := by
  have h := completeLines_append sep (s.take n) (s.drop n)
  rw [List.take_append_drop] at h
  rw [h]
  exact List.prefix_append _ _

/-- Lines and rest, put together again. -/
theorem join_cut (sep : α) (s : List α) :
    ((completeLines sep s).map (· ++ [sep])).flatten ++ restLine sep s = s := by
  induction s with
  | nil => rfl
  | cons x s ih =>
    by_cases hx : x = sep
    · subst hx
      rw [completeLines_cons_sep, restLine_cons_sep]
      show x :: (((completeLines x s).map (· ++ [x])).flatten ++ restLine x s) = x :: s
      rw [ih]
    · unfold completeLines restLine at ih ⊢
      rw [cut_cons_ne hx s]
      cases hc : cut sep s with
      | mk ls rest =>
        rw [hc] at ih
        cases ls with
        | nil => exact congrArg (x :: ·) ih
        | cons l ls => exact congrArg (x :: ·) ih

/-- A sequence that ends a line is its lines. -/
theorem EndsLine.eq_flatten {s : List α} (h : EndsLine sep s) :
    ((completeLines sep s).map (· ++ [sep])).flatten = s := by
  have hjoin := join_cut sep s
  rw [show restLine sep s = [] from h, List.append_nil] at hjoin
  exact hjoin

end Systeml.Lib
