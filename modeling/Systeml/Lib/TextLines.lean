import Mathlib.Data.List.TakeWhile
import Systeml.Lib.Text

/-!
# Lines that were written one after the other

A text made of lines, each with a line feed behind it, is read back line by line, less a
carriage return at the end of a line (`lines_flatMap`). That does not matter to a reader
who cuts white space (`trim_withoutReturn`).
-/

namespace Systeml.Lib

/-- A line without the carriage return at its end. -/
def withoutReturn (line : Str) : Str := (stripSuffix line ['\r']).getD line

/-- The lines of a text that ends with one. -/
theorem lines_flatMap : ∀ {ls : List Str}, (∀ l ∈ ls, '\n' ∉ l) →
    lines (ls.flatMap (· ++ ['\n'])) = ls.map withoutReturn := by
  intro ls h
  have hsplit := splitOn_flatMap_sep [] h
  rw [List.append_nil] at hsplit
  unfold lines
  rw [hsplit]
  clear hsplit h
  induction ls with
  | nil => rfl
  | cons l ls ih =>
    obtain ⟨x, xs, hx⟩ := List.exists_cons_of_ne_nil (l := ls ++ splitOn '\n' [])
      (List.append_ne_nil_of_right_ne_nil _ (splitOn_ne_nil _))
    rw [List.cons_append, List.map_cons, ← ih, hx, linesOf]
    · rfl
    · simp

/-! ## White space at the ends -/

theorem trim_of_white {s : Str} (h : ∀ c ∈ s, isWhitespace c = true) : trim s = [] := by
  unfold trim
  rw [List.dropWhile_eq_nil_iff.mpr h]
  rfl

theorem head_trim_cons {c : Char} {s : Str} (hc : isWhitespace c = false) :
    (trim (c :: s)).head? = some c := by
  have hstart : trimStart (c :: s) = c :: s := trimStart_of_head (by
    intro d hd
    obtain rfl := Option.some.inj hd
    exact hc)
  rw [trim_eq, hstart]
  obtain ⟨t, ht⟩ := trimEnd_isPrefix (c :: s)
  cases hend : trimEnd (c :: s) with
  | nil =>
    -- then all of it would be white space
    have hall : (c :: s).reverse.dropWhile isWhitespace = [] := List.reverse_eq_nil_iff.mp hend
    have hwhite := List.dropWhile_eq_nil_iff.mp hall c (by simp)
    rw [hc] at hwhite
    exact absurd hwhite (by simp)
  | cons d ds =>
    rw [hend] at ht
    exact congrArg some (List.cons.inj ht).1

theorem trim_concat {c : Char} (hc : isWhitespace c = true) (s : Str) :
    trim (s ++ [c]) = trim s := by
  unfold trim
  rw [List.dropWhile_append]
  split
  next hnil =>
    rw [List.isEmpty_iff.mp hnil, List.dropWhile_cons_of_pos hc]
    rfl
  next =>
    rw [List.reverse_append, List.reverse_singleton, List.singleton_append,
      List.dropWhile_cons_of_pos hc]

theorem trim_withoutReturn (line : Str) : trim (withoutReturn line) = trim line := by
  unfold withoutReturn
  cases h : stripSuffix line ['\r'] with
  | none => rfl
  | some a =>
    rw [stripSuffix_eq_some.mp h, trim_concat (by decide)]
    rfl

end Systeml.Lib
