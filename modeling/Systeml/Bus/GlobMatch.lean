import Systeml.Bus.ObjectPath
import Systeml.Lib.Wildcard

/-!
# Patterns of unit names

`ListUnitsByPatterns` matches unit names byte by byte with `*` and `?`. At a `*` the
matcher tries both to leave it behind and to have it take one byte more, so the answer
is that of the wildcard language (`globMatch_iff`).
-/

namespace Systeml.Bus

open Systeml.Lib

/-- `helper` of `glob_match`, on bytes: 42 is `*` and 63 is `?`. -/
def globHelper : List UInt8 → List UInt8 → Bool
  | [], [] => true
  | [], _ :: _ => false
  | a :: p, [] => if a = 42 then globHelper p [] else false
  | a :: p, b :: n =>
    if a = 42 then globHelper p (b :: n) || globHelper (a :: p) n
    else if a = 63 then globHelper p n
    else if a = b then globHelper p n
    else false
termination_by p n => p.length + n.length

/-- `glob_match`. -/
def globMatch (pattern name : Str) : Bool := globHelper (utf8 pattern) (utf8 name)

/-- The symbol that a byte of a pattern is. -/
def globSymbol (b : UInt8) : Wild UInt8 :=
  if b = 42 then .many else if b = 63 then .one else .lit b

@[simp] theorem globSymbol_star : globSymbol 42 = .many := rfl

@[simp] theorem globSymbol_question : globSymbol 63 = .one := rfl

theorem globSymbol_of_ne {b : UInt8} (hs : b ≠ 42) (hq : b ≠ 63) : globSymbol b = .lit b := by
  rw [globSymbol, if_neg hs, if_neg hq]

/-- The recursion follows what the first symbol takes. -/
theorem globHelper_iff (p n : List UInt8) :
    globHelper p n = true ↔ Splits (p.map globSymbol) n := by
  fun_induction globHelper p n with
  | case1 => simp
  | case2 b n => simp
  | case3 p ih => simpa using ih
  | case4 a p hstar =>
    by_cases hone : a = 63
    · simp [hone]
    · simp [globSymbol_of_ne hstar hone]
  | case5 p b n ih ih' =>
    rw [Bool.or_eq_true, ih, ih']
    simp
  | case6 p b n _ ih =>
    rw [ih]
    simp
  | case7 b n p hstar hone ih =>
    rw [ih]
    simp [globSymbol_of_ne hstar hone]
  | case8 a p b n hstar hone hne => simp [globSymbol_of_ne hstar hone, hne]

/-- **`glob_match` is the wildcard language**: it answers for every pattern and name, and
says yes exactly if the bytes of the name can be cut into pieces for the bytes of the
pattern. -/
theorem globMatch_iff (pattern name : Str) :
    globMatch pattern name = true ↔ Splits ((utf8 pattern).map globSymbol) (utf8 name) :=
  globHelper_iff _ _

end Systeml.Bus
