import Mathlib.Logic.Function.Basic

/-!
# A process's file descriptors

A table from numbers to open files, each with its close-on-exec flag. `dup2` makes one
number refer to the file of another and clears the flag of it, unless the two are the
same number, which it leaves as it is. Copying and clearing the flag afterwards makes up
for that (`dup2_keepOnExec`).
-/

namespace Systeml.Lib

variable {F : Type}

/-- An open file and the flag that closes it on `exec`. -/
structure Descriptor (F : Type) where
  file : F
  cloexec : Bool
  deriving DecidableEq, Repr

/-- The open descriptors by number. -/
abbrev Descriptors (F : Type) := Nat → Option (Descriptor F)

namespace Descriptors

/-- `dup2`: fails for a source that is not open. -/
def dup2 (t : Descriptors F) (src dst : Nat) : Option (Descriptors F) :=
  (t src).map fun d => if src = dst then t else Function.update t dst (some ⟨d.file, false⟩)

/-- Clear the close-on-exec flag. -/
def keepOnExec (t : Descriptors F) (fd : Nat) : Descriptors F :=
  Function.update t fd ((t fd).map fun d => ⟨d.file, false⟩)

theorem dup2_keepOnExec {t : Descriptors F} {src : Nat} {d : Descriptor F} (h : t src = some d)
    (dst : Nat) : (t.dup2 src dst).map (·.keepOnExec dst) =
      some (Function.update t dst (some ⟨d.file, false⟩)) := by
  unfold dup2 keepOnExec
  rw [h, Option.map_some, Option.map_some]
  by_cases hs : src = dst
  · subst hs
    rw [if_pos rfl, h, Option.map_some]
  · rw [if_neg hs, Function.update_self, Option.map_some, Function.update_idem]

end Descriptors

end Systeml.Lib
