import Systeml.Lib.FirstKept

/-!
# Assignments one after the other

A program without branches is a list of assignments, each of a text to a variable. A text
is evaluated in what the assignments before it have left, and what it comes to depends on
the variables it reads and on no others.

The last assignment to a variable decides its value (`run_decided`). Going backwards from
some variables gives those that they depend on at the start (`live`) and the assignments
that they depend on (`slice`). Nothing else matters to them: two programs with one slice,
started where the live variables agree, leave the same in them (`run_slice_eq`).
-/

namespace Systeml.Lib

variable {K T V : Type} [DecidableEq K]

namespace IndexMap

/-- The last value of a key among the pairs. -/
def last (l : List (K × V)) (k : K) : Option V := first l.reverse k

@[simp] theorem last_nil (k : K) : last ([] : List (K × V)) k = none := rfl

theorem last_append (l l' : List (K × V)) (k : K) :
    last (l ++ l') k = (last l' k).or (last l k) := by
  unfold last
  rw [List.reverse_append, first_append]

theorem last_cons (x : K × V) (l : List (K × V)) (k : K) :
    last (x :: l) k = (last l k).or (if x.1 = k then some x.2 else none) := by
  rw [← List.singleton_append, last_append]
  show (last l k).or (first [x] k) = _
  rw [first_cons]
  rfl

/-- Setting pairs one after the other keeps the last value of each key. -/
theorem get?_foldl_insert (k : K) : ∀ (l : List (K × V)) (m : IndexMap K V),
    (l.foldl (fun m x => m.insert x.1 x.2) m).get? k = (last l k).or (m.get? k)
  | [], m => rfl
  | x :: l, m => by
    rw [List.foldl_cons, get?_foldl_insert k l, last_cons, Option.or_assoc]
    by_cases hx : x.1 = k
    · rw [if_pos hx, ← hx, get?_insert_self]
      rfl
    · rw [if_neg hx, get?_insert_ne (Ne.symm hx)]
      rfl

theorem get?_ofList (l : List (K × V)) (k : K) : (ofList l).get? k = last l k := by
  rw [ofList, get?_foldl_insert, get?_empty, Option.or_none]

end IndexMap

open IndexMap

/-- How a text is evaluated, and which variables it reads. -/
structure Reading (K T V : Type) [DecidableEq K] where
  eval : IndexMap K V → T → V
  reads : T → List K
  depends : ∀ (m m' : IndexMap K V) (t : T), (∀ x ∈ reads t, m.get? x = m'.get? x) →
    eval m t = eval m' t

namespace Reading

variable (r : Reading K T V)

/-- One assignment. -/
def assign (m : IndexMap K V) (a : K × T) : IndexMap K V := m.insert a.1 (r.eval m a.2)

/-- All assignments of a program. -/
def run (m : IndexMap K V) (p : List (K × T)) : IndexMap K V := p.foldl r.assign m

/-- The last assignment to a variable, with what stands before it. -/
def lastTo (k : K) : List (K × T) → Option (List (K × T) × T)
  | [] => none
  | a :: p =>
    match lastTo k p with
    | some (before, t) => some (a :: before, t)
    | none => if a.1 = k then some ([], a.2) else none

/-- The variables that these depend on, before one assignment. -/
def liveBefore (a : K × T) (xs : List K) : List K :=
  if a.1 ∈ xs then r.reads a.2 ++ xs.filter (· ≠ a.1) else xs

/-- The variables that these depend on, before the program. -/
def live (p : List (K × T)) (xs : List K) : List K := p.foldr r.liveBefore xs

/-- The assignments that these variables depend on. -/
def slice : List (K × T) → List K → List (K × T)
  | [], _ => []
  | a :: p, xs => if a.1 ∈ r.live p xs then a :: slice p xs else slice p xs

section Rules

variable {r} {m m' : IndexMap K V} {k : K} {xs : List K}

@[simp] theorem run_nil : r.run m [] = m := rfl

@[simp] theorem run_cons (a : K × T) (p : List (K × T)) :
    r.run m (a :: p) = r.run (r.assign m a) p := rfl

@[simp] theorem live_cons (a : K × T) (p : List (K × T)) :
    r.live (a :: p) xs = r.liveBefore a (r.live p xs) := rfl

theorem get?_assign_self (a : K × T) : (r.assign m a).get? a.1 = some (r.eval m a.2) :=
  get?_insert_self ..

theorem get?_assign_ne {a : K × T} (h : k ≠ a.1) : (r.assign m a).get? k = m.get? k :=
  get?_insert_ne h ..

/-- **The last assignment decides.** -/
theorem run_decided : ∀ {m : IndexMap K V} {p : List (K × T)}, (r.run m p).get? k =
    match lastTo k p with
    | some (before, t) => some (r.eval (r.run m before) t)
    | none => m.get? k
  | m, [] => rfl
  | m, a :: p => by
    rw [run_cons, run_decided, lastTo]
    cases h : lastTo k p with
    | some e => rfl
    | none =>
      by_cases ha : a.1 = k
      · subst ha
        simp [get?_assign_self]
      · simp [ha, get?_assign_ne (Ne.symm ha)]

/-- Where the variables agree that are live before an assignment, those agree after it that
are live then. -/
theorem assign_agree {a : K × T} (h : ∀ x ∈ r.liveBefore a xs, m.get? x = m'.get? x) :
    ∀ x ∈ xs, (r.assign m a).get? x = (r.assign m' a).get? x := by
  intro x hx
  unfold liveBefore at h
  by_cases hxa : x = a.1
  · subst hxa
    rw [if_pos hx] at h
    have heval : r.eval m a.2 = r.eval m' a.2 :=
      r.depends m m' a.2 fun y hy => h y (List.mem_append_left _ hy)
    rw [get?_assign_self, get?_assign_self, heval]
  · rw [get?_assign_ne hxa, get?_assign_ne hxa]
    apply h
    split
    next => exact List.mem_append_right _ (List.mem_filter.mpr ⟨hx, by simpa using hxa⟩)
    next => exact hx

/-- What a program leaves in some variables, its slice leaves in them. -/
theorem run_slice : ∀ (p : List (K × T)) {m m' : IndexMap K V},
    (∀ x ∈ r.live p xs, m.get? x = m'.get? x) →
    ∀ x ∈ xs, (r.run m p).get? x = (r.run m' (r.slice p xs)).get? x
  | [], _, _, h => h
  | a :: p, m, m', h => by
    rw [run_cons, slice]
    rw [live_cons] at h
    split
    next => exact run_slice p (assign_agree h)
    next hdead =>
      -- a dead assignment leaves the live variables alone
      rw [liveBefore, if_neg hdead] at h
      refine run_slice p fun x hx => ?_
      rw [get?_assign_ne fun he => hdead (he ▸ hx), h x hx]

/-- The slice depends on what the program depends on. -/
theorem live_slice : ∀ p : List (K × T), r.live (r.slice p xs) xs = r.live p xs
  | [] => rfl
  | a :: p => by
    rw [slice, live_cons]
    split
    next => rw [live_cons, live_slice p]
    next hdead => rw [live_slice p, liveBefore, if_neg hdead]

/-- **Programs with one slice agree**, if they start where the live variables do. -/
theorem run_slice_eq {p p' : List (K × T)} (hs : r.slice p xs = r.slice p' xs)
    (h : ∀ x ∈ r.live p xs, m.get? x = m'.get? x) :
    ∀ x ∈ xs, (r.run m p).get? x = (r.run m' p').get? x := by
  have hlive : r.live p' xs = r.live p xs := by
    rw [← live_slice p', ← hs, live_slice p]
  intro x hx
  rw [run_slice p h x hx, hs]
  exact (run_slice p' (fun _ _ => rfl) x hx).symm

end Rules

end Reading

end Systeml.Lib
