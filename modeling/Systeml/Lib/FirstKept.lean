import Systeml.Lib.IndexMap

/-!
# Maps where the first value stays

`orInsert` sets a key that is not there yet. A list of pairs collected so maps each key to
its first value (`get?_foldl_orInsert`), whether it is gone through at once or in chunks.
-/

namespace Systeml.Lib

variable {K V : Type} [DecidableEq K]

namespace IndexMap

/-- Set the value of `k` if there is none. -/
def orInsert (m : IndexMap K V) (k : K) (v : V) : IndexMap K V :=
  if m.contains k then m else m.insert k v

theorem get?_orInsert (m : IndexMap K V) (k k' : K) (v : V) :
    (m.orInsert k v).get? k' = (m.get? k').or (if k = k' then some v else none) := by
  unfold orInsert contains
  by_cases hk : k = k'
  · subst hk
    rw [if_pos rfl]
    cases h : m.get? k with
    | none => simp
    | some w => simp [h]
  · rw [if_neg hk, Option.or_none]
    split
    · rfl
    · exact get?_insert_ne (fun he => hk he.symm) m v

/-- The first value of a key among the pairs. -/
def first (l : List (K × V)) (k : K) : Option V := (l.find? fun x => x.1 = k).map Prod.snd

theorem first_cons (x : K × V) (l : List (K × V)) (k : K) :
    first (x :: l) k = if x.1 = k then some x.2 else first l k := by
  unfold first
  by_cases hk : x.1 = k
  · rw [List.find?_cons_of_pos (by simpa using hk), if_pos hk]
    rfl
  · rw [List.find?_cons_of_neg (by simpa using hk), if_neg hk]

theorem first_append (l l' : List (K × V)) (k : K) :
    first (l ++ l') k = (first l k).or (first l' k) := by
  unfold first
  rw [List.find?_append]
  cases l.find? fun x => x.1 = k <;> rfl

theorem first_flatMap {α : Type} (f : α → List (K × V)) (k : K) : ∀ l : List α,
    first (l.flatMap f) k = l.findSome? fun a => first (f a) k
  | [] => rfl
  | a :: l => by
    rw [List.flatMap_cons, first_append, first_flatMap f k l, List.findSome?_cons]
    cases first (f a) k <;> rfl

/-- Collecting pairs keeps the first value of each key. -/
theorem get?_foldl_orInsert (k : K) : ∀ (l : List (K × V)) (m : IndexMap K V),
    (l.foldl (fun m x => m.orInsert x.1 x.2) m).get? k = (m.get? k).or (first l k)
  | [], m => by rw [List.foldl_nil, show first ([] : List (K × V)) k = none from rfl, Option.or_none]
  | x :: l, m => by
    rw [List.foldl_cons, get?_foldl_orInsert k l, get?_orInsert, first_cons, Option.or_assoc]
    split <;> rfl

/-- Whichever value stays, the keys are those of the pairs. -/
theorem mem_keys_ofList {l : List (K × V)} {k : K} :
    k ∈ (ofList l).keys ↔ k ∈ l.map Prod.fst := by
  have hall : ∀ (l : List (K × V)) (m : IndexMap K V),
      k ∈ (l.foldl (fun m x => m.insert x.1 x.2) m).keys ↔ k ∈ m.keys ∨ k ∈ l.map Prod.fst := by
    intro l
    induction l with
    | nil => exact fun m => by simp
    | cons x l ih =>
      intro m
      rw [List.foldl_cons, ih, mem_keys_insert, List.map_cons, List.mem_cons]
      tauto
  rw [ofList, hall]
  simp

end IndexMap

end Systeml.Lib
