import Mathlib.Logic.Function.Basic
import Mathlib.Data.List.Induction

/-!
# Records read from assignments

A record has fields with one value (`val`) and fields that collect (`list`). An
assignment sets some of the former, or adds to one of the latter, or is refused. Reading
a sequence of assignments applies them one after the other, up to the first that is
refused. So it succeeds when each of them is accepted (`readAll_isOk`), a collecting
field holds what the assignments gave it, in their order, and a field with one value
holds what the last assignment to it gave (`readAll_ok`).
-/

namespace Systeml.Lib

/-- Fields that hold one value, and fields that collect. -/
structure Record {F L : Type} (Ty : F → Type) (Elem : L → Type) where
  val : (f : F) → Ty f
  list : (l : L) → List (Elem l)

/-- What an assignment of a value of type `V` does, or why it is refused. -/
inductive Action (V ε : Type) {F L : Type} (Ty : F → Type) (Elem : L → Type) where
  /-- Set fields, each to what is read for it. -/
  | assign (sets : List ((f : F) × (V → Except ε (Ty f))))
  /-- Add what is read to a field that collects. -/
  | append (l : L) (read : V → Except ε (List (Elem l)))

variable {V ε E F L : Type} {Ty : F → Type} {Elem : L → Type}

namespace Record

section Val

variable [DecidableEq F]

/-- The record with another value in one field. -/
def set (r : Record Ty Elem) (f : F) (x : Ty f) : Record Ty Elem :=
  { r with val := Function.update r.val f x }

@[simp] theorem set_val_self (r : Record Ty Elem) (f : F) (x : Ty f) : (r.set f x).val f = x :=
  Function.update_self ..

@[simp] theorem set_val_ne {f g : F} (h : g ≠ f) (r : Record Ty Elem) (x : Ty f) :
    (r.set f x).val g = r.val g := Function.update_of_ne h ..

@[simp] theorem set_list (r : Record Ty Elem) (f : F) (x : Ty f) : (r.set f x).list = r.list := rfl

end Val

section List

variable [DecidableEq L]

/-- The record with more in one of the fields that collect. -/
def add (r : Record Ty Elem) (l : L) (xs : List (Elem l)) : Record Ty Elem :=
  { r with list := Function.update r.list l (r.list l ++ xs) }

@[simp] theorem add_val (r : Record Ty Elem) (l : L) (xs : List (Elem l)) :
    (r.add l xs).val = r.val := rfl

@[simp] theorem add_list_self (r : Record Ty Elem) (l : L) (xs : List (Elem l)) :
    (r.add l xs).list l = r.list l ++ xs := Function.update_self ..

@[simp] theorem add_list_ne {l m : L} (h : m ≠ l) (r : Record Ty Elem) (xs : List (Elem l)) :
    (r.add l xs).list m = r.list m := Function.update_of_ne h ..

end List

end Record

variable [DecidableEq F] [DecidableEq L]

namespace Action

/-- Set one field. -/
def set (f : F) (read : V → Except ε (Ty f)) : Action V ε Ty Elem := .assign [⟨f, read⟩]

/-- Add one element. -/
def push (l : L) (read : V → Except ε (Elem l)) : Action V ε Ty Elem :=
  .append l fun v => (read v).map fun x => [x]

/-- Apply an assignment. -/
def run (v : V) (r : Record Ty Elem) : Action V ε Ty Elem → Except ε (Record Ty Elem)
  | assign sets => sets.foldlM (fun r s => (s.2 v).map (r.set s.1)) r
  | append l read => (read v).map (r.add l)

/-- The value is accepted. -/
def Accepts (v : V) : Action V ε Ty Elem → Prop
  | assign sets => ∀ s ∈ sets, ∃ x, s.2 v = .ok x
  | append _ read => ∃ xs, read v = .ok xs

/-- The field that an assignment adds to. -/
def target : Action V ε Ty Elem → Option L
  | assign _ => none
  | append l _ => some l

/-- The fields that an assignment sets. -/
def fields : Action V ε Ty Elem → List F
  | assign sets => sets.map (·.1)
  | append _ _ => []

/-- What an assignment adds to a field. -/
def given (v : V) (l : L) : Action V ε Ty Elem → List (Elem l)
  | assign _ => []
  | append m read =>
    match read v with
    | .ok xs => if h : m = l then h ▸ xs else []
    | .error _ => []

/-- What the last of these gives a field. -/
def taken (v : V) (f : F) : List ((f : F) × (V → Except ε (Ty f))) → Option (Ty f)
  | [] => none
  | s :: sets =>
    (taken v f sets).or (if h : s.1 = f then (s.2 v).toOption.map fun x => h ▸ x else none)

/-- The value that an assignment gives a field. -/
def sets (v : V) (f : F) : Action V ε Ty Elem → Option (Ty f)
  | assign ss => taken v f ss
  | append _ _ => none

omit [DecidableEq F] in
theorem given_of_target {v : V} {l : L} {a : Action V ε Ty Elem} (h : a.target ≠ some l) :
    a.given v l = [] := by
  cases a with
  | assign sets => rfl
  | append m read =>
    have hm : m ≠ l := fun he => h (congrArg some he)
    simp only [given]
    cases read v with
    | error e => rfl
    | ok xs => exact dif_neg hm

omit [DecidableEq L] in
theorem taken_of_not_mem {v : V} {f : F} : ∀ {ss : List ((f : F) × (V → Except ε (Ty f)))},
    f ∉ ss.map (·.1) → taken v f ss = none
  | [], _ => rfl
  | s :: ss, h => by
    have hne : s.1 ≠ f := fun he => h (he ▸ List.mem_cons_self)
    rw [taken, taken_of_not_mem fun hm => h (List.mem_cons_of_mem _ hm), dif_neg hne]
    rfl

omit [DecidableEq L] in
theorem sets_of_fields {v : V} {f : F} {a : Action V ε Ty Elem} (h : f ∉ a.fields) :
    a.sets v f = none := by
  cases a with
  | assign ss => exact taken_of_not_mem h
  | append m read => rfl

omit [DecidableEq F] in
theorem given_append {v : V} {l : L} {read : V → Except ε (List (Elem l))} {xs : List (Elem l)}
    (h : read v = .ok xs) : (append l read : Action V ε Ty Elem).given v l = xs := by
  simp [given, h]

theorem run_assign {v : V} : ∀ {ss : List ((f : F) × (V → Except ε (Ty f)))}
    {r r' : Record Ty Elem}, (assign ss).run v r = .ok r' →
    r'.list = r.list ∧ ∀ f, r'.val f = (taken v f ss).getD (r.val f)
  | [], r, r', h => by
    obtain rfl : r = r' := Except.ok.inj h
    exact ⟨rfl, fun f => rfl⟩
  | s :: ss, r, r', h => by
    cases hs : s.2 v with
    | error e =>
      have herr : (assign (s :: ss) : Action V ε Ty Elem).run v r = .error e := by
        simp only [run, List.foldlM_cons, hs]
        rfl
      rw [herr] at h
      exact absurd h (by simp)
    | ok x =>
      have hrest : (assign ss : Action V ε Ty Elem).run v (r.set s.1 x) = .ok r' := by
        rw [← h]
        simp only [run, List.foldlM_cons, hs]
        rfl
      obtain ⟨hlist, hval⟩ := run_assign hrest
      refine ⟨hlist, fun f => ?_⟩
      rw [hval, taken, hs]
      cases taken v f ss with
      | some y => rfl
      | none =>
        by_cases hf : s.1 = f
        · subst hf
          simp [Except.toOption]
        · have hne : f ≠ s.1 := fun he => hf he.symm
          simp [hf, hne]

/-- What an accepted assignment does. -/
theorem run_ok {v : V} {r r' : Record Ty Elem} {a : Action V ε Ty Elem} (h : a.run v r = .ok r') :
    (∀ l, r'.list l = r.list l ++ a.given v l) ∧ ∀ f, r'.val f = (a.sets v f).getD (r.val f) := by
  cases a with
  | assign ss =>
    obtain ⟨hlist, hval⟩ := run_assign h
    refine ⟨fun l => ?_, hval⟩
    rw [hlist]
    exact (List.append_nil _).symm
  | append m read =>
    cases hr : read v with
    | error e =>
      simp only [run, hr] at h
      exact absurd h (by simp [Except.map])
    | ok xs =>
      simp only [run, hr] at h
      obtain rfl := Except.ok.inj h
      refine ⟨fun l => ?_, fun f => rfl⟩
      by_cases hl : m = l
      · subst hl
        rw [Record.add_list_self, given_append hr]
      · have hne : l ≠ m := fun he => hl he.symm
        rw [Record.add_list_ne hne, given_of_target (by simpa [target] using hl),
          List.append_nil]

theorem run_isOk {v : V} {a : Action V ε Ty Elem} (r : Record Ty Elem) :
    (∃ r', a.run v r = .ok r') ↔ a.Accepts v := by
  cases a with
  | append m read =>
    simp only [run, Accepts]
    cases hr : read v with
    | error e => simp [Except.map]
    | ok xs => simp [Except.map]
  | assign ss =>
    induction ss generalizing r with
    | nil => exact ⟨fun _ s hs => absurd hs List.not_mem_nil, fun _ => ⟨r, rfl⟩⟩
    | cons s ss ih =>
      cases hs : s.2 v with
      | error e =>
        have herr : (assign (s :: ss) : Action V ε Ty Elem).run v r = .error e := by
          simp only [run, List.foldlM_cons, hs]
          rfl
        constructor
        · intro h
          obtain ⟨r', h⟩ := h
          rw [herr] at h
          exact absurd h (by simp)
        · intro h
          obtain ⟨x, hx⟩ := h s List.mem_cons_self
          rw [hs] at hx
          exact absurd hx (by simp)
      | ok x =>
        have hrest : (assign (s :: ss) : Action V ε Ty Elem).run v r =
            (assign ss : Action V ε Ty Elem).run v (r.set s.1 x) := by
          simp only [run, List.foldlM_cons, hs]
          rfl
        rw [hrest, ih]
        constructor
        · intro h t ht
          cases List.mem_cons.mp ht with
          | inl he => exact ⟨he ▸ x, by subst he; exact hs⟩
          | inr ht => exact h t ht
        · intro h t ht
          exact h t (List.mem_cons_of_mem s ht)

end Action

/-! ## A sequence of assignments -/

section Read

variable (act : E → Action V ε Ty Elem) (value : E → V)

/-- Apply the assignments one after the other. An error says which one is refused. -/
def readAll : List E → Record Ty Elem → Except (E × ε) (Record Ty Elem)
  | [], r => .ok r
  | e :: es, r =>
    match (act e).run (value e) r with
    | .ok r => readAll es r
    | .error x => .error (e, x)

/-- What the last assignment to a field gives it. -/
def lastSet (f : F) (es : List E) : Option (Ty f) :=
  es.reverse.findSome? fun e => (act e).sets (value e) f

variable {act value}

omit [DecidableEq L] in
theorem lastSet_append (f : F) (es es' : List E) :
    lastSet act value f (es ++ es') = (lastSet act value f es').or (lastSet act value f es) := by
  unfold lastSet
  rw [List.reverse_append, List.findSome?_append]

theorem readAll_isOk : ∀ {es : List E} (r : Record Ty Elem),
    (∃ r', readAll act value es r = .ok r') ↔ ∀ e ∈ es, (act e).Accepts (value e)
  | [], r => ⟨fun _ e he => absurd he List.not_mem_nil, fun _ => ⟨r, rfl⟩⟩
  | e :: es, r => by
    unfold readAll
    cases ha : (act e).run (value e) r with
    | error x =>
      have hno : ¬ (act e).Accepts (value e) := by
        intro h
        obtain ⟨r', hr'⟩ := (Action.run_isOk r).mpr h
        rw [ha] at hr'
        exact absurd hr' (by simp)
      constructor
      · intro h
        exact absurd h (by simp)
      · intro h
        exact absurd (h e List.mem_cons_self) hno
    | ok s =>
      have hyes : (act e).Accepts (value e) := (Action.run_isOk r).mp ⟨s, ha⟩
      rw [readAll_isOk s]
      constructor
      · intro h e' he'
        cases List.mem_cons.mp he' with
        | inl heq => exact heq ▸ hyes
        | inr he' => exact h e' he'
      · intro h e' he'
        exact h e' (List.mem_cons_of_mem e he')

/-- What reading leaves in each field. -/
theorem readAll_ok : ∀ {es : List E} {r r' : Record Ty Elem},
    readAll act value es r = .ok r' →
    (∀ l, r'.list l = r.list l ++ es.flatMap fun e => (act e).given (value e) l) ∧
      ∀ f, r'.val f = (lastSet act value f es).getD (r.val f)
  | [], r, r', h => by
    obtain rfl : r = r' := Except.ok.inj h
    exact ⟨fun l => (List.append_nil _).symm, fun f => rfl⟩
  | e :: es, r, r', h => by
    unfold readAll at h
    cases ha : (act e).run (value e) r with
    | error x =>
      rw [ha] at h
      exact absurd h (by simp)
    | ok s =>
      rw [ha] at h
      obtain ⟨hlist, hval⟩ := Action.run_ok ha
      obtain ⟨hlist', hval'⟩ := readAll_ok h
      constructor
      · intro l
        rw [hlist', hlist, List.append_assoc]
        rfl
      · intro f
        have hcons : lastSet act value f ([e] ++ es) =
            (lastSet act value f es).or (lastSet act value f [e]) := lastSet_append f [e] es
        have hone : lastSet act value f [e] = (act e).sets (value e) f := by
          unfold lastSet
          rw [List.reverse_singleton, List.findSome?_singleton]
        rw [hval', hval, show e :: es = [e] ++ es from rfl, hcons, hone]
        cases lastSet act value f es <;> rfl

end Read

end Systeml.Lib
