import Mathlib.Data.List.Lex
import Mathlib.Data.List.Induction
import Systeml.Lib.VisitOnce

/-!
# The first routes of a visit-once walk

Which requests a visit-once walk makes, told without the walk. Every request stands
at a place: `[i]` is the `i`-th pull of the list the walk starts from, and `ρ ++ [i]`
the `i`-th pull of the node that was first asked for at `ρ`. Places are ordered
lexicographically, so `Entries`, a table of nodes with a kind and a place, describes
a walk when every entry is a request, and no request on a node stands before its
entry (`FirstRoutes`). A pull that stands behind one that fails is not made.

`exists_firstRoutes`: there is such a table for every system with finitely many nodes.
-/

namespace Systeml.Lib

/-! ## Places -/

/-- Everything before `ρ`, and `ρ` with what is below it. -/
def Past (ρ π : List Nat) : Prop := π < ρ ∨ π = ρ ∨ ∃ j τ, π = ρ ++ j :: τ

theorem lt_snoc_iff {σ π : List Nat} {i : Nat} :
    π < σ ++ [i] ↔ π < σ ∨ π = σ ∨ ∃ j τ, j < i ∧ π = σ ++ j :: τ := by
  induction σ generalizing π with
  | nil =>
    cases π with
    | nil => simp
    | cons x t => simp [List.cons_lt_cons_iff]
  | cons s σ ih =>
    cases π with
    | nil => simp
    | cons x t =>
      simp only [List.cons_append, List.cons_lt_cons_iff, ih, List.cons.injEq]
      constructor
      · rintro (hx | ⟨rfl, ht | rfl | ⟨j, τ, hj, rfl⟩⟩)
        · exact .inl (.inl hx)
        · exact .inl (.inr ⟨rfl, ht⟩)
        · exact .inr (.inl ⟨rfl, rfl⟩)
        · exact .inr (.inr ⟨j, τ, hj, rfl, rfl⟩)
      · rintro ((hx | ⟨rfl, ht⟩) | ⟨rfl, rfl⟩ | ⟨j, τ, hj, rfl, rfl⟩)
        · exact .inl hx
        · exact .inr ⟨rfl, .inl ht⟩
        · exact .inr ⟨rfl, .inr (.inl rfl)⟩
        · exact .inr ⟨rfl, .inr (.inr ⟨j, τ, hj, rfl⟩)⟩

theorem lt_succ_iff {σ π : List Nat} {i : Nat} : π < σ ++ [i + 1] ↔ Past (σ ++ [i]) π := by
  unfold Past
  rw [lt_snoc_iff, lt_snoc_iff]
  constructor
  · rintro (h | h | ⟨j, τ, hj, rfl⟩)
    · exact .inl (.inl h)
    · exact .inl (.inr (.inl h))
    · by_cases he : j = i
      · subst he
        cases τ with
        | nil => exact .inr (.inl rfl)
        | cons x τ => exact .inr (.inr ⟨x, τ, by simp⟩)
      · exact .inl (.inr (.inr ⟨j, τ, by omega, rfl⟩))
  · rintro ((h | h | ⟨j, τ, hj, rfl⟩) | rfl | ⟨j, τ, rfl⟩)
    · exact .inl h
    · exact .inr (.inl h)
    · exact .inr (.inr ⟨j, τ, by omega, rfl⟩)
    · exact .inr (.inr ⟨i, [], by omega, rfl⟩)
    · exact .inr (.inr ⟨i, j :: τ, by omega, by simp⟩)

theorem lt_zero_iff {ρ π : List Nat} : π < ρ ++ [0] ↔ π < ρ ∨ π = ρ := by
  rw [lt_snoc_iff]
  simp

namespace PullSystem

variable {α κ ε : Type}

/-- The first request on each node that is asked: its kind and its place. -/
abbrev Entries (α κ : Type) := α → Option (κ × List Nat)

section Places

variable (P : PullSystem α κ ε) (init : List (Pull α κ ε)) (E : Entries α κ)

/-- The pulls below a place: the initial ones, and those of the node first asked for
there. -/
inductive Block : List Nat → List (Pull α κ ε) → Prop
  | top : Block [] init
  | node {a : α} {k : κ} {ρ : List Nat} (h : E a = some (k, ρ)) : Block ρ (P.pulls a k)

/-- The pull at `i` below `σ` fails: it aborts, or it hands on that its node is
rejected or that a pull of the node it enters fails. -/
inductive Fails : List Nat → Nat → Prop
  | abort {σ : List Nat} {ps : List (Pull α κ ε)} {i : Nat} {e : ε} (hb : Block P init E σ ps)
      (hp : ps[i]? = some (.abort e)) : Fails σ i
  | rejected {σ : List Nat} {ps : List (Pull α κ ε)} {i : Nat} {b : α} {j : κ}
      (hb : Block P init E σ ps) (hp : ps[i]? = some (.hard b j)) (hrej : P.reject b ≠ none) :
      Fails σ i
  | inner {σ : List Nat} {ps : List (Pull α κ ε)} {i n : Nat} {b : α} {j : κ}
      (hb : Block P init E σ ps) (hp : ps[i]? = some (.hard b j))
      (he : E b = some (j, σ ++ [i])) (h : Fails (σ ++ [i]) n) : Fails σ i

/-- The pull `p` at `i` below `σ` is made: none before it fails. -/
structure Made (σ : List Nat) (i : Nat) (p : Pull α κ ε) : Prop where
  stands : ∃ ps, Block P init E σ ps ∧ ps[i]? = some p
  reached : ∀ n < i, ¬ Fails P init E σ n

/-- `j` is requested on the accepted node `b` at `π`. -/
def Asked (b : α) (j : κ) (π : List Nat) : Prop :=
  P.reject b = none ∧ ∃ σ i p, π = σ ++ [i] ∧ Made P init E σ i p ∧ p.Requests b j

/-- The kinds that `b` is asked for, in the order of the places. -/
def Sequence (b : α) (ks : List κ) : Prop :=
  ∃ l : List (κ × List Nat), ks = l.map Prod.fst ∧ l.Pairwise (fun x y => x.2 < y.2) ∧
    ∀ x, x ∈ l ↔ Asked P init E b x.1 x.2

/-- Every entry is a request. -/
structure Rooted : Prop where
  asked : ∀ {a k ρ}, E a = some (k, ρ) → Asked P init E a k ρ

/-- And the first one on its node. -/
structure FirstRoutes : Prop extends Rooted P init E where
  least : ∀ {b j π}, Asked P init E b j π → ∃ k ρ, E b = some (k, ρ) ∧ ρ ≤ π

end Places

variable {P : PullSystem α κ ε} {init : List (Pull α κ ε)} {E : Entries α κ}

theorem requests_unique {p : Pull α κ ε} {b b' : α} {j j' : κ} (h : p.Requests b j)
    (h' : p.Requests b' j') : b = b' ∧ j = j' := by
  rcases h with rfl | rfl <;> rcases h' with h' | h' <;> simp_all

/-! ## What stands at a place -/

theorem Asked.snoc {b : α} {j : κ} {σ : List Nat} {i : Nat} (h : P.Asked init E b j (σ ++ [i])) :
    P.reject b = none ∧ ∃ p, P.Made init E σ i p ∧ p.Requests b j := by
  obtain ⟨hrej, σ', i', p, he, hm, hr⟩ := h
  obtain ⟨rfl, hi⟩ := List.append_inj' he rfl
  obtain rfl := (List.cons.inj hi).1
  exact ⟨hrej, p, hm, hr⟩

theorem Asked.exists_snoc {b : α} {j : κ} {π : List Nat} (h : P.Asked init E b j π) :
    ∃ σ i, π = σ ++ [i] := by
  obtain ⟨-, σ, i, -, he, -⟩ := h
  exact ⟨σ, i, he⟩

theorem Made.asked {σ : List Nat} {i : Nat} {p : Pull α κ ε} {b : α} {j : κ}
    (h : P.Made init E σ i p) (hrej : P.reject b = none) (hr : p.Requests b j) :
    P.Asked init E b j (σ ++ [i]) := ⟨hrej, σ, i, p, rfl, h, hr⟩

namespace Rooted

variable (h : P.Rooted init E)

include h

theorem ne_nil {a : α} {k : κ} {ρ : List Nat} (he : E a = some (k, ρ)) : ρ ≠ [] := by
  obtain ⟨σ, i, rfl⟩ := (h.asked he).exists_snoc
  simp

theorem block_unique : ∀ (n : Nat) {σ : List Nat} {ps ps' : List (Pull α κ ε)}, σ.length = n →
    P.Block init E σ ps → P.Block init E σ ps' → ps = ps' := by
  intro n
  induction n with
  | zero =>
    intro σ ps ps' hn hb hb'
    obtain rfl := List.length_eq_zero_iff.mp hn
    generalize hσ : ([] : List Nat) = σ at hb hb'
    cases hb with
    | node he => exact absurd hσ.symm (h.ne_nil he)
    | top =>
      generalize hσ' : ([] : List Nat) = σ at hb'
      cases hb' with
      | node he => exact absurd hσ'.symm (h.ne_nil he)
      | top => rfl
  | succ n ih =>
    intro σ ps ps' hn hb hb'
    cases hb with
    | top => simp at hn
    | node he =>
      cases hb' with
      | top => simp at hn
      | node he' =>
        -- both entries are what the one pull at their place requests
        obtain ⟨σ, i, rfl⟩ := (h.asked he).exists_snoc
        obtain ⟨-, p, ⟨⟨qs, hq, hp⟩, -⟩, hr⟩ := (h.asked he).snoc
        obtain ⟨-, p', ⟨⟨qs', hq', hp'⟩, -⟩, hr'⟩ := (h.asked he').snoc
        obtain rfl := ih (by simpa using hn) hq hq'
        obtain rfl := Option.some.inj (hp.symm.trans hp')
        obtain ⟨rfl, rfl⟩ := requests_unique hr hr'
        rfl

theorem made_unique {σ : List Nat} {i : Nat} {p p' : Pull α κ ε} (hm : P.Made init E σ i p)
    (hm' : P.Made init E σ i p') : p = p' := by
  obtain ⟨ps, hb, hp⟩ := hm.stands
  obtain ⟨ps', hb', hp'⟩ := hm'.stands
  obtain rfl := h.block_unique _ rfl hb hb'
  exact Option.some.inj (hp.symm.trans hp')

theorem asked_unique {b b' : α} {j j' : κ} {π : List Nat} (hb : P.Asked init E b j π)
    (hb' : P.Asked init E b' j' π) : b = b' ∧ j = j' := by
  obtain ⟨σ, i, rfl⟩ := hb.exists_snoc
  obtain ⟨-, p, hm, hr⟩ := hb.snoc
  obtain ⟨-, p', hm', hr'⟩ := hb'.snoc
  obtain rfl := h.made_unique hm hm'
  exact requests_unique hr hr'

/-- What is asked below a place goes through one of the pulls that are made there. -/
theorem below_made {b : α} {j : κ} {ρ τ : List Nat} {i : Nat}
    (ha : P.Asked init E b j (ρ ++ i :: τ)) : ∃ p, P.Made init E ρ i p := by
  induction τ using List.reverseRecOn generalizing b j with
  | nil =>
    obtain ⟨-, p, hm, -⟩ := ha.snoc
    exact ⟨p, hm⟩
  | append_singleton τ n ih =>
    have hsplit : ρ ++ i :: (τ ++ [n]) = (ρ ++ i :: τ) ++ [n] := by simp
    rw [hsplit] at ha
    obtain ⟨-, p, ⟨⟨ps, hb, -⟩, -⟩, -⟩ := ha.snoc
    generalize hσ : ρ ++ i :: τ = σ at hb
    cases hb with
    | top => simp at hσ
    | node he => exact ih (hσ ▸ h.asked he)

/-- Nothing is asked below a place where no node is entered. -/
theorem not_below {b : α} {j : κ} {ρ τ : List Nat} {i : Nat} (hρ : ρ ≠ [])
    (hno : ∀ a k, E a ≠ some (k, ρ)) : ¬ P.Asked init E b j (ρ ++ i :: τ) := by
  intro ha
  obtain ⟨p, ⟨ps, hb, -⟩, -⟩ := h.below_made ha
  cases hb with
  | top => exact hρ rfl
  | node he => exact hno _ _ he

end Rooted

/-! ## Which pulls fail -/

theorem fails_soft (hE : P.Rooted init E) {σ : List Nat} {ps : List (Pull α κ ε)} {i : Nat}
    {b : α} {j : κ} (hb : P.Block init E σ ps) (hp : ps[i]? = some (.soft b j)) :
    ¬ P.Fails init E σ i := by
  intro hf
  cases hf with
  | abort hb' hp' | rejected hb' hp' _ | inner hb' hp' _ _ =>
    obtain rfl := hE.block_unique _ rfl hb hb'
    simp [hp] at hp'

theorem fails_hard (hE : P.Rooted init E) {σ : List Nat} {ps : List (Pull α κ ε)} {i : Nat}
    {b : α} {j : κ} (hb : P.Block init E σ ps) (hp : ps[i]? = some (.hard b j))
    (hrej : P.reject b = none) :
    P.Fails init E σ i ↔ E b = some (j, σ ++ [i]) ∧ ∃ n, P.Fails init E (σ ++ [i]) n := by
  constructor
  · intro hf
    cases hf with
    | abort hb' hp' =>
      obtain rfl := hE.block_unique _ rfl hb hb'
      simp [hp] at hp'
    | rejected hb' hp' hrej' =>
      obtain rfl := hE.block_unique _ rfl hb hb'
      obtain ⟨rfl, rfl⟩ := Pull.hard.inj (Option.some.inj (hp.symm.trans hp'))
      exact absurd hrej hrej'
    | inner hb' hp' he h =>
      obtain rfl := hE.block_unique _ rfl hb hb'
      obtain ⟨rfl, rfl⟩ := Pull.hard.inj (Option.some.inj (hp.symm.trans hp'))
      exact ⟨he, _, h⟩
  · rintro ⟨he, n, hn⟩
    exact .inner hb hp he hn

/-- Once a pull has failed, none behind it is made. -/
theorem made_le_of_fails {σ : List Nat} {i n : Nat} {p : Pull α κ ε}
    (hf : P.Fails init E σ i) (hm : P.Made init E σ n p) : n < i + 1 := by
  by_contra hn
  exact hm.reached i (by omega) hf

/-! ## Every system has first routes -/

section Exists

/-- The table up to a place: every entry is a request before it, and before it no
request on a node stands before the node's entry. -/
structure Upto (P : PullSystem α κ ε) (init : List (Pull α κ ε)) (E : Entries α κ)
    (ρ : List Nat) : Prop extends Rooted P init E where
  lt : ∀ {a k τ}, E a = some (k, τ) → τ < ρ
  least : ∀ {b j π}, P.Asked init E b j π → π < ρ → ∃ k τ, E b = some (k, τ) ∧ τ ≤ π

/-- `E'` adds entries from `ρ` on. -/
structure Extends (ρ : List Nat) (E E' : Entries α κ) : Prop where
  keeps : ∀ {a x}, E a = some x → E' a = some x
  new : ∀ {a x}, E' a = some x → E a = some x ∨ ρ ≤ x.2

variable {E' : Entries α κ} {ρ : List Nat}

theorem Extends.refl (ρ : List Nat) (E : Entries α κ) : Extends ρ E E := ⟨id, .inl⟩

theorem Extends.trans {E'' : Entries α κ} {ρ' : List Nat} (h : Extends ρ E E')
    (h' : Extends ρ' E' E'') (hle : ρ ≤ ρ') : Extends ρ E E'' :=
  ⟨fun he => h'.keeps (h.keeps he), fun he => (h'.new he).elim h.new fun hρ => .inr (hle.trans hρ)⟩

theorem Extends.block (h : Extends ρ E E') {σ : List Nat} {ps : List (Pull α κ ε)}
    (hb : P.Block init E σ ps) : P.Block init E' σ ps := by
  cases hb with
  | top => exact .top
  | node he => exact .node (h.keeps he)

theorem Extends.block_of_lt (h : Extends ρ E E') {σ : List Nat} {ps : List (Pull α κ ε)}
    (hσ : σ < ρ) (hb : P.Block init E' σ ps) : P.Block init E σ ps := by
  cases hb with
  | top => exact .top
  | node he => exact .node ((h.new he).resolve_right (not_le.mpr hσ))

theorem lt_of_snoc_le {σ : List Nat} {i : Nat} (h : σ ++ [i] ≤ ρ) : σ < ρ :=
  lt_of_lt_of_le (lt_snoc_iff.mpr (.inr (.inl rfl))) h

/-- What fails before `ρ` fails with the new entries too. -/
theorem Extends.fails (h : Extends ρ E E') {σ : List Nat} {i : Nat} (hf : P.Fails init E σ i) :
    P.Fails init E' σ i := by
  induction hf with
  | abort hb hp => exact .abort (h.block hb) hp
  | rejected hb hp hrej => exact .rejected (h.block hb) hp hrej
  | inner hb hp he _ ih => exact .inner (h.block hb) hp (h.keeps he) ih

/-- And nothing else does, where all that is below stands before `ρ`. -/
theorem Extends.fails_of_lt (h : Extends ρ E E') {σ : List Nat} {i : Nat}
    (hf : P.Fails init E' σ i) (hlt : ∀ τ, σ ++ i :: τ < ρ) : P.Fails init E σ i := by
  induction hf with
  | abort hb hp => exact .abort (h.block_of_lt (lt_of_snoc_le (hlt []).le) hb) hp
  | rejected hb hp hrej =>
    exact .rejected (h.block_of_lt (lt_of_snoc_le (hlt []).le) hb) hp hrej
  | @inner σ _ i n _ _ hb hp he _ ih =>
    refine .inner (h.block_of_lt (lt_of_snoc_le (hlt []).le) hb) hp
      ((h.new he).resolve_right (not_le.mpr (hlt []))) (ih fun τ => ?_)
    rw [List.append_assoc]
    exact hlt (n :: τ)

theorem Extends.made_iff (h : Extends ρ E E') {σ : List Nat} {i : Nat} {p : Pull α κ ε}
    (hle : σ ++ [i] ≤ ρ) : P.Made init E' σ i p ↔ P.Made init E σ i p := by
  have hfails : ∀ n < i, (P.Fails init E' σ n ↔ P.Fails init E σ n) := fun n hn =>
    ⟨fun hf => h.fails_of_lt hf fun τ =>
      lt_of_lt_of_le (lt_snoc_iff.mpr (.inr (.inr ⟨n, τ, hn, rfl⟩))) hle, h.fails⟩
  constructor
  · rintro ⟨⟨ps, hb, hp⟩, hr⟩
    exact ⟨⟨ps, h.block_of_lt (lt_of_snoc_le hle) hb, hp⟩, fun n hn => mt (hfails n hn).mpr (hr n hn)⟩
  · rintro ⟨⟨ps, hb, hp⟩, hr⟩
    exact ⟨⟨ps, h.block hb, hp⟩, fun n hn => mt (hfails n hn).mp (hr n hn)⟩

/-- The new entries add no request up to `ρ`. -/
theorem Extends.asked_iff (h : Extends ρ E E') {b : α} {j : κ} {π : List Nat} (hle : π ≤ ρ) :
    P.Asked init E' b j π ↔ P.Asked init E b j π := by
  unfold Asked
  refine and_congr_right fun _ => exists_congr fun σ => exists_congr fun i => exists_congr fun p => ?_
  refine and_congr_right fun he => and_congr_left fun _ => h.made_iff (he ▸ hle)

/-- Nothing is asked below a place before which all entries stand. -/
theorem Upto.not_below (h : P.Upto init E ρ) (hρ : ρ ≠ []) {b : α} {j : κ} {τ : List Nat}
    {i : Nat} : ¬ P.Asked init E b j (ρ ++ i :: τ) :=
  h.toRooted.not_below hρ fun _ _ he => lt_irrefl _ (h.lt he)

/-- A pull that enters no node takes the table on. -/
theorem Upto.skip {σ : List Nat} {i : Nat} (h : P.Upto init E (σ ++ [i]))
    (hold : ∀ b j, P.Asked init E b j (σ ++ [i]) → (E b).isSome = true) :
    P.Upto init E (σ ++ [i + 1]) := by
  have hstep : σ ++ [i] < σ ++ [i + 1] := lt_succ_iff.mpr (.inr (.inl rfl))
  refine ⟨h.toRooted, fun he => (h.lt he).trans hstep, fun {b j π} ha hlt => ?_⟩
  rcases lt_succ_iff.mp hlt with hlt | rfl | ⟨n, τ, rfl⟩
  · exact h.least ha hlt
  · obtain ⟨⟨k, τ⟩, he⟩ := Option.isSome_iff_exists.mp (hold b j ha)
    exact ⟨k, τ, he, (h.lt he).le⟩
  · exact absurd ha (h.not_below (by simp))

/-- Past the last pull below `ρ = σ ++ [i]`, the table is that of the next pull. -/
theorem Upto.leave {σ : List Nat} {i : Nat} {ps : List (Pull α κ ε)}
    (hb : P.Block init E (σ ++ [i]) ps) (h : P.Upto init E (σ ++ [i] ++ [ps.length])) :
    P.Upto init E (σ ++ [i + 1]) := by
  have hle : ∀ π, π < σ ++ [i] ++ [ps.length] → π < σ ++ [i + 1] := by
    intro π hπ
    rw [lt_snoc_iff] at hπ
    exact lt_succ_iff.mpr (hπ.imp_right (Or.imp_right fun ⟨n, τ, _, he⟩ => ⟨n, τ, he⟩))
  refine ⟨h.toRooted, fun he => hle _ (h.lt he), fun {b j π} ha hlt => h.least ha ?_⟩
  refine lt_snoc_iff.mpr ((lt_succ_iff.mp hlt).imp_right (Or.imp_right ?_))
  rintro ⟨n, τ, rfl⟩
  obtain ⟨p, ⟨ps', hb', hp⟩, -⟩ := h.toRooted.below_made ha
  obtain rfl := h.toRooted.block_unique _ rfl hb hb'
  exact ⟨n, τ, (List.getElem?_eq_some_iff.mp hp).1, rfl⟩

variable {U : List α}

theorem countP_extends (h : Extends ρ E E') :
    U.countP (fun b => (E' b).isNone) ≤ U.countP fun b => (E b).isNone := by
  refine List.countP_mono_left fun b _ hb => ?_
  cases he : E b with
  | none => rfl
  | some x => simp [h.keeps he] at hb

variable [DecidableEq α]

/-- The table with a new entry at `ρ`. -/
theorem Upto.enter (h : P.Upto init E ρ) {b : α} {j : κ} (hnew : E b = none)
    (ha : P.Asked init E b j ρ) :
    Extends ρ E (Function.update E b (some (j, ρ))) ∧
      P.Upto init (Function.update E b (some (j, ρ))) (ρ ++ [0]) := by
  have hext : Extends ρ E (Function.update E b (some (j, ρ))) := by
    refine ⟨fun {a x} he => ?_, fun {a x} he => ?_⟩
    · rw [Function.update_of_ne fun hab => by rw [hab, hnew] at he; simp at he]
      exact he
    · by_cases hab : a = b
      · subst hab
        rw [Function.update_self] at he
        exact .inr (Option.some.inj he ▸ le_rfl)
      · rw [Function.update_of_ne hab] at he
        exact .inl he
  have hrooted : P.Rooted init (Function.update E b (some (j, ρ))) := by
    refine ⟨fun {a k τ} he => ?_⟩
    by_cases hab : a = b
    · subst hab
      rw [Function.update_self] at he
      obtain ⟨rfl, rfl⟩ := Prod.mk.inj (Option.some.inj he)
      exact (hext.asked_iff le_rfl).mpr ha
    · rw [Function.update_of_ne hab] at he
      exact (hext.asked_iff (h.lt he).le).mpr (h.asked he)
  refine ⟨hext, hrooted, fun {a k τ} he => ?_, fun {c i π} hc hlt => ?_⟩
  · rw [lt_zero_iff]
    by_cases hab : a = b
    · subst hab
      rw [Function.update_self] at he
      exact .inr (Prod.mk.inj (Option.some.inj he)).2.symm
    · rw [Function.update_of_ne hab] at he
      exact .inl (h.lt he)
  · rcases lt_zero_iff.mp hlt with hlt | rfl
    · obtain ⟨k, τ, he, hle⟩ := h.least ((hext.asked_iff hlt.le).mp hc) hlt
      exact ⟨k, τ, hext.keeps he, hle⟩
    · obtain ⟨rfl, rfl⟩ := hrooted.asked_unique hc ((hext.asked_iff le_rfl).mpr ha)
      exact ⟨i, π, Function.update_self .., le_rfl⟩

theorem countP_enter_lt {b : α} {x : κ × List Nat} (hb : b ∈ U) (hnew : E b = none) :
    U.countP (fun c => (Function.update E b (some x) c).isNone) <
      U.countP fun c => (E c).isNone := by
  obtain ⟨U₁, U₂, rfl⟩ := List.append_of_mem hb
  have hle : ∀ V : List α, V.countP (fun c => (Function.update E b (some x) c).isNone) ≤
      V.countP fun c => (E c).isNone := by
    refine fun V => List.countP_mono_left fun c _ hc => ?_
    by_cases he : c = b
    · simp [he] at hc
    · rwa [Function.update_of_ne he] at hc
  rw [List.countP_append, List.countP_append, List.countP_cons, List.countP_cons,
    Function.update_self, hnew]
  have h₁ := hle U₁
  have h₂ := hle U₂
  simp only [Option.isNone_some, Option.isNone_none, Bool.false_eq_true, if_false, if_true]
  omega

/-- The pulls below `σ`, from the `i`-th on. The induction is on the number of nodes
of `U` without an entry. -/
theorem exists_upto (hU : ∀ a k, ∀ p ∈ P.pulls a k, ∀ b j, p.Requests b j → b ∈ U) :
    ∀ (n : Nat) (σ : List Nat) (ps : List (Pull α κ ε)),
      (∀ p ∈ ps, ∀ b j, p.Requests b j → b ∈ U) →
      ∀ (qs : List (Pull α κ ε)) (i : Nat) (E : Entries α κ), ps.drop i = qs → i ≤ ps.length →
        U.countP (fun b => (E b).isNone) < n → P.Block init E σ ps →
        P.Upto init E (σ ++ [i]) →
        ∃ E', Extends (σ ++ [i]) E E' ∧ P.Upto init E' (σ ++ [ps.length]) := by
  intro n
  induction n with
  | zero => exact fun _ _ _ _ _ _ _ _ h => absurd h (by omega)
  | succ n ihn =>
    intro σ ps hps qs
    induction qs with
    | nil =>
      intro i E hdrop hi _ _ hE
      have hlen : i = ps.length := Nat.le_antisymm hi (List.drop_eq_nil_iff.mp hdrop)
      exact ⟨E, .refl _ E, hlen ▸ hE⟩
    | cons p qs ih =>
      intro i E hdrop _ hcount hb hE
      have hp : ps[i]? = some p := by
        have h0 := congrArg (·[0]?) hdrop
        simpa using h0
      have hlt : i < ps.length := (List.getElem?_eq_some_iff.mp hp).1
      have hrest : ps.drop (i + 1) = qs := by
        rw [← List.tail_drop, hdrop]
        rfl
      have hstep : σ ++ [i] < σ ++ [i + 1] := lt_succ_iff.mpr (.inr (.inl rfl))
      -- the table after this pull is handed to the next one
      suffices hnext : ∃ E₁, Extends (σ ++ [i]) E E₁ ∧ P.Upto init E₁ (σ ++ [i + 1]) by
        obtain ⟨E₁, hext₁, hE₁⟩ := hnext
        obtain ⟨E₂, hext₂, hE₂⟩ := ih (i + 1) E₁ hrest hlt
          (Nat.lt_of_le_of_lt (countP_extends hext₁) hcount) (hext₁.block hb) hE₁
        exact ⟨E₂, hext₁.trans hext₂ hstep.le, hE₂⟩
      by_cases hask : ∃ b j, E b = none ∧ P.Asked init E b j (σ ++ [i])
      · obtain ⟨b, j, hnew, ha⟩ := hask
        have hbU : b ∈ U := by
          obtain ⟨-, p', ⟨⟨ps', hb', hp'⟩, -⟩, hr⟩ := ha.snoc
          obtain rfl := hE.toRooted.block_unique _ rfl hb hb'
          exact hps p' (List.mem_of_getElem? hp') b j hr
        obtain ⟨hext, hE₁⟩ := hE.enter hnew ha
        have hblock : P.Block init (Function.update E b (some (j, σ ++ [i]))) (σ ++ [i])
            (P.pulls b j) := .node (Function.update_self ..)
        have hless := countP_enter_lt (x := (j, σ ++ [i])) hbU hnew
        obtain ⟨E₂, hext₂, hE₂⟩ := ihn (σ ++ [i]) (P.pulls b j) (hU b j) (P.pulls b j) 0 _ rfl
          (Nat.zero_le _) (by omega) hblock hE₁
        have hle : σ ++ [i] ≤ σ ++ [i] ++ [0] := (lt_snoc_iff.mpr (.inr (.inl rfl))).le
        exact ⟨E₂, hext.trans hext₂ hle, hE₂.leave (hext₂.block hblock)⟩
      · refine ⟨E, .refl _ E, hE.skip fun b j ha => ?_⟩
        cases he : E b with
        | none => exact absurd ⟨b, j, he, ha⟩ hask
        | some x => rfl

/-- **First routes exist**, where all requests are on finitely many nodes. -/
theorem exists_firstRoutes (hU : ∀ a k, ∀ p ∈ P.pulls a k, ∀ b j, p.Requests b j → b ∈ U)
    (hinit : ∀ p ∈ init, ∀ b j, p.Requests b j → b ∈ U) :
    ∃ E : Entries α κ, P.FirstRoutes init E := by
  have hstart : P.Upto init (fun _ => none) ([] ++ [0]) := by
    refine ⟨⟨fun he => absurd he (by simp)⟩, fun he => absurd he (by simp), fun {b j π} ha hlt => ?_⟩
    obtain ⟨σ, i, rfl⟩ := ha.exists_snoc
    rcases lt_zero_iff.mp hlt with hlt | he
    · exact absurd hlt (List.not_lt_nil _)
    · simp at he
  obtain ⟨E, -, hE⟩ := exists_upto hU _ [] init hinit init 0 _ rfl (Nat.zero_le _)
    (Nat.lt_succ_self _) .top hstart
  refine ⟨E, hE.toRooted, fun {b j π} ha => hE.least ha ?_⟩
  obtain ⟨σ, i, rfl⟩ := ha.exists_snoc
  obtain ⟨n, τ, hτ⟩ : ∃ n τ, σ ++ [i] = [] ++ n :: τ := by
    cases σ with
    | nil => exact ⟨i, [], rfl⟩
    | cons x σ => exact ⟨x, σ ++ [i], rfl⟩
  rw [hτ] at ha ⊢
  obtain ⟨p, ⟨ps, hb, hp⟩, -⟩ := hE.toRooted.below_made ha
  obtain rfl := hE.toRooted.block_unique _ rfl .top hb
  exact lt_snoc_iff.mpr (.inr (.inr ⟨n, τ, (List.getElem?_eq_some_iff.mp hp).1, rfl⟩))

end Exists

/-! ## What a node is asked for -/

namespace Sequence

variable {b : α} {ks ks' : List κ}

theorem mem_iff (h : P.Sequence init E b ks) {k : κ} : k ∈ ks ↔ ∃ π, P.Asked init E b k π := by
  obtain ⟨l, rfl, -, hl⟩ := h
  rw [List.mem_map]
  constructor
  · rintro ⟨x, hx, rfl⟩
    exact ⟨x.2, (hl x).mp hx⟩
  · rintro ⟨π, hπ⟩
    exact ⟨(k, π), (hl _).mpr hπ, rfl⟩

/-- It begins with the kind of the entry. -/
theorem first (hE : P.FirstRoutes init E) (h : P.Sequence init E b ks) {k : κ} {ρ : List Nat}
    (he : E b = some (k, ρ)) : ∃ rest, ks = k :: rest := by
  obtain ⟨l, rfl, hs, hl⟩ := h
  have hmem := (hl (k, ρ)).mpr (hE.asked he)
  cases l with
  | nil => exact absurd hmem (by simp)
  | cons x l =>
    rcases List.mem_cons.mp hmem with rfl | hmem
    · exact ⟨_, rfl⟩
    · have hlt := (List.pairwise_cons.mp hs).1 _ hmem
      obtain ⟨k', ρ', he', hle⟩ := hE.least ((hl x).mp List.mem_cons_self)
      obtain ⟨rfl, rfl⟩ := Prod.mk.inj (Option.some.inj (he.symm.trans he'))
      exact absurd (lt_of_lt_of_le hlt hle) (lt_irrefl _)

theorem unique (h : P.Sequence init E b ks) (h' : P.Sequence init E b ks') : ks = ks' := by
  obtain ⟨l, rfl, hs, hl⟩ := h
  obtain ⟨l', rfl, hs', hl'⟩ := h'
  have hperm : l.Perm l' := by
    refine (List.perm_ext_iff_of_nodup ?_ ?_).mpr fun x => (hl x).trans (hl' x).symm
    · exact hs.imp fun hlt => by
        rintro rfl
        exact lt_irrefl _ hlt
    · exact hs'.imp fun hlt => by
        rintro rfl
        exact lt_irrefl _ hlt
  rw [hperm.eq_of_pairwise (fun x y _ _ h h' => absurd (h.trans h') (lt_irrefl _)) hs hs']

end Sequence

/-- What is asked for derives from the initial pulls. -/
theorem Rooted.requested (hE : P.Rooted init E) : ∀ (n : Nat) {b : α} {j : κ} {π : List Nat},
    π.length = n → P.Asked init E b j π →
    P.Requested (fun a k => ∃ p ∈ init, p.Requests a k) b j := by
  intro n
  induction n with
  | zero =>
    intro b j π hn ha
    obtain ⟨σ, i, rfl⟩ := ha.exists_snoc
    simp at hn
  | succ n ih =>
    intro b j π hn ha
    obtain ⟨σ, i, rfl⟩ := ha.exists_snoc
    obtain ⟨hrej, p, ⟨⟨ps, hb, hp⟩, -⟩, hr⟩ := ha.snoc
    have hmem := List.mem_of_getElem? hp
    cases hb with
    | top => exact .base ⟨p, hmem, hr⟩
    | node he => exact .pull (ih (by simpa using hn) (hE.asked he)) (hE.asked he).1 hmem hr

/-- Where no pull fails and what a node pulls under any kind it is asked for it pulls
under the first one, all requests that derive from the initial pulls are made. -/
theorem FirstRoutes.asked_of_requested (hE : P.FirstRoutes init E)
    (hno : ∀ σ i, ¬ P.Fails init E σ i)
    (hcovered : ∀ a k ρ j π, E a = some (k, ρ) → P.Asked init E a j π →
      ∀ p ∈ P.pulls a j, p ∈ P.pulls a k) {b : α} {j : κ}
    (h : P.Requested (fun a k => ∃ p ∈ init, p.Requests a k) b j) (hrej : P.reject b = none) :
    ∃ π, P.Asked init E b j π := by
  have hmade : ∀ {σ : List Nat} {ps : List (Pull α κ ε)} {p : Pull α κ ε} {b : α} {j : κ},
      P.Block init E σ ps → p ∈ ps → p.Requests b j → P.reject b = none →
      ∃ π, P.Asked init E b j π := by
    intro σ ps p b j hb hp hr hrej
    obtain ⟨i, hi⟩ := List.mem_iff_getElem?.mp hp
    exact ⟨_, Made.asked ⟨⟨ps, hb, hi⟩, fun n _ => hno σ n⟩ hrej hr⟩
  induction h with
  | base h =>
    obtain ⟨p, hp, hr⟩ := h
    exact hmade .top hp hr hrej
  | @pull a b k j p _ ha hp hr ih =>
    obtain ⟨π, hπ⟩ := ih ha
    obtain ⟨k', ρ, he, -⟩ := hE.least hπ
    exact hmade (.node he) (hcovered a k' ρ k π he hπ p hp) hr hrej

end PullSystem

end Systeml.Lib
