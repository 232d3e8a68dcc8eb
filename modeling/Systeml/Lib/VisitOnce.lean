import Systeml.Lib.IndexMap

/-!
# Visit-once walks with merged labels

A depth-first walk that serves requests `(a, k)`: a node that is not in the map
is entered under `k` and its pulls run in order; a node that is there only has
`k` merged into its label. A hard pull hands its failure on, a soft pull
swallows it, and what was entered before a failure stays entered.

Which nodes are entered, in which order and under which first request depends
on the pulls alone, never on the labels. `visit` labels each node with the list
of requests made on it and a flag that its pulls ran to the end; every other
labelling is a function of that one (`ask_mapVal`, `hom_eval`). About the visit
labelling:

* `ask_grows`, `ask_recorded`: requests are only added, and a request that ends
  is recorded unless its node is rejected;
* `ask_carried`: a node whose pulls ran to the end has every one honoured;
* `ask_requested`: only requests derived from the first one are made;
* `ask_noFail`: where no derived pull can fail, every entered node is carried;
* `ask_fuel`: fuel above the number of nodes left to enter suffices.
-/

namespace Systeml.Lib

variable {α κ ε β : Type} [DecidableEq α]

/-- What the expansion of a node does next. -/
inductive Pull (α κ ε : Type) where
  /-- Request `k` on `a`; a failure is handed on. -/
  | hard (a : α) (k : κ)
  /-- Request `k` on `a`; a failure is swallowed. -/
  | soft (a : α) (k : κ)
  /-- Fail here. -/
  | abort (e : ε)
  deriving DecidableEq, Repr

/-- `p` requests `k` on `b`. -/
def Pull.Requests (p : Pull α κ ε) (b : α) (k : κ) : Prop := p = .hard b k ∨ p = .soft b k

/-- How a request ends. -/
inductive Outcome (ε : Type) where
  | done
  | failed (e : ε)
  | outOfFuel
  deriving DecidableEq, Repr

/-- Which nodes refuse a request, and what a node pulls when it is entered. -/
structure PullSystem (α κ ε : Type) where
  reject : α → Option ε
  pulls : α → κ → List (Pull α κ ε)

/-- What the map stores: the label of a node entered under `k`, a label with a
further request merged in, and the label once the pulls ran to the end. -/
structure Labels (α κ β : Type) where
  fresh : α → κ → β
  merge : α → β → κ → β
  leave : α → β → β := fun _ b => b

/-- `h` turns labels of `L` into labels of `L'`, whatever is done to them. -/
structure Labels.Hom {γ : Type} (L : Labels α κ β) (L' : Labels α κ γ) (h : α → β → γ) :
    Prop where
  fresh : ∀ a k, h a (L.fresh a k) = L'.fresh a k
  merge : ∀ a b k, h a (L.merge a b k) = L'.merge a (h a b) k
  leave : ∀ a b, h a (L.leave a b) = L'.leave a (h a b)

/-- Enter `a` under `k`, or merge `k` into its label. -/
def Labels.record (L : Labels α κ β) (a : α) (k : κ) (m : IndexMap α β) : IndexMap α β :=
  m.upsert a fun
    | none => L.fresh a k
    | some b => L.merge a b k

/-- Run the pulls in order, with `f` serving the requests. -/
def runPulls (f : α → κ → IndexMap α β → Outcome ε × IndexMap α β) :
    List (Pull α κ ε) → IndexMap α β → Outcome ε × IndexMap α β
  | [], m => (.done, m)
  | .abort e :: _, m => (.failed e, m)
  | .hard a k :: ps, m =>
    match f a k m with
    | (.done, m') => runPulls f ps m'
    | r => r
  | .soft a k :: ps, m =>
    match f a k m with
    | (.outOfFuel, m') => (.outOfFuel, m')
    | (_, m') => runPulls f ps m'

section RunPulls

variable {f : α → κ → IndexMap α β → Outcome ε × IndexMap α β}

theorem runPulls_hard_done {a : α} {k : κ} {ps : List (Pull α κ ε)} {m : IndexMap α β}
    (h : (f a k m).1 = .done) : runPulls f (.hard a k :: ps) m = runPulls f ps (f a k m).2 := by
  have he : f a k m = (.done, (f a k m).2) := by rw [← h]
  rw [runPulls, he]

theorem runPulls_hard_stop {a : α} {k : κ} {ps : List (Pull α κ ε)} {m : IndexMap α β}
    (h : (f a k m).1 ≠ .done) : runPulls f (.hard a k :: ps) m = f a k m := by
  rw [runPulls]
  split
  next m' he => exact absurd (by rw [he]) h
  next => rfl

theorem runPulls_soft {a : α} {k : κ} {ps : List (Pull α κ ε)} {m : IndexMap α β}
    (h : (f a k m).1 ≠ .outOfFuel) :
    runPulls f (.soft a k :: ps) m = runPulls f ps (f a k m).2 := by
  rw [runPulls]
  split
  next m' he => exact absurd (by rw [he]) h
  next o m' _ he => rw [he]

theorem runPulls_soft_fuel {a : α} {k : κ} {ps : List (Pull α κ ε)} {m : IndexMap α β}
    (h : (f a k m).1 = .outOfFuel) : runPulls f (.soft a k :: ps) m = f a k m := by
  rw [runPulls]
  split
  next m' he => exact he.symm
  next o m' hno he => exact absurd (by rw [he] at h; exact h) hno

end RunPulls

namespace PullSystem

/-- Serve the request `k` on `a`. -/
def ask (P : PullSystem α κ ε) (L : Labels α κ β) :
    Nat → α → κ → IndexMap α β → Outcome ε × IndexMap α β
  | 0, _, _, m => (.outOfFuel, m)
  | fuel + 1, a, k, m =>
    match P.reject a with
    | some e => (.failed e, m)
    | none =>
      if m.contains a then (.done, L.record a k m)
      else
        match runPulls (P.ask L fuel) (P.pulls a k) (L.record a k m) with
        | (.done, m') => (.done, m'.modify a (L.leave a))
        | r => r

variable {P : PullSystem α κ ε} {L : Labels α κ β}

theorem ask_reject {fuel : Nat} {a : α} {k : κ} {m : IndexMap α β} {e : ε}
    (h : P.reject a = some e) : P.ask L (fuel + 1) a k m = (.failed e, m) := by
  unfold ask
  rw [h]

theorem ask_seen {fuel : Nat} {a : α} {k : κ} {m : IndexMap α β} (h : P.reject a = none)
    (hm : m.contains a = true) : P.ask L (fuel + 1) a k m = (.done, L.record a k m) := by
  unfold ask
  rw [h]
  exact if_pos hm

theorem ask_new {fuel : Nat} {a : α} {k : κ} {m : IndexMap α β} (h : P.reject a = none)
    (hm : m.contains a = false) : P.ask L (fuel + 1) a k m =
      match runPulls (P.ask L fuel) (P.pulls a k) (L.record a k m) with
      | (.done, m') => (.done, m'.modify a (L.leave a))
      | r => r := by
  rw [ask, h]
  simp only [hm, Bool.false_eq_true, if_false]

/-! ## What every request preserves -/

/-- The relation rule for pulls, on maps with the property `I` that `R` keeps. -/
theorem runPulls_relOn {I : IndexMap α β → Prop} {R : IndexMap α β → IndexMap α β → Prop}
    {T : α → κ → Prop} {f : α → κ → IndexMap α β → Outcome ε × IndexMap α β}
    (hrefl : ∀ m, R m m) (htrans : ∀ m₁ m₂ m₃, R m₁ m₂ → R m₂ m₃ → R m₁ m₃)
    (hI : ∀ m m', R m m' → I m → I m')
    (hf : ∀ b k m, T b k → I m → R m (f b k m).2) : ∀ (ps : List (Pull α κ ε)) (m : IndexMap α β),
    I m → (∀ p ∈ ps, ∀ b k, p.Requests b k → T b k) → R m (runPulls f ps m).2
  | [], m, _, _ => hrefl m
  | .abort e :: _, m, _, _ => hrefl m
  | .hard a k :: ps, m, hm, hps => by
    have h1 := hf a k m (hps _ (List.mem_cons_self ..) a k (Or.inl rfl)) hm
    have ih := runPulls_relOn hrefl htrans hI hf ps (f a k m).2 (hI _ _ h1 hm)
      fun p hp => hps p (List.mem_cons_of_mem _ hp)
    by_cases hd : (f a k m).1 = .done
    · rw [runPulls_hard_done hd]
      exact htrans _ _ _ h1 ih
    · rw [runPulls_hard_stop hd]
      exact h1
  | .soft a k :: ps, m, hm, hps => by
    have h1 := hf a k m (hps _ (List.mem_cons_self ..) a k (Or.inr rfl)) hm
    have ih := runPulls_relOn hrefl htrans hI hf ps (f a k m).2 (hI _ _ h1 hm)
      fun p hp => hps p (List.mem_cons_of_mem _ hp)
    by_cases hd : (f a k m).1 = .outOfFuel
    · rw [runPulls_soft_fuel hd]
      exact h1
    · rw [runPulls_soft hd]
      exact htrans _ _ _ h1 ih

theorem runPulls_rel {R : IndexMap α β → IndexMap α β → Prop} {T : α → κ → Prop}
    {f : α → κ → IndexMap α β → Outcome ε × IndexMap α β} (hrefl : ∀ m, R m m)
    (htrans : ∀ m₁ m₂ m₃, R m₁ m₂ → R m₂ m₃ → R m₁ m₃)
    (hf : ∀ b k m, T b k → R m (f b k m).2) (ps : List (Pull α κ ε)) (m : IndexMap α β)
    (hps : ∀ p ∈ ps, ∀ b k, p.Requests b k → T b k) : R m (runPulls f ps m).2 :=
  runPulls_relOn (I := fun _ => True) hrefl htrans (fun _ _ _ _ => trivial)
    (fun b k m hb _ => hf b k m hb) ps m trivial hps

/-- The relation rule: what recording a request and leaving a node do, a whole
request does, on maps with the property `I` that `R` keeps. `T` is a set of
requests closed under the pulls of the nodes that are entered; leaving a node may
use that its pulls ran to the end. -/
theorem ask_relOn {I : IndexMap α β → Prop} {R : IndexMap α β → IndexMap α β → Prop}
    {T : α → κ → Prop} (hrefl : ∀ m, R m m)
    (htrans : ∀ m₁ m₂ m₃, R m₁ m₂ → R m₂ m₃ → R m₁ m₃) (hI : ∀ m m', R m m' → I m → I m')
    (hT : ∀ a k m, T a k → I m → P.reject a = none → m.contains a = false → ∀ p ∈ P.pulls a k,
      ∀ b k', p.Requests b k' → T b k')
    (hrecord : ∀ a k m, T a k → I m → P.reject a = none → R m (L.record a k m))
    (hleave : ∀ fuel a k m m', T a k → I m → P.reject a = none → m.contains a = false →
      runPulls (P.ask L fuel) (P.pulls a k) (L.record a k m) = (.done, m') →
      R m m' → R m (m'.modify a (L.leave a))) :
    ∀ (fuel : Nat) (a : α) (k : κ) (m : IndexMap α β), T a k → I m → R m (P.ask L fuel a k m).2
  | 0, _, _, m, _, _ => hrefl m
  | fuel + 1, a, k, m, ha, hm => by
    cases hrej : P.reject a with
    | some e =>
      rw [ask_reject hrej]
      exact hrefl m
    | none =>
      have hrec := hrecord a k m ha hm hrej
      cases hnew : m.contains a with
      | true =>
        rw [ask_seen hrej hnew]
        exact hrec
      | false =>
        rw [ask_new hrej hnew]
        have hrun := runPulls_relOn hrefl htrans hI
          (fun b k' m' hb hm' => ask_relOn hrefl htrans hI hT hrecord hleave fuel b k' m' hb hm')
          (P.pulls a k) (L.record a k m) (hI _ _ hrec hm) (hT a k m ha hm hrej hnew)
        have hall := htrans _ _ _ hrec hrun
        split
        next m' he =>
          rw [he] at hall
          exact hleave fuel a k m m' ha hm hrej hnew he hall
        next => exact hall

theorem ask_rel {R : IndexMap α β → IndexMap α β → Prop} {T : α → κ → Prop}
    (hrefl : ∀ m, R m m) (htrans : ∀ m₁ m₂ m₃, R m₁ m₂ → R m₂ m₃ → R m₁ m₃)
    (hT : ∀ a k, T a k → P.reject a = none → ∀ p ∈ P.pulls a k, ∀ b k', p.Requests b k' → T b k')
    (hrecord : ∀ a k m, T a k → P.reject a = none → R m (L.record a k m))
    (hleave : ∀ fuel a k m m', T a k → P.reject a = none → m.contains a = false →
      runPulls (P.ask L fuel) (P.pulls a k) (L.record a k m) = (.done, m') →
      R m m' → R m (m'.modify a (L.leave a))) (fuel : Nat) (a : α) (k : κ) (m : IndexMap α β)
    (ha : T a k) : R m (P.ask L fuel a k m).2 :=
  ask_relOn (I := fun _ => True) hrefl htrans (fun _ _ _ _ => trivial)
    (fun a k _ ha _ hrej _ => hT a k ha hrej) (fun a k m ha _ hrej => hrecord a k m ha hrej)
    (fun fuel a k m m' ha _ hrej hm he h => hleave fuel a k m m' ha hrej hm he h) fuel a k m ha
    trivial

theorem mem_keys_record {a x : α} {k : κ} {m : IndexMap α β} :
    x ∈ (L.record a k m).keys ↔ x = a ∨ x ∈ m.keys :=
  IndexMap.mem_keys_upsert

/-- No request removes a node. -/
theorem ask_keys (fuel : Nat) (a : α) (k : κ) (m : IndexMap α β) :
    ∀ x ∈ m.keys, x ∈ (P.ask L fuel a k m).2.keys :=
  ask_rel (P := P) (L := L) (R := fun m m' => ∀ x ∈ m.keys, x ∈ m'.keys)
    (T := fun _ _ => True) (fun _ _ h => h) (fun _ _ _ h1 h2 x hx => h2 x (h1 x hx))
    (fun _ _ _ _ _ _ _ _ _ => trivial)
    (fun _ _ _ _ _ _ hx => mem_keys_record.mpr (Or.inr hx))
    (fun _ a _ _ m' _ _ _ _ h x hx => by
      rw [IndexMap.keys_modify]
      exact h x hx) fuel a k m trivial

/-! ## Fuel -/

/-- The nodes of `U` still to be entered. -/
def unseen (U : List α) (m : IndexMap α β) : List α := U.filter fun x => !m.contains x

theorem unseen_le {U : List α} {m m' : IndexMap α β} (h : ∀ x ∈ m.keys, x ∈ m'.keys) :
    (unseen U m').length ≤ (unseen U m).length := by
  unfold unseen
  rw [← List.countP_eq_length_filter, ← List.countP_eq_length_filter]
  refine List.countP_mono_left fun x _ hx => ?_
  rw [Bool.not_eq_true'] at hx ⊢
  rw [Bool.eq_false_iff] at hx ⊢
  exact fun hc => hx (IndexMap.contains_iff.mpr (h x (IndexMap.contains_iff.mp hc)))

theorem unseen_lt {U : List α} {a : α} {k : κ} {m : IndexMap α β} (ha : a ∈ U)
    (hm : m.contains a = false) : (unseen U (L.record a k m)).length < (unseen U m).length := by
  have hsub : (unseen U (L.record a k m)).Sublist (unseen U m) := by
    have he : unseen U (L.record a k m) =
        (unseen U m).filter fun x => !(L.record a k m).contains x := by
      unfold unseen
      rw [List.filter_filter]
      refine List.filter_congr fun x _ => ?_
      cases hx : (L.record a k m).contains x with
      | true => simp
      | false =>
        cases hx' : m.contains x with
        | false => simp
        | true =>
          have hr : x ∈ (L.record a k m).keys :=
            mem_keys_record.mpr (Or.inr (IndexMap.contains_iff.mp hx'))
          rw [← IndexMap.contains_iff, hx] at hr
          exact absurd hr (by simp)
    rw [he]
    exact List.filter_sublist
  refine Nat.lt_of_le_of_ne hsub.length_le fun hlen => ?_
  have hmem : a ∈ unseen U m := List.mem_filter.mpr ⟨ha, by simp [hm]⟩
  rw [← hsub.eq_of_length hlen] at hmem
  have hin : (L.record a k m).contains a = true :=
    IndexMap.contains_iff.mpr (mem_keys_record.mpr (Or.inl rfl))
  exact absurd (List.mem_filter.mp hmem).2 (by simp [hin])

theorem runPulls_fuel {U : List α} {fuel : Nat}
    (hask : ∀ b k m, b ∈ U → (unseen U m).length < fuel → (P.ask L fuel b k m).1 ≠ .outOfFuel) :
    ∀ (ps : List (Pull α κ ε)) (m : IndexMap α β), (unseen U m).length < fuel →
    (∀ p ∈ ps, ∀ b k, p.Requests b k → b ∈ U) →
    (runPulls (P.ask L fuel) ps m).1 ≠ .outOfFuel
  | [], _, _, _ => by simp [runPulls]
  | .abort e :: _, _, _, _ => by simp [runPulls]
  | .hard b k :: ps, m, hm, hps => by
    have h1 := hask b k m (hps _ (List.mem_cons_self ..) b k (Or.inl rfl)) hm
    have ih := runPulls_fuel hask ps (P.ask L fuel b k m).2
      (Nat.lt_of_le_of_lt (unseen_le (ask_keys fuel b k m)) hm)
      fun p hp => hps p (List.mem_cons_of_mem _ hp)
    by_cases hd : (P.ask L fuel b k m).1 = .done
    · rw [runPulls_hard_done hd]
      exact ih
    · rw [runPulls_hard_stop hd]
      exact h1
  | .soft b k :: ps, m, hm, hps => by
    have h1 := hask b k m (hps _ (List.mem_cons_self ..) b k (Or.inr rfl)) hm
    have ih := runPulls_fuel hask ps (P.ask L fuel b k m).2
      (Nat.lt_of_le_of_lt (unseen_le (ask_keys fuel b k m)) hm)
      fun p hp => hps p (List.mem_cons_of_mem _ hp)
    rw [runPulls_soft h1]
    exact ih

/-- Fuel above the number of nodes left to enter suffices. -/
theorem ask_fuel {U : List α}
    (hU : ∀ a k, a ∈ U → ∀ p ∈ P.pulls a k, ∀ b k', p.Requests b k' → b ∈ U) :
    ∀ (fuel : Nat) (a : α) (k : κ) (m : IndexMap α β), a ∈ U →
      (unseen U m).length < fuel → (P.ask L fuel a k m).1 ≠ .outOfFuel
  | 0, _, _, _, _, h => absurd h (Nat.not_lt_zero _)
  | fuel + 1, a, k, m, ha, hlt => by
    cases hrej : P.reject a with
    | some e =>
      rw [ask_reject hrej]
      simp
    | none =>
      cases hm : m.contains a with
      | true =>
        rw [ask_seen hrej hm]
        simp
      | false =>
        rw [ask_new hrej hm]
        have hrun := runPulls_fuel (ask_fuel hU fuel) (P.pulls a k) (L.record a k m)
          (Nat.lt_of_lt_of_le (unseen_lt ha hm) (Nat.lt_succ_iff.mp hlt)) (hU a k ha)
        split
        next => simp
        next => exact hrun

/-! ## Failures -/

/-- A run of pulls fails by an abort among them, or where a request does. -/
theorem runPulls_failed {E : ε → Prop} {f : α → κ → IndexMap α β → Outcome ε × IndexMap α β}
    (hf : ∀ b k m e, (f b k m).1 = .failed e → E e) : ∀ (ps : List (Pull α κ ε)) (m : IndexMap α β),
    (∀ e, .abort e ∈ ps → E e) → ∀ e, (runPulls f ps m).1 = .failed e → E e
  | [], _, _, e, h => absurd h (by simp [runPulls])
  | .abort e' :: _, _, hps, e, h => by
    obtain rfl : e' = e := Outcome.failed.inj h
    exact hps e' List.mem_cons_self
  | .hard b k :: ps, m, hps, e, h => by
    by_cases hd : (f b k m).1 = .done
    · rw [runPulls_hard_done hd] at h
      exact runPulls_failed hf ps _ (fun e he => hps e (List.mem_cons_of_mem _ he)) e h
    · rw [runPulls_hard_stop hd] at h
      exact hf b k m e h
  | .soft b k :: ps, m, hps, e, h => by
    by_cases hd : (f b k m).1 = .outOfFuel
    · rw [runPulls_soft_fuel hd, hd] at h
      exact absurd h (by simp)
    · rw [runPulls_soft hd] at h
      exact runPulls_failed hf ps _ (fun e he => hps e (List.mem_cons_of_mem _ he)) e h

/-- Every failure is that of a node that refuses, or an abort. -/
theorem ask_failed {E : ε → Prop} (hrej : ∀ a e, P.reject a = some e → E e)
    (habort : ∀ a k e, .abort e ∈ P.pulls a k → E e) : ∀ (fuel : Nat) (a : α) (k : κ)
    (m : IndexMap α β) (e : ε), (P.ask L fuel a k m).1 = .failed e → E e
  | 0, _, _, _, _, h => absurd h (by simp [ask])
  | fuel + 1, a, k, m, e, h => by
    cases hr : P.reject a with
    | some e' =>
      rw [ask_reject hr] at h
      obtain rfl : e' = e := Outcome.failed.inj h
      exact hrej a e' hr
    | none =>
      cases hm : m.contains a with
      | true =>
        rw [ask_seen hr hm] at h
        exact absurd h (by simp)
      | false =>
        rw [ask_new hr hm] at h
        split at h
        next => exact absurd h (by simp)
        next => exact runPulls_failed (ask_failed hrej habort fuel) (P.pulls a k) _ (habort a k) e h

/-! ## The visit labelling -/

end PullSystem

/-- What happened to a node: the request it was entered under, the requests made
on it since, and whether its pulls ran to the end. -/
structure Visit (κ : Type) where
  first : κ
  later : List κ
  carried : Bool
  deriving DecidableEq, Repr

/-- All requests made on the node, in order. -/
def Visit.kinds {κ : Type} (v : Visit κ) : List κ := v.first :: v.later

/-- The labelling that keeps everything. -/
def visitLabels (α κ : Type) : Labels α κ (Visit κ) where
  fresh := fun _ k => ⟨k, [], false⟩
  merge := fun _ v k => { v with later := v.later ++ [k] }
  leave := fun _ v => { v with carried := true }

/-- The label a sequence of requests gives a node. -/
def Labels.eval (L : Labels α κ β) (a : α) (v : Visit κ) : β :=
  v.later.foldl (L.merge a) (L.fresh a v.first)

/-- Request `k` on `b` was made and recorded. -/
def Recorded (m : IndexMap α (Visit κ)) (b : α) (k : κ) : Prop :=
  ∃ v, m.get? b = some v ∧ k ∈ v.kinds

/-- Node `a` was entered under `k` and its pulls ran to the end. -/
def Carried (m : IndexMap α (Visit κ)) (a : α) (k : κ) : Prop :=
  ∃ v, m.get? a = some v ∧ v.first = k ∧ v.carried = true

/-- Later maps keep the first request of a node, its requests and its flag. -/
def Grows (m m' : IndexMap α (Visit κ)) : Prop :=
  ∀ a v, m.get? a = some v → ∃ v', m'.get? a = some v' ∧ v'.first = v.first ∧
    (∀ k ∈ v.kinds, k ∈ v'.kinds) ∧ (v.carried = true → v'.carried = true)

theorem Grows.refl (m : IndexMap α (Visit κ)) : Grows m m :=
  fun _ v h => ⟨v, h, rfl, fun _ hk => hk, id⟩

theorem Grows.trans {m₁ m₂ m₃ : IndexMap α (Visit κ)} (h₁ : Grows m₁ m₂) (h₂ : Grows m₂ m₃) :
    Grows m₁ m₃ := by
  intro a v hv
  obtain ⟨v', hv', hf', hk', hc'⟩ := h₁ a v hv
  obtain ⟨v'', hv'', hf'', hk'', hc''⟩ := h₂ a v' hv'
  exact ⟨v'', hv'', hf''.trans hf', fun k hk => hk'' k (hk' k hk), fun hc => hc'' (hc' hc)⟩

theorem Grows.recorded {m m' : IndexMap α (Visit κ)} {b : α} {k : κ} (h : Grows m m')
    (hr : Recorded m b k) : Recorded m' b k := by
  obtain ⟨v, hv, hk⟩ := hr
  obtain ⟨v', hv', -, hk', -⟩ := h b v hv
  exact ⟨v', hv', hk' k hk⟩

theorem grows_record (a : α) (k : κ) (m : IndexMap α (Visit κ)) :
    Grows m ((visitLabels α κ).record a k m) := by
  intro x v hv
  by_cases h : x = a
  · subst h
    refine ⟨{ v with later := v.later ++ [k] }, ?_, rfl, fun j hj => ?_, id⟩
    · rw [Labels.record, IndexMap.get?_upsert_self, hv]
      rfl
    · unfold Visit.kinds at hj ⊢
      rw [← List.cons_append]
      exact List.mem_append_left _ hj
  · refine ⟨v, ?_, rfl, fun _ hj => hj, id⟩
    rw [Labels.record, IndexMap.get?_upsert_ne h, hv]

theorem recorded_record (a : α) (k : κ) (m : IndexMap α (Visit κ)) :
    Recorded ((visitLabels α κ).record a k m) a k := by
  unfold Recorded Labels.record
  rw [IndexMap.get?_upsert_self]
  cases h : m.get? a with
  | none => exact ⟨_, rfl, List.mem_cons_self ..⟩
  | some v => exact ⟨_, rfl, by simp [visitLabels, Visit.kinds]⟩

theorem grows_leave (a : α) (m : IndexMap α (Visit κ)) :
    Grows m (m.modify a ((visitLabels α κ).leave a)) := by
  intro x v hv
  rw [IndexMap.get?_modify]
  by_cases h : x = a
  · subst h
    rw [if_pos rfl, hv]
    exact ⟨_, rfl, rfl, fun _ hj => hj, fun _ => rfl⟩
  · rw [if_neg h]
    exact ⟨v, hv, rfl, fun _ hj => hj, id⟩

namespace PullSystem

variable {P : PullSystem α κ ε} {L : Labels α κ β}

theorem ask_grows (fuel : Nat) (a : α) (k : κ) (m : IndexMap α (Visit κ)) :
    Grows m (P.ask (visitLabels α κ) fuel a k m).2 :=
  ask_rel (T := fun _ _ => True) Grows.refl (fun _ _ _ => Grows.trans)
    (fun _ _ _ _ _ _ _ _ _ => trivial) (fun a k m _ _ => grows_record a k m)
    (fun _ a _ _ m' _ _ _ _ h => h.trans (grows_leave a m')) fuel a k m trivial

theorem runPulls_grows (fuel : Nat) (ps : List (Pull α κ ε)) (m : IndexMap α (Visit κ)) :
    Grows m (runPulls (P.ask (visitLabels α κ) fuel) ps m).2 :=
  runPulls_rel (T := fun _ _ => True) Grows.refl (fun _ _ _ => Grows.trans)
    (fun b k m _ => ask_grows fuel b k m) ps m fun _ _ _ _ _ => trivial

/-- A request that ends is recorded, unless its node is rejected. -/
theorem ask_recorded {fuel : Nat} {a : α} {k : κ} {m : IndexMap α (Visit κ)}
    (hrej : P.reject a = none) (hout : (P.ask (visitLabels α κ) fuel a k m).1 ≠ .outOfFuel) :
    Recorded (P.ask (visitLabels α κ) fuel a k m).2 a k := by
  cases fuel with
  | zero => exact absurd rfl hout
  | succ fuel =>
    have hrec := recorded_record a k m
    cases hm : m.contains a with
    | true =>
      rw [ask_seen hrej hm]
      exact hrec
    | false =>
      have hg := runPulls_grows (P := P) fuel (P.pulls a k) ((visitLabels α κ).record a k m)
      rw [ask_new hrej hm]
      split
      next m' he =>
        rw [he] at hg
        exact (hg.trans (grows_leave a m')).recorded hrec
      next => exact hg.recorded hrec

/-- What a pull that ran means: its request is recorded (a soft one may be
rejected), and an abort never ran. -/
def Honoured (P : PullSystem α κ ε) (m : IndexMap α (Visit κ)) : Pull α κ ε → Prop
  | .hard b k => P.reject b = none ∧ Recorded m b k
  | .soft b k => P.reject b = none → Recorded m b k
  | .abort _ => False

theorem Honoured.mono {m m' : IndexMap α (Visit κ)} (h : Grows m m') {p : Pull α κ ε}
    (hp : P.Honoured m p) : P.Honoured m' p := by
  cases p with
  | hard b k => exact ⟨hp.1, h.recorded hp.2⟩
  | soft b k => exact fun hrej => h.recorded (hp hrej)
  | abort e => exact hp

theorem ask_done_accepts {fuel : Nat} {a : α} {k : κ} {m : IndexMap α β}
    (h : (P.ask L fuel a k m).1 = .done) : P.reject a = none := by
  cases fuel with
  | zero => exact absurd h (by simp [ask])
  | succ fuel =>
    cases hrej : P.reject a with
    | none => rfl
    | some e =>
      rw [ask_reject hrej] at h
      exact absurd h (by simp)

/-- Pulls that ran to the end are all honoured. -/
theorem runPulls_honoured (fuel : Nat) : ∀ (ps : List (Pull α κ ε)) (m : IndexMap α (Visit κ)),
    (runPulls (P.ask (visitLabels α κ) fuel) ps m).1 = .done →
    ∀ p ∈ ps, P.Honoured (runPulls (P.ask (visitLabels α κ) fuel) ps m).2 p
  | [], _, _, p, hp => by simp at hp
  | .abort e :: _, _, h, _, _ => by simp [runPulls] at h
  | .hard b k :: ps, m, h, p, hp => by
    by_cases hd : (P.ask (visitLabels α κ) fuel b k m).1 = .done
    · have hrej := ask_done_accepts hd
      have hg := runPulls_grows (P := P) fuel ps (P.ask (visitLabels α κ) fuel b k m).2
      rw [runPulls_hard_done hd] at h ⊢
      rcases List.mem_cons.mp hp with rfl | hp
      · exact ⟨hrej, hg.recorded (ask_recorded hrej (by simp [hd]))⟩
      · exact runPulls_honoured fuel ps _ h p hp
    · rw [runPulls_hard_stop hd] at h
      exact absurd h hd
  | .soft b k :: ps, m, h, p, hp => by
    by_cases hd : (P.ask (visitLabels α κ) fuel b k m).1 = .outOfFuel
    · rw [runPulls_soft_fuel hd, hd] at h
      exact absurd h (by simp)
    · have hg := runPulls_grows (P := P) fuel ps (P.ask (visitLabels α κ) fuel b k m).2
      rw [runPulls_soft hd] at h ⊢
      rcases List.mem_cons.mp hp with rfl | hp
      · exact fun hrej => hg.recorded (ask_recorded hrej hd)
      · exact runPulls_honoured fuel ps _ h p hp

/-- Every node whose pulls ran to the end has them honoured. -/
def CarriedHonoured (P : PullSystem α κ ε) (m : IndexMap α (Visit κ)) : Prop :=
  ∀ a k, Carried m a k → ∀ p ∈ P.pulls a k, P.Honoured m p

/-- A carried node of a later map was carried before, or is the one that left. -/
theorem carried_leave {a x : α} {k : κ} {m : IndexMap α (Visit κ)}
    (h : Carried (m.modify a ((visitLabels α κ).leave a)) x k) :
    Carried m x k ∨ x = a ∧ ∃ v, m.get? a = some v ∧ v.first = k := by
  obtain ⟨v, hv, hf, hc⟩ := h
  rw [IndexMap.get?_modify] at hv
  by_cases hx : x = a
  · subst hx
    rw [if_pos rfl] at hv
    obtain ⟨w, hw, rfl⟩ := Option.map_eq_some_iff.mp hv
    exact Or.inr ⟨rfl, w, hw, hf⟩
  · rw [if_neg hx] at hv
    exact Or.inl ⟨v, hv, hf, hc⟩

theorem carried_record {a x : α} {k j : κ} {m : IndexMap α (Visit κ)}
    (h : Carried ((visitLabels α κ).record a k m) x j) : Carried m x j := by
  obtain ⟨v, hv, hf, hc⟩ := h
  unfold Labels.record at hv
  by_cases hx : x = a
  · subst hx
    rw [IndexMap.get?_upsert_self] at hv
    cases hm : m.get? x with
    | none =>
      rw [hm] at hv
      obtain rfl : (⟨k, [], false⟩ : Visit κ) = v := Option.some.inj hv
      exact absurd hc (by simp)
    | some w =>
      rw [hm] at hv
      obtain rfl : ({ w with later := w.later ++ [k] } : Visit κ) = v := Option.some.inj hv
      exact ⟨w, hm, hf, hc⟩
  · rw [IndexMap.get?_upsert_ne hx] at hv
    exact ⟨v, hv, hf, hc⟩

/-- A node entered under `k` keeps `k` as its first request. -/
theorem first_record {a : α} {k : κ} {m : IndexMap α (Visit κ)} (hm : m.contains a = false) :
    ((visitLabels α κ).record a k m).get? a = some ⟨k, [], false⟩ := by
  have hn : m.get? a = none := by
    cases h : m.get? a with
    | none => rfl
    | some v => simp [IndexMap.contains, h] at hm
  rw [Labels.record, IndexMap.get?_upsert_self, hn]
  rfl

/-- **Carried nodes are honoured**, whatever happened around them. -/
theorem ask_carried (fuel : Nat) (a : α) (k : κ) (m : IndexMap α (Visit κ))
    (h : P.CarriedHonoured m) : P.CarriedHonoured (P.ask (visitLabels α κ) fuel a k m).2 := by
  refine ask_rel (P := P) (L := visitLabels α κ)
    (R := fun m m' => P.CarriedHonoured m → P.CarriedHonoured m') (T := fun _ _ => True)
    (fun _ h => h) (fun _ _ _ h1 h2 h => h2 (h1 h)) (fun _ _ _ _ _ _ _ _ _ => trivial)
    ?_ ?_ fuel a k m trivial h
  · intro b j m _ _ hch x i hx p hp
    exact (hch x i (carried_record hx) p hp).mono (grows_record b j m)
  · intro fuel b j m m' _ _ hb hrun hch hm x i hx p hp
    rcases carried_leave hx with hx | ⟨rfl, v, hv, rfl⟩
    · exact (hch hm x i hx p hp).mono (grows_leave b m')
    · have hg := runPulls_grows (P := P) fuel (P.pulls x j) ((visitLabels α κ).record x j m)
      have hh := runPulls_honoured (P := P) fuel (P.pulls x j)
        ((visitLabels α κ).record x j m) (by rw [hrun])
      rw [hrun] at hg hh
      obtain ⟨v', hv', hf', -⟩ := hg x _ (first_record hb)
      rw [hv] at hv'
      obtain rfl := Option.some.inj hv'
      rw [hf'] at hp
      exact (hh p hp).mono (grows_leave x m')

/-- A new node whose request ends is carried under it. -/
theorem ask_carries {fuel : Nat} {a : α} {k : κ} {m : IndexMap α (Visit κ)}
    (hm : m.contains a = false) (hd : (P.ask (visitLabels α κ) fuel a k m).1 = .done) :
    Carried (P.ask (visitLabels α κ) fuel a k m).2 a k := by
  cases fuel with
  | zero => exact absurd hd (by simp [ask])
  | succ fuel =>
    have hrej := ask_done_accepts hd
    have hg := runPulls_grows (P := P) fuel (P.pulls a k) ((visitLabels α κ).record a k m)
    rw [ask_new hrej hm] at hd ⊢
    cases hrun : runPulls (P.ask (visitLabels α κ) fuel) (P.pulls a k)
      ((visitLabels α κ).record a k m) with
    | mk o m' =>
      rw [hrun] at hg hd
      cases o with
      | done =>
        obtain ⟨v', hv', hf', -⟩ := hg a _ (first_record hm)
        refine ⟨{ v' with carried := true }, ?_, hf', rfl⟩
        show (m'.modify a _).get? a = _
        rw [IndexMap.get?_modify_self, hv']
        rfl
      | failed e | outOfFuel => exact absurd hd (by simp)

theorem carriedHonoured_empty : P.CarriedHonoured (.empty : IndexMap α (Visit κ)) := by
  rintro a k ⟨v, hv, -⟩
  simp at hv

/-! ## Which requests are made -/

/-- The requests derived from an initial set by the pulls of accepted nodes. -/
inductive Requested (P : PullSystem α κ ε) (init : α → κ → Prop) : α → κ → Prop where
  | base {a : α} {k : κ} (h : init a k) : Requested P init a k
  | pull {a b : α} {k j : κ} {p : Pull α κ ε} (h : Requested P init a k)
      (hrej : P.reject a = none) (hp : p ∈ P.pulls a k) (hr : p.Requests b j) :
      Requested P init b j

/-- Only derived requests on accepted nodes are recorded. -/
def OnlyRequested (P : PullSystem α κ ε) (init : α → κ → Prop)
    (m : IndexMap α (Visit κ)) : Prop :=
  ∀ b k, Recorded m b k → P.Requested init b k ∧ P.reject b = none

theorem recorded_of_record {a x : α} {k j : κ} {m : IndexMap α (Visit κ)}
    (h : Recorded ((visitLabels α κ).record a k m) x j) : (x = a ∧ j = k) ∨ Recorded m x j := by
  obtain ⟨v, hv, hj⟩ := h
  unfold Labels.record at hv
  by_cases hx : x = a
  · subst hx
    rw [IndexMap.get?_upsert_self] at hv
    cases hm : m.get? x with
    | none =>
      rw [hm] at hv
      obtain rfl : (⟨k, [], false⟩ : Visit κ) = v := Option.some.inj hv
      exact Or.inl ⟨rfl, by simpa [Visit.kinds] using hj⟩
    | some w =>
      rw [hm] at hv
      obtain rfl : ({ w with later := w.later ++ [k] } : Visit κ) = v := Option.some.inj hv
      have hj' : j = w.first ∨ j ∈ w.later ∨ j = k := by simpa [Visit.kinds] using hj
      rcases hj' with rfl | hj' | rfl
      · exact Or.inr ⟨w, hm, List.mem_cons_self ..⟩
      · exact Or.inr ⟨w, hm, List.mem_cons_of_mem _ hj'⟩
      · exact Or.inl ⟨rfl, rfl⟩
  · rw [IndexMap.get?_upsert_ne hx] at hv
    exact Or.inr ⟨v, hv, hj⟩

theorem recorded_of_leave {a x : α} {j : κ} {m : IndexMap α (Visit κ)}
    (h : Recorded (m.modify a ((visitLabels α κ).leave a)) x j) : Recorded m x j := by
  obtain ⟨v, hv, hj⟩ := h
  rw [IndexMap.get?_modify] at hv
  by_cases hx : x = a
  · subst hx
    rw [if_pos rfl] at hv
    obtain ⟨w, hw, rfl⟩ := Option.map_eq_some_iff.mp hv
    exact ⟨w, hw, hj⟩
  · rw [if_neg hx] at hv
    exact ⟨v, hv, hj⟩

/-- Only requests derived from the initial ones are made. -/
theorem ask_requested {init : α → κ → Prop} (fuel : Nat) (a : α) (k : κ)
    (m : IndexMap α (Visit κ)) (ha : P.Requested init a k) (h : P.OnlyRequested init m) :
    P.OnlyRequested init (P.ask (visitLabels α κ) fuel a k m).2 := by
  refine ask_rel (P := P) (L := visitLabels α κ)
    (R := fun m m' => P.OnlyRequested init m → P.OnlyRequested init m') (T := P.Requested init)
    (fun _ h => h) (fun _ _ _ h1 h2 h => h2 (h1 h))
    (fun _ _ ha hrej p hp _ _ hr => .pull ha hrej hp hr) ?_ ?_ fuel a k m ha h
  · intro b j m hb hrej honly x i hx
    rcases recorded_of_record hx with ⟨rfl, rfl⟩ | hx
    · exact ⟨hb, hrej⟩
    · exact honly x i hx
  · intro _ b _ _ m' _ _ _ _ honly hm x i hx
    exact honly hm x i (recorded_of_leave hx)

/-! ## When nothing can fail -/

/-- No pull of a derived request can fail: none aborts, and a hard one names an
accepted node. -/
def NoFail (P : PullSystem α κ ε) (T : α → κ → Prop) : Prop :=
  ∀ a k, T a k → P.reject a = none → ∀ p ∈ P.pulls a k,
    (∀ e, p ≠ .abort e) ∧ ∀ b j, p = .hard b j → P.reject b = none

/-- `k₀` pulls nothing but soft requests of `k₀`. -/
def SoftOnly (P : PullSystem α κ ε) (k₀ : κ) : Prop :=
  ∀ a, ∀ p ∈ P.pulls a k₀, ∃ b, p = .soft b k₀

omit [DecidableEq α] in
theorem SoftOnly.requests {k₀ : κ} (h : P.SoftOnly k₀) {a b : α} {k : κ} {p : Pull α κ ε}
    (hp : p ∈ P.pulls a k₀) (hr : p.Requests b k) : p = .soft b k₀ ∧ k = k₀ := by
  obtain ⟨c, rfl⟩ := h a p hp
  rcases hr with hr | hr
  · exact absurd hr (by simp)
  · obtain ⟨rfl, rfl⟩ := Pull.soft.inj hr
    exact ⟨rfl, rfl⟩

omit [DecidableEq α] in
theorem SoftOnly.noFail {k₀ : κ} (h : P.SoftOnly k₀) : P.NoFail fun _ k => k = k₀ := by
  rintro a k rfl - p hp
  obtain ⟨b, rfl⟩ := h a p hp
  exact ⟨fun e => by simp, fun b j h => by simp at h⟩

/-- Node `x` was entered and its pulls did not run to the end. -/
def Cut (m : IndexMap α (Visit κ)) (x : α) : Prop :=
  ∃ v, m.get? x = some v ∧ v.carried = false

theorem cut_of_record {a x : α} {k : κ} {m : IndexMap α (Visit κ)}
    (h : Cut ((visitLabels α κ).record a k m) x) : x = a ∨ Cut m x := by
  obtain ⟨v, hv, hc⟩ := h
  by_cases hx : x = a
  · exact Or.inl hx
  · rw [Labels.record, IndexMap.get?_upsert_ne hx] at hv
    exact Or.inr ⟨v, hv, hc⟩

theorem cut_of_record_seen {a x : α} {k : κ} {m : IndexMap α (Visit κ)}
    (hm : m.contains a = true) (h : Cut ((visitLabels α κ).record a k m) x) : Cut m x := by
  obtain ⟨v, hv, hc⟩ := h
  by_cases hx : x = a
  · subst hx
    obtain ⟨w, hw⟩ := Option.isSome_iff_exists.mp hm
    rw [Labels.record, IndexMap.get?_upsert_self, hw] at hv
    obtain rfl : ({ w with later := w.later ++ [k] } : Visit κ) = v := Option.some.inj hv
    exact ⟨w, hw, hc⟩
  · rw [Labels.record, IndexMap.get?_upsert_ne hx] at hv
    exact ⟨v, hv, hc⟩

theorem cut_of_leave {a x : α} {m : IndexMap α (Visit κ)}
    (h : Cut (m.modify a ((visitLabels α κ).leave a)) x) : x ≠ a ∧ Cut m x := by
  obtain ⟨v, hv, hc⟩ := h
  rw [IndexMap.get?_modify] at hv
  by_cases hx : x = a
  · subst hx
    rw [if_pos rfl] at hv
    obtain ⟨w, -, rfl⟩ := Option.map_eq_some_iff.mp hv
    exact absurd hc (by simp [visitLabels])
  · rw [if_neg hx] at hv
    exact ⟨hx, v, hv, hc⟩

theorem runPulls_noFail {f : α → κ → IndexMap α (Visit κ) → Outcome ε × IndexMap α (Visit κ)}
    {T : α → κ → Prop}
    (hf : ∀ b k m, T b k → (f b k m).1 ≠ .outOfFuel →
      (P.reject b = none → (f b k m).1 = .done) ∧ ∀ x, Cut (f b k m).2 x → Cut m x) :
    ∀ (ps : List (Pull α κ ε)) (m : IndexMap α (Visit κ)),
    (∀ p ∈ ps, (∀ b k, p.Requests b k → T b k) ∧ (∀ e, p ≠ .abort e) ∧
      ∀ b j, p = .hard b j → P.reject b = none) →
    (runPulls f ps m).1 ≠ .outOfFuel →
    (runPulls f ps m).1 = .done ∧ ∀ x, Cut (runPulls f ps m).2 x → Cut m x
  | [], m, _, _ => ⟨rfl, fun _ h => h⟩
  | .abort e :: _, _, hps, _ => absurd rfl ((hps _ (List.mem_cons_self ..)).2.1 e)
  | .hard b k :: ps, m, hps, hout => by
    obtain ⟨hT, -, hrej⟩ := hps _ (List.mem_cons_self ..)
    have hb := hf b k m (hT b k (Or.inl rfl))
    have hfuel : (f b k m).1 ≠ .outOfFuel := by
      intro he
      rw [runPulls_hard_stop (by simp [he])] at hout
      exact hout he
    have hd := (hb hfuel).1 (hrej b k rfl)
    rw [runPulls_hard_done hd] at hout ⊢
    obtain ⟨h1, h2⟩ := runPulls_noFail hf ps _
      (fun p hp => hps p (List.mem_cons_of_mem _ hp)) hout
    exact ⟨h1, fun x hx => (hb hfuel).2 x (h2 x hx)⟩
  | .soft b k :: ps, m, hps, hout => by
    obtain ⟨hT, -, -⟩ := hps _ (List.mem_cons_self ..)
    have hb := hf b k m (hT b k (Or.inr rfl))
    have hfuel : (f b k m).1 ≠ .outOfFuel := by
      intro he
      rw [runPulls_soft_fuel he] at hout
      exact hout he
    rw [runPulls_soft hfuel] at hout ⊢
    obtain ⟨h1, h2⟩ := runPulls_noFail hf ps _
      (fun p hp => hps p (List.mem_cons_of_mem _ hp)) hout
    exact ⟨h1, fun x hx => (hb hfuel).2 x (h2 x hx)⟩

/-- Where no derived pull can fail, an accepted request succeeds and leaves no
node cut that was not cut before. -/
theorem ask_noFail {T : α → κ → Prop} (hno : P.NoFail T)
    (hT : ∀ a k, T a k → P.reject a = none → ∀ p ∈ P.pulls a k, ∀ b j, p.Requests b j → T b j) :
    ∀ (fuel : Nat) (a : α) (k : κ) (m : IndexMap α (Visit κ)), T a k →
      (P.ask (visitLabels α κ) fuel a k m).1 ≠ .outOfFuel →
      (P.reject a = none → (P.ask (visitLabels α κ) fuel a k m).1 = .done) ∧
        ∀ x, Cut (P.ask (visitLabels α κ) fuel a k m).2 x → Cut m x
  | 0, _, _, _, _, h => absurd rfl h
  | fuel + 1, a, k, m, ha, hout => by
    cases hrej : P.reject a with
    | some e =>
      rw [ask_reject hrej]
      exact ⟨fun h => absurd h (by simp), fun _ h => h⟩
    | none =>
      cases hm : m.contains a with
      | true =>
        rw [ask_seen hrej hm]
        exact ⟨fun _ => rfl, fun x hx => cut_of_record_seen hm hx⟩
      | false =>
        have hrun := runPulls_noFail (ask_noFail hno hT fuel) (P.pulls a k)
          ((visitLabels α κ).record a k m)
          (fun p hp => ⟨hT a k ha hrej p hp, hno a k ha hrej p hp⟩)
        rw [ask_new hrej hm] at hout ⊢
        split at hout
        next m' he =>
          rw [he] at hrun
          refine ⟨fun _ => rfl, fun x hx => ?_⟩
          obtain ⟨hne, hx⟩ := cut_of_leave hx
          exact (cut_of_record ((hrun (by simp)).2 x hx)).resolve_left hne
        next r hr =>
          obtain ⟨hd, -⟩ := hrun hout
          exact absurd (by rw [← hd]) (hr (runPulls _ _ _).2)

/-! ## Other labellings -/

variable {γ : Type} {L : Labels α κ β} {L' : Labels α κ γ} {h : α → β → γ}

theorem record_mapVal (hh : Labels.Hom L L' h) (a : α) (k : κ) (m : IndexMap α β) :
    L'.record a k (m.mapVal h) = (L.record a k m).mapVal h := by
  refine IndexMap.mapVal_upsert fun o => ?_
  cases o with
  | none => exact (hh.fresh a k).symm
  | some b => exact (hh.merge a b k).symm

theorem runPulls_mapVal {fuel : Nat}
    (hask : ∀ a k m, P.ask L' fuel a k (m.mapVal h) =
      ((P.ask L fuel a k m).1, (P.ask L fuel a k m).2.mapVal h)) :
    ∀ (ps : List (Pull α κ ε)) (m : IndexMap α β),
      runPulls (P.ask L' fuel) ps (m.mapVal h) =
        ((runPulls (P.ask L fuel) ps m).1, (runPulls (P.ask L fuel) ps m).2.mapVal h)
  | [], _ => rfl
  | .abort _ :: _, _ => rfl
  | .hard b k :: ps, m => by
    have hb := hask b k m
    by_cases hd : (P.ask L fuel b k m).1 = .done
    · rw [runPulls_hard_done hd, runPulls_hard_done (by rw [hb]; exact hd), hb]
      exact runPulls_mapVal hask ps _
    · rw [runPulls_hard_stop hd, runPulls_hard_stop (by rw [hb]; exact hd), hb]
  | .soft b k :: ps, m => by
    have hb := hask b k m
    by_cases hd : (P.ask L fuel b k m).1 = .outOfFuel
    · rw [runPulls_soft_fuel hd, runPulls_soft_fuel (by rw [hb]; exact hd), hb]
    · rw [runPulls_soft hd, runPulls_soft (by rw [hb]; exact hd), hb]
      exact runPulls_mapVal hask ps _

/-- The walk does not look at labels: relabelling commutes with a request. -/
theorem ask_mapVal (hh : Labels.Hom L L' h) :
    ∀ (fuel : Nat) (a : α) (k : κ) (m : IndexMap α β),
      P.ask L' fuel a k (m.mapVal h) =
        ((P.ask L fuel a k m).1, (P.ask L fuel a k m).2.mapVal h)
  | 0, _, _, _ => rfl
  | fuel + 1, a, k, m => by
    have hcon : (m.mapVal h).contains a = m.contains a := by
      rw [Bool.eq_iff_iff, IndexMap.contains_iff, IndexMap.contains_iff, IndexMap.keys_mapVal]
    cases hrej : P.reject a with
    | some e => rw [ask_reject hrej, ask_reject hrej]
    | none =>
      cases hm : m.contains a with
      | true => rw [ask_seen hrej hm, ask_seen hrej (hcon.trans hm), record_mapVal hh]
      | false =>
        have hrun := runPulls_mapVal (ask_mapVal hh fuel) (P.pulls a k) (L.record a k m)
        rw [ask_new hrej hm, ask_new hrej (hcon.trans hm), record_mapVal hh, hrun]
        cases hr : runPulls (P.ask L fuel) (P.pulls a k) (L.record a k m) with
        | mk o m' =>
          cases o with
          | done =>
            have hmod : (m'.mapVal h).modify a (L'.leave a) =
                (m'.modify a (L.leave a)).mapVal h :=
              IndexMap.mapVal_modify fun b => (hh.leave a b).symm
            simp only [hmod]
          | failed e => rfl
          | outOfFuel => rfl

omit [DecidableEq α] in
/-- Every labelling that does nothing on leaving is the visit labelling, evaluated. -/
theorem hom_eval {L : Labels α κ β} (hleave : ∀ a b, L.leave a b = b) :
    Labels.Hom (visitLabels α κ) L L.eval where
  fresh := fun _ _ => rfl
  merge := fun a v k => by
    show L.eval a { v with later := v.later ++ [k] } = L.merge a (L.eval a v) k
    simp [Labels.eval]
  leave := fun a v => (hleave a (L.eval a v)).symm

end PullSystem

end Systeml.Lib
