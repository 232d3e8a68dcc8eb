import Systeml.Lib.VisitOnce

/-!
# A phase of soft requests of one kind

After a walk has left the map `m₀`, one kind `k₀` is requested on a list of nodes,
where `k₀` pulls nothing but soft requests of `k₀`. The nodes this reaches are the
swept ones: those of the list, and what a swept node pulls that was not in `m₀`.
Every request adds `k₀` to its node and to no other:

* `phase_frame`: a node that is not swept keeps its label;
* `phase_kinds`: a node only gains requests of `k₀`;
* `phase_asked`: the last request on a swept node is `k₀`.
-/

namespace Systeml.Lib

variable {α κ ε : Type} [DecidableEq α]

/-- The requests made on a node; none, if it is not in the map. -/
def kindsAt (m : IndexMap α (Visit κ)) (x : α) : List κ := ((m.get? x).map Visit.kinds).getD []

theorem kindsAt_record_self (a : α) (k : κ) (m : IndexMap α (Visit κ)) :
    kindsAt ((visitLabels α κ).record a k m) a = kindsAt m a ++ [k] := by
  unfold kindsAt Labels.record
  rw [IndexMap.get?_upsert_self]
  cases m.get? a <;> rfl

theorem kindsAt_record_ne {a x : α} (h : x ≠ a) (k : κ) (m : IndexMap α (Visit κ)) :
    kindsAt ((visitLabels α κ).record a k m) x = kindsAt m x := by
  unfold kindsAt Labels.record
  rw [IndexMap.get?_upsert_ne h]

theorem kindsAt_leave (a x : α) (m : IndexMap α (Visit κ)) :
    kindsAt (m.modify a ((visitLabels α κ).leave a)) x = kindsAt m x := by
  unfold kindsAt
  rw [IndexMap.get?_modify]
  split
  next h =>
    subst h
    cases m.get? x <;> rfl
  next => rfl

theorem mem_keys_iff_kindsAt {m : IndexMap α (Visit κ)} {x : α} :
    x ∈ m.keys ↔ kindsAt m x ≠ [] := by
  rw [IndexMap.mem_keys]
  unfold kindsAt
  cases m.get? x with
  | none => simp
  | some vis => simp [Visit.kinds]

/-- Nodes only gain requests of `k₀`. -/
def Gains (k₀ : κ) (m m' : IndexMap α (Visit κ)) : Prop :=
  ∀ x, ∃ n, kindsAt m' x = kindsAt m x ++ List.replicate n k₀

/-- The last request on a node is `k₀`. -/
def LastAsked (k₀ : κ) (m : IndexMap α (Visit κ)) (x : α) : Prop :=
  ∃ l, kindsAt m x = l ++ [k₀]

theorem Gains.refl (k₀ : κ) (m : IndexMap α (Visit κ)) : Gains k₀ m m := fun x => ⟨0, by simp⟩

theorem Gains.trans {k₀ : κ} {m₁ m₂ m₃ : IndexMap α (Visit κ)} (h₁ : Gains k₀ m₁ m₂)
    (h₂ : Gains k₀ m₂ m₃) : Gains k₀ m₁ m₃ := by
  intro x
  obtain ⟨n, hn⟩ := h₁ x
  obtain ⟨n', hn'⟩ := h₂ x
  exact ⟨n + n', by rw [hn', hn, List.append_assoc, List.replicate_append_replicate]⟩

theorem Gains.lastAsked {k₀ : κ} {m m' : IndexMap α (Visit κ)} (h : Gains k₀ m m') {x : α}
    (hx : LastAsked k₀ m x) : LastAsked k₀ m' x := by
  obtain ⟨n, hn⟩ := h x
  obtain ⟨l, hl⟩ := hx
  cases n with
  | zero => exact ⟨l, by rw [hn, hl]; simp⟩
  | succ n => exact ⟨kindsAt m x ++ List.replicate n k₀, by
      rw [hn, List.replicate_succ', List.append_assoc]⟩

theorem gains_record (k₀ : κ) (a : α) (m : IndexMap α (Visit κ)) :
    Gains k₀ m ((visitLabels α κ).record a k₀ m) := by
  intro x
  by_cases h : x = a
  · subst h
    exact ⟨1, by rw [kindsAt_record_self]; rfl⟩
  · exact ⟨0, by rw [kindsAt_record_ne h]; simp⟩

theorem gains_leave (k₀ : κ) (a : α) (m : IndexMap α (Visit κ)) :
    Gains k₀ m (m.modify a ((visitLabels α κ).leave a)) := fun x =>
  ⟨0, by rw [kindsAt_leave]; simp⟩

/-- The nodes that requests of `k₀` on `init` reach after the map `m₀`. -/
inductive Swept (P : PullSystem α κ ε) (k₀ : κ) (m₀ : IndexMap α (Visit κ)) (init : List α) :
    α → Prop
  | base {a : α} (h : a ∈ init) (hrej : P.reject a = none) : Swept P k₀ m₀ init a
  | spread {a b : α} (h : Swept P k₀ m₀ init a) (hnew : a ∉ m₀.keys)
      (hp : .soft b k₀ ∈ P.pulls a k₀) (hrej : P.reject b = none) : Swept P k₀ m₀ init b

namespace PullSystem

variable {P : PullSystem α κ ε} {k₀ : κ}

/-- The requests of the phase, one node of the list after the other. -/
def phase (P : PullSystem α κ ε) (k₀ : κ) (n : Nat) (l : List α) (m : IndexMap α (Visit κ)) :
    IndexMap α (Visit κ) :=
  l.foldl (fun m a => (P.ask (visitLabels α κ) n a k₀ m).2) m

/-! ## Only requests of the kind are added -/

theorem ask_gains (hs : P.SoftOnly k₀) (fuel : Nat) (a : α) (m : IndexMap α (Visit κ)) :
    Gains k₀ m (P.ask (visitLabels α κ) fuel a k₀ m).2 :=
  ask_rel (T := fun _ k => k = k₀) (Gains.refl k₀) (fun _ _ _ => Gains.trans)
    (fun _ _ hk _ _ hp _ _ hr => (hs.requests (hk ▸ hp) hr).2)
    (fun a _ m hk _ => hk ▸ gains_record k₀ a m)
    (fun _ a _ _ m' _ _ _ _ h => h.trans (gains_leave k₀ a m')) fuel a k₀ m rfl

theorem phase_kinds (hs : P.SoftOnly k₀) (n : Nat) (l : List α) (m : IndexMap α (Visit κ)) :
    Gains k₀ m (P.phase k₀ n l m) := by
  induction l generalizing m with
  | nil => exact Gains.refl k₀ m
  | cons a l ih => exact (ask_gains hs n a m).trans (ih _)

/-! ## And to swept nodes only -/

/-- Nodes stay, and those outside of `S` keep their label. -/
structure Frame (S : α → Prop) (m m' : IndexMap α (Visit κ)) : Prop where
  keys : ∀ x ∈ m.keys, x ∈ m'.keys
  same : ∀ x, ¬ S x → m'.get? x = m.get? x

theorem ask_frame (hs : P.SoftOnly k₀) {m₀ : IndexMap α (Visit κ)} {init : List α} (fuel : Nat)
    {a : α} {m : IndexMap α (Visit κ)} (ha : P.reject a = none → Swept P k₀ m₀ init a)
    (hm : ∀ x ∈ m₀.keys, x ∈ m.keys) :
    Frame (Swept P k₀ m₀ init) m (P.ask (visitLabels α κ) fuel a k₀ m).2 := by
  refine ask_relOn (I := fun m => ∀ x ∈ m₀.keys, x ∈ m.keys)
    (T := fun b k => k = k₀ ∧ (P.reject b = none → Swept P k₀ m₀ init b))
    (fun m => ⟨fun _ h => h, fun _ _ => rfl⟩)
    (fun _ _ _ h₁ h₂ => ⟨fun x hx => h₂.keys x (h₁.keys x hx),
      fun x hx => (h₂.same x hx).trans (h₁.same x hx)⟩)
    (fun _ _ h hm x hx => h.keys x (hm x hx)) ?_ ?_ ?_ fuel a k₀ m ⟨rfl, ha⟩ hm
  · -- a node that is entered was not in `m₀`, so what it pulls is swept
    rintro a k m ⟨rfl, ha⟩ hm hrej hnew p hp b j hr
    obtain ⟨rfl, rfl⟩ := hs.requests hp hr
    refine ⟨rfl, fun hb => .spread (ha hrej) (fun hk => ?_) hp hb⟩
    exact absurd (IndexMap.contains_iff.mpr (hm a hk)) (by simp [hnew])
  · rintro a k m ⟨-, ha⟩ - hrej
    refine ⟨fun x hx => mem_keys_record.mpr (Or.inr hx), fun x hx => ?_⟩
    have hne : x ≠ a := fun e => hx (e ▸ ha hrej)
    rw [Labels.record, IndexMap.get?_upsert_ne hne]
  · rintro fuel a k m m' ⟨-, ha⟩ - hrej - - h
    refine ⟨fun x hx => ?_, fun x hx => ?_⟩
    · rw [IndexMap.keys_modify]
      exact h.keys x hx
    · have hne : x ≠ a := fun e => hx (e ▸ ha hrej)
      rw [IndexMap.get?_modify, if_neg hne]
      exact h.same x hx

theorem phase_frame_from (hs : P.SoftOnly k₀) {m₀ : IndexMap α (Visit κ)} {init : List α}
    (n : Nat) (l : List α) (m : IndexMap α (Visit κ)) (hl : ∀ a ∈ l, a ∈ init)
    (hm : ∀ x ∈ m₀.keys, x ∈ m.keys) :
    Frame (Swept P k₀ m₀ init) m (P.phase k₀ n l m) := by
  induction l generalizing m with
  | nil => exact ⟨fun _ h => h, fun _ _ => rfl⟩
  | cons a l ih =>
    have h := ask_frame hs n (m := m) (fun hrej => .base (hl a List.mem_cons_self) hrej) hm
    have h' := ih _ (fun b hb => hl b (List.mem_cons_of_mem a hb)) fun x hx => h.keys x (hm x hx)
    exact ⟨fun x hx => h'.keys x (h.keys x hx), fun x hx => (h'.same x hx).trans (h.same x hx)⟩

/-- **A node that is not swept keeps its label.** -/
theorem phase_frame (hs : P.SoftOnly k₀) {m₀ : IndexMap α (Visit κ)} (n : Nat) (l : List α)
    {x : α} (hx : ¬ Swept P k₀ m₀ l x) : (P.phase k₀ n l m₀).get? x = m₀.get? x :=
  (phase_frame_from hs n l m₀ (fun _ h => h) fun _ h => h).same x hx

/-! ## Every swept node is asked -/

theorem ask_asked (hs : P.SoftOnly k₀) {fuel : Nat} {a : α} {m : IndexMap α (Visit κ)}
    (hrej : P.reject a = none) (hout : (P.ask (visitLabels α κ) fuel a k₀ m).1 ≠ .outOfFuel) :
    LastAsked k₀ (P.ask (visitLabels α κ) fuel a k₀ m).2 a := by
  cases fuel with
  | zero => exact absurd rfl hout
  | succ fuel =>
    have hrec : LastAsked k₀ ((visitLabels α κ).record a k₀ m) a := ⟨_, kindsAt_record_self a k₀ m⟩
    cases hm : m.contains a with
    | true =>
      rw [ask_seen hrej hm]
      exact hrec
    | false =>
      have hg := runPulls_rel (f := P.ask (visitLabels α κ) fuel) (T := fun _ k => k = k₀)
        (Gains.refl k₀) (fun _ _ _ => Gains.trans)
        (fun b k m hk => hk ▸ ask_gains hs fuel b m) (P.pulls a k₀)
        ((visitLabels α κ).record a k₀ m) fun p hp b j hr => (hs.requests hp hr).2
      rw [ask_new hrej hm]
      split
      next m' he =>
        rw [he] at hg
        exact (hg.trans (gains_leave k₀ a m')).lastAsked hrec
      next => exact hg.lastAsked hrec

/-- Soft pulls that ran to the end were all asked. -/
theorem runPulls_asked (hs : P.SoftOnly k₀) (fuel : Nat) :
    ∀ (ps : List (Pull α κ ε)) (m : IndexMap α (Visit κ)), (∀ p ∈ ps, ∃ b, p = .soft b k₀) →
    (runPulls (P.ask (visitLabels α κ) fuel) ps m).1 = .done →
    ∀ b, .soft b k₀ ∈ ps → P.reject b = none →
      LastAsked k₀ (runPulls (P.ask (visitLabels α κ) fuel) ps m).2 b
  | [], _, _, _, b, hb, _ => absurd hb (by simp)
  | p :: ps, m, hps, hd, b, hb, hrej => by
    obtain ⟨c, rfl⟩ := hps p List.mem_cons_self
    have hps' : ∀ p ∈ ps, ∃ b, p = .soft b k₀ := fun p hp => hps p (List.mem_cons_of_mem _ hp)
    have hout : (P.ask (visitLabels α κ) fuel c k₀ m).1 ≠ .outOfFuel := by
      intro he
      rw [runPulls_soft_fuel he, he] at hd
      exact absurd hd (by simp)
    rw [runPulls_soft hout] at hd ⊢
    rcases List.mem_cons.mp hb with he | hb
    · obtain ⟨rfl, -⟩ := Pull.soft.inj he
      have hg := runPulls_rel (f := P.ask (visitLabels α κ) fuel) (T := fun _ k => k = k₀)
        (Gains.refl k₀) (fun _ _ _ => Gains.trans) (fun b k m hk => hk ▸ ask_gains hs fuel b m)
        ps (P.ask (visitLabels α κ) fuel b k₀ m).2 fun p hp b' j hr => by
          obtain ⟨d, rfl⟩ := hps' p hp
          rcases hr with hr | hr
          · exact absurd hr (by simp)
          · exact (Pull.soft.inj hr).2.symm
      exact hg.lastAsked (ask_asked hs hrej hout)
    · exact runPulls_asked hs fuel ps _ hps' hd b hb hrej

/-- Nodes that come to be carried have asked for all they pull. -/
structure Asks (P : PullSystem α κ ε) (k₀ : κ) (m m' : IndexMap α (Visit κ)) : Prop where
  gains : Gains k₀ m m'
  asked : ∀ a, ¬ (∃ k, Carried m a k) → (∃ k, Carried m' a k) → ∀ b, .soft b k₀ ∈ P.pulls a k₀ →
    P.reject b = none → LastAsked k₀ m' b

theorem Asks.refl (m : IndexMap α (Visit κ)) : Asks P k₀ m m :=
  ⟨Gains.refl k₀ m, fun _ hn hc => absurd hc hn⟩

theorem Asks.trans {m₁ m₂ m₃ : IndexMap α (Visit κ)} (h₁ : Asks P k₀ m₁ m₂)
    (h₂ : Asks P k₀ m₂ m₃) : Asks P k₀ m₁ m₃ := by
  refine ⟨h₁.gains.trans h₂.gains, fun a hn hc b hp hrej => ?_⟩
  by_cases hm : ∃ k, Carried m₂ a k
  · exact h₂.gains.lastAsked (h₁.asked a hn hm b hp hrej)
  · exact h₂.asked a hm hc b hp hrej

theorem ask_asks (hs : P.SoftOnly k₀) (fuel : Nat) (a : α) (m : IndexMap α (Visit κ)) :
    Asks P k₀ m (P.ask (visitLabels α κ) fuel a k₀ m).2 := by
  refine ask_rel (T := fun _ k => k = k₀) Asks.refl (fun _ _ _ => Asks.trans)
    (fun a k hk _ p hp b j hr => (hs.requests (hk ▸ hp) hr).2) ?_ ?_ fuel a k₀ m rfl
  · rintro a k m rfl -
    refine ⟨gains_record k a m, fun x hn hc => absurd ?_ hn⟩
    obtain ⟨j, hj⟩ := hc
    exact ⟨j, carried_record hj⟩
  · rintro fuel a k m m' rfl hrej hnew hrun h
    refine ⟨h.gains.trans (gains_leave k a m'), fun x hn hc b hp hb => ?_⟩
    refine (gains_leave k a m').lastAsked ?_
    by_cases hx : x = a
    · subst hx
      have hall := runPulls_asked hs fuel (P.pulls x k) ((visitLabels α κ).record x k m)
        (hs x) (by rw [hrun]) b hp hb
      rw [hrun] at hall
      exact hall
    · refine h.asked x hn ?_ b hp hb
      obtain ⟨j, hj⟩ := hc
      exact ⟨j, (carried_leave hj).resolve_right fun h => hx h.1⟩

theorem phase_asks (hs : P.SoftOnly k₀) (n : Nat) (l : List α) (m : IndexMap α (Visit κ)) :
    Asks P k₀ m (P.phase k₀ n l m) := by
  induction l generalizing m with
  | nil => exact Asks.refl m
  | cons a l ih => exact (ask_asks hs n a m).trans (ih _)

theorem phase_noCut (hs : P.SoftOnly k₀) (n : Nat) (l : List α) (m : IndexMap α (Visit κ))
    (hfuel : ∀ a ∈ l, ∀ m, (P.ask (visitLabels α κ) n a k₀ m).1 ≠ .outOfFuel) {x : α}
    (hx : Cut (P.phase k₀ n l m) x) : Cut m x := by
  induction l generalizing m with
  | nil => exact hx
  | cons a l ih =>
    have h := ih _ (fun b hb => hfuel b (List.mem_cons_of_mem a hb)) hx
    exact (ask_noFail hs.noFail (fun a k hk _ p hp b j hr => (hs.requests (hk ▸ hp) hr).2) n a k₀ m rfl
      (hfuel a List.mem_cons_self m)).2 x h

/-- **The last request on a swept node is `k₀`.** -/
theorem phase_asked (hs : P.SoftOnly k₀) {n : Nat} {l : List α} {m₀ : IndexMap α (Visit κ)}
    (hfuel : ∀ a ∈ l, ∀ m, (P.ask (visitLabels α κ) n a k₀ m).1 ≠ .outOfFuel) {x : α}
    (hx : Swept P k₀ m₀ l x) : LastAsked k₀ (P.phase k₀ n l m₀) x := by
  induction hx with
  | @base a ha hrej =>
    obtain ⟨l₁, l₂, rfl⟩ := List.append_of_mem ha
    have hsplit : P.phase k₀ n (l₁ ++ a :: l₂) m₀ =
        P.phase k₀ n l₂ (P.ask (visitLabels α κ) n a k₀ (P.phase k₀ n l₁ m₀)).2 := by
      unfold phase
      rw [List.foldl_append, List.foldl_cons]
    rw [hsplit]
    exact (phase_kinds hs n l₂ _).lastAsked (ask_asked hs hrej (hfuel a ha _))
  | @spread a b _ hnew hp hrej ih =>
    -- `a` was entered in the phase, so it is carried at its end
    obtain ⟨ks, hks⟩ := ih
    have hmem : a ∈ (P.phase k₀ n l m₀).keys := mem_keys_iff_kindsAt.mpr (by simp [hks])
    obtain ⟨vis, hvis⟩ := IndexMap.mem_keys.mp hmem
    have hcarried : vis.carried = true := by
      rw [← Bool.not_eq_false]
      intro hc
      obtain ⟨w, hw, -⟩ := phase_noCut hs n l m₀ hfuel ⟨vis, hvis, hc⟩
      exact hnew (IndexMap.mem_keys.mpr ⟨w, hw⟩)
    refine (phase_asks hs n l m₀).asked a ?_ ⟨vis.first, vis, hvis, rfl, hcarried⟩ b hp hrej
    rintro ⟨k, w, hw, -⟩
    exact hnew (IndexMap.mem_keys.mpr ⟨w, hw⟩)

end PullSystem

end Systeml.Lib
