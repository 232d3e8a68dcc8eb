import Systeml.Lib.FirstRoute
import Systeml.Lib.SoftPhase

/-!
# The walk follows its first routes

A walk that is to run the pulls of a list asks for what stands at the places of any
table of first routes, in the order of the places (`runPulls_follows`). The invariant
is a `Log` of the places that are done: before a request at `ρ` those before `ρ`,
after it those below `ρ` too. The induction is on the fuel, and inside it on the pulls
that are left.
-/

namespace Systeml.Lib

namespace PullSystem

variable {α κ ε : Type} {P : PullSystem α κ ε} {init : List (Pull α κ ε)} {E : Entries α κ}

/-! ## The walk follows the places -/

variable [DecidableEq α]

/-- The kinds that `b` is asked for at the places of `D`, in the order of the places. -/
def SequenceIn (P : PullSystem α κ ε) (init : List (Pull α κ ε)) (E : Entries α κ)
    (D : List Nat → Prop) (b : α) (ks : List κ) : Prop :=
  ∃ l : List (κ × List Nat), ks = l.map Prod.fst ∧ l.Pairwise (fun x y => x.2 < y.2) ∧
    ∀ x, x ∈ l ↔ P.Asked init E b x.1 x.2 ∧ D x.2

/-- The map records the requests at the places of `D`, and the nodes entered there
with a pull that fails are cut. -/
structure Log (P : PullSystem α κ ε) (init : List (Pull α κ ε)) (E : Entries α κ)
    (D : List Nat → Prop) (m : IndexMap α (Visit κ)) : Prop where
  sequence : ∀ b, P.SequenceIn init E D b (kindsAt m b)
  cut : ∀ {b k ρ n}, E b = some (k, ρ) → D ρ → P.Fails init E ρ n → Cut m b

variable {D D' : List Nat → Prop} {m : IndexMap α (Visit κ)}

theorem Log.congr (hE : P.Rooted init E) (h : P.Log init E D m)
    (hD : ∀ b j π, P.Asked init E b j π → (D π ↔ D' π)) : P.Log init E D' m := by
  refine ⟨fun b => ?_, fun he hρ hf => h.cut he ((hD _ _ _ (hE.asked he)).mpr hρ) hf⟩
  obtain ⟨l, hk, hs, hl⟩ := h.sequence b
  exact ⟨l, hk, hs, fun x => (hl x).trans (and_congr_right fun ha => hD b x.1 x.2 ha)⟩

theorem Log.leave (h : P.Log init E D m) {a : α}
    (ha : ∀ k ρ n, E a = some (k, ρ) → ¬ P.Fails init E ρ n) :
    P.Log init E D (m.modify a ((visitLabels α κ).leave a)) := by
  refine ⟨fun b => ?_, fun {b k ρ n} he hρ hf => ?_⟩
  · rw [kindsAt_leave]
    exact h.sequence b
  · obtain ⟨v, hv, hc⟩ := h.cut he hρ hf
    have hne : b ≠ a := fun hb => ha k ρ n (hb ▸ he) hf
    refine ⟨v, ?_, hc⟩
    rw [IndexMap.get?_modify, if_neg hne]
    exact hv

theorem Log.contains_iff (h : P.Log init E D m) {b : α} :
    m.contains b = true ↔ ∃ j π, P.Asked init E b j π ∧ D π := by
  obtain ⟨l, hk, -, hl⟩ := h.sequence b
  rw [IndexMap.contains_iff, mem_keys_iff_kindsAt, hk]
  constructor
  · intro hne
    obtain ⟨x, hx⟩ := List.exists_mem_of_ne_nil l fun he => hne (by rw [he]; rfl)
    exact ⟨x.1, x.2, (hl x).mp hx⟩
  · rintro ⟨j, π, hb⟩ he
    have hmem := (hl (j, π)).mpr hb
    rw [List.map_eq_nil_iff.mp he] at hmem
    exact absurd hmem (by simp)

/-- Recording a request keeps cut nodes cut. -/
theorem Cut.record {a x : α} (k : κ) (h : Cut m x) : Cut ((visitLabels α κ).record a k m) x := by
  obtain ⟨v, hv, hc⟩ := h
  unfold Labels.record
  by_cases hx : x = a
  · subst hx
    exact ⟨{ v with later := v.later ++ [k] }, by rw [IndexMap.get?_upsert_self, hv]; rfl, hc⟩
  · exact ⟨v, by rw [IndexMap.get?_upsert_ne hx, hv], hc⟩

theorem Log.record (hE : P.FirstRoutes init E) {b : α} {j : κ} {ρ : List Nat}
    (h : P.Log init E (· < ρ) m) (hb : P.Asked init E b j ρ) :
    P.Log init E (fun π => π < ρ ∨ π = ρ) ((visitLabels α κ).record b j m) := by
  refine ⟨fun x => ?_, fun {x k τ n} he hτ hf => ?_⟩
  · obtain ⟨l, hk, hs, hl⟩ := h.sequence x
    by_cases hx : x = b
    · subst hx
      refine ⟨l ++ [(j, ρ)], by rw [kindsAt_record_self, hk]; simp, ?_, fun y => ?_⟩
      · refine List.pairwise_append.mpr ⟨hs, List.pairwise_singleton _ _, fun y hy z hz => ?_⟩
        rw [List.mem_singleton.mp hz]
        exact ((hl y).mp hy).2
      · rw [List.mem_append, List.mem_singleton, hl]
        constructor
        · rintro (⟨hy, hlt⟩ | rfl)
          · exact ⟨hy, .inl hlt⟩
          · exact ⟨hb, .inr rfl⟩
        · rintro ⟨hy, hlt | he⟩
          · exact .inl ⟨hy, hlt⟩
          · refine .inr (Prod.ext ?_ he)
            exact (hE.asked_unique (he ▸ hy) hb).2
    · refine ⟨l, (kindsAt_record_ne hx j m).trans hk, hs, fun y => (hl y).trans ?_⟩
      refine and_congr_right fun hy => ⟨.inl, fun ho => ho.resolve_right fun he => hx ?_⟩
      exact (hE.asked_unique (he ▸ hy) hb).1
  · rcases hτ with hτ | rfl
    · exact (h.cut he hτ hf).record j
    · -- the node is entered here, so its pulls are still to be run
      obtain ⟨rfl, rfl⟩ := hE.asked_unique (hE.asked he) hb
      refine ⟨_, first_record ?_, rfl⟩
      rw [Bool.eq_false_iff]
      intro hm
      obtain ⟨i, π, hπ, hlt⟩ := h.contains_iff.mp hm
      obtain ⟨k', τ', he', hle⟩ := hE.least hπ
      obtain ⟨rfl, rfl⟩ := Prod.mk.inj (Option.some.inj (he.symm.trans he'))
      exact absurd (lt_of_le_of_lt hle hlt) (lt_irrefl _)

/-- Below a place that no node is entered at, nothing more is asked. -/
theorem Log.past (hE : P.FirstRoutes init E) {ρ : List Nat} (hρ : ρ ≠ [])
    (hno : ∀ a k, E a ≠ some (k, ρ)) (h : P.Log init E (fun π => π < ρ ∨ π = ρ) m) :
    P.Log init E (Past ρ) m := by
  refine h.congr hE.toRooted fun b j π hb => ⟨fun hp => hp.imp_right .inl, ?_⟩
  rintro (hp | hp | ⟨i, τ, rfl⟩)
  · exact .inl hp
  · exact .inr hp
  · exact absurd hb (hE.not_below hρ hno)

/-- Past the last pull that is made below a place, the place is done. -/
theorem Log.finish (hE : P.FirstRoutes init E) {σ : List Nat} {i : Nat}
    (hend : ∀ n p, P.Made init E σ n p → n < i) (h : P.Log init E (· < σ ++ [i]) m) :
    P.Log init E (Past σ) m := by
  refine h.congr hE.toRooted fun b j π hb => ?_
  rw [lt_snoc_iff]
  refine or_congr_right (or_congr_right ⟨fun ⟨n, τ, _, he⟩ => ⟨n, τ, he⟩, ?_⟩)
  rintro ⟨n, τ, rfl⟩
  obtain ⟨p, hp⟩ := hE.below_made hb
  exact ⟨n, τ, hend n p hp, rfl⟩

/-- What a request at `ρ` is to do: make all requests below `ρ`, and fail exactly if
it enters its node and a pull of the node fails. -/
structure Answered (P : PullSystem α κ ε) (init : List (Pull α κ ε)) (E : Entries α κ) (b : α)
    (j : κ) (ρ : List Nat) (r : Outcome ε × IndexMap α (Visit κ)) : Prop where
  log : P.Log init E (Past ρ) r.2
  fails : r.1 ≠ .done ↔ E b = some (j, ρ) ∧ ∃ n, P.Fails init E ρ n

section Walk

variable {f : α → κ → IndexMap α (Visit κ) → Outcome ε × IndexMap α (Visit κ)}

/-- The pulls below `σ`, from the `i`-th on, where `f` answers requests. -/
theorem runPulls_answered (hE : P.FirstRoutes init E) {σ : List Nat}
    {ps : List (Pull α κ ε)} (hb : P.Block init E σ ps)
    (hf : ∀ b j ρ m, P.Asked init E b j ρ → P.Log init E (· < ρ) m → (f b j m).1 ≠ .outOfFuel →
      P.Answered init E b j ρ (f b j m))
    (hrejects : ∀ b j m, P.reject b ≠ none → (f b j m).1 ≠ .outOfFuel →
      (f b j m).1 ≠ .done ∧ (f b j m).2 = m) :
    ∀ (qs : List (Pull α κ ε)) (i : Nat) (m : IndexMap α (Visit κ)), ps.drop i = qs →
      (∀ n < i, ¬ P.Fails init E σ n) → P.Log init E (· < σ ++ [i]) m →
      (runPulls f qs m).1 ≠ .outOfFuel →
      P.Log init E (Past σ) (runPulls f qs m).2 ∧
        ((runPulls f qs m).1 ≠ .done ↔ ∃ n, P.Fails init E σ n) := by
  intro qs
  induction qs with
  | nil =>
    intro i m hdrop hbefore hlog _
    have hlen : ps.length ≤ i := List.drop_eq_nil_iff.mp hdrop
    have hend : ∀ n (p : Pull α κ ε), (∃ ps, P.Block init E σ ps ∧ ps[n]? = some p) → n < i := by
      rintro n p ⟨ps', hb', hp⟩
      obtain rfl := hE.block_unique _ rfl hb hb'
      have := (List.getElem?_eq_some_iff.mp hp).1
      omega
    refine ⟨hlog.finish hE fun n p hm => hend n p hm.stands, fun h => absurd rfl h, ?_⟩
    rintro ⟨n, hn⟩
    refine absurd hn (hbefore n ?_)
    cases hn with
    | abort hb' hp | rejected hb' hp _ | inner hb' hp _ _ => exact hend n _ ⟨_, hb', hp⟩
  | cons p qs ih =>
    intro i m hdrop hbefore hlog hout
    have hp : ps[i]? = some p := by
      have h0 := congrArg (·[0]?) hdrop
      simpa using h0
    have hrest : ps.drop (i + 1) = qs := by
      rw [← List.tail_drop, hdrop]
      rfl
    have hmade : P.Made init E σ i p := ⟨⟨ps, hb, hp⟩, hbefore⟩
    have hstep : ¬ P.Fails init E σ i → ∀ n < i + 1, ¬ P.Fails init E σ n := by
      intro hno n hn
      by_cases he : n = i
      · exact he ▸ hno
      · exact hbefore n (by omega)
    -- a pull that requests nothing of an accepted node leaves the log as it is
    have hskip : (∀ b j, p.Requests b j → P.reject b ≠ none) →
        P.Log init E (· < σ ++ [i + 1]) m := by
      intro hno
      refine hlog.congr hE.toRooted fun b j π ha => ?_
      rw [lt_succ_iff]
      have hnone : ∀ b j, ¬ P.Asked init E b j (σ ++ [i]) := by
        intro b j ha
        obtain ⟨hrej, p', hm, hr⟩ := ha.snoc
        obtain rfl := hE.made_unique hmade hm
        exact hno b j hr hrej
      refine ⟨.inl, ?_⟩
      rintro (hlt | rfl | ⟨n, τ, rfl⟩)
      · exact hlt
      · exact absurd ha (hnone b j)
      · exact absurd ha (hE.not_below (by simp) fun a k he => hnone a k (hE.asked he))
    have hpast : ∀ b j r, P.Answered init E b j (σ ++ [i]) r →
        P.Log init E (· < σ ++ [i + 1]) r.2 := fun b j r ha =>
      ha.log.congr hE.toRooted fun _ _ _ _ => lt_succ_iff.symm
    cases p with
    | abort e =>
      have hfail : P.Fails init E σ i := .abort hb hp
      have hlog' := hskip fun b j hr => by rcases hr with hr | hr <;> simp at hr
      exact ⟨hlog'.finish hE fun n q hm => made_le_of_fails hfail hm,
        fun _ => ⟨i, hfail⟩, fun _ => by simp [runPulls]⟩
    | hard b j =>
      by_cases hd : (f b j m).1 = .done
      · rw [runPulls_hard_done hd] at hout ⊢
        have hrej : P.reject b = none := by
          by_contra hrej
          exact (hrejects b j m hrej (by simp [hd])).1 hd
        have ha := hf b j (σ ++ [i]) m (hmade.asked hrej (.inl rfl)) hlog (by simp [hd])
        have hno : ¬ P.Fails init E σ i := fun hfail =>
          ha.fails.mpr ((fails_hard hE.toRooted hb hp hrej).mp hfail) hd
        exact ih (i + 1) _ hrest (hstep hno) (hpast b j _ ha) hout
      · rw [runPulls_hard_stop hd] at hout ⊢
        by_cases hrej : P.reject b = none
        · have ha := hf b j (σ ++ [i]) m (hmade.asked hrej (.inl rfl)) hlog hout
          have hfail : P.Fails init E σ i := (fails_hard hE.toRooted hb hp hrej).mpr (ha.fails.mp hd)
          exact ⟨(hpast b j _ ha).finish hE fun n q hm => made_le_of_fails hfail hm,
            fun _ => ⟨i, hfail⟩, fun _ => hd⟩
        · have hfail : P.Fails init E σ i := .rejected hb hp hrej
          have hlog' := hskip fun c k hr => by
            obtain ⟨rfl, -⟩ := requests_unique (.inl rfl) hr
            exact hrej
          rw [(hrejects b j m hrej hout).2]
          exact ⟨hlog'.finish hE fun n q hm => made_le_of_fails hfail hm,
            fun _ => ⟨i, hfail⟩, fun _ => hd⟩
    | soft b j =>
      have hno := fails_soft hE.toRooted hb hp
      by_cases hfuel : (f b j m).1 = .outOfFuel
      · rw [runPulls_soft_fuel hfuel] at hout
        exact absurd hfuel hout
      · rw [runPulls_soft hfuel] at hout ⊢
        refine ih (i + 1) _ hrest (hstep hno) ?_ hout
        by_cases hrej : P.reject b = none
        · exact hpast b j _ (hf b j (σ ++ [i]) m (hmade.asked hrej (.inr rfl)) hlog hfuel)
        · rw [(hrejects b j m hrej hfuel).2]
          refine hskip fun c k hr => ?_
          obtain ⟨rfl, -⟩ := requests_unique (.inr rfl) hr
          exact hrej

theorem ask_rejects {fuel : Nat} {b : α} {j : κ} {m : IndexMap α (Visit κ)}
    (hrej : P.reject b ≠ none) (hout : (P.ask (visitLabels α κ) fuel b j m).1 ≠ .outOfFuel) :
    (P.ask (visitLabels α κ) fuel b j m).1 ≠ .done ∧
      (P.ask (visitLabels α κ) fuel b j m).2 = m := by
  cases fuel with
  | zero => exact absurd rfl hout
  | succ fuel =>
    obtain ⟨e, he⟩ := Option.ne_none_iff_exists'.mp hrej
    rw [ask_reject he]
    exact ⟨by simp, rfl⟩

/-- A request makes the requests of its place and of those below it. -/
theorem ask_answered (hE : P.FirstRoutes init E) : ∀ (fuel : Nat) (b : α) (j : κ) (ρ : List Nat)
    (m : IndexMap α (Visit κ)), P.Asked init E b j ρ → P.Log init E (· < ρ) m →
    (P.ask (visitLabels α κ) fuel b j m).1 ≠ .outOfFuel →
    P.Answered init E b j ρ (P.ask (visitLabels α κ) fuel b j m) := by
  intro fuel
  induction fuel with
  | zero => exact fun _ _ _ _ _ _ h => absurd rfl h
  | succ fuel ih =>
    intro b j ρ m ha hlog hout
    have hρ : ρ ≠ [] := by
      obtain ⟨σ, i, rfl⟩ := ha.exists_snoc
      simp
    have hrecord := hlog.record hE ha
    obtain ⟨k, ρ', hentry, hle⟩ := hE.least ha
    cases hm : m.contains b with
    | true =>
      -- entered before, so not here
      obtain ⟨i, π, hπ, hlt⟩ := hlog.contains_iff.mp hm
      obtain ⟨k', ρ'', hentry', hle'⟩ := hE.least hπ
      have hne : ∀ a i, E a ≠ some (i, ρ) := by
        intro a i he
        obtain ⟨rfl, rfl⟩ := hE.asked_unique (hE.asked he) ha
        obtain ⟨rfl, rfl⟩ := Prod.mk.inj (Option.some.inj (he.symm.trans hentry'))
        exact absurd (lt_of_le_of_lt hle' hlt) (lt_irrefl _)
      rw [ask_seen ha.1 hm]
      exact ⟨hrecord.past hE hρ hne, fun h => absurd rfl h, fun h => absurd h.1 (hne b j)⟩
    | false =>
      have hhere : E b = some (j, ρ) := by
        rcases lt_or_eq_of_le hle with hlt | rfl
        · exact absurd (hlog.contains_iff.mpr ⟨k, ρ', hE.asked hentry, hlt⟩) (by simp [hm])
        · rw [hentry, (hE.asked_unique (hE.asked hentry) ha).2]
      rw [ask_new ha.1 hm] at hout ⊢
      have hrun := runPulls_answered hE (.node hhere) ih (fun _ _ _ => ask_rejects)
        (P.pulls b j) 0 ((visitLabels α κ).record b j m) rfl (by simp)
        (hrecord.congr hE.toRooted fun _ _ _ _ => lt_zero_iff.symm)
      split at hout
      next m' he =>
        rw [he] at hrun
        obtain ⟨hlog', hfails⟩ := hrun (by simp)
        have hno : ∀ k τ n, E b = some (k, τ) → ¬ P.Fails init E τ n := by
          intro k τ n hk hf
          obtain ⟨rfl, rfl⟩ := Prod.mk.inj (Option.some.inj (hhere.symm.trans hk))
          exact hfails.mpr ⟨n, hf⟩ rfl
        exact ⟨hlog'.leave hno, fun h => absurd rfl h, fun h => hfails.mpr h.2⟩
      next r hr =>
        obtain ⟨hlog', hfails⟩ := hrun hout
        exact ⟨hlog', fun h => ⟨hhere, hfails.mp h⟩, fun h => hfails.mpr h.2⟩

theorem log_empty (hE : P.Rooted init E) : P.Log init E (· < [] ++ [0]) (.empty : IndexMap α (Visit κ)) := by
  have hnone : ∀ {b j π}, P.Asked init E b j π → ¬ π < [] ++ [0] := by
    intro b j π ha hlt
    obtain ⟨σ, i, rfl⟩ := ha.exists_snoc
    rcases lt_zero_iff.mp hlt with hlt | he
    · exact List.not_lt_nil _ hlt
    · simp at he
  refine ⟨fun b => ⟨[], rfl, .nil, fun x => ⟨fun hx => absurd hx (by simp), ?_⟩⟩, ?_⟩
  · rintro ⟨ha, hx⟩
    exact absurd hx (hnone ha)
  · exact fun he hlt _ => absurd hlt (hnone (hE.asked he))

/-- **A walk makes the requests of its places**, in their order, leaves the nodes cut
that have a failing pull, and fails exactly if one of the pulls it starts from does. -/
theorem runPulls_follows (hE : P.FirstRoutes init E) {fuel : Nat}
    {r : Outcome ε × IndexMap α (Visit κ)}
    (hr : runPulls (P.ask (visitLabels α κ) fuel) init .empty = r) (hout : r.1 ≠ .outOfFuel) :
    (∀ b, P.Sequence init E b (kindsAt r.2 b)) ∧
      (∀ {b k ρ n}, E b = some (k, ρ) → P.Fails init E ρ n → Cut r.2 b) ∧
      (r.1 ≠ .done ↔ ∃ n, P.Fails init E [] n) := by
  subst hr
  obtain ⟨hlog, hfails⟩ := runPulls_answered hE .top (ask_answered hE fuel)
    (fun _ _ _ => ask_rejects) init 0 .empty rfl (by simp) (log_empty hE.toRooted) hout
  have hpast : ∀ b j π, P.Asked init E b j π → Past [] π := by
    intro b j π ha
    obtain ⟨σ, i, rfl⟩ := ha.exists_snoc
    cases σ with
    | nil => exact .inr (.inr ⟨i, [], rfl⟩)
    | cons x σ => exact .inr (.inr ⟨x, σ ++ [i], rfl⟩)
  refine ⟨fun b => ?_, fun he hf => hlog.cut he (hpast _ _ _ (hE.asked he)) hf, hfails⟩
  obtain ⟨l, hk, hs, hl⟩ := hlog.sequence b
  exact ⟨l, hk, hs, fun x => (hl x).trans (and_iff_left_of_imp (hpast b x.1 x.2))⟩

end Walk

end PullSystem

end Systeml.Lib
