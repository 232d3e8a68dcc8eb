import Systeml.Lib.VisitOnce

/-!
# Finite runs of a visit-once walk

`Ends` is the walk as a recursion without a bound on its depth: a derivation is a
finite run, with the result, the map it leaves and the log of the nodes whose
pulls it ran. Runs are unique (`Ends.unique`), and a request that does not use up
its fuel has one (`ends_of_ask`). The log is exactly what the run adds to the
map, in order (`Ends.keys`), so no node is expanded twice, whatever fails on the
way.
-/

namespace Systeml.Lib

variable {α κ ε β : Type} [DecidableEq α]

/-- What is to be run: a request, or the rest of the pulls of a node. -/
inductive Task (α κ ε : Type) where
  | ask (a : α) (k : κ)
  | pulls (ps : List (Pull α κ ε))

/-- The error of a request that ended with one. -/
def Outcome.error? : Outcome ε → Option ε
  | .failed e => some e
  | _ => none

namespace PullSystem

/-- The task ends on a map with an error or without, and a log of the nodes it
expanded. -/
inductive Ends (P : PullSystem α κ ε) (L : Labels α κ β) :
    Task α κ ε → IndexMap α β → Option ε → IndexMap α β → List α → Prop where
  | rejected {a k m e} : P.reject a = some e → Ends P L (.ask a k) m (some e) m []
  | seen {a k m} : P.reject a = none → m.contains a = true →
      Ends P L (.ask a k) m none (L.record a k m) []
  | entered {a k m m' log} : P.reject a = none → m.contains a = false →
      Ends P L (.pulls (P.pulls a k)) (L.record a k m) none m' log →
      Ends P L (.ask a k) m none (m'.modify a (L.leave a)) (a :: log)
  | cut {a k m e m' log} : P.reject a = none → m.contains a = false →
      Ends P L (.pulls (P.pulls a k)) (L.record a k m) (some e) m' log →
      Ends P L (.ask a k) m (some e) m' (a :: log)
  | done {m} : Ends P L (.pulls []) m none m []
  | abort {e ps m} : Ends P L (.pulls (.abort e :: ps)) m (some e) m []
  | hard {a k ps m m₁ r m₂ log₁ log₂} : Ends P L (.ask a k) m none m₁ log₁ →
      Ends P L (.pulls ps) m₁ r m₂ log₂ →
      Ends P L (.pulls (.hard a k :: ps)) m r m₂ (log₁ ++ log₂)
  | hardError {a k ps m e m₁ log} : Ends P L (.ask a k) m (some e) m₁ log →
      Ends P L (.pulls (.hard a k :: ps)) m (some e) m₁ log
  | soft {a k ps m r₁ m₁ r m₂ log₁ log₂} : Ends P L (.ask a k) m r₁ m₁ log₁ →
      Ends P L (.pulls ps) m₁ r m₂ log₂ →
      Ends P L (.pulls (.soft a k :: ps)) m r m₂ (log₁ ++ log₂)

variable {P : PullSystem α κ ε} {L : Labels α κ β}

/-- A task has one run. -/
theorem Ends.unique {t : Task α κ ε} {m m₁ m₂ : IndexMap α β} {r₁ r₂ : Option ε}
    {log₁ log₂ : List α} (h₁ : P.Ends L t m r₁ m₁ log₁) (h₂ : P.Ends L t m r₂ m₂ log₂) :
    r₂ = r₁ ∧ m₂ = m₁ ∧ log₂ = log₁ := by
  induction h₁ generalizing r₂ m₂ log₂ with
  | rejected hrej =>
    cases h₂ with
    | rejected hrej' => exact ⟨hrej'.symm.trans hrej, rfl, rfl⟩
    | seen hrej' | entered hrej' | cut hrej' => exact absurd (hrej'.symm.trans hrej) (by simp)
  | seen hrej hm =>
    cases h₂ with
    | rejected hrej' => exact absurd (hrej'.symm.trans hrej) (by simp)
    | seen => exact ⟨rfl, rfl, rfl⟩
    | entered _ hm' | cut _ hm' => exact absurd (hm'.symm.trans hm) (by simp)
  | entered hrej hm _ ih =>
    cases h₂ with
    | rejected hrej' => exact absurd (hrej'.symm.trans hrej) (by simp)
    | seen _ hm' => exact absurd (hm'.symm.trans hm) (by simp)
    | entered _ _ hrun =>
      obtain ⟨-, rfl, rfl⟩ := ih hrun
      exact ⟨rfl, rfl, rfl⟩
    | cut _ _ hrun => exact absurd (ih hrun).1 (by simp)
  | cut hrej hm _ ih =>
    cases h₂ with
    | rejected hrej' => exact absurd (hrej'.symm.trans hrej) (by simp)
    | seen _ hm' => exact absurd (hm'.symm.trans hm) (by simp)
    | entered _ _ hrun => exact absurd (ih hrun).1 (by simp)
    | cut _ _ hrun =>
      obtain ⟨hr, rfl, rfl⟩ := ih hrun
      exact ⟨hr, rfl, rfl⟩
  | done =>
    cases h₂
    exact ⟨rfl, rfl, rfl⟩
  | abort =>
    cases h₂
    exact ⟨rfl, rfl, rfl⟩
  | hard _ _ ih₁ ih₂ =>
    cases h₂ with
    | hard hask hrest =>
      obtain ⟨-, rfl, rfl⟩ := ih₁ hask
      obtain ⟨rfl, rfl, rfl⟩ := ih₂ hrest
      exact ⟨rfl, rfl, rfl⟩
    | hardError hask => exact absurd (ih₁ hask).1 (by simp)
  | hardError _ ih =>
    cases h₂ with
    | hard hask => exact absurd (ih hask).1 (by simp)
    | hardError hask =>
      obtain ⟨hr, rfl, rfl⟩ := ih hask
      exact ⟨hr, rfl, rfl⟩
  | soft _ _ ih₁ ih₂ =>
    cases h₂ with
    | soft hask hrest =>
      obtain ⟨-, rfl, rfl⟩ := ih₁ hask
      obtain ⟨rfl, rfl, rfl⟩ := ih₂ hrest
      exact ⟨rfl, rfl, rfl⟩

theorem keys_record_new {a : α} {k : κ} {m : IndexMap α β} (h : m.contains a = false) :
    (L.record a k m).keys = m.keys ++ [a] := by
  have hnot : a ∉ m.keys := fun hm => by simp [IndexMap.contains_iff.mpr hm] at h
  exact (IndexMap.keys_upsert m a _).trans (if_neg hnot)

theorem keys_record_seen {a : α} {k : κ} {m : IndexMap α β} (h : m.contains a = true) :
    (L.record a k m).keys = m.keys :=
  (IndexMap.keys_upsert m a _).trans (if_pos (IndexMap.contains_iff.mp h))

/-- A run adds the nodes it expands to the map, in order, and no others. -/
theorem Ends.keys {t : Task α κ ε} {m m' : IndexMap α β} {r : Option ε} {log : List α}
    (h : P.Ends L t m r m' log) : m'.keys = m.keys ++ log := by
  induction h with
  | rejected | done | abort => rw [List.append_nil]
  | seen _ hm => rw [keys_record_seen hm, List.append_nil]
  | entered _ hm _ ih =>
    rw [IndexMap.keys_modify, ih, keys_record_new hm, List.append_assoc, List.singleton_append]
  | cut _ hm _ ih => rw [ih, keys_record_new hm, List.append_assoc, List.singleton_append]
  | hard _ _ ih₁ ih₂ | soft _ _ ih₁ ih₂ => rw [ih₂, ih₁, List.append_assoc]
  | hardError _ ih => exact ih

/-- The pulls of a node have a run when the requests they make have one. -/
theorem ends_of_runPulls {f : α → κ → IndexMap α β → Outcome ε × IndexMap α β}
    (hf : ∀ b k m, (f b k m).1 ≠ .outOfFuel →
      ∃ log, P.Ends L (.ask b k) m (f b k m).1.error? (f b k m).2 log) :
    ∀ (ps : List (Pull α κ ε)) (m : IndexMap α β), (runPulls f ps m).1 ≠ .outOfFuel →
      ∃ log, P.Ends L (.pulls ps) m (runPulls f ps m).1.error? (runPulls f ps m).2 log
  | [], m, _ => ⟨[], .done⟩
  | .abort e :: ps, m, _ => ⟨[], .abort⟩
  | .hard b k :: ps, m, h => by
    cases hb : (f b k m).1 with
    | done =>
      rw [runPulls_hard_done hb] at h ⊢
      obtain ⟨log₁, hask⟩ := hf b k m (by rw [hb]; simp)
      obtain ⟨log₂, hrest⟩ := ends_of_runPulls hf ps (f b k m).2 h
      rw [hb] at hask
      exact ⟨log₁ ++ log₂, .hard hask hrest⟩
    | failed e =>
      have hstop : runPulls f (.hard b k :: ps) m = f b k m :=
        runPulls_hard_stop (by rw [hb]; simp)
      rw [hstop] at h ⊢
      obtain ⟨log, hask⟩ := hf b k m h
      rw [hb] at hask ⊢
      exact ⟨log, .hardError hask⟩
    | outOfFuel =>
      have hstop : runPulls f (.hard b k :: ps) m = f b k m :=
        runPulls_hard_stop (by rw [hb]; simp)
      rw [hstop] at h
      exact absurd hb h
  | .soft b k :: ps, m, h => by
    by_cases hb : (f b k m).1 = .outOfFuel
    · rw [runPulls_soft_fuel hb] at h
      exact absurd hb h
    · rw [runPulls_soft hb] at h ⊢
      obtain ⟨log₁, hask⟩ := hf b k m hb
      obtain ⟨log₂, hrest⟩ := ends_of_runPulls hf ps (f b k m).2 h
      exact ⟨log₁ ++ log₂, .soft hask hrest⟩

/-- A request that does not use up its fuel has a run, to the same end. -/
theorem ends_of_ask : ∀ (fuel : Nat) (a : α) (k : κ) (m : IndexMap α β),
    (P.ask L fuel a k m).1 ≠ .outOfFuel →
      ∃ log, P.Ends L (.ask a k) m (P.ask L fuel a k m).1.error? (P.ask L fuel a k m).2 log
  | 0, _, _, _, h => absurd rfl h
  | fuel + 1, a, k, m, h => by
    cases hrej : P.reject a with
    | some e =>
      rw [ask_reject hrej]
      exact ⟨[], .rejected hrej⟩
    | none =>
      cases hm : m.contains a with
      | true =>
        rw [ask_seen hrej hm]
        exact ⟨[], .seen hrej hm⟩
      | false =>
        rw [ask_new hrej hm] at h ⊢
        have hpulls := ends_of_runPulls (ends_of_ask fuel) (P.pulls a k) (L.record a k m)
        generalize runPulls (P.ask L fuel) (P.pulls a k) (L.record a k m) = run at h hpulls ⊢
        obtain ⟨o, m'⟩ := run
        cases o with
        | done =>
          obtain ⟨log, hrun⟩ := hpulls (by simp)
          exact ⟨a :: log, .entered hrej hm hrun⟩
        | failed e =>
          obtain ⟨log, hrun⟩ := hpulls (by simp)
          exact ⟨a :: log, .cut hrej hm hrun⟩
        | outOfFuel => exact absurd rfl h

/-- The task has a run to this end, and no other run; the nodes it expands are
distinct, and had no label before. -/
def ExpandsOnce (P : PullSystem α κ ε) (L : Labels α κ β) (t : Task α κ ε) (m : IndexMap α β)
    (r : Option ε) (m' : IndexMap α β) : Prop :=
  ∃ log, P.Ends L t m r m' log ∧ log.Nodup ∧ (∀ a ∈ log, a ∉ m.keys) ∧
    ∀ r₂ m₂ log₂, P.Ends L t m r₂ m₂ log₂ → r₂ = r ∧ m₂ = m' ∧ log₂ = log

theorem Ends.expandsOnce {t : Task α κ ε} {m m' : IndexMap α β} {r : Option ε} {log : List α}
    (h : P.Ends L t m r m' log) : P.ExpandsOnce L t m r m' := by
  have hnod := m'.keys_nodup
  rw [h.keys] at hnod
  obtain ⟨-, hlog, hdis⟩ := List.nodup_append.mp hnod
  exact ⟨log, h, hlog, fun a ha hm => hdis a hm a ha rfl, fun _ _ _ h₂ => h.unique h₂⟩

end PullSystem

end Systeml.Lib
