import Systeml.Deps.Requests

/-!
# What a sequence of requests merges to

The kind of a job is the fold of `mergeKinds` over the kinds its unit was asked
for, so it depends on their order. A start or a restart stays: a later stop only
makes it a restart. A check, a `ReloadOrStart` or a `TryRestart` lasts until the
next stop, and a `TryRestart` of an active unit that meets a check is a restart.

`mergeAll_starting_iff` tells from the sequence alone when a unit comes up, and
`replaces_iff` when what follows its last stop replaces the stop.
-/

namespace Systeml.Deps

open Systeml.Lib Systeml.Unit

variable {v : ManagerView} {u : UnitName}

/-- One request merged into a kind. -/
def mergeNext (v : ManagerView) (u : UnitName) (a k : JobType) : JobType :=
  mergeKinds a (collapse v u k)

/-- The kind that a sequence of requests merges to. -/
def mergeAll (v : ManagerView) (u : UnitName) (l : List JobType) : JobType :=
  l.foldl (mergeNext v u) .nop

theorem mergeKinds_nop_left (b : JobType) : mergeKinds .nop b = b := by
  cases b <;> rfl

theorem kindOf_eq_mergeAll (vis : Visit JobType) : kindOf v u vis = mergeAll v u vis.kinds := by
  show _ = vis.later.foldl _ (mergeKinds .nop (collapse v u vis.first))
  rw [mergeKinds_nop_left]
  rfl

theorem mergeAll_snoc (l : List JobType) (k : JobType) :
    mergeAll v u (l ++ [k]) = mergeNext v u (mergeAll v u l) k := by
  unfold mergeAll
  rw [List.foldl_append]
  rfl

/-- A `TryRestart` counts when the unit is active. -/
theorem collapse_tryRestart : collapse v u .tryRestart =
    if v.isActive u = true then .tryRestart else .nop := by
  unfold collapse
  cases v.isActive u <;> rfl

theorem collapse_of_ne {k : JobType} (h : k ≠ .tryRestart) : collapse v u k = k := by
  unfold collapse
  rw [if_neg fun hk => h hk.1]

/-! ## Sequences that bring a unit up -/

/-- What was asked since the last stop, the latest first. -/
def sinceStop (l : List JobType) : List JobType := l.reverse.takeWhile (· != .stop)

theorem sinceStop_snoc (l : List JobType) (k : JobType) :
    sinceStop (l ++ [k]) = if k = .stop then [] else k :: sinceStop l := by
  unfold sinceStop
  rw [List.reverse_append, List.reverse_singleton, List.singleton_append, List.takeWhile_cons]
  cases k <;> rfl

/-- After `l`, a `TryRestart` meets a check or a `ReloadOrStart`, or a check meets a
`TryRestart`. -/
def Couples (l : List JobType) (k : JobType) : Prop :=
  (k = .tryRestart ∧ (.verifyActive ∈ sinceStop l ∨ .reloadOrStart ∈ sinceStop l)) ∨
    (k = .verifyActive ∧ .tryRestart ∈ sinceStop l)

/-- Somewhere in `l` they meet. -/
def Coupled (l : List JobType) : Prop := ∃ l₁ k, l₁ ++ [k] <+: l ∧ Couples l₁ k

/-- A start or a restart is asked for, or an active unit is both to be restarted if it
is up and checked. -/
def Firm (v : ManagerView) (u : UnitName) (l : List JobType) : Prop :=
  .start ∈ l ∨ .restart ∈ l ∨ (v.isActive u = true ∧ Coupled l)

/-- The requests bring the unit up: firmly, or by a `ReloadOrStart` that no stop
follows. -/
def Raised (v : ManagerView) (u : UnitName) (l : List JobType) : Prop :=
  Firm v u l ∨ .reloadOrStart ∈ sinceStop l

/-- Requests as the builder makes them outside of a reload: `ReloadOrStart` comes
first or not at all. -/
structure WellAsked (l : List JobType) : Prop where
  noReload : .reload ∉ l
  first : ∀ l₁ l₂, l = l₁ ++ .reloadOrStart :: l₂ → l₁ = []

theorem coupled_snoc {l : List JobType} {k : JobType} :
    Coupled (l ++ [k]) ↔ Coupled l ∨ Couples l k := by
  constructor
  · rintro ⟨l₁, k', hp, hc⟩
    rcases List.prefix_concat_iff.mp hp with he | hp
    · obtain ⟨rfl, hk⟩ := List.append_inj' he rfl
      obtain rfl := (List.cons.inj hk).1
      exact Or.inr hc
    · exact Or.inl ⟨l₁, k', hp, hc⟩
  · rintro (⟨l₁, k', hp, hc⟩ | hc)
    · exact ⟨l₁, k', hp.trans (List.prefix_append _ _), hc⟩
    · exact ⟨l, k, List.prefix_refl _, hc⟩

theorem firm_snoc {l : List JobType} {k : JobType} : Firm v u (l ++ [k]) ↔
    Firm v u l ∨ k = .start ∨ k = .restart ∨ (v.isActive u = true ∧ Couples l k) := by
  unfold Firm
  rw [coupled_snoc, List.mem_append, List.mem_append, List.mem_singleton, List.mem_singleton,
    eq_comm (b := k), eq_comm (b := k)]
  tauto

theorem WellAsked.init {l : List JobType} {k : JobType} (h : WellAsked (l ++ [k])) :
    WellAsked l :=
  ⟨fun hm => h.noReload (List.mem_append_left _ hm), fun l₁ l₂ he => h.first l₁ (l₂ ++ [k]) (by
    rw [he, List.append_assoc, List.cons_append])⟩

theorem WellAsked.last {l : List JobType} {k : JobType} (h : WellAsked (l ++ [k])) :
    k ≠ .reload ∧ (k = .reloadOrStart → l = []) :=
  ⟨fun hk => h.noReload (by rw [hk]; simp), fun hk => h.first l [] (by rw [hk])⟩

/-- What the kind `a` tells about the requests `l` that merge to it. -/
structure Follows (v : ManagerView) (u : UnitName) (l : List JobType) (a : JobType) : Prop where
  firm : a = .start ∨ a = .restart ↔ Firm v u l
  reloadOrStart : a = .reloadOrStart ↔ ¬ Firm v u l ∧ .reloadOrStart ∈ sinceStop l
  verifyActive : a = .verifyActive ↔
    ¬ Firm v u l ∧ .reloadOrStart ∉ sinceStop l ∧ .verifyActive ∈ sinceStop l
  tryRestart : a = .tryRestart ↔
    ¬ Firm v u l ∧ v.isActive u = true ∧ .tryRestart ∈ sinceStop l
  noReload : a ≠ .reload

theorem mem_sinceStop_snoc {l : List JobType} {j k : JobType} :
    j ∈ sinceStop (l ++ [k]) ↔ k ≠ .stop ∧ (j = k ∨ j ∈ sinceStop l) := by
  rw [sinceStop_snoc]
  split
  next h => simp [h]
  next h => simp [h]

theorem not_firm_nil : ¬ Firm v u [] := by
  rintro (h | h | ⟨-, l₁, k, hp, -⟩)
  · exact absurd h (by simp)
  · exact absurd h (by simp)
  · exact absurd (List.prefix_nil.mp hp) (by simp)

theorem follows_of_firm {l : List JobType} {a : JobType} (hF : Firm v u l)
    (ha : a = .start ∨ a = .restart) : Follows v u l a := by
  refine ⟨⟨fun _ => hF, fun _ => ha⟩, ?_, ?_, ?_, ?_⟩ <;> rcases ha with rfl | rfl <;> simp [hF]

/-- Once firm, a unit stays up. -/
theorem follows_up {l : List JobType} {a k : JobType} (h : Follows v u l a) (hF : Firm v u l)
    (hw : WellAsked (l ++ [k])) : Follows v u (l ++ [k]) (mergeNext v u a k) := by
  obtain ⟨hreload, hros⟩ := hw.last
  have hne : k ≠ .reloadOrStart := fun hk => not_firm_nil (hros hk ▸ hF)
  exact follows_of_firm (firm_snoc.mpr (Or.inl hF)) (mergeKinds_up (h.firm.mpr hF)
    (collapse_ne hreload (by simp)) (collapse_ne hne (by simp)))

theorem follows_of_not_firm {l : List JobType} {a : JobType} (hF : ¬ Firm v u l)
    (hup : a ≠ .start ∧ a ≠ .restart ∧ a ≠ .reload)
    (hros : a = .reloadOrStart ↔ .reloadOrStart ∈ sinceStop l)
    (hva : a = .verifyActive ↔ .reloadOrStart ∉ sinceStop l ∧ .verifyActive ∈ sinceStop l)
    (htr : a = .tryRestart ↔ v.isActive u = true ∧ .tryRestart ∈ sinceStop l) :
    Follows v u l a :=
  ⟨by simp [hF, hup.1, hup.2.1], by simp [hF, hros], by simp [hF, hva], by simp [hF, htr],
    hup.2.2⟩

/-- Before, each request either makes it firm or is the latest that counts. -/
theorem follows_next {l : List JobType} {a k : JobType} (h : Follows v u l a)
    (hF : ¬ Firm v u l) (hw : WellAsked (l ++ [k])) :
    Follows v u (l ++ [k]) (mergeNext v u a k) := by
  obtain ⟨hfirm, hros, hva, htr, hno⟩ := h
  simp only [hF, iff_false, not_or, not_false_eq_true, true_and] at hfirm hros hva htr
  obtain ⟨hstart, hrestart⟩ := hfirm
  have hnew : Firm v u (l ++ [k]) ↔
      k = .start ∨ k = .restart ∨ (v.isActive u = true ∧ Couples l k) := by
    rw [firm_snoc, or_iff_right hF]
  cases k with
  | start =>
    exact follows_of_firm (hnew.mpr (Or.inl rfl)) (by
      rw [mergeNext, collapse_of_ne (by simp)]
      exact mergeKinds_start hno)
  | restart =>
    refine follows_of_firm (hnew.mpr (Or.inr (Or.inl rfl))) (Or.inr ?_)
    rw [mergeNext, collapse_of_ne (by simp)]
    cases a <;> simp_all [mergeKinds]
  | reload => exact absurd rfl hw.last.1
  | reloadOrStart =>
    obtain rfl := hw.last.2 rfl
    have ha : mergeNext v u a .reloadOrStart = .reloadOrStart := by
      rw [mergeNext, collapse_of_ne (by simp)]
      cases a <;> simp_all [mergeKinds, sinceStop]
    refine follows_of_not_firm (fun hn => ?_) ?_ ?_ ?_ ?_ <;>
      simp_all [Couples, sinceStop]
  | stop =>
    have ha : mergeNext v u a .stop = .stop := by
      rw [mergeNext, collapse_of_ne (by simp)]
      cases a <;> simp_all [mergeKinds, JobType.resultsInActive]
    refine follows_of_not_firm (fun hn => ?_) ?_ ?_ ?_ ?_ <;>
      simp_all [Couples, mem_sinceStop_snoc]
  | verifyActive =>
    rw [mergeNext, collapse_of_ne (by simp)]
    by_cases hc : a = .tryRestart
    · -- the check meets a `TryRestart`
      obtain ⟨hact, hmem⟩ := htr.mp hc
      exact follows_of_firm (hnew.mpr (Or.inr (Or.inr ⟨hact, Or.inr ⟨rfl, hmem⟩⟩)))
        (Or.inr (by rw [hc]; rfl))
    · have ha : mergeKinds a .verifyActive = .reloadOrStart ∧ a = .reloadOrStart ∨
          mergeKinds a .verifyActive = .verifyActive ∧ a ≠ .reloadOrStart := by
        cases a <;> simp_all [mergeKinds, JobType.resultsInActive]
      refine follows_of_not_firm (fun hn => ?_) ?_ ?_ ?_ ?_ <;>
        rcases ha with ⟨ha, he⟩ | ⟨ha, he⟩ <;> simp_all [Couples, mem_sinceStop_snoc]
  | tryRestart =>
    rw [mergeNext, collapse_tryRestart]
    by_cases hact : v.isActive u = true
    · rw [if_pos hact]
      by_cases hc : a = .verifyActive ∨ a = .reloadOrStart
      · -- the `TryRestart` meets a check
        have hmem := hc.imp (fun h => (hva.mp h).2) hros.mp
        exact follows_of_firm (hnew.mpr (Or.inr (Or.inr ⟨hact, Or.inl ⟨rfl, hmem⟩⟩)))
          (Or.inr (by rcases hc with rfl | rfl <;> rfl))
      · have ha : mergeKinds a .tryRestart = .tryRestart := by
          cases a <;> simp_all [mergeKinds, JobType.resultsInActive]
        refine follows_of_not_firm (fun hn => ?_) ?_ ?_ ?_ ?_ <;>
          simp_all [Couples, mem_sinceStop_snoc]
    · rw [if_neg hact]
      have ha : mergeKinds a .nop = a := by cases a <;> rfl
      refine follows_of_not_firm (fun hn => ?_) ?_ ?_ ?_ ?_ <;>
        simp_all [Couples, mem_sinceStop_snoc]
  | nop =>
    have ha : mergeNext v u a .nop = a := by
      rw [mergeNext, collapse_of_ne (by simp)]
      cases a <;> rfl
    refine follows_of_not_firm (fun hn => ?_) ?_ ?_ ?_ ?_ <;>
      simp_all [Couples, mem_sinceStop_snoc]

theorem mergeAll_follows (l : List JobType) (hw : WellAsked l) :
    Follows v u l (mergeAll v u l) := by
  induction l using List.reverseRecOn with
  | nil =>
    refine follows_of_not_firm not_firm_nil ?_ ?_ ?_ ?_ <;> simp [mergeAll, sinceStop]
  | append_singleton l k ih =>
    rw [mergeAll_snoc]
    by_cases hF : Firm v u l
    · exact follows_up (ih hw.init) hF hw
    · exact follows_next (ih hw.init) hF hw

/-- **When a unit comes up**, by its requests alone. -/
theorem mergeAll_starting_iff {l : List JobType} (hw : WellAsked l) :
    (mergeAll v u l).isStarting = true ↔ Raised v u l := by
  have h := mergeAll_follows (v := v) (u := u) l hw
  have hcases : (mergeAll v u l).isStarting = true ↔
      (mergeAll v u l = .start ∨ mergeAll v u l = .restart) ∨ mergeAll v u l = .reloadOrStart := by
    cases mergeAll v u l <;> simp [JobType.isStarting]
  rw [hcases, h.firm, h.reloadOrStart]
  unfold Raised
  tauto

/-- Reloads and stops bring nothing up. -/
theorem mergeAll_reload {l : List JobType} (h : ∀ k ∈ l, k = .reload ∨ k = .stop) :
    mergeAll v u l = .nop ∨ mergeAll v u l = .reload ∨ mergeAll v u l = .stop := by
  unfold mergeAll
  refine List.foldlRecOn (motive := fun a : JobType => a = .nop ∨ a = .reload ∨ a = .stop) l _
    (Or.inl rfl) fun a ha k hk => ?_
  rcases h k hk with rfl | rfl <;> rw [mergeNext, collapse_of_ne (by simp)] <;>
    rcases ha with rfl | rfl | rfl <;> simp [mergeKinds, JobType.resultsInActive]

theorem not_raised_reload {l : List JobType} (h : ∀ k ∈ l, k = .reload ∨ k = .stop) :
    ¬ Raised v u l := by
  have hno : ∀ k ∈ l, k ≠ .start ∧ k ≠ .restart ∧ k ≠ .tryRestart ∧ k ≠ .verifyActive ∧
      k ≠ .reloadOrStart := by
    intro k hk
    rcases h k hk with rfl | rfl <;> simp
  have hsince : ∀ k ∈ sinceStop l, k ∈ l := fun k hk =>
    List.mem_reverse.mp (List.takeWhile_subset _ hk)
  rintro ((hk | hk | ⟨-, l₁, k, hp, hc⟩) | hk)
  · exact (hno _ hk).1 rfl
  · exact (hno _ hk).2.1 rfl
  · have hmem := hno k (hp.subset (by simp))
    rcases hc with ⟨hk, -⟩ | ⟨hk, -⟩
    · exact hmem.2.2.1 hk
    · exact hmem.2.2.2.1 hk
  · exact (hno _ (hsince _ hk)).2.2.2.2 rfl

/-! ## Sequences that replace a stop -/

/-- What follows the last stop of a unit replaces it: the first request that counts
is not for a start, none is for a restart, and no `TryRestart` comes with a check or
a start. -/
def Replaces (v : ManagerView) (u : UnitName) (l : List JobType) : Prop :=
  ∃ k rest, l.filter (collapse v u · != .nop) = k :: rest ∧ k ≠ .start ∧
    .restart ∉ k :: rest ∧
    ¬ (.tryRestart ∈ k :: rest ∧ (.verifyActive ∈ k :: rest ∨ .start ∈ k :: rest))

/-- The last stop is replaced by later requests: the unit was not to come up before
it, and what follows it replaces it. -/
def StopReplaced (v : ManagerView) (u : UnitName) (l : List JobType) : Prop :=
  ∃ l₁ l₂, l = l₁ ++ .stop :: l₂ ∧ .stop ∉ l₂ ∧ ¬ Firm v u l₁ ∧ Replaces v u l₂

/-- The last request that counts is a stop, and the unit was not to come up before it. -/
def LeftStopped (v : ManagerView) (u : UnitName) (l : List JobType) : Prop :=
  ∃ l₁ l₂, l = l₁ ++ .stop :: l₂ ∧ ¬ Firm v u l₁ ∧ ∀ k ∈ l₂, collapse v u k = .nop

/-- A stop or a restart. -/
def Stopping (k : JobType) : Prop := k = .stop ∨ k = .restart

theorem foldl_counts (l : List JobType) (a : JobType) : l.foldl (mergeNext v u) a =
    (l.filter (collapse v u · != .nop)).foldl mergeKinds a := by
  induction l generalizing a with
  | nil => rfl
  | cons k l ih =>
    rw [List.foldl_cons, ih]
    rcases collapse_cases v u k with hk | hk
    · by_cases hn : k = .nop
      · subst hn
        rw [List.filter_cons_of_neg (by simp [hk]), mergeNext, hk]
        cases a <;> rfl
      · rw [List.filter_cons_of_pos (by simp [hk, hn]), List.foldl_cons, mergeNext, hk]
    · rw [List.filter_cons_of_neg (by simp [hk]), mergeNext, hk]
      cases a <;> rfl

theorem foldl_restart (l : List JobType) : l.foldl mergeKinds .restart = .restart := by
  induction l with
  | nil => rfl
  | cons k l ih =>
    rw [List.foldl_cons, show mergeKinds .restart k = .restart from by cases k <;> rfl]
    exact ih

/-- Requests that can follow a stop outside of a reload. -/
def Plain (l : List JobType) : Prop :=
  ∀ k ∈ l, k = .start ∨ k = .restart ∨ k = .verifyActive ∨ k = .tryRestart

theorem foldl_up_plain : ∀ (l : List JobType) (a : JobType), Plain l →
    (a = .start ∨ a = .verifyActive) →
    if .restart ∈ l ∨ .tryRestart ∈ l then l.foldl mergeKinds a = .restart
    else l.foldl mergeKinds a = .start ∨ l.foldl mergeKinds a = .verifyActive
  | [], a, _, ha => by simpa using ha
  | k :: l, a, hl, ha => by
    have hl' : Plain l := fun j hj => hl j (List.mem_cons_of_mem k hj)
    rw [List.foldl_cons]
    rcases hl k List.mem_cons_self with rfl | rfl | rfl | rfl
    · have h := foldl_up_plain l .start hl' (Or.inl rfl)
      rw [show mergeKinds a .start = .start from by rcases ha with rfl | rfl <;> rfl]
      simpa using h
    · rw [show mergeKinds a .restart = .restart from by rcases ha with rfl | rfl <;> rfl]
      simp [foldl_restart]
    · have h := foldl_up_plain l a hl' ha
      rw [show mergeKinds a .verifyActive = a from by rcases ha with rfl | rfl <;> rfl]
      simpa using h
    · rw [show mergeKinds a .tryRestart = .restart from by rcases ha with rfl | rfl <;> rfl]
      simp [foldl_restart]

theorem foldl_try_plain : ∀ (l : List JobType), Plain l →
    if .restart ∈ l ∨ .verifyActive ∈ l ∨ .start ∈ l then
      l.foldl mergeKinds .tryRestart = .restart
    else l.foldl mergeKinds .tryRestart = .tryRestart
  | [], _ => by simp
  | k :: l, hl => by
    have hl' : Plain l := fun j hj => hl j (List.mem_cons_of_mem k hj)
    rw [List.foldl_cons]
    rcases hl k List.mem_cons_self with rfl | rfl | rfl | rfl
    · simp [mergeKinds, JobType.resultsInActive, foldl_restart]
    · simp [mergeKinds, foldl_restart]
    · simp [mergeKinds, JobType.resultsInActive, foldl_restart]
    · have h := foldl_try_plain l hl'
      simpa [mergeKinds] using h

/-- From a stop, requests that count lead away from stop and restart exactly when
they replace it. -/
theorem stopping_foldl_plain {l : List JobType} (hl : Plain l) :
    Stopping (l.foldl mergeKinds .stop) ↔
      ¬ ∃ k rest, l = k :: rest ∧ k ≠ .start ∧ .restart ∉ k :: rest ∧
        ¬ (.tryRestart ∈ k :: rest ∧ (.verifyActive ∈ k :: rest ∨ .start ∈ k :: rest)) := by
  cases l with
  | nil => simp [Stopping]
  | cons k l =>
    have hl' : Plain l := fun j hj => hl j (List.mem_cons_of_mem k hj)
    rw [List.foldl_cons]
    rcases hl k List.mem_cons_self with rfl | rfl | rfl | rfl
    · simp [mergeKinds, foldl_restart, Stopping]
    · simp [mergeKinds, foldl_restart, Stopping]
    · have h := foldl_up_plain l .verifyActive hl' (Or.inr rfl)
      rw [show mergeKinds .stop .verifyActive = .verifyActive from rfl]
      split at h
      next hc => rw [h]; simp [Stopping]; tauto
      next hc => rcases h with h | h <;> rw [h] <;> simp [Stopping] <;> tauto
    · have h := foldl_try_plain l hl'
      rw [show mergeKinds .stop .tryRestart = .tryRestart from rfl]
      split at h
      next hc => rw [h]; simp [Stopping]; tauto
      next hc => rw [h]; simp [Stopping]; tauto

/-! ## The requests of a walk -/

variable {g : DepGraph} {root : UnitName} {kind : JobType} {mode : JobMode}

theorem visits_kinds {vis : Visit JobType}
    (hvis : (visits g v root kind mode).get? u = some vis) {k : JobType} (hk : k ∈ vis.kinds) :
    if kind = .reload then k = .reload ∨ k = .stop else k ≠ .reload :=
  requested_kinds (visits_requested u k ⟨vis, hvis, hk⟩).1

theorem visits_wellAsked (hkind : kind ≠ .reload) {vis : Visit JobType}
    (hvis : (visits g v root kind mode).get? u = some vis) : WellAsked vis.kinds := by
  refine ⟨fun hm => ?_, fun l₁ l₂ he => ?_⟩
  · have hne := visits_kinds hvis hm
    rw [if_neg hkind] at hne
    exact hne rfl
  · cases l₁ with
    | nil => rfl
    | cons a l₁ =>
      have hlater : vis.later = l₁ ++ .reloadOrStart :: l₂ := (List.cons.inj he).2
      exact absurd rfl (visits_noLater u vis hvis .reloadOrStart (by rw [hlater]; simp))

/-- **A unit ends with a starting kind exactly when its requests raise it.** -/
theorem kindOf_starting_iff {vis : Visit JobType}
    (hvis : (visits g v root kind mode).get? u = some vis) :
    (kindOf v u vis).isStarting = true ↔ Raised v u vis.kinds := by
  rw [kindOf_eq_mergeAll]
  by_cases hkind : kind = .reload
  · have hall : ∀ k ∈ vis.kinds, k = .reload ∨ k = .stop := fun k hk => by
      have hk := visits_kinds hvis hk
      rwa [if_pos hkind] at hk
    refine ⟨fun hs => ?_, fun hr => absurd hr (not_raised_reload hall)⟩
    rcases mergeAll_reload (v := v) (u := u) hall with h | h | h <;> rw [h] at hs <;>
      exact absurd hs (by decide)
  · exact mergeAll_starting_iff (visits_wellAsked hkind hvis)

/-- The last stop of a sequence. -/
theorem exists_last_stop {l : List JobType} (h : .stop ∈ l) :
    ∃ l₁ l₂, l = l₁ ++ .stop :: l₂ ∧ .stop ∉ l₂ := by
  induction l using List.reverseRecOn with
  | nil => exact absurd h (by simp)
  | append_singleton l k ih =>
    by_cases hk : k = .stop
    · exact ⟨l, [], by rw [hk], by simp⟩
    · obtain ⟨l₁, l₂, hl, hno⟩ := ih ((List.mem_append.mp h).resolve_right (by simp [Ne.symm hk]))
      refine ⟨l₁, l₂ ++ [k], by rw [hl]; simp, ?_⟩
      rw [List.mem_append]
      exact fun hm => hm.elim hno (by simp [Ne.symm hk])

theorem WellAsked.front {l l' : List JobType} (h : WellAsked (l ++ l')) : WellAsked l :=
  ⟨fun hm => h.noReload (List.mem_append_left _ hm), fun l₁ l₂ he => h.first l₁ (l₂ ++ l') (by
    rw [he, List.append_assoc, List.cons_append])⟩

/-- Before a stop, the requests of a unit are firm when they merge to a start or a
restart. -/
theorem firm_iff {l l' : List JobType} {vis : Visit JobType}
    (hvis : (visits g v root kind mode).get? u = some vis) (hl : vis.kinds = l ++ l') :
    mergeAll v u l = .start ∨ mergeAll v u l = .restart ↔ Firm v u l := by
  by_cases hkind : kind = .reload
  · have hall : ∀ k ∈ l, k = .reload ∨ k = .stop := fun k hk => by
      have hk := visits_kinds hvis (k := k) (by rw [hl]; exact List.mem_append_left _ hk)
      rwa [if_pos hkind] at hk
    refine ⟨fun hs => ?_, fun hf => absurd (Or.inl hf) (not_raised_reload hall)⟩
    rcases mergeAll_reload (v := v) (u := u) hall with h | h | h <;> rw [h] at hs <;>
      exact absurd hs (by simp)
  · have hw := visits_wellAsked hkind hvis
    rw [hl] at hw
    exact (mergeAll_follows l hw.front).firm

theorem foldl_reload (n : Nat) : (List.replicate n JobType.reload).foldl mergeKinds .reload =
    .reload := by
  induction n with
  | zero => rfl
  | succ n ih =>
    rw [List.replicate_succ, List.foldl_cons]
    exact ih

/-- From a stop, what follows leads away from stop and restart exactly when it
replaces the stop. -/
theorem stopping_after_stop {l₁ l₂ : List JobType} {vis : Visit JobType}
    (hvis : (visits g v root kind mode).get? u = some vis) (hl : vis.kinds = l₁ ++ .stop :: l₂)
    (hstop : .stop ∉ l₂) :
    Stopping (l₂.foldl (mergeNext v u) .stop) ↔ ¬ Replaces v u l₂ := by
  have hmem : ∀ k ∈ l₂, k ∈ vis.kinds := fun k hk => by
    rw [hl]
    exact List.mem_append_right _ (List.mem_cons_of_mem _ hk)
  have hlater : ∀ k ∈ l₂, k ∈ vis.later := by
    intro k hk
    cases l₁ with
    | nil =>
      rw [(List.cons.inj hl).2]
      exact hk
    | cons a l₁ =>
      rw [(List.cons.inj hl).2]
      exact List.mem_append_right _ (List.mem_cons_of_mem _ hk)
  rw [foldl_counts]
  by_cases hkind : kind = .reload
  · have hall : ∀ k ∈ l₂, k = .reload := fun k hk => by
      have hk' := visits_kinds hvis (hmem k hk)
      rw [if_pos hkind] at hk'
      exact hk'.resolve_right fun h => hstop (h ▸ hk)
    obtain ⟨n, rfl⟩ : ∃ n, l₂ = List.replicate n .reload :=
      ⟨l₂.length, List.eq_replicate_iff.mpr ⟨rfl, hall⟩⟩
    have hfilter : (List.replicate n JobType.reload).filter (collapse v u · != .nop) =
        List.replicate n .reload := by simp [collapse]
    unfold Replaces
    rw [hfilter]
    cases n with
    | zero => simp [Stopping]
    | succ n =>
      rw [List.replicate_succ, List.foldl_cons,
        show mergeKinds .stop .reload = .reload from rfl, foldl_reload]
      simp [Stopping]
  · refine stopping_foldl_plain fun k hk => ?_
    obtain ⟨hk, hc⟩ := List.mem_filter.mp hk
    have hreload := visits_kinds hvis (hmem k hk)
    rw [if_neg hkind] at hreload
    have hros := visits_noLater u vis hvis k (hlater k hk)
    cases k <;> simp_all [collapse]

/-- **A unit that was asked to stop stops or restarts**, unless its last stop is
replaced. -/
theorem kindOf_stopping_iff {vis : Visit JobType}
    (hvis : (visits g v root kind mode).get? u = some vis) (hs : .stop ∈ vis.kinds) :
    Stopping (kindOf v u vis) ↔ ¬ StopReplaced v u vis.kinds := by
  rw [kindOf_eq_mergeAll]
  have hsplit : ∀ l₁ l₂, vis.kinds = l₁ ++ .stop :: l₂ → .stop ∉ l₂ →
      (Stopping (mergeAll v u vis.kinds) ↔ (¬ Firm v u l₁ → ¬ Replaces v u l₂)) := by
    intro l₁ l₂ hl hno
    have hfold : mergeAll v u vis.kinds =
        l₂.foldl (mergeNext v u) (mergeNext v u (mergeAll v u l₁) .stop) := by
      rw [hl]
      unfold mergeAll
      rw [List.foldl_append]
      rfl
    rw [hfold, mergeNext, collapse_of_ne (by simp)]
    by_cases hF : Firm v u l₁
    · have hr : mergeKinds (mergeAll v u l₁) .stop = .restart := by
        rcases (firm_iff hvis hl).mpr hF with h | h <;> rw [h] <;> rfl
      rw [hr, foldl_counts, foldl_restart]
      simp [Stopping, hF]
    · have hne := mt (firm_iff hvis hl).mp hF
      have hr : mergeKinds (mergeAll v u l₁) .stop = .stop := by
        cases ha : mergeAll v u l₁ <;> simp_all [mergeKinds, JobType.resultsInActive]
      rw [hr, stopping_after_stop hvis hl hno]
      simp [hF]
  obtain ⟨l₁, l₂, hl, hno⟩ := exists_last_stop hs
  constructor
  · rintro hst ⟨l₁, l₂, hl, hno, hF, hr⟩
    exact (hsplit l₁ l₂ hl hno).mp hst hF hr
  · intro hn
    exact (hsplit l₁ l₂ hl hno).mpr fun hF hr => hn ⟨l₁, l₂, hl, hno, hF, hr⟩

theorem mergeNext_ne_stop {a k : JobType} (ha : a ≠ .stop) (hk : k ≠ .stop) :
    mergeNext v u a k ≠ .stop := by
  have hc := collapse_ne (v := v) (u := u) hk (by simp)
  unfold mergeNext
  generalize collapse v u k = k' at hc
  cases a <;> cases k' <;> simp_all [mergeKinds, JobType.resultsInActive]

theorem foldl_ne_stop {l : List JobType} {a : JobType} (ha : a ≠ .stop) (hl : .stop ∉ l) :
    l.foldl (mergeNext v u) a ≠ .stop := by
  refine List.foldlRecOn (motive := fun a : JobType => a ≠ .stop) l _ ha fun a ha k hk => ?_
  exact mergeNext_ne_stop ha fun he => hl (he ▸ hk)

/-- A stop lasts through requests that do not count, and through no others. -/
theorem foldl_stop_iff : ∀ {l : List JobType}, .stop ∉ l →
    (l.foldl (mergeNext v u) .stop = .stop ↔ ∀ k ∈ l, collapse v u k = .nop)
  | [], _ => by simp
  | k :: l, hl => by
    have hk : k ≠ .stop := fun he => hl (he ▸ List.mem_cons_self)
    have hl' : .stop ∉ l := fun hm => hl (List.mem_cons_of_mem k hm)
    rw [List.foldl_cons, List.forall_mem_cons]
    by_cases hc : collapse v u k = .nop
    · rw [show mergeNext v u .stop k = .stop from by rw [mergeNext, hc]; rfl, foldl_stop_iff hl']
      exact (and_iff_right hc).symm
    · have hne : mergeNext v u .stop k ≠ .stop := by
        have hs := collapse_ne (v := v) (u := u) hk (by simp)
        unfold mergeNext
        generalize collapse v u k = k' at hc hs
        cases k' <;> simp_all [mergeKinds, JobType.resultsInActive]
      exact ⟨fun h => absurd h (foldl_ne_stop hne hl'), fun h => absurd h.1 hc⟩

/-- **A unit ends with a stop exactly when its requests leave it stopped.** -/
theorem kindOf_stop_iff {vis : Visit JobType}
    (hvis : (visits g v root kind mode).get? u = some vis) :
    kindOf v u vis = .stop ↔ LeftStopped v u vis.kinds := by
  rw [kindOf_eq_mergeAll]
  have hsplit : ∀ l₁ l₂, vis.kinds = l₁ ++ .stop :: l₂ → .stop ∉ l₂ →
      (mergeAll v u vis.kinds = .stop ↔ ¬ Firm v u l₁ ∧ ∀ k ∈ l₂, collapse v u k = .nop) := by
    intro l₁ l₂ hl hno
    have hfold : mergeAll v u vis.kinds =
        l₂.foldl (mergeNext v u) (mergeNext v u (mergeAll v u l₁) .stop) := by
      rw [hl]
      unfold mergeAll
      rw [List.foldl_append]
      rfl
    rw [hfold, mergeNext, collapse_of_ne (by simp)]
    by_cases hF : Firm v u l₁
    · have hr : mergeKinds (mergeAll v u l₁) .stop = .restart := by
        rcases (firm_iff hvis hl).mpr hF with h | h <;> rw [h] <;> rfl
      rw [hr]
      exact ⟨fun h => absurd h (foldl_ne_stop (by simp) hno), fun h => absurd hF h.1⟩
    · have hne := mt (firm_iff hvis hl).mp hF
      have hr : mergeKinds (mergeAll v u l₁) .stop = .stop := by
        cases ha : mergeAll v u l₁ <;> simp_all [mergeKinds, JobType.resultsInActive]
      rw [hr, foldl_stop_iff hno]
      exact (and_iff_right hF).symm
  constructor
  · intro h
    have hs : .stop ∈ vis.kinds := by
      by_contra hno
      exact foldl_ne_stop (by simp) hno h
    obtain ⟨l₁, l₂, hl, hno⟩ := exists_last_stop hs
    exact ⟨l₁, l₂, hl, (hsplit l₁ l₂ hl hno).mp h⟩
  · rintro ⟨l₁, l₂, hl, hF, hc⟩
    have hno : .stop ∉ l₂ := fun hm => absurd (hc _ hm) (by simp [collapse])
    exact (hsplit l₁ l₂ hl hno).mpr ⟨hF, hc⟩

end Systeml.Deps
