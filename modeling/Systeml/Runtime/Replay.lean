import Systeml.Runtime.Told
import Systeml.Runtime.Reload

/-!
# The events, replayed

Whoever has followed the manager from its start and keeps one state for each unit (a new
unit is inactive or as it was, a removed one is forgotten, a change is taken over) knows
the state of every unit whenever no reload is in progress, services included
(`replay_run`). Between two steps of a reload it may be behind by one unit: the one that
is about to be put in for the first time (`Replayed`).
-/

namespace Systeml.Runtime

open Systeml.Lib Systeml.Unit Systeml.Deps

/-- What is known of a unit after an event. -/
def UnitEvent.replay (u : UnitName) (o : Option ActiveState) : UnitEvent → Option ActiveState
  | .unitNew n => if n = u then some (o.getD .inactive) else o
  | .unitRemoved n => if n = u then none else o
  | .stateChanged n a _ => if n = u then o.map fun _ => a else o
  | .jobNew .. | .jobRemoved .. => o

/-- What is known of a unit after all of them. -/
def replay (u : UnitName) (events : List UnitEvent) : Option ActiveState :=
  events.foldl (UnitEvent.replay u) none

theorem replay_append (u : UnitName) (events new : List UnitEvent) :
    replay u (events ++ new) = new.foldl (UnitEvent.replay u) (replay u events) :=
  List.foldl_append

/-- What is seen of a unit afterwards depends on what was seen of it before. -/
theorem replay_congr {β : Type} {π : ActiveState → β} {u : UnitName} {new : List UnitEvent} :
    ∀ {o o' : Option ActiveState}, o.map π = o'.map π →
      (new.foldl (UnitEvent.replay u) o).map π = (new.foldl (UnitEvent.replay u) o').map π := by
  induction new with
  | nil => exact id
  | cons e new ih =>
    intro o o' h
    rw [List.foldl_cons, List.foldl_cons]
    refine ih ?_
    cases e with
    | unitNew n =>
      simp only [UnitEvent.replay]
      split
      · cases o with
        | none => rw [Option.map_eq_none_iff.mp h.symm]
        | some a =>
          obtain ⟨a', rfl, ha⟩ := Option.map_eq_some_iff.mp h.symm
          simpa using ha.symm
      · exact h
    | unitRemoved n =>
      simp only [UnitEvent.replay]
      split
      · rfl
      · exact h
    | stateChanged n a s =>
      simp only [UnitEvent.replay]
      split
      · cases o with
        | none => rw [Option.map_eq_none_iff.mp h.symm]
        | some b =>
          obtain ⟨b', rfl, -⟩ := Option.map_eq_some_iff.mp h.symm
          rfl
      · exact h
    | jobNew | jobRemoved => exact h

/-- Where no unit is new, the events are replayed as they tell. -/
theorem replay_of_tell {u : UnitName} {new : List UnitEvent} (h : .unitNew u ∉ new) :
    ∀ o : Option Shown, new.foldl (UnitEvent.replay u) (o.map Prod.fst) =
      (new.foldl (UnitEvent.tell u) o).map Prod.fst := by
  induction new with
  | nil => exact fun o => rfl
  | cons e new ih =>
    intro o
    have hrest : .unitNew u ∉ new := fun hm => h (List.mem_cons_of_mem _ hm)
    have he : e.replay u (o.map Prod.fst) = (e.tell u o).map Prod.fst := by
      cases e with
      | unitNew n =>
        have hn : n ≠ u := by
          rintro rfl
          exact h List.mem_cons_self
        simp only [UnitEvent.replay, UnitEvent.tell, if_neg hn]
      | unitRemoved n =>
        simp only [UnitEvent.replay, UnitEvent.tell]
        split <;> rfl
      | stateChanged n a s =>
        simp only [UnitEvent.replay, UnitEvent.tell]
        split
        · rw [Option.map_map, Option.map_map]
          rfl
        · rfl
      | jobNew | jobRemoved => rfl
    rw [List.foldl_cons, List.foldl_cons, he]
    exact ih hrest _

namespace World

variable {w w' : World} {u n : UnitName}

/-! ## The wiring over calls -/

theorem insertLoaded_tasks (w : World) (name : UnitName) (lu : LoadedUnit name) :
    (w.insertLoaded name lu).tasks = w.tasks := by
  unfold insertLoaded
  split <;> rfl

/-- A service that is put in has a new runner, and others keep theirs. -/
theorem services_insertLoaded {name : UnitName} {lu : LoadedUnit name} {v : UnitName} {r : RunnerId}
    (h : Wired w) (hv : (w.insertLoaded name lu).mgr.services.get? v = some r) :
    HasRunner (w.insertLoaded name lu) r v := by
  unfold insertLoaded at hv ⊢
  split
  next svc hk =>
    rw [hk] at hv
    have hv' : (w.mgr.services.insert name w.runners.length).get? v = some r := hv
    by_cases hn : v = name
    · subst hn
      rw [IndexMap.get?_insert_self] at hv'
      obtain rfl := Option.some.inj hv'
      exact ⟨{ unit := v, svc := svc }, List.getElem?_concat_length, rfl⟩
    · rw [IndexMap.get?_insert_ne hn] at hv'
      obtain ⟨R, hR, hu⟩ := h.services v r hv'
      exact ⟨R, List.getElem?_append_left (List.getElem?_eq_some_iff.mp hR).1 ▸ hR, hu⟩
  next hk =>
    have hv' : w.mgr.services.get? v = some r := by
      split at hv
      next svc hs => exact absurd hs (hk svc)
      next => exact hv
    exact h.services v r hv'

theorem keepsRunners_insertLoaded (w : World) (name : UnitName) (lu : LoadedUnit name) :
    KeepsRunners w (w.insertLoaded name lu) := by
  unfold insertLoaded
  split
  · intro r R hR
    exact ⟨R, (List.getElem?_append_left (List.getElem?_eq_some_iff.mp hR).1).trans hR, rfl, rfl⟩
  · exact keepsRunners_of_eq rfl

theorem sound_insertLoaded {name : UnitName} {lu : LoadedUnit name} (h : Sound w)
    (hl : w.lock = .free) : Sound (w.insertLoaded name lu) := by
  have hlock := (insertLoaded_lock w name lu).trans hl
  have htasks := insertLoaded_tasks w name lu
  refine ⟨⟨?_, ?_, ?_, ?_⟩, ?_, ?_⟩
  · exact fun v r hv => services_insertLoaded h.wired hv
  · intro ops hops
    rw [reloading_of_free hlock] at hops
    exact absurd hops (by simp)
  · intro t ht
    rw [htasks] at ht
    exact (h.wired.tasks t ht).kept (keepsRunners_insertLoaded w name lu)
  · intro i t ht hk hne
    rw [htasks] at ht
    exact absurd (h.wired.ended_of_free hl ht hk) hne
  · intro t ht
    exact h.shaped t (htasks ▸ ht)
  · intro t ht
    exact h.supervised t (htasks ▸ ht)

theorem sound_call {c : Call} (h : Sound w) (hs : w.call c = some w') : Sound w' := by
  cases c with
  | insertLoaded name lu =>
    obtain ⟨hl, rfl⟩ := ifFree_eq hs
    exact sound_insertLoaded h hl
  | daemonReload paths =>
    have hstep : w.step (.daemonReload paths.disk) = some w' := hs
    exact sound_step h hstep
  | other l =>
    have hstep : w.step l = some w' := by
      cases l with
      | daemonReload disk => exact absurd hs (by simp [call])
      | _ => exact hs
    exact sound_step h hstep

/-! ## What a step tells of any unit -/

section Tells

variable {c : Prop}

/-- The events tell what became of the unit; where it was marked, `c` holds. -/
abbrev Tells (c : Prop) (u : UnitName) (w w' : World) : Prop := Told (fun _ => c) u w w'

theorem tells_mark (m : Manager) (a : ActiveState) (s : SubState) (hidle : w.reloading = none)
    (hc : c) : Tells c u { w with mgr := m } { w with mgr := m.markState n a s } :=
  told_mark m a s (fun _ => hidle) fun _ => hc

theorem tells_spawnServiceStart {m : Manager} (h : Tells c u w { w with mgr := m })
    (hidle : w.reloading = none) (hc : c) :
    Tells c u w { w with mgr := (m.spawnServiceStart n).1 } := by
  unfold Manager.spawnServiceStart
  split
  · exact h
  · exact h.trans (tells_mark m _ _ hidle hc)

theorem tells_startUnit (hidle : w.reloading = none) (hc : c) : Tells c u w (w.startUnit n) := by
  have hjob := told_newJob (P := fun _ => c) (u := u) w n .start
  have hstart : Tells c u w { w with mgr := (w.mgr.startUnit n).mgr } := by
    simp only [Manager.startUnit]
    split
    · exact tells_spawnServiceStart hjob hidle hc
    · exact told_job (hjob.trans (tells_mark _ _ _ hidle hc)) _ _
  simp only [startUnit]
  split
  · exact hstart.trans (spawnTask_told _ _ _ _)
  · exact hstart

/-- The scheduler marks the timer, starts its unit, and may mark the timer again. -/
theorem tells_fire {timer : UnitName} (hl : w.lock = .free) (hc : c) :
    Tells c u w (w.fire timer n) := by
  have hmark : Tells c u w { w with mgr := w.mgr.markState timer .active .running } :=
    tells_mark w.mgr _ _ (reloading_of_free hl) hc
  have hlock := (startUnit_lock { w with mgr := w.mgr.markState timer .active .running } n).trans hl
  have hstart := hmark.trans (tells_startUnit (u := u) (n := n)
    (w := { w with mgr := w.mgr.markState timer .active .running }) (reloading_of_free hl) hc)
  simp only [fire]
  split
  · exact hstart
  · exact hstart.trans (tells_mark _ _ _ (reloading_of_free hlock) hc)

/-- A mark by a task, and the start that a restart ends with, come while no reload is in
progress. -/
theorem tells_act (w : World) (t : Task) {a : Act}
    (h : (w.reloading = none ∧ c) ∨ ((∀ b s, a ≠ .mark b s) ∧ a ≠ .respawn)) :
    Tells c u w (w.act t a) := by
  have hrefl : Tells c u w { w with mgr := w.mgr } := told_refl w
  cases a with
  | spawn pid main | kill k | reap p => exact told_of_same rfl rfl
  | mark a s =>
    obtain ⟨hidle, hc⟩ | ⟨hno, -⟩ := h
    · exact tells_mark w.mgr a s hidle hc
    · exact absurd rfl (hno a s)
  | supervise =>
    simp only [act]
    split
    · exact hrefl.trans (spawnTask_told _ _ _ _)
    · exact hrefl
  | respawn =>
    obtain ⟨hidle, hc⟩ | ⟨-, hno⟩ := h
    · have hstart := tells_spawnServiceStart (n := t.unit) hrefl hidle hc
      simp only [act, respawn]
      split
      next heq _ =>
        rw [heq] at hstart
        exact hstart.trans (spawnTask_told _ _ _ _)
      next heq _ =>
        rw [heq] at hstart
        exact hstart
    · exact absurd rfl hno
  | jobRemoved o =>
    simp only [act]
    split
    · exact told_job hrefl _ _
    · exact hrefl

end Tells

/-- While a reload is in progress no task marks a unit or starts one again. -/
theorem unmarked_task {t : Task} {op : Op} {rest : List Op} {R : Runner} {resp : Response}
    {i : TaskId} {reply : Reply} {ops : List ReloadOp} (hw : Sound w) (hre : w.reloading = some ops)
    (ht : w.tasks[i]? = some t) (hops : t.ops = op :: rest)
    (hreply : op.run w.procs (w.lock = .free) t.kind R rest resp = some reply) :
    ∀ a ∈ reply.acts, (∀ b s, a ≠ .mark b s) ∧ a ≠ .respawn := by
  have hmem := List.mem_of_getElem? ht
  have hbusy : decide (w.lock = .free) = false := by
    rw [lock_of_reloading hre]
    rfl
  rw [hbusy] at hreply
  have hkind : t.kind.isLocked = false := by
    by_contra hk
    have hnil := hw.wired.ended_of_reloading hre ht (by simpa using hk)
    rw [hops] at hnil
    exact absurd hnil (by simp)
  -- only a stop or a restart goes on to mark its unit without asking for the lock
  have hop : op ≠ .markDead ∧ op ≠ .respawn := by
    cases hk : t.kind with
    | start id =>
      obtain hnil | hprog := hw.shaped t hmem (by rw [hk]; rfl)
      · rw [hops] at hnil
        exact absurd hnil (by simp)
      · rw [hk, hops] at hprog
        cases hprog with
        | last hlast => constructor <;> rintro rfl <;> simp [Op.isLast] at hlast
        | cons hinner _ =>
          constructor <;> rintro rfl <;> simp [Op.isInner, Op.ofStart, Op.isCommon] at hinner
    | supervise =>
      have hsup := hw.supervised t hmem hk op (hops ▸ List.mem_cons_self)
      constructor <;> rintro rfl <;> simp [Op.ofSupervisor] at hsup
    | stop id | restart id | reload id =>
      rw [hk] at hkind
      exact absurd hkind (by simp [TaskKind.isLocked])
  intro a ha
  cases Op.run_does hreply a ha with
  | exec | spawnMain | spawnForking | reap | kill | jobRemoved => simp
  | publish o a s h | supervise o s h | publishExit a s h => exact absurd h (by simp)
  | markDead => exact absurd rfl hop.1
  | respawn => exact absurd rfl hop.2

theorem tells_step {l : Label} (h : Sound w) (hs : w.step l = some w')
    (hd : ∀ disk, l ≠ .daemonReload disk) (hr : l ≠ .reloadStep) :
    Tells (w.reloading = none) u w w' := by
  cases l with
  | startUnit n =>
    obtain ⟨hl, rfl⟩ := ifFree_eq hs
    exact tells_startUnit (reloading_of_free hl) (reloading_of_free hl)
  | stopUnit n =>
    obtain ⟨hl, rfl⟩ := ifFree_eq hs
    have hidle := reloading_of_free hl
    have hjob := told_newJob (P := fun _ => w.reloading = none) (u := u) w n .stop
    simp only [stopUnit]
    split
    · exact hjob.trans (spawnLocked_told _ _ _ _ hl)
    · exact told_job (hjob.trans (tells_mark _ _ _ hidle hidle)) _ _
  | restartUnit n =>
    obtain ⟨hl, rfl⟩ := ifFree_eq hs
    have hidle := reloading_of_free hl
    have hjob := told_newJob (P := fun _ => w.reloading = none) (u := u) w n .restart
    simp only [restartUnit]
    split
    · exact hjob.trans (spawnLocked_told _ _ _ _ hl)
    · have hstop := hjob.trans (tells_mark (n := n) (w.mgr.newJob n .restart).2 .inactive .dead
        hidle hidle)
      split
      · exact hstop
      · exact told_job (hstop.trans (tells_mark _ _ _ hidle hidle)) _ _
  | reloadUnit n =>
    obtain ⟨hl, rfl⟩ := ifFree_eq hs
    have hidle := reloading_of_free hl
    have hjob := told_newJob (P := fun _ => w.reloading = none) (u := u) w n .reload
    simp only [reloadUnit]
    split
    · exact hjob.trans (spawnLocked_told _ _ _ _ hl)
    · exact told_job hjob _ _
  | fire timer target =>
    have hl : w.lock = .free := (request_tasks (w := w) rfl hs).1
    simp only [step] at hs
    split at hs
    · obtain ⟨-, rfl⟩ := ifFree_eq hs
      exact tells_fire hl (reloading_of_free hl)
    · exact absurd hs (by simp)
  | daemonReload disk => exact absurd rfl (hd disk)
  | reloadStep => exact absurd rfl hr
  | task i resp =>
    have hre := reloading_step hs hd hr
    obtain ⟨t, op, rest, R, reply, ht, hops, -, hreply, rfl⟩ := runTask_cases hs
    unfold reloading at hre
    rw [foldl_act_lock] at hre
    have hacts : ∀ v : World, v.reloading = w.reloading → ∀ a ∈ reply.acts,
        (v.reloading = none ∧ w.reloading = none) ∨ ((∀ b s, a ≠ .mark b s) ∧ a ≠ .respawn) := by
      intro v hv a ha
      cases hro : w.reloading with
      | none => exact Or.inl ⟨hv.trans hro, rfl⟩
      | some ops => exact Or.inr (unmarked_task h hro ht hops hreply a ha)
    -- the lock stays as it is from one act to the next
    refine (foldl_act_inv (P := fun v => Tells (w.reloading = none) u w v ∧
      v.reloading = w.reloading)
      (fun v a ha hv => ?_) ?_).1
    · refine ⟨hv.1.trans (tells_act v t (hacts v hv.2 a ha)), ?_⟩
      rw [← hv.2]
      unfold reloading
      rw [act_lock]
    · exact ⟨told_of_same rfl hre, hre⟩
  | exit p =>
    obtain rfl := Option.some.inj hs
    exact told_of_same rfl rfl

/-- Only a reload tells of new and removed units. -/
theorem not_mem_of_sameRegistry {new : List UnitEvent} {e : UnitEvent} (h : SameRegistry w w')
    (he : w'.mgr.events = w.mgr.events ++ new) (hreg : e.ofRegistry = true) : e ∉ new := by
  have hcount := h.reports e hreg
  rw [he, List.count_append] at hcount
  exact List.count_eq_zero.mp (by omega)

/-- What was sent stays sent. -/
theorem call_events {c : Call} (h : Sound w) (hs : w.call c = some w') :
    w.mgr.events <+: w'.mgr.events := by
  cases c with
  | insertLoaded name lu =>
    obtain ⟨-, rfl⟩ := ifFree_eq hs
    exact (insertLoaded_mgr w name lu).1 ▸ List.prefix_append _ _
  | daemonReload paths =>
    obtain ⟨-, rfl⟩ := ifFree_eq hs
    rw [daemonReload_mgr, (foldl_dropUnit _ _).2.2.2]
    exact List.prefix_append _ _
  | other l =>
    by_cases hr : l = .reloadStep
    · subst hr
      obtain ⟨-, rfl⟩ | ⟨op, rest, -, ho⟩ := reloadStep_cases hs
      · exact List.prefix_rfl
      · obtain ⟨_, _, _, _, _, -, -, -, hm, -⟩ | ⟨-, hm, -⟩ | ⟨_, _, _, _, -, hm, -⟩ :=
          reloadOp_cases ho
        · exact hm ▸ List.prefix_rfl
        · exact hm ▸ List.prefix_rfl
        · exact hm ▸ List.prefix_append _ _
    · have hl : w.step l = some w' ∧ ∀ disk, l ≠ .daemonReload disk := by
        cases l with
        | daemonReload disk => exact absurd hs (by simp [call])
        | _ => exact ⟨hs, by simp⟩
      obtain ⟨new, he, -⟩ := tells_step (u := serviceName) h hl.1 hl.2 hr
      exact he ▸ List.prefix_append _ _

/-- Events that neither remove nor mark the unit tell nothing of it. -/
theorem tell_of_unmarked {new : List UnitEvent} (hgone : .unitRemoved u ∉ new)
    (hmarks : ∀ a s, .stateChanged u a s ∉ new) (o : Option Shown) :
    new.foldl (UnitEvent.tell u) o = o := by
  induction new with
  | nil => rfl
  | cons e new ih =>
    have he : e.tell u o = o := by
      cases e with
      | stateChanged n a s =>
        refine if_neg ?_
        rintro rfl
        exact hmarks a s List.mem_cons_self
      | unitRemoved n =>
        refine if_neg ?_
        rintro rfl
        exact hgone List.mem_cons_self
      | unitNew | jobNew | jobRemoved => rfl
    rw [List.foldl_cons, he]
    exact ih (fun hm => hgone (List.mem_cons_of_mem _ hm))
      fun a s hm => hmarks a s (List.mem_cons_of_mem _ hm)

/-! ## The invariant -/

/-- What is known of a unit, as far as `π` sees it, is the state that it shows. Only a unit
that a reload is about to put in for the first time is not known yet. -/
def Replayed {β : Type} (π : ActiveState → β) (u : UnitName) (w : World) : Prop :=
  (replay u w.mgr.events).map π = (w.shown u).map (fun x => π x.1) ∨
    (replay u w.mgr.events = none ∧ (w.shown u).map Prod.fst = some .inactive ∧
      pendingStatus (w.reloading.getD []) u ≠ none)

section Replayed

variable {β : Type} {π : ActiveState → β}

theorem map_shown (o : Option Shown) : o.map (fun x => π x.1) = (o.map Prod.fst).map π := by
  rw [Option.map_map]
  rfl

theorem replayed_of_idle (hidle : w.reloading = none) : Replayed π u w ↔
    (replay u w.mgr.events).map π = (w.mgr.status.get? u).map fun st => π st.active := by
  unfold Replayed
  rw [shown_of_idle hidle, hidle, Option.map_map]
  constructor
  · rintro (h | ⟨-, -, h⟩)
    · exact h
    · exact absurd rfl h
  · exact Or.inl

/-- A unit without a state is put in, or one that is seen as inactive. -/
def PutIn (π : ActiveState → β) (w : World) (c : Call) : Prop :=
  ∀ name lu, c = .insertLoaded name lu → ∀ st, w.mgr.status.get? name = some st →
    π st.active = π .inactive

theorem replayed_insertLoaded {name : UnitName} {lu : LoadedUnit name} (h : Replayed π u w)
    (hl : w.lock = .free)
    (hput : ∀ st, w.mgr.status.get? name = some st → π st.active = π .inactive) :
    Replayed π u (w.insertLoaded name lu) := by
  rw [replayed_of_idle (reloading_of_free hl)] at h
  rw [replayed_of_idle (reloading_of_free ((insertLoaded_lock w name lu).trans hl)),
    (insertLoaded_mgr w name lu).1, (insertLoaded_mgr w name lu).2, replay_append]
  simp only [List.foldl_cons, List.foldl_nil, UnitEvent.replay]
  by_cases hn : name = u
  · subst hn
    rw [if_pos rfl, IndexMap.get?_insert_self]
    cases hst : w.mgr.status.get? name with
    | none =>
      rw [hst] at h
      rw [Option.map_eq_none_iff.mp h]
      rfl
    | some st =>
      rw [hst] at h
      obtain ⟨a, ha, he⟩ := Option.map_eq_some_iff.mp h
      rw [ha]
      exact congrArg some (he.trans (hput st hst))
  · rw [if_neg hn, IndexMap.get?_insert_ne fun he => hn he.symm]
    exact h

/-- What a reload finds gone is forgotten. -/
theorem replayed_daemonReload {disk : Disk} (h : Replayed π u w) (hl : w.lock = .free) :
    Replayed π u (w.daemonReload disk) := by
  have hidle := reloading_of_free hl
  rw [replayed_of_idle hidle] at h
  have hevents : (w.daemonReload disk).mgr.events =
      w.mgr.events ++ (gone w disk).map .unitRemoved := by
    rw [daemonReload_mgr]
    exact (foldl_dropUnit _ _).2.2.2
  obtain ⟨new, he, hs, -⟩ := told_dropUnit (P := fun _ => False) (u := u) hidle (gone w disk) w.mgr
  obtain rfl : new = (gone w disk).map .unitRemoved := by
    refine List.append_cancel_left (he.symm.trans ?_)
    exact (foldl_dropUnit _ _).2.2.2
  refine Or.inl ?_
  have hshown : (w.daemonReload disk).shown u =
      ((gone w disk).map .unitRemoved).foldl (UnitEvent.tell u) (w.shown u) := by
    refine Eq.trans ?_ hs
    rw [shown_of_idle (w := { w with mgr := (gone w disk).foldl dropUnit w.mgr }) hidle]
    unfold shown
    rw [reloading_of_lock rfl, Option.getD_some, pendingStatus_units, Option.none_or]
    · rfl
    · intro op hop
      obtain ⟨e, -, rfl⟩ := List.mem_map.mp hop
      exact ⟨e.1, e.2, rfl⟩
  rw [hevents, replay_append, hshown, map_shown, ← replay_of_tell (by simp)]
  refine replay_congr (h.trans ?_)
  rw [shown_of_idle hidle, Option.map_map, Option.map_map]
  rfl

/-- One step of a reload, from `op :: rest`. -/
theorem replayed_reloadOp {op : ReloadOp} {rest : List ReloadOp} (h : Replayed π u w)
    (hq : Queued (op :: rest)) (hl : w.lock = .reload (op :: rest))
    (hs : w.reloadOp rest op = some w') : Replayed π u w' := by
  have hre := reloading_of_lock hl
  have hshown := shown_reloadOp (u := u) hq hl hs
  unfold Replayed at h
  rw [hre, Option.getD_some] at h
  obtain ⟨⟨n, spec, rfl⟩, hunits⟩ | ⟨hcopy, -⟩ | ⟨⟨n, spec, st, new, rfl⟩, hunits⟩ := hq.cases
  · -- nothing is told, and a unit that had no state waits as inactive
    obtain ⟨copies, new, hcopies, hm, hl'⟩ := reloadOp_unit hs
    have hnone : pendingStatus (.unit n spec :: rest) u = none := by
      refine pendingStatus_units fun op hop => ?_
      obtain rfl | hop := List.mem_cons.mp hop
      · exact ⟨n, spec, rfl⟩
      · exact hunits op hop
    have hknown : (replay u w.mgr.events).map π = (w.shown u).map (fun x => π x.1) :=
      h.elim id fun hp => absurd hnone hp.2.2
    unfold Replayed
    have hevents : w'.mgr.events = w.mgr.events := by rw [hm]
    rw [hevents]
    obtain he | ⟨hno, hin⟩ := hshown
    · exact Or.inl (by rw [hknown, he])
    · rw [hno] at hknown
      refine Or.inr ⟨Option.map_eq_none_iff.mp hknown, by rw [hin]; rfl, ?_⟩
      rw [reloading_of_lock hl', Option.getD_some, pendingStatus_copies hcopies]
      by_cases hn : n = u
      · subst hn
        simp [pendingStatus, ReloadOp.status?]
      · -- only the unit that is taken out can have come to wait
        refine absurd hno ?_
        have hrest : pendingStatus (copies ++ .install n spec (reloadedStatus w.mgr n spec) new :: rest)
            u = none := by
          rw [pendingStatus_copies hcopies, ← pendingStatus_units (u := u) hunits]
          simp [pendingStatus, ReloadOp.status?, hn]
        unfold shown at hin ⊢
        rw [reloading_of_lock hl', Option.getD_some, hrest, Option.none_or, hm] at hin
        rw [hre, Option.getD_some, hnone, Option.none_or]
        have hsame : (w.mgr.status.erase n).get? u = w.mgr.status.get? u :=
          IndexMap.get?_erase_ne (fun he => hn he.symm) _
        rw [← hsame, hin]
        simp
  · -- a copy between runners
    obtain ⟨_, _, _, _, _, rfl, -⟩ | ⟨-, hm, hl'⟩ | ⟨_, _, _, _, rfl, -⟩ := reloadOp_cases hs
    · exact absurd hcopy (by simp [ReloadOp.isCopy])
    · have hpend : pendingStatus (op :: rest) u = pendingStatus rest u := by
        have hone : pendingStatus ([op] ++ rest) u = pendingStatus rest u :=
          pendingStatus_copies (by simpa using hcopy)
        exact hone
      have hsame : w'.shown u = w.shown u := by
        unfold shown
        rw [reloading_of_lock hl', hre, Option.getD_some, Option.getD_some, hm, hpend]
      unfold Replayed
      rw [hm, hsame, reloading_of_lock hl', Option.getD_some, ← hpend]
      exact h
    · exact absurd hcopy (by simp [ReloadOp.isCopy])
  · -- the unit is told of as new
    have hsame : w'.shown u = w.shown u := by
      obtain he | ⟨hno, hin⟩ := hshown
      · exact he
      · obtain rfl := Option.some.inj hs
        unfold shown at hno hin
        rw [hre, Option.getD_some] at hno
        rw [reloading_of_lock rfl, Option.getD_some, pendingStatus_units hunits] at hin
        by_cases hn : n = u
        · subst hn
          exact absurd hno (by simp [pendingStatus, ReloadOp.status?])
        · have hget : (w.mgr.status.insert n st).get? u = w.mgr.status.get? u :=
            IndexMap.get?_insert_ne (fun he => hn he.symm) _ _
          have hst : w.mgr.status.get? u = none := by
            have hor := Option.map_eq_none_iff.mp hno
            exact (Option.or_eq_none_iff.mp hor).2
          have hin' : ((w.mgr.status.insert n st).get? u).map UnitStatus.shown =
              some (.inactive, .unset) := hin
          rw [hget, hst] at hin'
          exact absurd hin' (by simp)
    obtain rfl := Option.some.inj hs
    refine Or.inl ?_
    show (replay u (w.mgr.events ++ [.unitNew n])).map π = _
    rw [hsame, replay_append]
    simp only [List.foldl_cons, List.foldl_nil, UnitEvent.replay]
    by_cases hn : n = u
    · rw [if_pos hn]
      have hsome : ∃ x, w.shown u = some x := by
        unfold shown
        rw [hre, Option.getD_some]
        simp [pendingStatus, ReloadOp.status?, hn]
      obtain ⟨x, hx⟩ := hsome
      rw [hx] at h ⊢
      obtain hk | ⟨hk, hin, -⟩ := h
      · obtain ⟨a, ha, he⟩ := Option.map_eq_some_iff.mp hk
        rw [ha]
        exact congrArg some he
      · rw [hk]
        exact congrArg (Option.map π) hin.symm
    · rw [if_neg hn]
      refine h.elim id fun hp => absurd ?_ hp.2.2
      rw [← pendingStatus_units (u := u) hunits]
      simp [pendingStatus, ReloadOp.status?, hn]

/-- **A call or a step keeps what is known right.** -/
theorem replayed_call {c : Call} (hsound : Sound w) (htidy : Tidy w) (h : Replayed π u w)
    (hput : PutIn π w c) (hs : w.call c = some w') : Replayed π u w' := by
  cases c with
  | insertLoaded name lu =>
    obtain ⟨hl, rfl⟩ := ifFree_eq hs
    exact replayed_insertLoaded h hl fun st => hput name lu rfl st
  | daemonReload paths =>
    obtain ⟨hl, rfl⟩ := ifFree_eq hs
    exact replayed_daemonReload h hl
  | other l =>
    by_cases hr : l = .reloadStep
    · subst hr
      obtain ⟨hl, rfl⟩ | ⟨op, rest, hl, ho⟩ := reloadStep_cases hs
      · unfold Replayed shown at h ⊢
        rw [reloading_of_lock hl] at h
        exact h
      · exact replayed_reloadOp h (htidy.queued _ (reloading_of_lock hl)) hl ho
    · have hd : ∀ disk, l ≠ .daemonReload disk := by
        rintro disk rfl
        exact absurd hs (by simp [call])
      have hl : w.step l = some w' := by
        cases l with
        | daemonReload disk => exact absurd rfl (hd disk)
        | _ => exact hs
      obtain ⟨new, he, hshown, hmarks⟩ := tells_step (u := u) hsound hl hd hr
      have hreg := sameRegistry_step hl hd hr
      have hnew := not_mem_of_sameRegistry (e := .unitNew u) hreg he rfl
      have hre := reloading_step hl hd hr
      unfold Replayed
      rw [he, replay_append, hshown, hre]
      obtain hk | ⟨hk, hin, hp⟩ := h
      · rw [map_shown] at hk ⊢
        rw [← replay_of_tell hnew]
        exact Or.inl (replay_congr hk)
      · -- nothing is marked while the unit waits
        have hbusy : w.reloading ≠ none := by
          intro hidle
          rw [hidle] at hp
          exact hp rfl
        have hquiet := tell_of_unmarked (u := u)
          (not_mem_of_sameRegistry (e := .unitRemoved u) hreg he rfl)
          fun a s hm => hbusy (hmarks a s hm)
        have hnone := replay_of_tell hnew none
        rw [hquiet, Option.map_none] at hnone
        rw [hk, hquiet]
        exact Or.inr ⟨hnone, hin, hp⟩

/-- What holds of every run. -/
theorem replayed_run {b : Bool} {cs : List Call} (hput : Along call (PutIn π) (newManager b) cs)
    (hrun : runs call (newManager b) cs = some w) (u : UnitName) : Replayed π u w := by
  have hfresh : Sound (newManager b) :=
    sound_of_idle (fun u r hu => absurd hu (by simp [newManager])) rfl rfl
  have hw := runs_inv (P := fun v => Sound v ∧ Tidy v ∧ Replayed π u v)
    (fun v c v' hv hc hs => ⟨sound_call hv.1 hs, tidy_call hv.2.1 hs,
      replayed_call hv.1 hv.2.1 hv.2.2 hc hs⟩)
    ⟨hfresh, tidy_newManager b, (replayed_of_idle rfl).mpr rfl⟩ hput hrun
  exact hw.2.2

end Replayed

/-- **The events of a run, replayed, give the state of every unit** whenever no reload is in
progress. -/
theorem replay_run {b : Bool} {cs : List Call} (hput : Along call (PutIn id) (newManager b) cs)
    (hrun : runs call (newManager b) cs = some w) (hidle : w.reloading = none) (u : UnitName) :
    replay u w.mgr.events = (w.mgr.status.get? u).map UnitStatus.active := by
  have hw := (replayed_of_idle hidle).mp (replayed_run hput hrun u)
  rw [Option.map_id_fun, id] at hw
  exact hw

/-- A service that is put in and started, and put in again by a reload. -/
def startedKeepRun : List Call :=
  [.insertLoaded serviceName loadedService, .other (.startUnit serviceName),
    .daemonReload [⟨serviceName, some loadedService⟩], .other .reloadStep, .other .reloadStep,
    .other .reloadStep, .other .reloadStep, .other .reloadStep, .other .reloadStep,
    .other .reloadStep]

theorem replay_run_startedKeep : ∃ w, runs call (newManager true) startedKeepRun = some w ∧
    replay serviceName w.mgr.events = (w.mgr.status.get? serviceName).map UnitStatus.active := by
  have hstate : (runs call (newManager true) startedKeepRun).map reloading = some none := rfl
  obtain ⟨w, hw, hidle⟩ := Option.map_eq_some_iff.mp hstate
  have hput : Along call (PutIn id) (newManager true) startedKeepRun := by
    refine ⟨?_, fun w' _ => ?_⟩
    · intro name lu _ st hst
      exact absurd hst (by simp [newManager])
    refine Along.imp (A := fun _ c => ∀ name lu, c ≠ .insertLoaded name lu) ?_
      (Along.of_labels (by simp))
    intro v c hc name lu he
    exact absurd he (hc name lu)
  exact ⟨w, hw, replay_run hput hw hidle serviceName⟩

end World

end Systeml.Runtime
