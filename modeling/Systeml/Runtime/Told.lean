import Systeml.Runtime.Unknown
import Systeml.Runtime.Rest

/-!
# What the events tell

Whoever follows the manager by its events sees the states of the units that are no
services: a change is told, in the order of the changes (`follows_call`). Two things are
not: a unit that is put in starts as inactive, and a unit that a reload puts in again
keeps its state while it has no status (`World.shown`).
-/

namespace Systeml.Runtime

open Systeml.Lib Systeml.Unit Systeml.Deps

/-- A state and a sub-state. -/
abbrev Shown := ActiveState × SubState

def UnitStatus.shown (st : UnitStatus) : Shown := (st.active, st.sub)

/-- What is known of a unit after an event. -/
def UnitEvent.tell (u : UnitName) (o : Option Shown) : UnitEvent → Option Shown
  | .stateChanged n a s => if n = u then o.map fun _ => (a, s) else o
  | .unitRemoved n => if n = u then none else o
  | _ => o

/-- The status that a step of a reload puts in. -/
def ReloadOp.status? (u : UnitName) : ReloadOp → Option UnitStatus
  | .install n _ st _ => if n = u then some st else none
  | _ => none

/-- The status that is about to be put in. -/
def pendingStatus (ops : List ReloadOp) (u : UnitName) : Option UnitStatus :=
  ops.findSome? (ReloadOp.status? u)

namespace World

variable {w w' v : World} {u n : UnitName}

/-- What a unit shows, also while a reload has taken its status out. -/
def shown (w : World) (u : UnitName) : Option Shown :=
  ((pendingStatus (w.reloading.getD []) u).or (w.mgr.status.get? u)).map UnitStatus.shown

theorem shown_of_idle (h : w.reloading = none) (u : UnitName) :
    w.shown u = (w.mgr.status.get? u).map UnitStatus.shown := by
  unfold shown
  rw [h]
  rfl

theorem shown_congr (hm : w'.mgr.status.get? u = w.mgr.status.get? u)
    (hr : w'.reloading = w.reloading) : w'.shown u = w.shown u := by
  unfold shown
  rw [hm, hr]

/-- The events from `w` to `w'` tell what became of the unit; it was marked as `P` allows. -/
def Told (P : Shown → Prop) (u : UnitName) (w w' : World) : Prop :=
  ∃ new, w'.mgr.events = w.mgr.events ++ new ∧
    w'.shown u = new.foldl (UnitEvent.tell u) (w.shown u) ∧
    ∀ a s, .stateChanged u a s ∈ new → P (a, s)

section Told

variable {P : Shown → Prop}

theorem told_refl (w : World) : Told P u w w :=
  ⟨[], (List.append_nil _).symm, rfl, fun _ _ h => absurd h List.not_mem_nil⟩

theorem Told.trans (h : Told P u w v) (h' : Told P u v w') : Told P u w w' := by
  obtain ⟨new, he, hs, hp⟩ := h
  obtain ⟨new', he', hs', hp'⟩ := h'
  refine ⟨new ++ new', ?_, ?_, ?_⟩
  · rw [he', he, List.append_assoc]
  · rw [hs', hs, List.foldl_append]
  · intro a s hm
    exact (List.mem_append.mp hm).elim (hp a s) (hp' a s)

/-- Neither the manager nor its lock has changed for the unit. -/
theorem told_of_same (hm : w'.mgr = w.mgr) (hr : w'.reloading = w.reloading) : Told P u w w' :=
  ⟨[], by rw [hm, List.append_nil], shown_congr (by rw [hm]) hr,
    fun _ _ h => absurd h List.not_mem_nil⟩

/-- An event that tells of no state. -/
theorem told_emit (m : Manager) {e : UnitEvent} (he : ∀ o, e.tell u o = o)
    (hstate : e.isState = false) :
    Told P u { w with mgr := m } { w with mgr := m.emit e } := by
  refine ⟨[e], rfl, (he _).symm, ?_⟩
  intro a s hm
  rw [← List.mem_singleton.mp hm] at hstate
  exact absurd hstate (by simp [UnitEvent.isState])

/-- A unit is marked, and told to be. -/
theorem told_mark (m : Manager) (a : ActiveState) (s : SubState)
    (hidle : n = u → w.reloading = none) (hp : n = u → P (a, s)) :
    Told P u { w with mgr := m } { w with mgr := m.markState n a s } := by
  refine ⟨[.stateChanged n a s], rfl, ?_, ?_⟩
  · show _ = if n = u then _ else _
    by_cases hn : n = u
    · subst hn
      rw [if_pos rfl, shown_of_idle (w := { w with mgr := m.markState n a s }) (hidle rfl),
        shown_of_idle (w := { w with mgr := m }) (hidle rfl), Manager.markState_status, if_pos rfl,
        Option.map_map, Option.map_map]
      rfl
    · rw [if_neg hn]
      refine shown_congr ?_ rfl
      rw [Manager.markState_status, if_neg fun he => hn he.symm]
  · intro b t hm
    obtain ⟨rfl, rfl, rfl⟩ := UnitEvent.stateChanged.inj (List.mem_singleton.mp hm)
    exact hp rfl

/-- A job is announced, or reported as over. -/
theorem told_job {m : Manager} (h : Told P u w { w with mgr := m }) (id : JobId) (o : JobOutcome) :
    Told P u w { w with mgr := m.emit (.jobRemoved id n o) } :=
  h.trans (told_emit m (fun _ => rfl) rfl)

theorem told_newJob (w : World) (n : UnitName) (k : JobType) :
    Told P u w { w with mgr := (w.mgr.newJob n k).2 } :=
  told_emit (e := .jobNew w.mgr.allocJobId.1 n k) w.mgr.allocJobId.2 (fun _ => rfl) rfl

theorem spawnTask_told (w : World) (k : TaskKind) (n : UnitName) (r : RunnerId) :
    Told P u w (w.spawnTask k n r) := by
  refine told_of_same (spawnTask_mgr w k n r) ?_
  unfold reloading
  rw [spawnTask_lock]

theorem spawnLocked_told (w : World) (k : TaskKind) (n : UnitName) (r : RunnerId)
    (hl : w.lock = .free) : Told P u w (w.spawnLocked k n r) :=
  told_of_same (spawnLocked_mgr w k n r)
    ((spawnLocked_reloading w k n r hl).trans (reloading_of_free hl).symm)

/-- A service that is started is no other unit. -/
theorem told_spawnServiceStart {m : Manager} (h : Told P u w { w with mgr := m }) (hn : n ≠ u) :
    Told P u w { w with mgr := (m.spawnServiceStart n).1 } := by
  unfold Manager.spawnServiceStart
  split
  · exact h
  · exact h.trans (told_mark m _ _ (fun he => absurd he hn) fun he => absurd he hn)

theorem told_startUnit (hu : u.kind ≠ .service) (hl : w.lock = .free)
    (hp : n = u → P (.active, Manager.startedSub u.kind)) : Told P u w (w.startUnit n) := by
  have hstart : Told P u w { w with mgr := (w.mgr.startUnit n).mgr } := by
    have hjob := told_newJob (P := P) (u := u) w n .start
    simp only [Manager.startUnit]
    split
    next hk => exact told_spawnServiceStart hjob fun he => hu (he ▸ hk)
    next =>
      -- what is no service is up as soon as it is asked for
      refine told_job (hjob.trans (told_mark _ _ _ (fun _ => reloading_of_free hl) ?_)) _ _
      intro he
      exact he ▸ hp he
  simp only [startUnit]
  split
  · exact hstart.trans (spawnTask_told _ _ _ _)
  · exact hstart

theorem told_act (w : World) {t : Task} (ht : t.unit ≠ u) (a : Act) : Told P u w (w.act t a) := by
  have hrefl : Told P u w { w with mgr := w.mgr } := told_refl w
  cases a with
  | spawn pid main | kill k | reap p => exact told_of_same rfl rfl
  | mark a s =>
    exact told_mark w.mgr a s (fun he => absurd he ht) fun he => absurd he ht
  | supervise =>
    simp only [act]
    split
    · exact spawnTask_told _ _ _ _
    · exact hrefl
  | respawn =>
    have hstart := told_spawnServiceStart hrefl ht
    simp only [act, respawn]
    split
    next heq _ =>
      rw [heq] at hstart
      exact hstart.trans (spawnTask_told _ _ _ _)
    next heq _ =>
      rw [heq] at hstart
      exact hstart
  | jobRemoved o =>
    simp only [act]
    split
    · exact told_job hrefl _ _
    · exact hrefl

end Told

/-! ## Runners and tasks are for services -/

/-- A task is for a unit that had one, or that has a runner. -/
theorem unit_known {l : Label} (hs : w.step l = some w') :
    ∀ t' ∈ w'.tasks, (∃ t ∈ w.tasks, t.unit = t'.unit) ∨
      ∃ r, w.mgr.services.get? t'.unit = some r := by
  have hrequest : ∀ {kind n}, l.call w.mgr.allocJobId.1 = some (kind, n) → ∀ t' ∈ w'.tasks,
      (∃ t ∈ w.tasks, t.unit = t'.unit) ∨ ∃ r, w.mgr.services.get? t'.unit = some r := by
    intro kind n hcall t' ht'
    obtain ⟨-, ⟨he, -⟩ | ⟨q, hq, ⟨R, -, he⟩, -⟩⟩ := request_tasks hcall hs
    · exact Or.inl ⟨t', he ▸ ht', rfl⟩
    · rw [he] at ht'
      cases List.mem_append.mp ht' with
      | inl hm => exact Or.inl ⟨t', hm, rfl⟩
      | inr hm =>
        obtain rfl := List.mem_singleton.mp hm
        exact Or.inr ⟨q, hq⟩
  cases l with
  | startUnit n | stopUnit n | restartUnit n | reloadUnit n | fire timer n => exact hrequest rfl
  | daemonReload disk =>
    obtain ⟨-, rfl⟩ := ifFree_eq hs
    exact fun t' ht' => Or.inl ⟨t', ht', rfl⟩
  | reloadStep =>
    obtain ⟨-, rfl⟩ | ⟨op, rest, -, ho⟩ := reloadStep_cases hs
    · exact fun t' ht' => Or.inl ⟨t', ht', rfl⟩
    · exact fun t' ht' => Or.inl ⟨t', reloadOp_tasks ho ▸ ht', rfl⟩
  | exit p =>
    obtain rfl := Option.some.inj hs
    exact fun t' ht' => Or.inl ⟨t', ht', rfl⟩
  | task i resp =>
    obtain ⟨t, op, rest, R, reply, ht, -, -, -, rfl⟩ := runTask_cases hs
    have hmem := List.mem_of_getElem? ht
    refine foldl_act_inv (P := fun v => ∀ t' ∈ v.tasks, (∃ t ∈ w.tasks, t.unit = t'.unit) ∨
      ∃ r, w.mgr.services.get? t'.unit = some r) (fun v a _ hv => ?_) ?_
    · have happend : ∀ {s : Task}, s.unit = t.unit → ∀ t' ∈ v.tasks ++ [s],
          (∃ t ∈ w.tasks, t.unit = t'.unit) ∨ ∃ r, w.mgr.services.get? t'.unit = some r :=
        fun hunit => forall_mem_append hv (Or.inl ⟨t, hmem, hunit.symm⟩)
      obtain he | ⟨-, _, -, he⟩ | ⟨-, _, _, -, -, _, -, he⟩ := act_tasks v t a
      · exact he ▸ hv
      · exact he ▸ happend rfl
      · exact he ▸ happend rfl
    · exact forall_mem_set (fun t' ht' => Or.inl ⟨t', ht', rfl⟩) (Or.inl ⟨t, hmem, rfl⟩)

/-- The unit that a reload is just putting in, after what it still copies for it, and the
units that it has still to apply. -/
def Queued (ops : List ReloadOp) : Prop :=
  ∃ front rest, ops = front ++ rest ∧ (∀ op ∈ rest, ∃ n spec, op = .unit n spec) ∧
    (front = [] ∨ ∃ copies n spec st new, front = copies ++ [.install n spec st new] ∧
      ∀ c ∈ copies, ReloadOp.isCopy c = true)

/-- Only services have runners and tasks, and a reload puts in one unit after the other. -/
structure Tidy (w : World) : Prop where
  tasks : ∀ t ∈ w.tasks, t.unit.kind = .service
  services : ∀ u ∈ w.mgr.services.keys, u.kind = .service
  fits : ∀ ops, w.reloading = some ops → ∀ op ∈ ops, op.Fits
  queued : ∀ ops, w.reloading = some ops → Queued ops

/-- What the next step of a reload is. -/
theorem Queued.cases {op : ReloadOp} {rest : List ReloadOp} (h : Queued (op :: rest)) :
    ((∃ n spec, op = .unit n spec) ∧ ∀ op ∈ rest, ∃ n spec, op = .unit n spec) ∨
    (op.isCopy = true ∧ Queued rest) ∨
    ((∃ n spec st new, op = .install n spec st new) ∧
      ∀ op ∈ rest, ∃ n spec, op = .unit n spec) := by
  obtain ⟨front, units, hops, hunits, rfl | ⟨copies, n, spec, st, new, rfl, hcopies⟩⟩ := h
  · rw [List.nil_append] at hops
    subst hops
    exact Or.inl ⟨hunits op List.mem_cons_self,
      fun op hop => hunits op (List.mem_cons_of_mem _ hop)⟩
  · cases copies with
    | nil =>
      obtain ⟨rfl, rfl⟩ := List.cons.inj hops
      exact Or.inr (Or.inr ⟨⟨n, spec, st, new, rfl⟩, hunits⟩)
    | cons c copies =>
      obtain ⟨rfl, rfl⟩ := List.cons.inj hops
      exact Or.inr (Or.inl ⟨hcopies op List.mem_cons_self, copies ++ [.install n spec st new],
        units, rfl, hunits, Or.inr ⟨copies, n, spec, st, new, rfl,
          fun c hc => hcopies c (List.mem_cons_of_mem _ hc)⟩⟩)

theorem queued_units {ops : List ReloadOp} (h : ∀ op ∈ ops, ∃ n spec, op = .unit n spec) :
    Queued ops := ⟨[], ops, rfl, h, Or.inl rfl⟩

/-- Units that are still to be applied have no status waiting for them. -/
theorem pendingStatus_units {ops : List ReloadOp} (h : ∀ op ∈ ops, ∃ n spec, op = .unit n spec) :
    pendingStatus ops u = none := by
  refine List.findSome?_eq_none_iff.mpr fun op hop => ?_
  obtain ⟨n, spec, rfl⟩ := h op hop
  rfl

theorem pendingStatus_copies {copies rest : List ReloadOp}
    (h : ∀ c ∈ copies, ReloadOp.isCopy c = true) :
    pendingStatus (copies ++ rest) u = pendingStatus rest u := by
  have hnone : copies.findSome? (ReloadOp.status? u) = none := by
    refine List.findSome?_eq_none_iff.mpr fun op hop => ?_
    have hcopy := h op hop
    cases op with
    | unit n spec | install n spec st new => exact absurd hcopy (by simp [ReloadOp.isCopy])
    | _ => rfl
  unfold pendingStatus
  rw [List.findSome?_append, hnone]
  rfl

theorem Queued.tail {op : ReloadOp} {rest : List ReloadOp} (h : Queued (op :: rest)) :
    Queued rest := by
  obtain ⟨-, hunits⟩ | ⟨-, hq⟩ | ⟨-, hunits⟩ := h.cases
  · exact queued_units hunits
  · exact hq
  · exact queued_units hunits

theorem queued_reloadOp {op : ReloadOp} {rest : List ReloadOp} (h : Queued (op :: rest))
    (hs : w.reloadOp rest op = some w') : ∃ ops', w'.reloading = some ops' ∧ Queued ops' := by
  obtain ⟨n, spec, copies, st, new, rfl, hcopy, -, -, hl'⟩ | ⟨hcopy, -, hl'⟩ |
    ⟨n, spec, st, new, rfl, -, hl'⟩ := reloadOp_cases hs
  · refine ⟨_, reloading_of_lock hl', ?_⟩
    obtain ⟨-, hunits⟩ | ⟨hc, -⟩ | ⟨⟨_, _, _, _, he⟩, -⟩ := h.cases
    · exact ⟨copies ++ [.install n spec st new], rest, by simp, hunits,
        Or.inr ⟨copies, n, spec, st, new, rfl, hcopy⟩⟩
    · exact absurd hc (by simp [ReloadOp.isCopy])
    · exact absurd he (by simp)
  · exact ⟨rest, reloading_of_lock hl', h.tail⟩
  · exact ⟨rest, reloading_of_lock hl', h.tail⟩

theorem tidy_reloadOp {op : ReloadOp} {rest : List ReloadOp} (h : Tidy w)
    (hl : w.lock = .reload (op :: rest)) (hs : w.reloadOp rest op = some w') : Tidy w' := by
  have hops := reloading_of_lock hl
  have hfits := h.fits _ hops
  obtain ⟨ops', hops', hq⟩ := queued_reloadOp (h.queued _ hops) hs
  have hqueued : ∀ ops, w'.reloading = some ops → Queued ops := by
    intro ops ho
    obtain rfl := Option.some.inj (hops'.symm.trans ho)
    exact hq
  have hrest : ∀ o ∈ rest, o.Fits := fun o ho => hfits o (List.mem_cons_of_mem _ ho)
  refine ⟨reloadOp_tasks hs ▸ h.tasks, ?_, ?_, hqueued⟩
  · obtain ⟨n, spec, copies, st, new, rfl, -, -, hm, -⟩ | ⟨-, hm, -⟩ |
      ⟨n, spec, st, new, rfl, hm, -⟩ := reloadOp_cases hs
    · exact hm ▸ h.services
    · exact hm ▸ h.services
    · intro u hu
      rw [hm, mem_services_install] at hu
      obtain ⟨rfl, hnew⟩ | hu := hu
      · exact (hfits (.install u spec st new) List.mem_cons_self).mp hnew
      · exact h.services u hu
  · intro ops ho o hmem
    obtain ⟨n, spec, copies, st, new, rfl, hcopy, hnew, -, hl'⟩ | ⟨-, -, hl'⟩ |
      ⟨n, spec, st, new, rfl, -, hl'⟩ := reloadOp_cases hs
    · obtain rfl := Option.some.inj ((reloading_of_lock hl').symm.trans ho)
      rcases List.mem_append.mp hmem with hm | hm
      · exact fits_of_isCopy (hcopy o hm)
      · rcases List.mem_cons.mp hm with rfl | hm
        · exact hnew.trans (hfits (.unit n spec) List.mem_cons_self).service_iff
        · exact hrest o hm
    · obtain rfl := Option.some.inj ((reloading_of_lock hl').symm.trans ho)
      exact hrest o hmem
    · obtain rfl := Option.some.inj ((reloading_of_lock hl').symm.trans ho)
      exact hrest o hmem

/-- Nothing is in flight that was not, and no reload. -/
theorem Tidy.of_idle (h : Tidy w) (htasks : w'.tasks = w.tasks)
    (hservices : ∀ u ∈ w'.mgr.services.keys, u.kind = .service) (hidle : w'.reloading = none) :
    Tidy w' :=
  ⟨htasks ▸ h.tasks, hservices, fun ops ho => absurd (hidle.symm.trans ho) (by simp),
    fun ops ho => absurd (hidle.symm.trans ho) (by simp)⟩

theorem tidy_newManager (b : Bool) : Tidy (newManager b) :=
  ⟨fun _ h => absurd h List.not_mem_nil, fun _ h => absurd h List.not_mem_nil,
    fun _ h => absurd h (by simp [reloading, newManager, Lock.pending]),
    fun _ h => absurd h (by simp [reloading, newManager, Lock.pending])⟩

theorem tidy_call {c : Call} (h : Tidy w) (hs : w.call c = some w') : Tidy w' := by
  obtain ⟨name, lu, rfl, hl, rfl⟩ | ⟨paths, rfl, hl, rfl⟩ | ⟨rfl, hr⟩ | ⟨l, rfl, hreg, hre⟩ :=
    call_cases hs
  · refine h.of_idle ?_ ?_ (reloading_of_free ((insertLoaded_lock w name lu).trans hl))
    · unfold insertLoaded
      split <;> rfl
    · unfold insertLoaded
      split
      next svc hk =>
        intro u hu
        cases IndexMap.mem_keys_insert.mp hu with
        | inl he => exact he ▸ lu.fits.service_iff.mp ⟨svc, hk⟩
        | inr hu => exact h.services u hu
      next => exact h.services
  · refine ⟨h.tasks, ?_, ?_, ?_⟩
    · intro u hu
      rw [daemonReload_mgr] at hu
      exact h.services u (((foldl_dropUnit _ _).2.2.1 u).mp hu).2
    · intro ops ho op hop
      obtain rfl := Option.some.inj ((reloading_of_lock rfl).symm.trans ho)
      obtain ⟨e, he, rfl⟩ := List.mem_map.mp hop
      exact fits_newUnits he
    · intro ops ho
      obtain rfl := Option.some.inj ((reloading_of_lock rfl).symm.trans ho)
      refine queued_units fun op hop => ?_
      obtain ⟨e, -, rfl⟩ := List.mem_map.mp hop
      exact ⟨e.1, e.2, rfl⟩
  · obtain ⟨-, rfl⟩ | ⟨op, rest, hl, ho⟩ := reloadStep_cases hr
    · exact h.of_idle rfl h.services rfl
    · exact tidy_reloadOp h hl ho
  · have hl : w.step l = some w' := by
      cases l with
      | daemonReload disk => exact absurd hs (by simp [call])
      | _ => exact hs
    refine ⟨?_, hreg.services ▸ h.services, hre ▸ h.fits, hre ▸ h.queued⟩
    intro t' ht'
    obtain ⟨t, ht, he⟩ | ⟨r, hr⟩ := unit_known hl t' ht'
    · exact he ▸ h.tasks t ht
    · exact h.services _ (IndexMap.mem_keys.mpr ⟨r, hr⟩)

/-! ## What a step tells -/

/-- How a unit that is no service is marked: as dead, or as started where it was asked for. -/
def Marks (l : Label) (u : UnitName) (x : Shown) : Prop :=
  x = (.inactive, .dead) ∨ (x = (.active, Manager.startedSub u.kind) ∧ l.asks TaskKind.starts u)

theorem told_step {l : Label} (h : Tidy w) (hu : u.kind ≠ .service) (hs : w.step l = some w')
    (hf : ∀ timer target, l ≠ .fire timer target) (hd : ∀ disk, l ≠ .daemonReload disk)
    (hr : l ≠ .reloadStep) : Told (Marks l u) u w w' := by
  cases l with
  | startUnit n =>
    obtain ⟨hl, rfl⟩ := ifFree_eq hs
    refine told_startUnit hu hl fun he => Or.inr ⟨rfl, w.mgr.allocJobId.1,
      .start w.mgr.allocJobId.1, ?_, rfl⟩
    rw [← he]
    rfl
  | stopUnit n =>
    obtain ⟨hl, rfl⟩ := ifFree_eq hs
    have hjob := told_newJob (P := Marks (.stopUnit n) u) (u := u) w n .stop
    simp only [stopUnit]
    split
    · exact hjob.trans (spawnLocked_told _ _ _ _ hl)
    · exact told_job (hjob.trans (told_mark _ _ _ (fun _ => reloading_of_free hl)
        fun _ => Or.inl rfl)) _ _
  | restartUnit n =>
    obtain ⟨hl, rfl⟩ := ifFree_eq hs
    have hjob := told_newJob (P := Marks (.restartUnit n) u) (u := u) w n .restart
    simp only [restartUnit]
    split
    · exact hjob.trans (spawnLocked_told _ _ _ _ hl)
    · have hstop := hjob.trans (told_mark (n := n) (w.mgr.newJob n .restart).2 .inactive .dead
        (fun _ => reloading_of_free hl) fun _ => Or.inl rfl)
      split
      · exact hstop
      · refine told_job (hstop.trans (told_mark _ _ _ (fun _ => reloading_of_free hl) ?_)) _ _
        intro he
        refine Or.inr ⟨by rw [he], w.mgr.allocJobId.1, .restart w.mgr.allocJobId.1, ?_, rfl⟩
        rw [← he]
        rfl
  | reloadUnit n =>
    obtain ⟨hl, rfl⟩ := ifFree_eq hs
    have hjob := told_newJob (P := Marks (.reloadUnit n) u) (u := u) w n .reload
    simp only [reloadUnit]
    split
    · exact hjob.trans (spawnLocked_told _ _ _ _ hl)
    · exact told_job hjob _ _
  | fire timer target => exact absurd rfl (hf timer target)
  | daemonReload disk => exact absurd rfl (hd disk)
  | reloadStep => exact absurd rfl hr
  | task i resp =>
    have hre := reloading_step hs hd hr
    obtain ⟨t, op, rest, R, reply, ht, -, -, -, rfl⟩ := runTask_cases hs
    -- a task is for a service, and so for another unit
    have hne : t.unit ≠ u := fun he => hu (he ▸ h.tasks t (List.mem_of_getElem? ht))
    refine foldl_act_inv (P := fun v => Told (Marks (.task i resp) u) u w v)
      (fun v a _ hv => hv.trans (told_act v hne a)) (told_of_same rfl ?_)
    unfold reloading at hre ⊢
    rw [foldl_act_lock] at hre
    exact hre
  | exit p =>
    obtain rfl := Option.some.inj hs
    exact told_of_same rfl rfl

end World

/-! ## What is to be seen of it -/

/-- The event tells that the unit is not active, or gone. -/
def UnitEvent.drops (u : UnitName) : UnitEvent → Bool
  | .stateChanged n a _ => n = u && a ≠ .active
  | .unitRemoved n => n = u
  | _ => false

/-- An active unit stays active until an event tells otherwise. -/
theorem tell_stays {u : UnitName} {new : List UnitEvent} {o : Option Shown} {s : SubState}
    (h : ∀ e ∈ new, e.drops u = false) (ho : o = some (.active, s)) :
    ∃ s', new.foldl (UnitEvent.tell u) o = some (.active, s') := by
  induction new generalizing o s with
  | nil => exact ⟨s, ho⟩
  | cons e new ih =>
    have he := h e List.mem_cons_self
    have hstep : ∃ s', e.tell u o = some (.active, s') := by
      subst ho
      cases e with
      | stateChanged n a t =>
        by_cases hn : n = u
        · have ha : a = .active := by simpa [UnitEvent.drops, hn] using he
          exact ⟨t, by simp [UnitEvent.tell, hn, ha]⟩
        · exact ⟨s, by simp [UnitEvent.tell, hn]⟩
      | unitRemoved n =>
        have hn : n ≠ u := by simpa [UnitEvent.drops] using he
        exact ⟨s, by simp [UnitEvent.tell, hn]⟩
      | unitNew n | jobNew id n k | jobRemoved id n o => exact ⟨s, rfl⟩
    obtain ⟨s', hs'⟩ := hstep
    exact ih (fun e he => h e (List.mem_cons_of_mem _ he)) hs'

/-- A unit is as before, or as it was marked. -/
theorem tell_comes {u : UnitName} {new : List UnitEvent} {o : Option Shown} {x : Shown}
    (h : new.foldl (UnitEvent.tell u) o = some x) :
    o = some x ∨ (o ≠ none ∧ .stateChanged u x.1 x.2 ∈ new) := by
  induction new generalizing o with
  | nil => exact Or.inl h
  | cons e new ih =>
    have hstep : e.tell u o = o ∨ e.tell u o = none ∨
        (o ≠ none ∧ ∃ a s, e = .stateChanged u a s ∧ e.tell u o = some (a, s)) := by
      cases e with
      | stateChanged n a s =>
        by_cases hn : n = u
        · subst hn
          cases o with
          | none => exact Or.inl (by simp [UnitEvent.tell])
          | some y => exact Or.inr (Or.inr ⟨by simp, a, s, rfl, by simp [UnitEvent.tell]⟩)
        · exact Or.inl (by simp [UnitEvent.tell, hn])
      | unitRemoved n =>
        by_cases hn : n = u
        · exact Or.inr (Or.inl (by simp [UnitEvent.tell, hn]))
        · exact Or.inl (by simp [UnitEvent.tell, hn])
      | unitNew n | jobNew id n k | jobRemoved id n o => exact Or.inl rfl
    rw [List.foldl_cons] at h
    obtain hx | ⟨hne, hm⟩ := ih h
    · obtain he | he | ⟨hne, a, s, rfl, he⟩ := hstep
      · exact Or.inl (he ▸ hx)
      · rw [he] at hx
        exact absurd hx (by simp)
      · obtain rfl := Option.some.inj (he.symm.trans hx)
        exact Or.inr ⟨hne, List.mem_cons_self⟩
    · refine Or.inr ⟨?_, List.mem_cons_of_mem _ hm⟩
      rintro rfl
      obtain he | he | ⟨hno, -⟩ := hstep
      · exact hne he
      · exact hne he
      · exact hno rfl

namespace World

variable {w w' : World} {u : UnitName}

/-- What a step of others means for a unit that is no service. `new` are the events sent. -/
structure Follows (c : Call) (u : UnitName) (w w' : World) (new : List UnitEvent) : Prop where
  stays : ∀ s, w.shown u = some (.active, s) → (∀ e ∈ new, e.drops u = false) →
    (∀ lu, c ≠ .insertLoaded u lu) → ∃ s', w'.shown u = some (.active, s')
  comes : ∀ s, w'.shown u = some (.active, s) → w.shown u = some (.active, s) ∨
    (w.shown u ≠ none ∧ s = Manager.startedSub u.kind ∧
      ∃ l, c = .other l ∧ l.asks TaskKind.starts u)
  plain : ∀ a s, .stateChanged u a s ∈ new → a = .active ∨ a = .inactive

theorem follows_of_told {l : Label} (h : Told (Marks l u) u w w') :
    ∃ new, w'.mgr.events = w.mgr.events ++ new ∧ Follows (.other l) u w w' new := by
  obtain ⟨new, he, hs, hp⟩ := h
  refine ⟨new, he, ?_, ?_, ?_⟩
  · intro s hw hnew _
    rw [hs]
    exact tell_stays hnew hw
  · intro s hw
    rw [hs] at hw
    obtain hw | ⟨hne, hm⟩ := tell_comes hw
    · exact Or.inl hw
    · obtain hx | ⟨hx, hasks⟩ := hp _ _ hm
      · exact absurd (Prod.mk.inj hx).1 (by simp)
      · exact Or.inr ⟨hne, (Prod.mk.inj hx).2, l, rfl, hasks⟩
  · intro a s hm
    obtain hx | ⟨hx, -⟩ := hp _ _ hm
    · exact Or.inr (Prod.mk.inj hx).1
    · exact Or.inl (Prod.mk.inj hx).1

/-- Nothing of it is to be seen of an active unit: it comes in, or comes back. -/
theorem follows_of_put {c : Call} {new : List UnitEvent}
    (h : w'.shown u = w.shown u ∨ (((∀ s, w.shown u ≠ some (.active, s)) ∨
      ∃ lu, c = .insertLoaded u lu) ∧ ∀ s, w'.shown u ≠ some (.active, s)))
    (hnew : ∀ a s, .stateChanged u a s ∉ new) : Follows c u w w' new := by
  refine ⟨?_, ?_, fun a s hm => absurd hm (hnew a s)⟩
  · intro s hw _ hput
    obtain he | ⟨hno | ⟨lu, hlu⟩, -⟩ := h
    · exact ⟨s, he.trans hw⟩
    · exact absurd hw (hno s)
    · exact absurd hlu (hput lu)
  · intro s hw
    obtain he | ⟨-, hno⟩ := h
    · exact Or.inl (he ▸ hw)
    · exact absurd hw (hno s)

theorem insertLoaded_mgr (w : World) (name : UnitName) (lu : LoadedUnit name) :
    (w.insertLoaded name lu).mgr.events = w.mgr.events ++ [.unitNew name] ∧
      (w.insertLoaded name lu).mgr.status = w.mgr.status.insert name
        { unit := some name, load := .loaded, active := .inactive, sub := .dead
          description := lu.unit.description } := by
  unfold insertLoaded
  split <;> exact ⟨rfl, rfl⟩

theorem follows_insertLoaded {name : UnitName} {lu : LoadedUnit name} (hl : w.lock = .free) :
    Follows (.insertLoaded name lu) u w (w.insertLoaded name lu) [.unitNew name] := by
  have hidle := reloading_of_free hl
  have hidle' := reloading_of_free ((insertLoaded_lock w name lu).trans hl)
  refine follows_of_put ?_ fun a s hm => absurd hm (by simp)
  by_cases hn : u = name
  · refine Or.inr ⟨Or.inr (by subst hn; exact ⟨lu, rfl⟩), ?_⟩
    intro s hs
    rw [shown_of_idle hidle', (insertLoaded_mgr w name lu).2, hn, IndexMap.get?_insert_self] at hs
    exact absurd hs (by simp [UnitStatus.shown])
  · refine Or.inl ?_
    rw [shown_of_idle hidle', shown_of_idle hidle, (insertLoaded_mgr w name lu).2,
      IndexMap.get?_insert_ne hn]

/-- A reload begins with dropping what is gone. -/
theorem told_dropUnit {P : Shown → Prop} (hidle : w.reloading = none) : ∀ (l : List UnitName)
    (m : Manager), Told P u { w with mgr := m } { w with mgr := l.foldl dropUnit m }
  | [], m => told_refl _
  | n :: l, m => by
    refine Told.trans (v := { w with mgr := dropUnit m n }) ?_ (told_dropUnit hidle l _)
    refine ⟨[.unitRemoved n], rfl, ?_, fun a s hm => absurd hm (by simp)⟩
    show _ = if n = u then none else _
    rw [shown_of_idle (w := { w with mgr := dropUnit m n }) hidle,
      shown_of_idle (w := { w with mgr := m }) hidle]
    by_cases hn : n = u
    · rw [if_pos hn, hn]
      show ((m.status.erase u).get? u).map _ = _
      rw [IndexMap.get?_erase_self]
      rfl
    · rw [if_neg hn]
      show ((m.status.erase n).get? u).map _ = _
      rw [IndexMap.get?_erase_ne fun he => hn he.symm]

theorem follows_daemonReload {paths : SearchPaths} (hl : w.lock = .free) :
    ∃ new, (w.daemonReload paths.disk).mgr.events = w.mgr.events ++ new ∧
      Follows (.daemonReload paths) u w (w.daemonReload paths.disk) new := by
  have hidle := reloading_of_free hl
  obtain ⟨new, he, hs, hp⟩ := told_dropUnit (P := fun _ => False) (u := u) hidle
    (gone w paths.disk) w.mgr
  have hshown : (w.daemonReload paths.disk).shown u = new.foldl (UnitEvent.tell u) (w.shown u) := by
    refine Eq.trans ?_ hs
    rw [shown_of_idle (w := { w with mgr := (gone w paths.disk).foldl dropUnit w.mgr }) hidle]
    unfold shown
    rw [reloading_of_lock rfl, Option.getD_some, pendingStatus_units, Option.none_or]
    · rfl
    · intro op hop
      obtain ⟨e, -, rfl⟩ := List.mem_map.mp hop
      exact ⟨e.1, e.2, rfl⟩
  refine ⟨new, he, ?_, ?_, fun a s hm => absurd (hp a s hm) id⟩
  · intro s hw hnew _
    rw [hshown]
    exact tell_stays hnew hw
  · intro s hw
    rw [hshown] at hw
    obtain hw | ⟨-, hm⟩ := tell_comes hw
    · exact Or.inl hw
    · exact absurd (hp _ _ hm) id

theorem reloadOp_unit {n : UnitName} {spec : UnitSpec} {rest : List ReloadOp}
    (hs : w.reloadOp rest (.unit n spec) = some w') : ∃ copies new,
      (∀ c ∈ copies, ReloadOp.isCopy c = true) ∧
      w'.mgr = { w.mgr with status := w.mgr.status.erase n } ∧
      w'.lock = .reload (copies ++ .install n spec (reloadedStatus w.mgr n spec) new :: rest) := by
  simp only [reloadOp] at hs
  split at hs
  next svc hk =>
    obtain rfl := Option.some.inj hs
    refine ⟨_, some _, ?_, rfl, rfl⟩
    intro c hc
    cases hold : w.mgr.services.get? n with
    | none =>
      rw [hold] at hc
      exact absurd hc (by simp)
    | some old =>
      rw [hold] at hc
      simp only [List.mem_cons, List.not_mem_nil, or_false] at hc
      obtain rfl | rfl | rfl | rfl := hc <;> rfl
  next hk =>
    obtain rfl := Option.some.inj hs
    exact ⟨[], none, by simp, rfl, rfl⟩

/-- A unit keeps its state through a reload; a new one is inactive. -/
theorem shown_reloadedStatus (m : Manager) (n : UnitName) (spec : UnitSpec) :
    (m.status.get? n).map UnitStatus.shown = some (reloadedStatus m n spec).shown ∨
      (m.status.get? n = none ∧ (reloadedStatus m n spec).shown = (.inactive, .unset)) := by
  unfold reloadedStatus
  cases hst : m.status.get? n with
  | none => exact Or.inr ⟨rfl, rfl⟩
  | some st => exact Or.inl rfl

/-- A reload puts a unit in again as it was, and a new one as inactive. -/
theorem shown_reloadOp {op : ReloadOp} {rest : List ReloadOp} (h : Queued (op :: rest))
    (hl : w.lock = .reload (op :: rest)) (hs : w.reloadOp rest op = some w') :
    w'.shown u = w.shown u ∨ (w.shown u = none ∧ w'.shown u = some (.inactive, .unset)) := by
  have hshown : w.shown u = ((pendingStatus (op :: rest) u).or (w.mgr.status.get? u)).map
      UnitStatus.shown := by
    unfold shown
    rw [reloading_of_lock hl, Option.getD_some]
  have hshown' : ∀ ops, w'.lock = .reload ops → w'.shown u =
      ((pendingStatus ops u).or (w'.mgr.status.get? u)).map UnitStatus.shown := by
    intro ops hl'
    unfold shown
    rw [reloading_of_lock hl', Option.getD_some]
  obtain ⟨⟨n, spec, rfl⟩, hunits⟩ | ⟨hcopy, -⟩ | ⟨⟨n, spec, st, new, rfl⟩, hunits⟩ := h.cases
  · -- the status is taken out, and what is put in later waits in the lock
    obtain ⟨copies, new, hcopies, hm, hl'⟩ := reloadOp_unit hs
    have hbefore : w.shown u = (w.mgr.status.get? u).map UnitStatus.shown := by
      have hnone : pendingStatus (.unit n spec :: rest) u = none := by
        refine pendingStatus_units fun op hop => ?_
        obtain rfl | hop := List.mem_cons.mp hop
        · exact ⟨n, spec, rfl⟩
        · exact hunits op hop
      rw [hshown, hnone, Option.none_or]
    rw [hbefore, hshown' _ hl', pendingStatus_copies hcopies, hm]
    by_cases hn : n = u
    · subst hn
      have hpend : pendingStatus (.install n spec (reloadedStatus w.mgr n spec) new :: rest) n =
          some (reloadedStatus w.mgr n spec) := by simp [pendingStatus, ReloadOp.status?]
      rw [hpend]
      obtain he | ⟨hno, he⟩ := shown_reloadedStatus w.mgr n spec
      · exact Or.inl he.symm
      · exact Or.inr ⟨by rw [hno]; rfl, congrArg some he⟩
    · have hpend : pendingStatus (.install n spec (reloadedStatus w.mgr n spec) new :: rest) u =
          none := by
        rw [← pendingStatus_units (u := u) hunits]
        simp [pendingStatus, ReloadOp.status?, hn]
      rw [hpend]
      refine Or.inl ?_
      show ((w.mgr.status.erase n).get? u).map _ = _
      rw [IndexMap.get?_erase_ne fun he => hn he.symm]
  · -- a copy between runners touches no status
    refine Or.inl ?_
    obtain ⟨_, _, _, _, _, rfl, -⟩ | ⟨-, hm, hl'⟩ | ⟨_, _, _, _, rfl, -⟩ := reloadOp_cases hs
    · exact absurd hcopy (by simp [ReloadOp.isCopy])
    · rw [hshown' _ hl', hshown, hm]
      have hone : pendingStatus ([op] ++ rest) u = pendingStatus rest u :=
        pendingStatus_copies (by simpa using hcopy)
      rw [← hone]
      rfl
    · exact absurd hcopy (by simp [ReloadOp.isCopy])
  · -- what waited in the lock is now the status
    refine Or.inl ?_
    obtain rfl := Option.some.inj hs
    rw [hshown' rest rfl, hshown, pendingStatus_units hunits]
    by_cases hn : n = u
    · subst hn
      show ((w.mgr.status.insert n st).get? n).map _ = _
      rw [IndexMap.get?_insert_self]
      simp [pendingStatus, ReloadOp.status?]
    · have hpend : pendingStatus (.install n spec st new :: rest) u = none := by
        rw [← pendingStatus_units (u := u) hunits]
        simp [pendingStatus, ReloadOp.status?, hn]
      rw [hpend]
      show ((w.mgr.status.insert n st).get? u).map _ = _
      rw [IndexMap.get?_insert_ne fun he => hn he.symm]
      rfl

theorem reloadOp_events {op : ReloadOp} {rest : List ReloadOp} (hs : w.reloadOp rest op = some w') :
    ∃ new, w'.mgr.events = w.mgr.events ++ new ∧ ∀ a s, .stateChanged u a s ∉ new := by
  obtain ⟨_, _, _, _, _, -, -, -, hm, -⟩ | ⟨-, hm, -⟩ | ⟨n, _, _, _, -, hm, -⟩ := reloadOp_cases hs
  · exact ⟨[], by rw [hm, List.append_nil], fun a s => List.not_mem_nil⟩
  · exact ⟨[], by rw [hm, List.append_nil], fun a s => List.not_mem_nil⟩
  · refine ⟨[.unitNew n], by rw [hm]; rfl, ?_⟩
    intro a s hm
    exact absurd hm (by simp)

/-- **What others do to a unit that is no service is told.** -/
theorem follows_call {c : Call} (h : Tidy w) (hu : u.kind ≠ .service) (hs : w.call c = some w')
    (hfire : ∀ timer target, c ≠ .other (.fire timer target)) :
    ∃ new, w'.mgr.events = w.mgr.events ++ new ∧ Follows c u w w' new := by
  cases c with
  | insertLoaded name lu =>
    obtain ⟨hl, rfl⟩ := ifFree_eq hs
    exact ⟨_, (insertLoaded_mgr w name lu).1, follows_insertLoaded hl⟩
  | daemonReload paths =>
    obtain ⟨hl, rfl⟩ := ifFree_eq hs
    exact follows_daemonReload hl
  | other l =>
    by_cases hr : l = .reloadStep
    · subst hr
      obtain ⟨hl, rfl⟩ | ⟨op, rest, hl, ho⟩ := reloadStep_cases hs
      · refine ⟨[], (List.append_nil _).symm, follows_of_put (Or.inl ?_) fun a s =>
          List.not_mem_nil⟩
        rw [shown_of_idle (w := { w with lock := .free }) rfl]
        unfold shown
        rw [reloading_of_lock hl]
        rfl
      · obtain ⟨new, he, hnew⟩ := reloadOp_events (u := u) ho
        refine ⟨new, he, follows_of_put ?_ hnew⟩
        have hqueued := h.queued _ (reloading_of_lock hl)
        obtain hsame | ⟨hno, hin⟩ := shown_reloadOp (u := u) hqueued hl ho
        · exact Or.inl hsame
        · exact Or.inr ⟨Or.inl (by simp [hno]), by simp [hin]⟩
    · have hd : ∀ disk, l ≠ .daemonReload disk := by
        rintro disk rfl
        exact absurd hs (by simp [call])
      have hl : w.step l = some w' := by
        cases l with
        | daemonReload disk => exact absurd rfl (hd disk)
        | _ => exact hs
      exact follows_of_told (told_step h hu hl
        (fun timer target he => hfire timer target (he ▸ rfl)) hd hr)

end World

end Systeml.Runtime
